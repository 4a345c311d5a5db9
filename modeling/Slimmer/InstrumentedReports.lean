import Slimmer.AnalysisCompletes
import Slimmer.InstrumentedTraces
import Slimmer.Naming
import Slimmer.TraceIter

/-!
# What is reported about an instrumented program

`print-bug` merges the trace, extracts the memory dependencies and sorts the executions; it names an
execution by the thread, the id of the instruction and how many later executions there are.

**Theorem (`reports_happened`).** When all threads of an instrumented program have run to completion,
the passes return, in any interleaving, and every execution that is reported took place: the thread
executed the traced instruction with that id at least that often.

The names the backward pass gives are as many as the executions it counts (`run_instCount`), which are
among the instructions of the merged blocks; `MergedSoFar` says whose instructions these are.
-/

namespace Slimmer

/-! ## The events of an instrumented program -/

section

variable {P : Program} {tid : Nat} {stk stk' : List StackInfo} {es : List Event} {ids : List Nat}

theorem Tables.At.inner {info : StackInfo} {id : Nat} {i : InstInfo} (h : P.At info id i)
    (htype : ¬ (i.type = .terminatorInst ∨ i.type = .returnInst)) : P.Inner id := by
  obtain ⟨bb, -, -, hi⟩ := h
  exact ⟨i, hi, htype⟩

/-- A step names what the tables have. -/
theorem ThreadStep.known (h : ThreadStep P tid stk es ids stk') : ∀ e ∈ es, e.Known P.toTables := by
  cases h with
  | silent | ret => simp
  | start bb hbb | call bb _ _ _ hbb | jump bb _ _ hbb => exact List.forall_mem_singleton.mpr hbb
  | @access info rest id i addr length hat ht =>
    refine List.forall_mem_singleton.mpr (.inr (hat.inner ?_))
    rintro (h | h) <;> simp [h, InstType.isAccess] at ht
  | memset _ _ hat ht | memmove _ _ _ hat ht =>
    exact List.forall_mem_singleton.mpr (hat.inner (by simp [ht]))
  | argument => exact List.forall_mem_singleton.mpr trivial
  | external _ hat ht => exact List.forall_mem_singleton.mpr (hat.inner (by simp [ht]))

theorem ThreadSteps.known (h : ThreadSteps P tid stk es ids stk') :
    ∀ e ∈ es, e.Known P.toTables := by
  induction h with
  | refl => simp
  | tail _ hstep ih => exact List.forall_mem_append.mpr ⟨ih, hstep.known⟩

/-- What an event names does not depend on its thread. -/
theorem Invocation.known_event {T : Tables} {v : Invocation} {tid' : Nat}
    (h : (v.event tid).Known T) : (v.event tid').Known T := by
  unfold Invocation.event at h ⊢
  cases hcall : v.call <;> rw [hcall] at h <;> exact h

/-- The record calls of a step name what the tables have. -/
theorem Made.known {t : UInt64} {rs : List RecordCall} (h : Made P tid stk rs ids stk')
    (localTid : UInt64 → UInt64) (mem : UInt64 → UInt8) (eval : IRValue → UInt64) :
    ∀ e ∈ recordedEvents localTid (rs.map fun r => ⟨t, mem, r.call eval⟩), e.Known P.toTables := by
  cases h with
  | quiet | silent => exact fun _ he => absurd he List.not_mem_nil
  | @event _ r _ _ _ hsteps =>
    have h := (hsteps ⟨t, mem, r.call eval⟩ eval rfl).known
    exact List.forall_mem_singleton.mpr (Invocation.known_event (List.forall_mem_singleton.mp h))
  | declare hr =>
    obtain ⟨addr, length, rfl⟩ := hr
    exact List.forall_mem_singleton.mpr (.inl (toNat_ofNat_id (by decide)))

end

section

variable {M : IRModule} {P : Program} {σ : Type*} {S : Semantics σ} {s s' : RunState σ}

/-- **The events of a run** name what the tables have. -/
theorem recordedEvents_known (hM : M.Traceable P) (hS : S.Traced) {w₀ : σ}
    (hrun : RunsTo M.instrumented S w₀ s) :
    ∀ e ∈ recordedEvents (fun _ => 0) s.calls, e.Known P.toTables := by
  induction hrun with
  | refl => exact fun _ he => absurd he List.not_mem_nil
  | tail hrun hstep ih =>
    obtain ⟨m, th, ex, h⟩ := MergedSoFar.run hM hS (fun _ => false) hrun
    cases hstep with
    | @step t rs is w stk ht hstep =>
      obtain ⟨lag, lead, hstands, -⟩ := h.stands t
      obtain ⟨ids, infos', lag', lead', hmade, -⟩ :=
        hstands.step hM hS hstep
      rw [RunState.moved, recordedEvents_append]
      exact List.forall_mem_append.mpr ⟨ih, hmade.known _ _ _⟩

end

/-! ## The names of the backward pass -/

section

variable {I : PassInput} {s s' : PassState} {b : SmallestBlock} {T : Tables}

/-- The executions that are reported have been met. -/
def PassSets.ReportsMet (t : PassSets) : Prop := ∀ d ∈ t.unneededDI, d.cnt ≤ 0 ∧ t.Visited d

theorem PassSets.ReportsMet.scanned {pos : Nat} {t t' : PassSets} (h : t.ReportsMet)
    (hscan : Scanned pos t t') : t'.ReportsMet := by
  intro d hd
  obtain ⟨hcnt, hmet⟩ := h d (hscan.unneeded hd)
  refine ⟨hcnt, ?_⟩
  unfold PassSets.Visited
  rw [hscan.instCount]
  exact hmet

theorem PassSets.ReportsMet.visit {id : Nat} {n : Bool} (h : s.ReportsMet)
    (hvisit : Visit I b s id s' n) : s'.ReportsMet := by
  obtain ⟨report, hreport, hsets⟩ := hvisit.sets
  have hmem : ∀ d ∈ s'.unneededDI, d = s.toPassSets.name b.tid id ∨ d ∈ s.unneededDI := by
    obtain ⟨-, ⟨-, hun, -⟩ | ⟨-, -, hun, -⟩⟩ := PassSets.visit_cases hreport hsets
    · exact fun d hd => .inr (hun ▸ hd)
    · exact hun
  intro d hd
  obtain rfl | hd := hmem d hd
  · refine ⟨?_, hvisit.visited.mpr (.inr rfl)⟩
    simp [PassSets.name]
  · exact ⟨(h d hd).1, hvisit.visited.mpr (.inl (h d hd).2)⟩

theorem PassSets.ReportsMet.visits {ids : List Nat} {su su' : PassState × Bool}
    (h : su.1.ReportsMet) (hvisits : Visits I b su ids su') : su'.1.ReportsMet := by
  induction hvisits with
  | nil => exact h
  | cons hvisit _ ih => exact ih (h.visit hvisit)

theorem PassSets.ReportsMet.step (h : s.ReportsMet) (hstep : extractStep I s b = some s') :
    s'.ReportsMet := by
  obtain ⟨-, rfl⟩ | ⟨htype, s₁, henter, hrest⟩ := extractStep_cases hstep
  · exact h
  have h₁ : s₁.ReportsMet := h.scanned (PassState.enter_scanned htype henter).1
  obtain ⟨-, rfl⟩ | ⟨-, s₂, used, s₃, s₄, hvisits, hmark, hleaves, rfl⟩ := hrest
  · exact h₁
  · have h₂ : s₂.ReportsMet := PassSets.ReportsMet.visits h₁ hvisits
    have h₃ : s₃.ReportsMet := by
      obtain ⟨e, l, -, rfl⟩ := PassState.mark_cases hmark
      exact h₂
    exact h₃.scanned hleaves.scanned.1

/-- **A name that is reported** is one of an execution the pass has counted. -/
theorem reported_counted {trace : List SmallestBlock} {unneeded : Finset DynamicInst}
    (h : extractUneededOperation I trace = some unneeded) {d : DynamicInst} (hd : d ∈ unneeded) :
    ∃ n < backCount I.tables trace d.key, d.cnt = -n := by
  obtain ⟨s, hs, rfl⟩ := Option.map_eq_some_iff.mp h
  have hmet : s.ReportsMet :=
    run_invariant (P := fun s : PassState => s.ReportsMet) (fun _ _ _ h hstep => h.step hstep)
      (fun _ hd => absurd hd (Finset.notMem_empty _)) hs
  obtain ⟨hcnt, hvisited⟩ := hmet d hd
  unfold PassSets.Visited at hvisited
  rw [run_instCount hs, backCount_reverse] at hvisited
  exact ⟨(-d.cnt).toNat, by omega, by omega⟩

/-- The pass counts instructions of the block. -/
theorem namedCount_le_executed (hfits : b.counted = true →
      ∃ bb, T.bb2Ins[b.bbID]? = some bb ∧ b.Fits bb) (key : Nat × Nat) :
    b.namedCount T key ≤ (executedBy T [b] key.1).count key.2 := by
  unfold SmallestBlock.namedCount
  by_cases ht : b.tid = key.1
  swap
  · rw [if_neg ht]
    exact Nat.zero_le _
  rw [if_pos ht]
  have hexecuted : b.type ≠ .declareBlock → executedBy T [b] key.1 = b.insIDs T := by
    intro htype
    simp [executedBy, htype, ht]
  unfold SmallestBlock.named
  cases hkind : b.kind T with
  | normal =>
    have htype : b.type ≠ .declareBlock := by
      intro htype
      simp [SmallestBlock.kind, htype] at hkind
    rw [hexecuted htype]
  | counted =>
    have hcounted : b.counted = true := SmallestBlock.counted_iff.mpr (.inl hkind)
    have htype : b.type ≠ .declareBlock := by
      intro htype
      simp [SmallestBlock.counted, htype] at hcounted
    obtain ⟨bb, hbb, hstart, hstop, -⟩ := hfits hcounted
    have hlt : b.start < bb.length := hstart.trans_le hstop
    have hid : b.insID T = bb[b.start] := by
      simp [SmallestBlock.insID, SmallestBlock.insID?, hbb, List.getElem?_eq_getElem hlt]
    have hmem : b.insID T ∈ b.insIDs T := by
      rw [hid, SmallestBlock.insIDs, List.getD_eq_getElem?_getD, hbb, Option.getD_some,
        List.mem_drop_iff_getElem]
      refine ⟨0, ?_, ?_⟩
      · rw [List.length_take]
        omega
      · simp
    rw [hexecuted htype]
    exact (List.singleton_sublist.mpr hmem).count_le key.2
  | skipped | declare => exact Nat.zero_le _

theorem backCount_le_executed {l : List SmallestBlock} (hfits : ∀ b ∈ l, b.counted = true →
      ∃ bb, T.bb2Ins[b.bbID]? = some bb ∧ b.Fits bb) (key : Nat × Nat) :
    backCount T l key ≤ (executedBy T l key.1).count key.2 := by
  induction l with
  | nil => exact Nat.zero_le _
  | cons b l ih =>
    obtain ⟨hb, hl⟩ := List.forall_mem_cons.mp hfits
    have hcons : executedBy T (b :: l) key.1 = executedBy T [b] key.1 ++ executedBy T l key.1 :=
      executedBy_append T [b] l key.1
    have h₁ := namedCount_le_executed hb key
    have h₂ := ih hl
    rw [hcons, List.count_append]
    unfold backCount at h₂ ⊢
    rw [List.map_cons, List.sum_cons]
    omega

end

/-! ## The whole way -/

section

variable {M : IRModule} {P : Program} {σ : Type*} {S : Semantics σ} {s : RunState σ}

/-- **What is reported took place.** When all threads of an instrumented program have run to
completion, the passes return, in any interleaving, and each execution they report is one of a traced
instruction that the thread has executed as often. -/
theorem reports_happened (hM : M.Verified) {d : InfoDir} (hd : M.infoDir = some d)
    (hread : M.Readable) (halloc : ∀ name ∈ M.instrumentedFun, name ∉ allocFunctions)
    (hS : S.Traced) (impactful : Nat → Bool) (G : Groups) (postDominator : Nat → Finset Nat)
    {w₀ : σ} (hrun : RunsTo M.instrumented S w₀ s) (hdone : ∀ t, s.frames t = []) :
    ∃ T bt deps unneeded, d.tables = some T ∧
      mergeTrace T impactful ((recordedEvents (fun _ => 0) s.calls).map .event) = some bt ∧
      extractMemoryDependency T G bt = some deps ∧
      extractUneededOperation ⟨T, postDominator, dependenciesOf deps⟩ bt = some unneeded ∧
      ∀ e ∈ unneeded, ∃ t : UInt64, e.tid = t.toNat ∧
        ∃ n < (M.idsOf (s.executed t)).count e.id, e.cnt = -n := by
  obtain ⟨P, hT, htraceable⟩ := hread.traceable hM hd halloc
  obtain ⟨m, th, ex, h⟩ := MergedSoFar.run htraceable hS impactful hrun
  obtain ⟨hmerge, hexec, hothers⟩ := h.done hdone
  have hknown := recordedEvents_known htraceable hS hrun
  have hevents : ∀ e, Entry.event e ∈ (recordedEvents (fun _ => 0) s.calls).map Entry.event →
      e.InRange ∧ e.Known P.toTables := by
    intro e he
    obtain ⟨e', he', heq⟩ := List.mem_map.mp he
    cases heq
    exact ⟨recordedEvents_inRange _ _ _ he', hknown _ he'⟩
  obtain ⟨deps, hdeps, -⟩ := extract_follows P.toTables G (mergeTrace_wellFormed hevents hmerge)
  obtain ⟨unneeded, hunneeded⟩ := mergeTrace_extracts (fun e he => (hevents e he).2) hmerge
    (I := ⟨P.toTables, postDominator, dependenciesOf deps⟩) rfl
  refine ⟨P.toTables, m.blockTrace, deps, unneeded, hT, hmerge, hdeps, hunneeded, fun e he => ?_⟩
  obtain ⟨n, hn, hcnt⟩ := reported_counted hunneeded he
  have hkept := kept_of_run (fun e he => (hevents e he).2) h.merged
  have hfits : ∀ b ∈ m.blockTrace, b.counted = true →
      ∃ bb, P.bb2Ins[b.bbID]? = some bb ∧ b.Fits bb := by
    intro b hb hcounted
    refine hkept.trails.fits b hb fun htype => ?_
    simp [SmallestBlock.counted, htype] at hcounted
  have hle := hn.trans_le (backCount_le_executed hfits e.key)
  by_cases ht : ∃ t : UInt64, t.toNat = e.tid
  · obtain ⟨t, ht⟩ := ht
    refine ⟨t, ht.symm, n, ?_, hcnt⟩
    rw [← hexec t, ht]
    exact hle
  · have hnil : executedBy P.toTables m.blockTrace e.key.1 = [] :=
      hothers e.tid fun t hte => ht ⟨t, hte⟩
    rw [hnil] at hle
    exact absurd hle (Nat.not_lt_zero n)

end

/-- The report about `callModule`. -/
theorem reports_happened_call : ∃ s T bt deps unneeded,
    RunsTo callModule.instrumented callSemantics () s ∧
    (callModule.infoDir.bind InfoDir.tables) = some T ∧
    mergeTrace T (fun _ => false) ((recordedEvents (fun _ => 0) s.calls).map .event) = some bt ∧
    extractMemoryDependency T oneGroup bt = some deps ∧
    extractUneededOperation ⟨T, fun _ => ∅, dependenciesOf deps⟩ bt = some unneeded ∧
    ∀ e ∈ unneeded, ∃ t : UInt64, e.tid = t.toNat ∧
      ∃ n < (callModule.idsOf (s.executed t)).count e.id, e.cnt = -n := by
  obtain ⟨s, hrun, hdone, -, -⟩ := callModule_run
  obtain ⟨d, hd⟩ : ∃ d, callModule.infoDir = some d := ⟨_, rfl⟩
  obtain ⟨T, bt, deps, unneeded, hT, hrest⟩ := reports_happened callModule_verified hd
    callModule_readable (by decide) callSemantics_traced (fun _ => false) oneGroup (fun _ => ∅) hrun hdone
  exact ⟨s, T, bt, deps, unneeded, hrun, by rw [hd]; exact hT, hrest⟩

end Slimmer
