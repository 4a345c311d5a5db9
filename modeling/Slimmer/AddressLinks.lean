import Slimmer.Classified

/-!
# Instructions that access one address

The main loop puts an unneeded access into `unneeded_di` and its instruction into `Addr2Unneded`,
under the address, and `PrintBug` links the instructions of one address. `OneBlock` takes an access
that it finds out of `unneeded_di` only: the instruction keeps its link.

**Theorem (`linked_of_run`).** In a run in which `OneBlock` never finds the last unneeded access of an
instruction to an address (`AccessesKept`), every instruction in `Addr2Unneded` has an unneeded access
at that address. In `lateTrace` the only execution of a load is found late (`late_load_linked`).
-/

namespace Slimmer

/-- `d` is the execution of an access in the trace that starts at the address `a`. -/
def AccessAt (T : Tables) (trace : List SmallestBlock) (a : Nat) (d : DynamicInst) : Prop :=
  ∃ b, (b, d) ∈ met T trace ∧ b.type = .memoryAccessBlock ∧ b.addrAt 0 = a

/-- Every instruction in `Addr2Unneded` has an unneeded access at the address. -/
def AddressLinked (T : Tables) (trace : List SmallestBlock) (t : PassSets) : Prop :=
  ∀ a, ∀ id ∈ t.addr2Unneeded a, ∃ d ∈ t.unneededDI, d.id = id ∧ AccessAt T trace a d

/-- `d` is an unneeded access to the address `a` by the instruction `id`. -/
def UnneededAccess (T : Tables) (trace : List SmallestBlock) (t : PassSets) (a id : Nat)
    (d : DynamicInst) : Prop :=
  d ∈ t.unneededDI ∧ d.id = id ∧ AccessAt T trace a d

/-- When `OneBlock` is called during the turn for `b`, it does not find the last unneeded access to an
address by an instruction: one of them is left. -/
def AccessesKept (I : PassInput) (trace : List SmallestBlock) (s : PassState)
    (b : SmallestBlock) : Prop :=
  ∀ t d nextBBID bb, OneBlockCall I s b t d nextBBID → I.tables.bb2Ins[nextBBID]? = some bb →
    ∀ a id, (∃ e, UnneededAccess I.tables trace t a id e) →
      ∃ e, UnneededAccess I.tables trace t a id e ∧ ∀ k, ¬ Wanted I b t d bb.reverse k e

section

variable {I : PassInput} {s s' : PassState} {b : SmallestBlock} {d : DynamicInst}
  {seen : List (SmallestBlock × DynamicInst)} {t t' : PassSets} {trace : List SmallestBlock}

/-! ## Visits -/

/-- An instruction in `Addr2Unneded` was there before, or its execution has just been reported. -/
theorem SmallestBlock.mem_report_addr {T : Tables} {a id : Nat}
    (h : id ∈ (b.report T d t).addr2Unneeded a) :
    id ∈ t.addr2Unneeded a ∨ (id = d.id ∧ b.type = .memoryAccessBlock ∧ b.addrAt 0 = a ∧
      d ∈ (b.report T d t).unneededDI) := by
  have haccess : id ∈ (t.reportAccess b d).addr2Unneeded a → id ∈ t.addr2Unneeded a ∨
      (id = d.id ∧ b.type = .memoryAccessBlock ∧ b.addrAt 0 = a ∧
        d ∈ (t.reportAccess b d).unneededDI) := by
    unfold PassSets.reportAccess
    split
    · rename_i hcond
      intro h
      by_cases ha : a = b.addrAt 0
      · subst ha
        have h : id ∈ insert d.id (t.addr2Unneeded (b.addrAt 0)) := by
          simpa [PassSets.report] using h
        obtain rfl | h := Finset.mem_insert.mp h
        · exact Or.inr ⟨rfl, hcond.1, rfl, Finset.mem_insert_self _ _⟩
        · exact Or.inl h
      · have h : id ∈ t.addr2Unneeded a := by
          simpa [PassSets.report, Function.update_of_ne ha] using h
        exact Or.inl h
    · exact Or.inl
  unfold SmallestBlock.report at h ⊢
  cases htype : b.type with
  | normalBlock =>
    simp only [htype] at h ⊢
    left
    split at h
    · exact h
    · exact h
  | impactfulCallBlock | declareBlock =>
    simp only [htype] at h
    exact Or.inl h
  | memoryAccessBlock | externalCallBlock | memsetBlock | memmoveBlock =>
    simp only [htype] at h haccess ⊢
    exact haccess h

theorem Visit.addr2Unneeded {id : Nat} {n : Bool} (h : Visit I b s id s' n) :
    s'.addr2Unneeded = if n then s.addr2Unneeded else
      (b.report I.tables (s.toPassSets.name b.tid id) s.toPassSets).addr2Unneeded := by
  have hvisit := h.reports
  cases n with
  | true =>
    obtain ⟨r, -, hr⟩ := Option.map_eq_some_iff.mp hvisit
    rw [← hr]
    rfl
  | false =>
    rw [← Option.some.inj hvisit]
    rfl

/-- A visit of an execution of the trace keeps the links. -/
theorem AddressLinked.visit {id : Nat} {n : Bool} (h : AddressLinked I.tables trace s.toPassSets)
    (hmem : (b, s.toPassSets.name b.tid id) ∈ met I.tables trace) (hvisit : Visit I b s id s' n) :
    AddressLinked I.tables trace s'.toPassSets := by
  intro a id' hid'
  rw [hvisit.addr2Unneeded] at hid'
  obtain ⟨rfl, hun, -⟩ | ⟨rfl, -, hun⟩ := hvisit.unneeded_eq
  · rw [hun]
    exact h a id' hid'
  · rw [hun]
    obtain hid' | ⟨rfl, htype, ha, hd⟩ := SmallestBlock.mem_report_addr hid'
    · obtain ⟨e, he, hrest⟩ := h a id' hid'
      exact ⟨e, SmallestBlock.mem_report.mpr (Or.inl he), hrest⟩
    · exact ⟨_, hd, rfl, b, hmem, htype, ha⟩

theorem subset_meetInsts (ids : List Nat) : seen ⊆ ids.foldl (meetInst b) seen := by
  induction ids generalizing seen with
  | nil => exact List.Subset.refl seen
  | cons id ids ih => exact List.Subset.trans (List.subset_cons_self _ _) ih

theorem subset_meetBlocks {T : Tables} (l : List SmallestBlock) :
    seen ⊆ l.foldl (meetBlock T) seen := by
  induction l generalizing seen with
  | nil => exact List.Subset.refl seen
  | cons b l ih => exact List.Subset.trans (subset_meetInsts _) ih

theorem AddressLinked.visits {ids : List Nat} {su su' : PassState × Bool}
    (h : AddressLinked I.tables trace su.1.toPassSets)
    (hclassified : SetsClassified I.tables seen su.1.toPassSets)
    (hsub : ids.foldl (meetInst b) seen ⊆ met I.tables trace) (hvisits : Visits I b su ids su') :
    AddressLinked I.tables trace su'.1.toPassSets := by
  induction hvisits generalizing seen with
  | nil => exact h
  | @cons s s₁ used n id ids su hvisit hrest ih =>
    refine ih (h.visit ?_ hvisit) (hclassified.visit hvisit) hsub
    have hname : (s.toPassSets.name b.tid id) =
        ⟨b.tid, id, -(seen.countP fun e => e.2.key = (b.tid, id) : Nat)⟩ := by
      rw [PassSets.name, hclassified.count]
    apply hsub
    apply subset_meetInsts ids
    rw [hname]
    exact List.mem_cons_self

/-! ## Scans -/

theorem scanFound_addr2Unneeded {pos : Nat} {sc sc' : Finset (Nat × Nat) × PassSets}
    (h : scanFound I b pos d sc = some sc') : sc'.2.addr2Unneeded = sc.2.addr2Unneeded := by
  obtain ⟨r, -, rfl⟩ := Option.map_eq_some_iff.mp h
  rfl

theorem oneBlock_addr2Unneeded {pos nextBBID : Nat} (h : oneBlock I pos t d b nextBBID = some t') :
    t'.addr2Unneeded = t.addr2Unneeded := by
  obtain ⟨bb, sc, sc', -, hfound, hrun, rfl⟩ := oneBlock_cases h
  refine run_invariant (P := fun u : Finset (Nat × Nat) × PassSets =>
    u.2.addr2Unneeded = t.addr2Unneeded) ?_ (scanFound_addr2Unneeded hfound) hrun
  intro u id u' hu hstep
  obtain ⟨-, -, rfl⟩ | ⟨-, hstep⟩ := scanInst_cases hstep
  · exact hu
  · exact (scanFound_addr2Unneeded hstep).trans hu

/-- `OneBlock` keeps the links when it does not find what they rest on. -/
theorem AddressLinked.oneBlock {pos nextBBID : Nat} (h : AddressLinked I.tables trace t)
    (hclassified : SetsClassified I.tables seen t) (htid : d.tid = b.tid) (hd : t.Visited d)
    (hstep : oneBlock I pos t d b nextBBID = some t')
    (hkept : ∀ bb, I.tables.bb2Ins[nextBBID]? = some bb → ∀ a id,
      (∃ e, UnneededAccess I.tables trace t a id e) →
        ∃ e, UnneededAccess I.tables trace t a id e ∧ ∀ k, ¬ Wanted I b t d bb.reverse k e) :
    AddressLinked I.tables trace t' := by
  obtain ⟨bb, new, hbb, hfound, hwanted⟩ := oneBlock_wanted hstep
  have hclassified' := hclassified.oneBlock htid hd hstep
  intro a id hid
  rw [oneBlock_addr2Unneeded hstep] at hid
  obtain ⟨e, ⟨he, hrest, haccess⟩, hnot⟩ := hkept bb hbb a id (h a id hid)
  obtain ⟨hseen, hold⟩ := (hclassified.unneeded e).mp he
  refine ⟨e, (hclassified'.unneeded e).mpr ⟨hseen, fun f hf => ?_⟩, hrest, haccess⟩
  rw [hfound] at hf
  obtain hf | hf := List.mem_append.mp hf
  · rintro rfl
    obtain ⟨k, hk⟩ := hwanted f hf
    exact hnot k hk
  · exact hold f hf

/-! ## Turns -/

theorem AddressLinked.check {s₀ : PassState} {nextBBID : Nat}
    (h : AddressLinked I.tables trace s.toPassSets) (hclassified : Classified I.tables seen s)
    (hkept : AccessesKept I trace s₀ b)
    (hcheck : Check I b (OneBlockCall I s₀ b) nextBBID s s') :
    AddressLinked I.tables trace s'.toPassSets := by
  cases hcheck with
  | needed => exact h
  | @scan e l sets hterm hneeded hsets hcall =>
    obtain ⟨htid, hd⟩ := hclassified.terminators b.tid e
      (by rw [hterm]; exact List.mem_cons_self) hneeded
    exact h.oneBlock hclassified.sets htid hd hsets fun bb hbb => hkept _ _ _ bb hcall hbb

theorem AddressLinked.enter (h : AddressLinked I.tables trace s.toPassSets)
    (hclassified : Classified I.tables seen s) (hkept : AccessesKept I trace s b)
    (htype : b.type ≠ .declareBlock) (henter : s.enter I b = some s') :
    AddressLinked I.tables trace s'.toPassSets := by
  exact PassState.enter_sets htype henter h fun _ _ _ _ _ _ hcheck =>
    h.check hclassified hkept hcheck

theorem AddressLinked.leaves {s₀ : PassState} (h : AddressLinked I.tables trace s.toPassSets)
    (hclassified : Classified I.tables seen s) (hkept : AccessesKept I trace s₀ b)
    (hleave : Leaves I b (OneBlockCall I s₀ b) s s') : AddressLinked I.tables trace s'.toPassSets := by
  refine hleave.sets (fun _ _ => h) fun needed s₂ _ _ hcheck => ?_
  have h₁ : AddressLinked I.tables trace { s with needed := needed }.toPassSets := h
  exact h₁.check ⟨⟨hclassified.sets.count, hclassified.sets.unneeded,
    hclassified.sets.seen_visited, hclassified.sets.found_visited⟩, hclassified.terminators⟩ hkept
    hcheck

/-- **A turn** over a block of the trace keeps the links. -/
theorem AddressLinked.step (h : AddressLinked I.tables trace s.toPassSets)
    (hclassified : Classified I.tables seen s) (hkept : AccessesKept I trace s b)
    (hsub : meetBlock I.tables seen b ⊆ met I.tables trace)
    (hstep : extractStep I s b = some s') : AddressLinked I.tables trace s'.toPassSets := by
  obtain ⟨-, rfl⟩ | ⟨htype, s₁, henter, hrest⟩ := extractStep_cases hstep
  · exact h
  have h₁ := h.enter hclassified hkept htype henter
  have hclassified₁ := hclassified.enter htype henter
  obtain ⟨-, rfl⟩ | ⟨-, s₂, used, s₃, s₄, hvisits, hmark, hleave, rfl⟩ := hrest
  · exact h₁
  have h₂ : AddressLinked I.tables trace s₂.toPassSets := h₁.visits hclassified₁.sets hsub hvisits
  have hclassified₂ : Classified I.tables (meetBlock I.tables seen b) s₂ :=
    ⟨hclassified₁.sets.visits hvisits, hvisits.terminators hclassified₁.terminators⟩
  obtain ⟨h₃, hclassified₃⟩ : AddressLinked I.tables trace s₃.toPassSets ∧
      Classified I.tables (meetBlock I.tables seen b) s₃ := by
    obtain ⟨e, l, -, rfl⟩ := PassState.mark_cases hmark
    exact ⟨h₂, hclassified₂.sets, hclassified₂.terminators⟩
  have h₄ : AddressLinked I.tables trace s₄.toPassSets := h₃.leaves hclassified₃ hkept hleave
  exact h₄

end

/-- **Same-address links join reported accesses** as far as `OneBlock` leaves each of them one. For
every block trace and every run of the pass over its blocks from the last one on, if every turn meets
`AccessesKept`, then every instruction in `Addr2Unneded` has an execution in `unneeded_di` that
accesses the address. -/
theorem linked_of_run {I : PassInput} {trace pre post : List SmallestBlock} {s : PassState}
    (hsplit : trace.reverse = pre ++ post)
    (hok : RunOk (extractStep I) (AccessesKept I trace) {} pre)
    (hrun : run (extractStep I) {} pre = some s) :
    ∀ a, ∀ id ∈ s.addr2Unneeded a, ∃ d ∈ s.unneededDI, d.id = id ∧ AccessAt I.tables trace a d := by
  have hlinked : AddressLinked I.tables trace s.toPassSets := by
    induction pre using List.reverseRecOn generalizing s post with
    | nil =>
      cases hrun
      intro a id hid
      exact absurd hid (Finset.notMem_empty id)
    | append_singleton pre b ih =>
      obtain ⟨s₁, hs₁, hstep⟩ := run_concat_eq_some.mp hrun
      have hsplit₁ : trace.reverse = pre ++ b :: post := by
        rw [hsplit, List.append_assoc, List.cons_append, List.nil_append]
      have h₁ := ih hsplit₁ hok.left hs₁
      refine h₁.step (classified_of_run hs₁) (hok pre b [] s₁ rfl hs₁) ?_ hstep
      rw [met, hsplit, List.foldl_append, List.foldl_append]
      exact subset_meetBlocks post
  exact hlinked

/-- Whether the condition is met whatever `OneBlock` finds. -/
def checkAccesses (I : PassInput) (trace : List SmallestBlock) (s : PassState)
    (b : SmallestBlock) : Bool :=
  (oneBlockCalls I s b).all fun c => (I.tables.bb2Ins[c.2.2]?).all fun bb =>
    (met I.tables trace).all fun p => (met I.tables trace).any fun q =>
      decide (p.1.type = .memoryAccessBlock → p.2 ∈ c.1.unneededDI →
        q.1.type = .memoryAccessBlock ∧ q.1.addrAt 0 = p.1.addrAt 0 ∧ q.2.id = p.2.id ∧
          q.2 ∈ c.1.unneededDI ∧ q.2 ∉ c.2.1 :: bb.reverse.map (rescanned b c.1 c.2.1))

theorem accessesKept_of_check {I : PassInput} {trace : List SmallestBlock} {s : PassState}
    {b : SmallestBlock} (h : checkAccesses I trace s b = true) : AccessesKept I trace s b := by
  rintro t d nextBBID bb hcall hbb a id ⟨e, he, rfl, b₁, hb₁, htype₁, rfl⟩
  have hc := List.all_eq_true.mp h _ (mem_oneBlockCalls hcall)
  simp only [hbb, Option.all_some] at hc
  obtain ⟨q, hq, hcheck⟩ := List.any_eq_true.mp (List.all_eq_true.mp hc (b₁, e) hb₁)
  obtain ⟨htype, haddr, hid, hun, hnot⟩ := of_decide_eq_true hcheck htype₁ he
  refine ⟨q.2, ⟨hun, hid, q.1, hq, htype, haddr⟩, fun k hk => hnot ?_⟩
  exact List.mem_of_getElem? hk.place

/-- `OneBlock` finds the accesses of thread 0; both instructions keep their links by thread 1. -/
theorem linked_of_run_write :
    ∃ s, run (extractStep writeInput) {} writeTrace.reverse = some s ∧
      s.addr2Unneeded 100 = {0, 1} ∧ s.unneededDI = {⟨1, 0, 0⟩, ⟨1, 1, 0⟩} ∧
      ∀ a, ∀ id ∈ s.addr2Unneeded a,
        ∃ d ∈ s.unneededDI, d.id = id ∧ AccessAt writeInput.tables writeTrace a d := by
  obtain ⟨s, hs⟩ := Option.isSome_iff_exists.mp
    (show (run (extractStep writeInput) {} writeTrace.reverse).isSome = true by decide +kernel)
  have hend : (run (extractStep writeInput) {} writeTrace.reverse).all (fun s =>
      decide (s.addr2Unneeded 100 = {0, 1} ∧ s.unneededDI = {⟨1, 0, 0⟩, ⟨1, 1, 0⟩})) = true := by
    decide +kernel
  rw [hs, Option.all_some, decide_eq_true_eq] at hend
  have hok : RunOk (extractStep writeInput) (AccessesKept writeInput writeTrace) {}
      writeTrace.reverse :=
    runOk_of_check (fun _ _ => accessesKept_of_check)
      (show checkRun (extractStep writeInput) (checkAccesses writeInput writeTrace) {}
        writeTrace.reverse = true by decide +kernel)
  exact ⟨s, hs, hend.1, hend.2, linked_of_run (List.append_nil _).symm hok hs⟩

/-- The load of `lateTrace` is in `Addr2Unneded` at the end, and its one execution is needed. -/
theorem late_load_linked :
    ¬ ∀ (I : PassInput) (trace : List SmallestBlock) (s : PassState),
      run (extractStep I) {} trace.reverse = some s → ∀ a, ∀ id ∈ s.addr2Unneeded a,
        ∃ d ∈ s.unneededDI, d.id = id ∧ AccessAt I.tables trace a d := by
  intro h
  obtain ⟨s, hs⟩ := Option.isSome_iff_exists.mp
    (show (run (extractStep lateInput) {} lateTrace.reverse).isSome = true by decide +kernel)
  have hlink : (run (extractStep lateInput) {} lateTrace.reverse).all (fun s =>
      decide (1 ∈ s.addr2Unneeded 100 ∧ ∀ d ∈ s.unneededDI, d.id ≠ 1)) = true := by decide +kernel
  rw [hs, Option.all_some, decide_eq_true_eq] at hlink
  obtain ⟨d, hd, hid, -⟩ := h _ _ s hs 100 1 hlink.1
  exact hlink.2 d hd hid

end Slimmer
