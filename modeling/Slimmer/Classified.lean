import Slimmer.MemoryClosed

/-!
# Every execution is found or reported

`ExtractUneededOperation` puts an execution into `unneeded_di` when the main loop meets it, and
`OneBlock` takes executions out again, under names it computes from differences of counters. `met`
lists the executions of a block trace under the names of the main loop, without the pass.

A name that `OneBlock` computes belongs to an execution that has been met, or to none
(`scanName_visited`): the terminator of the basic block has been counted, so `cnt_diff` is at least 1.
What is taken out is never met again, then, and `SetsClassified` holds at every time.

**Theorem (`unneeded_iff`).** When the pass ends, `unneeded_di` is the set of all executions that can
be reported and were never passed to `OneInstruction`.
-/

namespace Slimmer

/-! ## The executions of a trace -/

/-- An execution of `id` is met, after those of the list `seen`. Its name says how many executions of
the same instruction in the same thread come later in the trace. -/
def meetInst (b : SmallestBlock) (seen : List (SmallestBlock × DynamicInst)) (id : Nat) :
    List (SmallestBlock × DynamicInst) :=
  (b, ⟨b.tid, id, -(seen.countP fun e => e.2.key = (b.tid, id) : Nat)⟩) :: seen

/-- The executions of a block are met, from the last one to the first one. -/
def meetBlock (T : Tables) (seen : List (SmallestBlock × DynamicInst)) (b : SmallestBlock) :
    List (SmallestBlock × DynamicInst) :=
  (b.named T).reverse.foldl (meetInst b) seen

/-- The executions of a block trace, each with its block: those of all blocks but declarations and
the calls the pass leaves out. -/
def met (T : Tables) (trace : List SmallestBlock) : List (SmallestBlock × DynamicInst) :=
  trace.reverse.foldl (meetBlock T) []

/-- An execution of the block can be reported: it is neither a call that always counts as needed nor
a terminator with at most one successor. -/
def SmallestBlock.Reportable (T : Tables) (b : SmallestBlock) (d : DynamicInst) : Prop :=
  match b.type with
  | .normalBlock => ∃ i, T.ins[d.id]? = some i ∧
      ¬ (i.type = .terminatorInst ∧ i.successors.length ≤ 1)
  | .memoryAccessBlock | .memsetBlock | .memmoveBlock | .externalCallBlock => True
  | .impactfulCallBlock | .declareBlock => False

section

variable {I : PassInput} {s s' : PassState} {b : SmallestBlock} {d : DynamicInst}
  {seen : List (SmallestBlock × DynamicInst)} {t t' : PassSets}

/-! ## The invariant -/

/-- What has been met is unneeded or was passed to `OneInstruction`; what is still to be met is
neither. -/
structure SetsClassified (T : Tables) (seen : List (SmallestBlock × DynamicInst)) (t : PassSets) :
    Prop where
  count : ∀ key, t.instCount key = seen.countP fun e => e.2.key = key
  unneeded : ∀ d, d ∈ t.unneededDI ↔
    (∃ b, (b, d) ∈ seen ∧ b.Reportable T d) ∧ ∀ f ∈ t.found, f.inst ≠ d
  seen_visited : ∀ e ∈ seen, t.Visited e.2
  found_visited : ∀ f ∈ t.found, t.Visited f.inst

/-! ## Visits -/

/-- A visit, as far as what it reports goes. -/
theorem Visit.unneeded_eq {id : Nat} {n : Bool} (h : Visit I b s id s' n) :
    (n = true ∧ s'.unneededDI = s.unneededDI ∧
        s'.found = ⟨s.toPassSets.name b.tid id, b.lastBBID, false, s.pos⟩ :: s.found) ∨
      (n = false ∧ s'.found = s.found ∧
        s'.unneededDI = (b.report I.tables (s.toPassSets.name b.tid id) s.toPassSets).unneededDI) := by
  obtain ⟨report, hreport, hsets⟩ := h.sets
  obtain ⟨-, ⟨hn, hun, hfound, -⟩ | ⟨hn, -, -, hfound, -, -⟩⟩ := PassSets.visit_cases hreport hsets
  · exact Or.inl ⟨hn, hun, hfound⟩
  · refine Or.inr ⟨hn, hfound, ?_⟩
    have hvisit := h.reports
    rw [hn] at hvisit
    have heq := Option.some.inj hvisit
    rw [← heq]
    rfl

/-- An execution that can be reported is reported. -/
theorem SmallestBlock.mem_report {T : Tables} {e : DynamicInst} :
    e ∈ (b.report T d t).unneededDI ↔ e ∈ t.unneededDI ∨ (e = d ∧ b.Reportable T d) := by
  have haccess : e ∈ (t.reportAccess b d).unneededDI ↔ e ∈ t.unneededDI ∨ e = d := by
    unfold PassSets.reportAccess
    split
    · simp [PassSets.report, or_comm]
    · simp [PassSets.report, or_comm]
  unfold SmallestBlock.report SmallestBlock.Reportable
  cases htype : b.type with
  | normalBlock =>
    cases hi : T.ins[d.id]? with
    | none => simp
    | some i =>
      have hiff : i.reported = true ↔ ¬ (i.type = .terminatorInst ∧ i.successors.length ≤ 1) := by
        rw [InstInfo.reported, decide_eq_true_iff]
      by_cases hreported : i.reported
      · simp only [Option.any_some, hreported, if_true, PassSets.report, Finset.mem_insert,
          Option.some.injEq, exists_eq_left', hiff.mp hreported, not_false_eq_true, and_true]
        exact or_comm
      · simp only [Option.any_some, hreported, Option.some.injEq, exists_eq_left',
          mt hiff.mpr hreported, and_false, or_false]
        rfl
  | impactfulCallBlock | declareBlock => simp
  | memoryAccessBlock | externalCallBlock | memsetBlock | memmoveBlock => simpa using haccess

theorem PassSets.name_not_visited (t : PassSets) (tid id : Nat) : ¬ t.Visited (t.name tid id) :=
  lt_irrefl _

/-- **A visit** keeps the invariant. -/
theorem SetsClassified.visit {id : Nat} {n : Bool}
    (h : SetsClassified I.tables seen s.toPassSets) (hvisit : Visit I b s id s' n) :
    SetsClassified I.tables (meetInst b seen id) s'.toPassSets := by
  have hname : (⟨b.tid, id, -(seen.countP fun e => e.2.key = (b.tid, id) : Nat)⟩ : DynamicInst) =
      s.toPassSets.name b.tid id := by
    rw [PassSets.name, h.count]
  have hnew := s.toPassSets.name_not_visited b.tid id
  unfold meetInst
  rw [hname]
  generalize hd : s.toPassSets.name b.tid id = d at hnew
  have hkey : d.key = (b.tid, id) := by rw [← hd]; rfl
  have hunseen : ∀ b', (b', d) ∉ seen := fun b' hb' => hnew (h.seen_visited _ hb')
  refine ⟨fun key => ?_, fun e => ?_, fun e he => ?_, fun f hf => ?_⟩
  · rw [hvisit.instCount, List.countP_cons]
    by_cases hk : key = (b.tid, id)
    · subst hk
      simp [hkey, h.count]
    · have : d.key ≠ key := fun he => hk (he.symm.trans hkey)
      simp [Function.update_of_ne hk, this, h.count]
  · obtain ⟨-, hun, hfound⟩ | ⟨-, hfound, hun⟩ := hvisit.unneeded_eq
    · rw [hun, hfound, hd]
      by_cases hed : e = d
      · subst hed
        refine iff_of_false (fun he => ?_) fun he => he.2 _ List.mem_cons_self rfl
        obtain ⟨⟨b', hb', -⟩, -⟩ := (h.unneeded e).mp he
        exact hunseen b' hb'
      · simp [h.unneeded, hed, Ne.symm hed]
    · rw [hun, hfound, hd, SmallestBlock.mem_report]
      by_cases hed : e = d
      · subst hed
        have hnot : e ∉ s.unneededDI := by
          intro he
          obtain ⟨⟨b', hb', -⟩, -⟩ := (h.unneeded e).mp he
          exact hunseen b' hb'
        have hall : ∀ f ∈ s.found, f.inst ≠ e := by
          rintro f hf rfl
          exact hnew (h.found_visited f hf)
        constructor
        · intro he
          exact ⟨⟨b, List.mem_cons_self, (he.resolve_left hnot).2⟩, hall⟩
        · rintro ⟨⟨b', hb', hreportable⟩, -⟩
          obtain hb' | hb' := List.mem_cons.mp hb'
          · cases hb'
            exact Or.inr ⟨rfl, hreportable⟩
          · exact absurd hb' (hunseen b')
      · simp [h.unneeded, hed]
  · rw [hvisit.visited, hd]
    obtain rfl | he := List.mem_cons.mp he
    · exact Or.inr rfl
    · exact Or.inl (h.seen_visited e he)
  · rw [hvisit.visited, hd]
    obtain ⟨-, -, hfound⟩ | ⟨-, hfound, -⟩ := hvisit.unneeded_eq
    · rw [hfound, hd] at hf
      obtain rfl | hf := List.mem_cons.mp hf
      · exact Or.inr rfl
      · exact Or.inl (h.found_visited f hf)
    · rw [hfound] at hf
      exact Or.inl (h.found_visited f hf)

theorem SetsClassified.visits {ids : List Nat} {su su' : PassState × Bool}
    (h : SetsClassified I.tables seen su.1.toPassSets) (hvisits : Visits I b su ids su') :
    SetsClassified I.tables (ids.foldl (meetInst b) seen) su'.1.toPassSets := by
  induction hvisits generalizing seen with
  | nil => exact h
  | cons hvisit _ ih => exact ih (h.visit hvisit)

/-! ## Scans -/

/-- The name `OneBlock` computes for an instruction is not that of an execution still to be met. -/
theorem scanName_visited {id : Nat} (htid : d.tid = b.tid) (hd : t.Visited d) :
    t.Visited (scanName b (cntDiff t d b) t id) := by
  have hdiff : 0 < cntDiff t d b := by
    have hd : -(t.instCount d.key : Int) < d.cnt := hd
    rw [DynamicInst.key, htid] at hd
    rw [cntDiff]
    omega
  show -(t.instCount (b.tid, id) : Int) < cntDiff t d b - t.instCount (b.tid, id)
  omega

/-- What `OneBlock` finds has been met, and is not unneeded any more. -/
theorem SetsClassified.scanFound {pos : Nat} {sc sc' : Finset (Nat × Nat) × PassSets}
    (h : SetsClassified I.tables seen sc.2) (hd : sc.2.Visited d)
    (hstep : scanFound I b pos d sc = some sc') : SetsClassified I.tables seen sc'.2 := by
  obtain ⟨-, hun, hfound, hcount, -⟩ := scanFound_cases hstep
  have hvisited : ∀ {e}, sc.2.Visited e → sc'.2.Visited e := by
    intro e he
    rwa [PassSets.Visited, hcount]
  refine ⟨fun key => by rw [hcount, h.count], fun e => ?_, fun e he => hvisited (h.seen_visited e he),
    fun f hf => ?_⟩
  · rw [hun, hfound, Finset.mem_erase, h.unneeded]
    simp only [List.mem_cons, forall_eq_or_imp]
    tauto
  · rw [hfound] at hf
    obtain rfl | hf := List.mem_cons.mp hf
    · exact hvisited hd
    · exact hvisited (h.found_visited f hf)

/-- **`OneBlock`** keeps the invariant. -/
theorem SetsClassified.oneBlock {pos nextBBID : Nat} (h : SetsClassified I.tables seen t)
    (htid : d.tid = b.tid) (hd : t.Visited d) (hstep : oneBlock I pos t d b nextBBID = some t') :
    SetsClassified I.tables seen t' := by
  obtain ⟨bb, sc, sc', -, hfound, hrun, rfl⟩ := oneBlock_cases hstep
  have hstart : sc.2.instCount = t.instCount := (scanFound_cases hfound).2.2.2.1
  have hfirst : SetsClassified I.tables seen ((∅, t) : Finset (Nat × Nat) × PassSets).2 := h
  have hinv : SetsClassified I.tables seen sc'.2 ∧ sc'.2.instCount = t.instCount := by
    refine run_invariant (P := fun u : Finset (Nat × Nat) × PassSets =>
      SetsClassified I.tables seen u.2 ∧ u.2.instCount = t.instCount) ?_
      ⟨hfirst.scanFound hd hfound, hstart⟩ hrun
    rintro u id u' ⟨hu, hcount⟩ hstep
    obtain ⟨-, -, rfl⟩ | ⟨-, hstep⟩ := scanInst_cases hstep
    · exact ⟨hu, hcount⟩
    · refine ⟨hu.scanFound ?_ hstep, (scanFound_cases hstep).2.2.2.1.trans hcount⟩
      have hname : t.Visited (scanName b (cntDiff t d b) t id) := scanName_visited htid hd
      rw [PassSets.Visited, scanName] at hname ⊢
      rwa [hcount]
  exact ⟨hinv.1.count, hinv.1.unneeded, hinv.1.seen_visited, hinv.1.found_visited⟩

/-! ## Turns -/

/-- The invariant of the pass. -/
structure Classified (T : Tables) (seen : List (SmallestBlock × DynamicInst)) (s : PassState) :
    Prop where
  sets : SetsClassified T seen s.toPassSets
  terminators : s.TerminatorsVisited

theorem Classified.check {call : PassSets → DynamicInst → Nat → Prop} {nextBBID : Nat}
    (h : Classified I.tables seen s) (hcheck : Check I b call nextBBID s s') :
    Classified I.tables seen s' := by
  refine ⟨?_, h.terminators.check hcheck⟩
  cases hcheck with
  | needed => exact h.sets
  | @scan e l sets hterm hneeded hsets _ =>
    obtain ⟨htid, hd⟩ := h.terminators b.tid e (by rw [hterm]; exact List.mem_cons_self) hneeded
    exact h.sets.oneBlock htid hd hsets

theorem Classified.enter (h : Classified I.tables seen s) (htype : b.type ≠ .declareBlock)
    (henter : s.enter I b = some s') : Classified I.tables seen s' := by
  refine ⟨?_, h.terminators.enter htype henter⟩
  exact PassState.enter_sets htype henter h.sets fun _ _ _ _ _ _ hcheck => (h.check hcheck).sets

theorem Classified.leaves {call : PassSets → DynamicInst → Nat → Prop}
    (h : Classified I.tables seen s) (hleave : Leaves I b call s s') :
    Classified I.tables seen s' := by
  have hneeded : ∀ needed, Classified I.tables seen { s with needed := needed } := fun needed =>
    ⟨⟨h.sets.count, h.sets.unneeded, h.sets.seen_visited, h.sets.found_visited⟩, h.terminators⟩
  refine ⟨?_, h.terminators.leaves hleave⟩
  exact hleave.sets (fun needed _ => (hneeded needed).sets) fun needed _ _ _ hcheck =>
    ((hneeded needed).check hcheck).sets

/-- **A turn** meets the executions of its block. -/
theorem Classified.step (h : Classified I.tables seen s) (hstep : extractStep I s b = some s') :
    Classified I.tables (meetBlock I.tables seen b) s' := by
  unfold meetBlock
  obtain ⟨htype, rfl⟩ | ⟨htype, s₁, henter, hrest⟩ := extractStep_cases hstep
  · have hnamed : b.named I.tables = [] := by
      simp [SmallestBlock.named, SmallestBlock.kind, htype]
    rw [hnamed]
    exact ⟨h.sets, h.terminators⟩
  have h₁ := h.enter htype henter
  obtain ⟨hskip, rfl⟩ | ⟨-, s₂, used, s₃, s₄, hvisits, hmark, hleave, rfl⟩ := hrest
  · have hnamed : b.named I.tables = [] := SmallestBlock.named_of_skipped hskip
    rw [hnamed]
    exact ⟨h₁.sets, h₁.terminators⟩
  have h₂ : Classified I.tables ((b.named I.tables).reverse.foldl (meetInst b) seen) s₂ :=
    ⟨h₁.sets.visits hvisits, hvisits.terminators h₁.terminators⟩
  have h₃ : Classified I.tables ((b.named I.tables).reverse.foldl (meetInst b) seen) s₃ := by
    obtain ⟨e, l, -, rfl⟩ := PassState.mark_cases hmark
    exact ⟨h₂.sets, h₂.terminators⟩
  have h₄ := h₃.leaves hleave
  exact ⟨h₄.sets, h₄.terminators⟩

/-- **A run** meets the executions of its blocks. -/
theorem classified_of_run {l : List SmallestBlock} (h : run (extractStep I) {} l = some s) :
    Classified I.tables (l.foldl (meetBlock I.tables) []) s := by
  induction l using List.reverseRecOn generalizing s with
  | nil =>
    cases h
    exact ⟨⟨fun _ => rfl, fun d => by simp, fun e he => (nomatch he), fun f hf => (nomatch hf)⟩,
      fun tid e he => (nomatch he)⟩
  | append_singleton l b ih =>
    obtain ⟨s₁, hs₁, hstep⟩ := run_concat_eq_some.mp h
    rw [List.foldl_append]
    exact (ih hs₁).step hstep

/-- **A needed execution is never reported, an unneeded one always is.** For every block trace on
which the pass ends, `unneeded_di` then holds the executions that can be reported and were passed to
`OneInstruction` at no time, by the main loop or by `OneBlock`. -/
theorem unneeded_iff {trace : List SmallestBlock}
    (h : run (extractStep I) {} trace.reverse = some s) (d : DynamicInst) :
    d ∈ s.unneededDI ↔
      (∃ b, (b, d) ∈ met I.tables trace ∧ b.Reportable I.tables d) ∧ ∀ f ∈ s.found, f.inst ≠ d :=
  (classified_of_run h).sets.unneeded d

end

/-- No execution depends on another one by memory. -/
def lateInput : PassInput := passInput lateTables latePostDominator ∅

/-- The load and the branch of `lateTrace` are met as unneeded, and found at the end. -/
theorem unneeded_iff_late :
    ∃ s, run (extractStep lateInput) {} lateTrace.reverse = some s ∧ ∀ d, d ∈ s.unneededDI ↔
      (∃ b, (b, d) ∈ met lateInput.tables lateTrace ∧ b.Reportable lateInput.tables d) ∧
        ∀ f ∈ s.found, f.inst ≠ d := by
  obtain ⟨s, hs⟩ := Option.isSome_iff_exists.mp
    (show (run (extractStep lateInput) {} lateTrace.reverse).isSome = true by decide +kernel)
  exact ⟨s, hs, unneeded_iff hs⟩

end Slimmer
