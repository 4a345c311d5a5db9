import Slimmer.MergedReading
import Slimmer.CollectCalls
import Slimmer.Stacks
import Slimmer.Callers

/-!
# The analysis goes through

The passes look at the tops of stacks, index the tables and assert that a return ends an activation;
the models read `none` where that fails. The backward pass goes back over the history of the merger's
call stacks (`Trail`): from a state whose stacks have an entry for each frame that is open behind a
block and hold indices of the tables (`Ready`), its turn can be taken and leads to such a state for the
call stacks in front of the block. The blocks of the closing loop push the entries to begin with. A
call that is skipped pops nothing, so the stacks may be higher than the call stacks.

**Theorem (`analysis_completes`).** `ExtractMemoryDependency` and `ExtractUneededOperation` return
on every trace that `MergeTrace` has accepted: complete, cut off, padded or damaged.
-/

namespace Slimmer

/-- The instructions of a basic block have entries in `Ins`. -/
def Tables.IdsInRange (T : Tables) : Prop := ∀ bb ∈ T.bb2Ins, ∀ id ∈ bb, id < T.ins.length

/-- What lies on the stacks can be looked up in the tables. -/
structure PassState.Indexed (T : Tables) (s : PassState) : Prop where
  nextBBUsed : ∀ tid, ∀ e ∈ s.nextBBUsed tid, e.2 = true → e.1 < T.bb2Ins.length
  terminatorStack : ∀ tid, ∀ e ∈ s.terminatorStack tid, e.2.2 = false → e.2.1.id < T.ins.length

/-- The thread has an entry on each stack. -/
def PassState.Deep (s : PassState) (tid : Nat) : Prop := ∀ k, 0 < s.height tid k

section

variable {I : PassInput} {s s' : PassState} {b : SmallestBlock} {d : DynamicInst} {id : Nat}

/-! ## The parts of a turn -/

theorem exists_oneInstruction (hd : d.id < I.tables.ins.length) (lastBBID : Int)
    (needed : Finset (Nat × Nat)) (memDepended : Finset DynamicInst) :
    ∃ r, oneInstruction I d lastBBID needed memDepended = some r := by
  rw [oneInstruction, List.getElem?_eq_getElem hd]
  exact ⟨_, rfl⟩

theorem exists_scanFound (hd : d.id < I.tables.ins.length) (pos : Nat)
    (sc : Finset (Nat × Nat) × PassSets) : ∃ sc', scanFound I b pos d sc = some sc' := by
  obtain ⟨r, hr⟩ := exists_oneInstruction hd b.lastBBID sc.1 sc.2.memDepended
  rw [scanFound, hr]
  exact ⟨_, rfl⟩

theorem exists_scanInst (hid : id < I.tables.ins.length) (pos : Nat) (diff : Int)
    (sc : Finset (Nat × Nat) × PassSets) : ∃ sc', scanInst I b pos diff sc id = some sc' := by
  simp only [scanInst]
  split_ifs
  · exact exists_scanFound hid pos sc
  · exact ⟨sc, rfl⟩

theorem exists_oneBlock (hT : I.tables.IdsInRange) (hd : d.id < I.tables.ins.length) (pos : Nat)
    (t : PassSets) {nextBBID : Nat} (hbb : nextBBID < I.tables.bb2Ins.length) :
    ∃ t', oneBlock I pos t d b nextBBID = some t' := by
  obtain ⟨sc, hsc⟩ := exists_scanFound (b := b) hd pos (∅, t)
  have hget := List.getElem?_eq_getElem hbb
  have hids : ∀ id ∈ I.tables.bb2Ins[nextBBID].reverse, id < I.tables.ins.length := fun id hid =>
    hT _ (List.getElem_mem hbb) id (List.mem_reverse.mp hid)
  obtain ⟨sc', hsc'⟩ := exists_run (P := fun _ => True) (s := sc) (fun sc id hid _ => by
    obtain ⟨sc', hsc'⟩ := exists_scanInst (b := b) (hids id hid) pos (cntDiff t d b) sc
    exact ⟨sc', hsc', trivial⟩) trivial
  simp only [oneBlock, hsc, hget, hsc', Option.bind_some, Option.map_some]
  exact ⟨_, rfl⟩

theorem PassState.exists_checkTerminator (hT : I.tables.IdsInRange) (hs : s.Indexed I.tables)
    (hdeep : s.Deep b.tid) {nextBBID : Nat} (hbb : nextBBID < I.tables.bb2Ins.length) :
    ∃ s', s.checkTerminator I b nextBBID = some s' := by
  have hpos : 0 < (s.terminatorStack b.tid).length := hdeep .terminatorStack
  obtain ⟨⟨bb, d, isNeeded⟩, l, hl⟩ := List.exists_cons_of_length_pos hpos
  cases isNeeded with
  | true =>
    simp only [checkTerminator, hl]
    exact ⟨s, rfl⟩
  | false =>
    have hd := hs.terminatorStack b.tid _ (by rw [hl]; exact List.mem_cons_self) rfl
    obtain ⟨t, ht⟩ := exists_oneBlock (b := b) hT hd s.pos s.toPassSets hbb
    simp only [checkTerminator, hl, ht]
    exact ⟨_, rfl⟩

theorem PassState.exists_setTerminator (hdeep : s.Deep b.tid) (d : DynamicInst) (isNeeded : Bool) :
    ∃ s', s.setTerminator b d isNeeded = some s' := by
  have hpos : 0 < (s.terminatorStack b.tid).length := hdeep .terminatorStack
  obtain ⟨e, l, hl⟩ := List.exists_cons_of_length_pos hpos
  rw [setTerminator, hl]
  exact ⟨_, rfl⟩

theorem PassState.exists_enter (hT : I.tables.IdsInRange) (hs : s.Indexed I.tables)
    (hdeep : b.isLast = 0 → s.Deep b.tid) : ∃ s', s.enter I b = some s' := by
  unfold enter
  by_cases hlast : 0 < b.isLast
  · rw [if_pos hlast]
    exact ⟨_, rfl⟩
  rw [if_neg hlast]
  have hdeep := hdeep (Nat.eq_zero_of_not_pos hlast)
  split
  · rename_i nextBBID l hl
    split_ifs with hne
    · have hbb := hs.nextBBUsed b.tid _ (by rw [hl]; exact List.mem_cons_self) rfl
      obtain ⟨s₁, hs₁⟩ := PassState.exists_checkTerminator hT hs hdeep hbb
      have hdeep₁ : s₁.Deep b.tid := fun k => (hdeep k).trans_eq (checkTerminator_height hs₁).symm
      rw [hs₁]
      exact exists_setTerminator hdeep₁ _ _
    · exact ⟨s, rfl⟩
  · exact ⟨s, rfl⟩

theorem PassState.exists_visit (hdeep : s.Deep b.tid) (hd : d.id < I.tables.ins.length)
    (isNeeded : Bool) (report : PassSets → PassSets) :
    ∃ sn, s.visit I b d isNeeded report = some sn := by
  have hpos : 0 < (s.funUsed b.tid).length := hdeep .funUsed
  obtain ⟨u, l, hl⟩ := List.exists_cons_of_length_pos hpos
  obtain ⟨t, ht⟩ : ∃ t, s.toPassSets.visit I s.pos b d isNeeded report = some t := by
    cases isNeeded with
    | true =>
      obtain ⟨r, hr⟩ := exists_oneInstruction hd b.lastBBID s.needed s.memDepended
      simp only [PassSets.visit, hr, if_true]
      exact ⟨_, rfl⟩
    | false => exact ⟨_, rfl⟩
  simp only [visit, ht, useFun, hl, Option.bind_some]
  exact ⟨_, rfl⟩

theorem PassState.exists_decideNormal (hdeep : s.Deep b.tid) {i : InstInfo}
    (hret : i.type = .returnInst → b.isLast = 1 ∨ b.isLast = 2) :
    ∃ sn, s.decideNormal I b d i = some sn := by
  unfold decideNormal
  by_cases hterm : i.type = .terminatorInst
  · have hpos : 0 < (s.nextBBUsed b.tid).length := hdeep .nextBBUsed
    obtain ⟨⟨nextBBID, used⟩, l, hl⟩ := List.exists_cons_of_length_pos hpos
    rw [if_pos hterm, terminatorUsed, hl]
    obtain ⟨s₁, hs₁⟩ := exists_setTerminator hdeep d
      (decide (d.key ∈ s.needed) || (decide (nextBBID ∉ I.postDominator b.bbID) && used))
    simp only [Option.bind_some, hs₁]
    exact ⟨_, rfl⟩
  · rw [if_neg hterm]
    split_ifs with hreturn hvoid h₂ h₁
    · exact ⟨_, rfl⟩
    · exact ⟨_, rfl⟩
    · exact ⟨_, rfl⟩
    · exact absurd (hret hreturn) (by simp [h₁, h₂])
    · exact ⟨_, rfl⟩

theorem decideNormal_height {i : InstInfo} {sn : PassState × Bool} {tid : Nat} {k : PassStack}
    (h : s.decideNormal I b d i = some sn) : sn.1.height tid k = s.height tid k := by
  unfold PassState.decideNormal at h
  split_ifs at h
  · obtain ⟨used, -, h⟩ := Option.bind_eq_some_iff.mp h
    obtain ⟨s₁, hs₁, rfl⟩ := Option.map_eq_some_iff.mp h
    exact setTerminator_height hs₁
  all_goals
    cases h
    rfl

theorem exists_normalInst {su : PassState × Bool} (hdeep : su.1.Deep b.tid)
    (hid : id < I.tables.ins.length)
    (hret : I.tables.ins[id].type = .returnInst → b.isLast = 1 ∨ b.isLast = 2) :
    ∃ su', normalInst I b su id = some su' ∧ su'.1.Deep b.tid := by
  have hget := List.getElem?_eq_getElem hid
  obtain ⟨sn, hsn⟩ := PassState.exists_decideNormal (I := I) (d := su.1.toPassSets.name b.tid id)
    hdeep hret
  have hdeep' : sn.1.Deep b.tid := fun k => (hdeep k).trans_eq (decideNormal_height hsn).symm
  obtain ⟨sv, hsv⟩ := PassState.exists_visit (I := I) (d := su.1.toPassSets.name b.tid id) hdeep'
    hid sn.2 fun t => if I.tables.ins[id].reported then t.report (su.1.toPassSets.name b.tid id) else t
  refine ⟨(sv.1, su.2 || sv.2), ?_, fun k => (hdeep' k).trans_eq (visit_height hsv).symm⟩
  simp only [normalInst, hget, hsn, hsv, Option.bind_some, Option.map_some]

theorem PassState.exists_instructions (hdeep : s.Deep b.tid) {bb : List Nat}
    (hbb : I.tables.bb2Ins[b.bbID]? = some bb) (hfits : b.Fits bb)
    (hids : ∀ id ∈ bb, id < I.tables.ins.length)
    (hret : ∀ k id i, k < b.stop → bb[k]? = some id → I.tables.ins[id]? = some i →
      i.type = .returnInst → b.isLast = 1 ∨ b.isLast = 2) :
    ∃ su, s.instructions I b = some su := by
  have hone : b.type ≠ .normalBlock → ∃ id, b.insID? I.tables = some id ∧ id < I.tables.ins.length := by
    intro hne
    have hlt : b.start < bb.length := hfits.1.trans_le hfits.2.1
    refine ⟨bb[b.start], ?_, hids _ (List.getElem_mem hlt)⟩
    rw [SmallestBlock.insID?, hbb, Option.bind_some, List.getElem?_eq_getElem hlt]
  unfold instructions
  cases htype : b.type with
  | normalBlock =>
    have hinsIDs : b.insIDs? I.tables = some ((bb.take b.stop).drop b.start) := by
      rw [SmallestBlock.insIDs?, if_neg (not_le.mpr hfits.1), hbb, Option.bind_some,
        if_pos hfits.2.1, SmallestBlock.insIDs, List.getD_eq_getElem?_getD, hbb, Option.getD_some]
    rw [hinsIDs]
    have hstep : ∀ (su : PassState × Bool) id, id ∈ ((bb.take b.stop).drop b.start).reverse →
        su.1.Deep b.tid → ∃ su', normalInst I b su id = some su' ∧ su'.1.Deep b.tid := by
      intro su id hid h
      have hmem := List.mem_of_mem_drop (List.mem_reverse.mp hid)
      obtain ⟨k, hk, rfl⟩ := List.mem_take_iff_getElem.mp hmem
      have hlt := hids _ (List.getElem_mem (lt_of_lt_of_le hk (Nat.min_le_right _ _)))
      exact exists_normalInst h hlt fun hr => hret k _ _ (lt_of_lt_of_le hk (Nat.min_le_left _ _))
        (List.getElem?_eq_getElem _) (List.getElem?_eq_getElem hlt) hr
    obtain ⟨su, hsu, -⟩ := exists_run (s := (s, false)) hstep hdeep
    exact ⟨su, hsu⟩
  | declareBlock => exact ⟨_, rfl⟩
  | impactfulCallBlock =>
    obtain ⟨id, hid, hlt⟩ := hone (by simp [htype])
    simp only [hid, Option.bind_some]
    exact exists_visit hdeep hlt _ _
  | memoryAccessBlock | externalCallBlock | memsetBlock | memmoveBlock =>
    obtain ⟨id, hid, hlt⟩ := hone (by simp [htype])
    simp only [hid, Option.bind_some]
    exact exists_visit hdeep hlt _ _

theorem PassState.exists_mark (hdeep : s.Deep b.tid) (used : Bool) : ∃ s', s.mark b used = some s' := by
  have hpos : 0 < (s.nextBBUsed b.tid).length := hdeep .nextBBUsed
  obtain ⟨⟨nextBBID, nextUsed⟩, l, hl⟩ := List.exists_cons_of_length_pos hpos
  simp only [mark, hl]
  exact ⟨_, rfl⟩

theorem PassState.exists_needCaller (hdeep : s.Deep b.tid) : ∃ s', s.needCaller b = some s' := by
  have hpos : 0 < (s.funUsed b.tid).length := hdeep .funUsed
  obtain ⟨u, l, hl⟩ := List.exists_cons_of_length_pos hpos
  simp only [needCaller, hl]
  split_ifs
  · exact ⟨_, rfl⟩
  · exact ⟨s, rfl⟩

theorem PassState.exists_checkFirst (hT : I.tables.IdsInRange) (hs : s.Indexed I.tables)
    (hdeep : s.Deep b.tid) (hbb : b.bbID < I.tables.bb2Ins.length) :
    ∃ s', s.checkFirst I b = some s' := by
  have hpos : 0 < (s.nextBBUsed b.tid).length := hdeep .nextBBUsed
  obtain ⟨⟨nextBBID, used⟩, l, hl⟩ := List.exists_cons_of_length_pos hpos
  simp only [checkFirst, hl]
  split_ifs
  · exact exists_checkTerminator hT hs hdeep hbb
  · exact ⟨s, rfl⟩

theorem checkFirst_height {tid : Nat} {k : PassStack} (h : s.checkFirst I b = some s') :
    s'.height tid k = s.height tid k := by
  unfold PassState.checkFirst at h
  split at h
  · cases h
  · split_ifs at h
    · exact checkTerminator_height h
    · cases h
      rfl

theorem PassState.exists_pop (hdeep : s.Deep b.tid) : ∃ s', s.pop b = some s' := by
  have hfun : 0 < (s.funUsed b.tid).length := hdeep .funUsed
  have hnext : 0 < (s.nextBBUsed b.tid).length := hdeep .nextBBUsed
  have hterm : 0 < (s.terminatorStack b.tid).length := hdeep .terminatorStack
  obtain ⟨f, fs, hf⟩ := List.exists_cons_of_length_pos hfun
  obtain ⟨n, ns, hn⟩ := List.exists_cons_of_length_pos hnext
  obtain ⟨t, ts, ht⟩ := List.exists_cons_of_length_pos hterm
  rw [pop, hf, hn, ht]
  exact ⟨_, rfl⟩

theorem PassState.exists_leave (hT : I.tables.IdsInRange) (hs : s.Indexed I.tables)
    (hdeep : s.Deep b.tid) (hbb : b.bbID < I.tables.bb2Ins.length) :
    ∃ s', s.leave I b = some s' := by
  unfold leave
  by_cases hfirst : 0 < b.isFirst
  · rw [if_pos hfirst]
    obtain ⟨s₁, hs₁⟩ := exists_needCaller hdeep
    obtain ⟨needed, -, rfl⟩ := PassState.needCaller_cases hs₁
    have hdeep₁ : ({ s with needed := needed } : PassState).Deep b.tid := fun k => by
      cases k
      · exact hdeep .funUsed
      · exact hdeep .nextBBUsed
      · exact hdeep .terminatorStack
    have hs' : ({ s with needed := needed } : PassState).Indexed I.tables :=
      ⟨hs.nextBBUsed, hs.terminatorStack⟩
    obtain ⟨s₂, hs₂⟩ := exists_checkFirst hT hs' hdeep₁ hbb
    have hdeep₂ : s₂.Deep b.tid := fun k => (hdeep₁ k).trans_eq (checkFirst_height hs₂).symm
    rw [hs₁, Option.bind_some, hs₂, Option.bind_some]
    exact exists_pop hdeep₂
  · rw [if_neg hfirst]
    exact ⟨s, rfl⟩

/-! ## What lies on the stacks -/

/-- What holds of all entries holds when the stack of one thread has changed. -/
theorem forall_mem_update {α : Type} {f : Nat → List α} {Q : α → Prop}
    (h : ∀ tid, ∀ e ∈ f tid, Q e) {t : Nat} {l : List α} (hl : ∀ e ∈ l, Q e) :
    ∀ tid, ∀ e ∈ Function.update f t l tid, Q e := by
  intro tid
  by_cases ht : tid = t
  · rw [ht, Function.update_self]
    exact hl
  · rw [Function.update_of_ne ht]
    exact h tid

variable {T : Tables}

theorem PassState.Indexed.setTerminator (hs : s.Indexed T) {isNeeded : Bool}
    (hd : isNeeded = false → d.id < T.ins.length) (h : s.setTerminator b d isNeeded = some s') :
    s'.Indexed T := by
  obtain ⟨e, l, hl, rfl⟩ := PassState.setTerminator_cases h
  refine ⟨hs.nextBBUsed, forall_mem_update hs.terminatorStack (List.forall_mem_cons.mpr ⟨hd, ?_⟩)⟩
  exact fun e he => hs.terminatorStack b.tid e (by rw [hl]; exact List.mem_cons_of_mem _ he)

theorem PassState.Indexed.enter (hs : s.Indexed T) (htype : b.type ≠ .declareBlock)
    (h : s.enter I b = some s') : s'.Indexed T := by
  obtain ⟨-, rfl⟩ | ⟨-, rfl, -⟩ | ⟨-, nextBBID, l, s₁, -, -, hcheck, hset⟩ :=
    PassState.enter_cases htype h
  · exact ⟨forall_mem_update hs.nextBBUsed
        (List.forall_mem_cons.mpr ⟨by simp, hs.nextBBUsed b.tid⟩),
      forall_mem_update hs.terminatorStack
        (List.forall_mem_cons.mpr ⟨by simp, hs.terminatorStack b.tid⟩)⟩
  · exact hs
  · obtain ⟨-, hnext, hterm⟩ := hcheck.stacks
    have hs₁ : s₁.Indexed T := ⟨hnext ▸ hs.nextBBUsed, hterm ▸ hs.terminatorStack⟩
    exact hs₁.setTerminator (by simp) hset

theorem PassState.Indexed.visit {n : Bool} (hs : s.Indexed I.tables) (h : Visit I b s id s' n) :
    s'.Indexed I.tables := by
  refine ⟨h.nextBBUsed ▸ hs.nextBBUsed, ?_⟩
  obtain ⟨hterm, -⟩ | ⟨-, ⟨i, hi, -⟩, e, l, hl, hterm⟩ := h.terminatorStack
  · exact hterm ▸ hs.terminatorStack
  · rw [hterm]
    refine forall_mem_update hs.terminatorStack (List.forall_mem_cons.mpr ⟨fun _ => ?_, ?_⟩)
    · exact (List.getElem?_eq_some_iff.mp hi).1
    · exact fun e he => hs.terminatorStack b.tid e (by rw [hl]; exact List.mem_cons_of_mem _ he)

theorem PassState.Indexed.visits {ids : List Nat} {su su' : PassState × Bool}
    (hs : su.1.Indexed I.tables) (h : Visits I b su ids su') : su'.1.Indexed I.tables := by
  induction h with
  | nil => exact hs
  | cons hvisit _ ih => exact ih (hs.visit hvisit)

theorem PassState.Indexed.mark {used : Bool} (hs : s.Indexed T) (hbb : b.bbID < T.bb2Ins.length)
    (h : s.mark b used = some s') : s'.Indexed T := by
  obtain ⟨e, l, hl, rfl⟩ := PassState.mark_cases h
  refine ⟨forall_mem_update hs.nextBBUsed (List.forall_mem_cons.mpr ⟨fun _ => hbb, ?_⟩),
    hs.terminatorStack⟩
  exact fun e he => hs.nextBBUsed b.tid e (by rw [hl]; exact List.mem_cons_of_mem _ he)

theorem PassState.Indexed.pop (hs : s.Indexed T) (h : s.pop b = some s') : s'.Indexed T := by
  obtain ⟨n, ns, t, ts, hn, ht, -, -, hnext, hterm⟩ := PassState.pop_cases h
  refine ⟨?_, ?_⟩
  · rw [hnext]
    exact forall_mem_update hs.nextBBUsed fun e he =>
      hs.nextBBUsed b.tid e (by rw [hn]; exact List.mem_cons_of_mem _ he)
  · rw [hterm]
    exact forall_mem_update hs.terminatorStack fun e he =>
      hs.terminatorStack b.tid e (by rw [ht]; exact List.mem_cons_of_mem _ he)

theorem PassState.Indexed.leaves {call : PassSets → DynamicInst → Nat → Prop} (hs : s.Indexed T)
    (h : Leaves I b call s s') : s'.Indexed T := by
  cases h with
  | stay => exact hs
  | @pop needed s₂ _ e l _ _ _ hcheck hpop =>
    have hs₁ : ({ s with needed := needed } : PassState).Indexed T :=
      ⟨hs.nextBBUsed, hs.terminatorStack⟩
    have hs₂ : s₂.Indexed T := by
      obtain ⟨-, rfl⟩ | ⟨-, hcheck⟩ := hcheck
      · exact hs₁
      · obtain ⟨-, hnext, hterm⟩ := hcheck.stacks
        exact ⟨hnext ▸ hs₁.nextBBUsed, hterm ▸ hs₁.terminatorStack⟩
    exact hs₂.pop hpop

theorem PassState.Indexed.step (hs : s.Indexed I.tables)
    (hbb : b.type ≠ .declareBlock → b.bbID < I.tables.bb2Ins.length)
    (h : extractStep I s b = some s') : s'.Indexed I.tables := by
  obtain ⟨-, rfl⟩ | ⟨htype, s₁, henter, hrest⟩ := extractStep_cases h
  · exact ⟨hs.nextBBUsed, hs.terminatorStack⟩
  have hs₁ := hs.enter htype henter
  obtain ⟨-, rfl⟩ | ⟨-, s₂, used, s₃, s₄, hvisits, hmark, hleaves, rfl⟩ := hrest
  · exact ⟨hs₁.nextBBUsed, hs₁.terminatorStack⟩
  · have hs₂ : s₂.Indexed I.tables := hs₁.visits hvisits
    have hs₄ := (hs₂.mark (hbb htype) hmark).leaves hleaves
    exact ⟨hs₄.nextBBUsed, hs₄.terminatorStack⟩

/-! ## Back over a block -/

/-- How many entries the open frames of a thread have on the stacks of the pass. In front of the first
block of an activation its entry has been popped. -/
def openEntries (first : Nat × Nat) (stk : List StackInfo) : Nat :=
  stk.length - if 0 < first.1 then 1 else 0

/-- The stacks are at least as high as the call stacks, and what lies on them can be looked up. -/
structure PassState.Ready (T : Tables) (s : PassState) (first : Nat → Nat × Nat)
    (stks : Nat → List StackInfo) : Prop where
  indexed : s.Indexed T
  height : ∀ tid k, openEntries (first tid) (stks tid) ≤ s.height tid k

variable {P : Program} {p : Nat × Nat} {tid : Nat} {stk rest : List StackInfo} {bb : List Nat}

/-- What the emission of a block does to the call stack. -/
theorem EmitsBlock.shape (h : EmitsBlock T tid p stk b rest) :
    b.type ≠ .declareBlock ∧ b.tid = tid ∧ b.isFirst = p.1 ∧ stk ≠ [] ∧
      (∃ bb, T.bb2Ins[b.bbID]? = some bb ∧ b.Fits bb) ∧
      stk.length = rest.length + if 0 < b.isLast then 1 else 0 := by
  cases h with
  | @stay info rest bb _ hbb hpiece hlast =>
    refine ⟨hpiece.type, hpiece.tid, hpiece.isFirst, List.cons_ne_nil _ _,
      ⟨bb, by rw [hpiece.bbID]; exact hbb, hpiece.fits⟩, ?_⟩
    rw [hlast]
    rfl
  | @pop info rest bb _ hbb hpiece hlast =>
    refine ⟨hpiece.type, hpiece.tid, hpiece.isFirst, List.cons_ne_nil _ _,
      ⟨bb, by rw [hpiece.bbID]; exact hbb, hpiece.fits⟩, ?_⟩
    rw [if_pos hlast]
    rfl

/-- A return is the end of an activation. -/
theorem EmitsBlock.returns_last (h : EmitsBlock P.toTables tid p stk b rest)
    (hbb : P.bb2Ins[b.bbID]? = some bb) {k : Nat} {i : InstInfo} (hk : k < b.stop)
    (hid : bb[k]? = some id) (hi : P.ins[id]? = some i) (htype : i.type = .returnInst) :
    0 < b.isLast := by
  have hend := (P.ends bb (List.mem_of_getElem? hbb) k id i hid hi).mp (.inr htype)
  cases h with
  | @stay info rest bb' _ hbb' hpiece _ hterm =>
    rw [hpiece.bbID] at hbb
    cases hbb.symm.trans hbb'
    have hstop : b.stop = bb.length := by
      have := hpiece.fits.2.1
      omega
    have hlast : bb.getLast? = some id := by
      rw [List.getLast?_eq_getElem?, ← hend, Nat.add_sub_cancel, hid]
    have hterm := hterm hstop
    simp [Tables.endType, hlast, hi, htype] at hterm
  | pop _ _ hlast => exact hlast

theorem SmallestBlock.exists_skipped {bb : List Nat} (hbb : T.bb2Ins[b.bbID]? = some bb)
    (hfits : b.Fits bb) (hids : ∀ id ∈ bb, id < T.ins.length) : ∃ skip, b.skipped T = some skip := by
  have hlt : b.start < bb.length := hfits.1.trans_le hfits.2.1
  unfold skipped
  split_ifs
  · rw [insID?, hbb, Option.bind_some, List.getElem?_eq_getElem hlt, Option.bind_some,
      List.getElem?_eq_getElem (hids _ (List.getElem_mem hlt))]
    exact ⟨_, rfl⟩
  · exact ⟨false, rfl⟩

/-- The turn for a block that has been emitted can be taken. -/
theorem PassState.exists_turn (hI : I.tables = P.toTables) (hs : s.Indexed P.toTables)
    (hdeep : b.isLast = 0 → s.Deep b.tid) (hlast : b.isLast ≤ 2)
    (hemit : EmitsBlock P.toTables tid p stk b rest) : ∃ s', s.turn I b = some s' := by
  obtain ⟨htype, -, -, -, ⟨bb, hbb, hfits⟩, -⟩ := hemit.shape
  have hret : ∀ k id i, k < b.stop → bb[k]? = some id → I.tables.ins[id]? = some i →
      i.type = .returnInst → b.isLast = 1 ∨ b.isLast = 2 := by
    intro k id i hk hid hi hreturn
    rw [hI] at hi
    have := hemit.returns_last hbb hk hid hi hreturn
    omega
  have hids := P.ids_lt bb (List.mem_of_getElem? hbb)
  have hT : I.tables.IdsInRange := by rw [hI]; exact P.ids_lt
  have hlt := (List.getElem?_eq_some_iff.mp hbb).1
  rw [← hI] at hs hbb hids hlt
  obtain ⟨s₁, henter⟩ := exists_enter hT hs hdeep
  have hdeep₁ : s₁.Deep b.tid := fun k => by
    rw [enter_height henter]
    by_cases hl : 0 < b.isLast
    · simp [hl]
    · exact (hdeep (Nat.eq_zero_of_not_pos hl) k).trans_le (Nat.le_add_right _ _)
  obtain ⟨skip, hskip⟩ := SmallestBlock.exists_skipped hbb hfits hids
  rw [turn, if_neg htype, henter, Option.bind_some, hskip, Option.bind_some]
  cases skip with
  | true => exact ⟨s₁, rfl⟩
  | false =>
    obtain ⟨su, hsu⟩ := exists_instructions hdeep₁ hbb hfits hids hret
    have hdeep₂ : su.1.Deep b.tid := fun k => (hdeep₁ k).trans_eq (instructions_height hsu).symm
    obtain ⟨s₃, hmark⟩ := exists_mark hdeep₂ su.2
    have hdeep₃ : s₃.Deep b.tid := fun k => (hdeep₂ k).trans_eq (mark_height hmark).symm
    have hindexed : s₃.Indexed I.tables := by
      have hs₁ := hs.enter htype henter
      exact (PassState.Indexed.visits hs₁ (instructions_visits hskip hsu)).mark hlt hmark
    have hbody : s₁.body I b = some s₃ := by rw [body, hsu, Option.bind_some, hmark]
    rw [if_neg (by simp), hbody, Option.bind_some]
    exact exists_leave hT hindexed hdeep₃ hlt

variable {first : Nat → Nat × Nat} {stks : Nat → List StackInfo} {l : List SmallestBlock}

/-- **A block that has been emitted** can be taken back. -/
theorem PassState.Ready.emit (hI : I.tables = P.toTables)
    (hs : s.Ready P.toTables (Function.update first tid (0, 0)) (Function.update stks tid rest))
    (hlast : b.isLast ≤ 2) (hemit : EmitsBlock P.toTables tid (first tid) (stks tid) b rest) :
    ∃ s', extractStep I s b = some s' ∧ s'.Ready P.toTables first stks := by
  obtain ⟨htype, rfl, hfirst, hne, ⟨bb, hbb, -⟩, hlength⟩ := hemit.shape
  have hheight := hs.height
  have hself : ∀ k, rest.length ≤ s.height b.tid k := fun k => by
    simpa [openEntries] using hheight b.tid k
  have hdeep : b.isLast = 0 → s.Deep b.tid := fun hzero k => by
    have := List.length_pos_iff.mpr hne
    rw [if_neg (by omega)] at hlength
    exact lt_of_lt_of_le (by omega) (hself k)
  obtain ⟨t, hturn⟩ := exists_turn hI hs.indexed hdeep hlast hemit
  have hstep : extractStep I s b = some { t with pos := t.pos + 1 } := by
    rw [extractStep, hturn, Option.map_some]
  refine ⟨_, hstep, ?_, fun u k => ?_⟩
  · rw [← hI]
    refine PassState.Indexed.step (by rw [hI]; exact hs.indexed) (fun _ => ?_) hstep
    rw [hI]
    exact (List.getElem?_eq_some_iff.mp hbb).1
  rw [extractStep_height hstep]
  by_cases hu : u = b.tid
  · subst hu
    have hself := hself k
    have hpop : (if b.type ≠ .declareBlock ∧ b.tid = b.tid ∧ 0 < b.isFirst ∧
        b.skipped I.tables = some false then 1 else 0) ≤ if 0 < b.isFirst then 1 else 0 := by
      by_cases hf : 0 < b.isFirst
      · rw [if_pos hf]
        split_ifs <;> omega
      · rw [if_neg fun h => hf h.2.2.1]
        exact Nat.zero_le _
    simp only [ne_eq, htype, not_false_eq_true, true_and] at hpop ⊢
    rw [openEntries, hlength, ← hfirst]
    omega
  · have := hheight u k
    rw [Function.update_of_ne hu, Function.update_of_ne hu] at this
    simpa [hu] using this

theorem PassState.Ready.changes {q : Nat × Nat} (hs : s.Ready T (Function.update first tid q)
      (Function.update stks tid stk)) (hle : openEntries (first tid) (stks tid) ≤ openEntries q stk) :
    s.Ready T first stks := by
  refine ⟨hs.indexed, fun u k => ?_⟩
  have := hs.height u k
  by_cases hu : u = tid
  · subst hu
    rw [Function.update_self, Function.update_self] at this
    exact hle.trans this
  · rwa [Function.update_of_ne hu, Function.update_of_ne hu] at this

/-- **The pass goes back over a trail.** -/
theorem Trail.extract (hI : I.tables = P.toTables) (h : Trail P.toTables first stks l)
    (hlast : ∀ b ∈ l, b.isLast ≤ 2) (hs : s.Ready P.toTables first stks) :
    ∃ s', run (extractStep I) s l.reverse = some s' := by
  induction h generalizing s with
  | init => exact ⟨s, rfl⟩
  | @declare first stks l b _ htype ih =>
    rw [List.reverse_append, List.reverse_singleton, List.singleton_append]
    have hready : ({ s with pos := s.pos + 1 } : PassState).Ready P.toTables first stks := by
      refine ⟨⟨hs.indexed.nextBBUsed, hs.indexed.terminatorStack⟩, fun tid k => ?_⟩
      cases k
      · exact hs.height tid .funUsed
      · exact hs.height tid .nextBBUsed
      · exact hs.height tid .terminatorStack
    obtain ⟨s', hs'⟩ := ih (fun b hb => hlast b (List.mem_append_left _ hb)) hready
    refine ⟨s', run_cons_eq_some.mpr ⟨_, ?_, hs'⟩⟩
    rw [extractStep, PassState.turn, if_pos htype, Option.map_some]
  | @emit first stks l tid b stk _ hemit ih =>
    rw [List.reverse_append, List.reverse_singleton, List.singleton_append]
    obtain ⟨s₁, hstep, hs₁⟩ := hs.emit hI (hlast b (by simp)) hemit
    obtain ⟨s', hs'⟩ := ih (fun b hb => hlast b (List.mem_append_left _ hb)) hs₁
    exact ⟨s', run_cons_eq_some.mpr ⟨s₁, hstep, hs'⟩⟩
  | @start first stks l tid _ hstk id ih =>
    refine ih hlast (hs.changes ?_)
    simp [hstk, openEntries]
  | @jump first stks l tid info rest bb htrail hstk _ _ hpos id _ ih =>
    refine ih hlast (hs.changes ?_)
    rw [hstk, openEntries, htrail.first_eq_zero hstk hpos]
    rfl
  | @call first stks l tid info rest htrail hstk _ hpos id caller ih =>
    refine ih hlast (hs.changes ?_)
    rw [hstk, openEntries, htrail.first_eq_zero hstk hpos]
    simp [openEntries]

end

/-! ## The blocks of a merged trace -/

/-- What the passes read of a block besides its instructions. -/
structure SmallestBlock.Shaped (b : SmallestBlock) : Prop where
  isLast : b.isLast ≤ 2
  range : b.type = .memoryAccessBlock ∨ b.type = .memsetBlock → 2 ≤ b.addr.length
  ranges : b.type = .memmoveBlock → 4 ≤ b.addr.length

section

variable {T : Tables} {impactful : Nat → Bool} {s s' : MergeState} {tid : Nat}

theorem popInfo_le {rest : List StackInfo} {caller : Nat} {p : Nat × Nat}
    (h : popInfo T caller rest = some p) : p.1 ≤ 2 := by
  cases rest with
  | nil =>
    cases h
    exact le_refl 2
  | cons info rest =>
    obtain ⟨c, -, rfl⟩ := Option.map_eq_some_iff.mp h
    exact Nat.le_succ 1

theorem runAhead_shaped {stk stk' : List StackInfo} {first first' : Nat × Nat}
    {bs : List SmallestBlock} (h : runAhead T tid stk first = some (stk', first', bs)) :
    ∀ b ∈ bs, b.Shaped := by
  induction stk generalizing stk' first first' bs with
  | nil =>
    cases h
    simp
  | cons info rest ih =>
    simp only [runAhead, Option.bind_eq_bind, Option.bind_eq_some_iff] at h
    obtain ⟨bb, -, n, -, last, -, h⟩ := h
    split_ifs at h with hn hl
    · obtain ⟨p, hp, h⟩ := Option.bind_eq_some_iff.mp h
      obtain ⟨⟨stk₁, first₁, bs₁⟩, hrun, h⟩ := Option.bind_eq_some_iff.mp h
      cases h
      refine List.forall_mem_cons.mpr ⟨⟨popInfo_le hp, ?_, ?_⟩, ih hrun⟩
      · simp [SmallestBlock.make]
      · simp [SmallestBlock.make]
    · cases h
      refine List.forall_mem_singleton.mpr ⟨Nat.zero_le 2, ?_, ?_⟩
      · simp [SmallestBlock.make]
      · simp [SmallestBlock.make]
    · cases h
      simp

theorem advance_shaped (hs : ∀ b ∈ s.blockTrace, b.Shaped) (h : s.advance T tid = some s') :
    ∀ b ∈ s'.blockTrace, b.Shaped := by
  obtain ⟨stk, first, bs, hrun, rfl⟩ := advance_eq_some h
  exact List.forall_mem_append.mpr ⟨hs, runAhead_shaped hrun⟩

theorem instBlock_shaped {type : SmallestBlockType} {id : Nat} {addr : List Nat}
    (hs : ∀ b ∈ s.blockTrace, b.Shaped)
    (hrange : type = .memoryAccessBlock ∨ type = .memsetBlock → 2 ≤ addr.length)
    (hranges : type = .memmoveBlock → 4 ≤ addr.length)
    (h : s.instBlock T type tid id addr = some s') : ∀ b ∈ s'.blockTrace, b.Shaped := by
  unfold MergeState.instBlock at h
  split at h
  · cases h
  · simp only [Option.bind_eq_bind, Option.bind_eq_some_iff] at h
    obtain ⟨bb, -, insID, -, -, -, h⟩ := h
    cases h
    exact List.forall_mem_append.mpr ⟨hs, List.forall_mem_singleton.mpr ⟨Nat.zero_le 2, hrange, hranges⟩⟩

theorem dispatch_shaped {e : Event} (hs : ∀ b ∈ s.blockTrace, b.Shaped)
    (h : s.dispatch T impactful e = some s') : ∀ b ∈ s'.blockTrace, b.Shaped := by
  cases e with
  | argument tid addr =>
    cases h
    exact hs
  | basicBlock tid id =>
    obtain ⟨-, -, -, hb, -⟩ := enterBlock_eq_some h
    rw [hb]
    exact hs
  | memory tid id addr length =>
    simp only [MergeState.dispatch] at h
    split_ifs at h
    · cases h
      refine List.forall_mem_append.mpr ⟨hs, List.forall_mem_singleton.mpr ⟨Nat.zero_le 2, ?_, ?_⟩⟩
      · simp
      · simp
    · exact instBlock_shaped hs (by simp [addrRange]) (by simp) h
  | ret tid id addr =>
    simp only [MergeState.dispatch, Option.bind_eq_bind, Option.bind_eq_some_iff] at h
    obtain ⟨type, htype, s₁, hs₁, h⟩ := h
    cases h
    have hcall := callBlockType_cases htype
    have h₁ : ∀ b ∈ s₁.blockTrace, b.Shaped := by
      refine instBlock_shaped hs (fun ht => ?_) (fun ht => ?_) hs₁
      · rcases hcall with rfl | rfl <;> simp at ht
      · rcases hcall with rfl | rfl <;> simp at ht
    exact h₁
  | memset tid id addr length => exact instBlock_shaped hs (by simp [addrRange]) (by simp) h
  | memmove tid id addr addr2 length => exact instBlock_shaped hs (by simp) (by simp [addrRange]) h

theorem mergeStep_shaped {x : Entry} (hs : ∀ b ∈ s.blockTrace, b.Shaped)
    (h : mergeStep T impactful s x = some s') : ∀ b ∈ s'.blockTrace, b.Shaped := by
  cases x with
  | event e =>
    obtain ⟨s₁, hs₁, h⟩ := Option.bind_eq_some_iff.mp h
    have h₀ : ∀ b ∈ ({ s with tidPtr := some e.tid } : MergeState).blockTrace, b.Shaped := hs
    have h₁ := dispatch_shaped h₀ hs₁
    split at h
    · cases h
      exact h₁
    · exact advance_shaped h₁ h
  | mark m t =>
    obtain ⟨tid, -, h⟩ := Option.bind_eq_some_iff.mp h
    have h₀ : ∀ b ∈ ({ s with tidPtr := some tid } : MergeState).blockTrace, b.Shaped := hs
    exact advance_shaped h₀ h

/-! ## The blocks of the closing loop -/

/-- A block that closes a frame. -/
structure SmallestBlock.Closing (b : SmallestBlock) : Prop where
  type : b.type = .normalBlock
  stop : b.stop = b.start
  isFirst : b.isFirst = 0
  isLast : 0 < b.isLast

theorem closeThread_closing {last : StackInfo → Option Int} {stk : List StackInfo}
    {bs : List SmallestBlock} (h : closeThread T tid last stk = some bs) :
    (∀ b ∈ bs, b.Closing ∧ b.Shaped ∧ b.tid = tid) ∧ bs.length = stk.length := by
  induction stk generalizing bs with
  | nil =>
    cases h
    simp
  | cons info rest ih =>
    obtain ⟨l, p, bs', -, hp, hbs', rfl⟩ := closeThread_cons.mp h
    refine ⟨List.forall_mem_cons.mpr ⟨⟨⟨rfl, rfl, rfl, ?_⟩, ⟨popInfo_le hp, ?_, ?_⟩, rfl⟩, (ih hbs').1⟩, ?_⟩
    · exact Nat.pos_of_ne_zero (popInfo_ne_zero hp)
    · simp [SmallestBlock.make]
    · simp [SmallestBlock.make]
    · rw [List.length_cons, List.length_cons, (ih hbs').2]

theorem closeThreads_closing {p : Option Nat} {cs : Nat → List StackInfo} {tids : List Nat}
    {bs : List SmallestBlock} (h : closeThreads T p cs tids = some bs) :
    (∀ b ∈ bs, b.Closing ∧ b.Shaped) ∧
      ∀ tid ∈ tids, (cs tid).length ≤ bs.countP fun b => b.tid = tid := by
  induction tids generalizing cs bs with
  | nil =>
    cases h
    simp
  | cons v tids ih =>
    obtain ⟨bs₁, bs₂, h₁, h₂, rfl⟩ := closeThreads_cons.mp h
    obtain ⟨hv, hlength⟩ := closeThread_closing h₁
    obtain ⟨hrest, hcount⟩ := ih h₂
    refine ⟨List.forall_mem_append.mpr ⟨fun b hb => ⟨(hv b hb).1, (hv b hb).2.1⟩, hrest⟩,
      fun tid htid => ?_⟩
    rw [List.countP_append]
    by_cases ht : tid = v
    · subst ht
      have hall : (bs₁.countP fun b => b.tid = tid) = bs₁.length :=
        List.countP_eq_length.mpr fun b hb => decide_eq_true (hv b hb).2.2
      omega
    · have := hcount tid ((List.mem_cons.mp htid).resolve_left ht)
      rw [Function.update_of_ne ht] at this
      omega

end

section

variable {I : PassInput} {s : PassState} {b : SmallestBlock}

/-- A block that closes a frame pushes an entry. -/
theorem PassState.Indexed.closing (hs : s.Indexed I.tables) (hb : b.Closing) :
    ∃ s', extractStep I s b = some s' ∧ s'.Indexed I.tables ∧
      ∀ tid k, s'.height tid k = s.height tid k + if b.tid = tid then 1 else 0 := by
  have htype : b.type ≠ .declareBlock := by simp [hb.type]
  have hskip : b.skipped I.tables = some false := by simp [SmallestBlock.skipped, hb.type]
  have henter : s.enter I b = some (s.push b) := by
    rw [PassState.enter, if_pos hb.isLast]
  have hinstructions : (s.push b).instructions I b = some (s.push b, false) := by
    simp [PassState.instructions, hb.type, SmallestBlock.insIDs?, hb.stop]
  have hnext : (s.push b).nextBBUsed b.tid = (b.bbID, false) :: s.nextBBUsed b.tid := by
    simp [PassState.push]
  obtain ⟨s₁, hmark, hs₁⟩ : ∃ s₁, (s.push b).mark b false = some s₁ ∧ s₁.Indexed I.tables := by
    simp only [PassState.mark, hnext]
    refine ⟨_, rfl, ?_, (hs.enter htype henter).terminatorStack⟩
    exact forall_mem_update (hs.enter htype henter).nextBBUsed
      (List.forall_mem_cons.mpr ⟨by simp, hs.nextBBUsed b.tid⟩)
  have hstep : extractStep I s b = some { s₁ with pos := s₁.pos + 1 } := by
    simp [extractStep, PassState.turn, htype, henter, hskip, PassState.body, hinstructions, hmark,
      PassState.leave, hb.isFirst]
  refine ⟨_, hstep, ⟨hs₁.nextBBUsed, hs₁.terminatorStack⟩, fun tid k => ?_⟩
  rw [extractStep_height hstep]
  simp [htype, hb.isFirst, hb.isLast, eq_comm]

theorem PassState.Indexed.closings {bs : List SmallestBlock} (hs : s.Indexed I.tables)
    (hbs : ∀ b ∈ bs, b.Closing) :
    ∃ s', run (extractStep I) s bs = some s' ∧ s'.Indexed I.tables ∧
      ∀ tid k, s'.height tid k = s.height tid k + bs.countP fun b => b.tid = tid := by
  induction bs generalizing s with
  | nil => exact ⟨s, rfl, hs, fun tid k => by simp⟩
  | cons b bs ih =>
    obtain ⟨hb, hbs⟩ := List.forall_mem_cons.mp hbs
    obtain ⟨s₁, hstep, hs₁, hheight₁⟩ := hs.closing hb
    obtain ⟨s', hrun, hs', hheight⟩ := ih hs₁ hbs
    refine ⟨s', run_cons_eq_some.mpr ⟨s₁, hstep, hrun⟩, hs', fun tid k => ?_⟩
    rw [hheight, hheight₁, List.countP_cons]
    simp only [decide_eq_true_eq]
    omega

end

/-! ## The events -/

/-- An instruction that does not end its basic block. -/
def Tables.Inner (T : Tables) (id : Nat) : Prop :=
  ∃ i, T.ins[id]? = some i ∧ ¬ (i.type = .terminatorInst ∨ i.type = .returnInst)

/-- The event names a basic block, an instruction that does not end one, or a declaration. -/
def Event.Known (T : Tables) : Event → Prop
  | .argument .. => True
  | .basicBlock _ id => id < T.bb2Ins.length
  | .memory _ id _ _ => id = noId ∨ T.Inner id
  | .ret _ id _ | .memset _ id _ _ | .memmove _ id _ _ _ => T.Inner id

section

variable {P : Program} {impactful : Nat → Bool} {s s' : MergeState} {trace : List SmallestBlock}

theorem MergeState.Trails.dispatch {e : Event} (h : s.Trails P.toTables) (he : e.Known P.toTables)
    (hstep : s.dispatch P.toTables impactful e = some s') : s'.Trails P.toTables := by
  cases e with
  | argument tid addr =>
    cases hstep
    exact h
  | basicBlock tid id => exact h.enterBlock he hstep
  | memory tid id addr length =>
    simp only [MergeState.dispatch] at hstep
    split_ifs at hstep with hid
    · cases hstep
      exact Trail.declare h rfl
    · obtain ⟨i, hi, hinner⟩ := he.resolve_left hid
      exact h.instBlock (by simp) hi hinner hstep
  | ret tid id addr =>
    simp only [MergeState.dispatch, Option.bind_eq_bind, Option.bind_eq_some_iff] at hstep
    obtain ⟨type, htype, s₁, hs₁, hstep⟩ := hstep
    cases hstep
    obtain ⟨i, hi, hinner⟩ := he
    have hne : type ≠ .declareBlock := by
      rcases callBlockType_cases htype with rfl | rfl <;> simp
    have h₁ : s₁.Trails P.toTables := h.instBlock hne hi hinner hs₁
    exact h₁
  | memset tid id addr length | memmove tid id addr addr2 length =>
    obtain ⟨i, hi, hinner⟩ := he
    exact h.instBlock (by simp) hi hinner hstep

theorem MergeState.Trails.entry {x : Entry} (h : s.Trails P.toTables)
    (hx : ∀ e, x = .event e → e.Known P.toTables)
    (hstep : mergeStep P.toTables impactful s x = some s') : s'.Trails P.toTables := by
  cases x with
  | event e =>
    obtain ⟨s₁, hs₁, hstep⟩ := Option.bind_eq_some_iff.mp hstep
    have h₀ : MergeState.Trails P.toTables { s with tidPtr := some e.tid } := h
    have h₁ := h₀.dispatch (hx e rfl) hs₁
    split_ifs at hstep
    · cases hstep
      exact h₁
    · exact h₁.advance hstep
  | mark m t =>
    obtain ⟨tid, -, hstep⟩ := Option.bind_eq_some_iff.mp hstep
    have h₀ : MergeState.Trails P.toTables { s with tidPtr := some tid } := h
    exact h₀.advance hstep

/-- The threads with frames are in the map. -/
def MergeState.Mapped (s : MergeState) : Prop := ∀ tid, s.callStack tid ≠ [] → tid ∈ s.tids

theorem MergeState.Mapped.advance {T : Tables} {tid : Nat} (h : s.Mapped)
    (hadvance : s.advance T tid = some s') : s'.Mapped := by
  obtain ⟨stk, first, bs, hrun, rfl⟩ := advance_eq_some hadvance
  intro t ht
  by_cases htid : t = tid
  · subst htid
    refine h t fun hnil => ?_
    rw [hnil] at hrun
    cases hrun
    simp at ht
  · exact h t (by simpa [htid] using ht)

theorem MergeState.Mapped.entry {x : Entry} {T : Tables} (h : s.Mapped)
    (hstep : mergeStep T impactful s x = some s') : s'.Mapped := by
  cases x with
  | event e =>
    obtain ⟨s₁, hs₁, hstep⟩ := Option.bind_eq_some_iff.mp hstep
    have h₁ : s₁.Mapped := (dispatch_eq_some hs₁).tids h
    split_ifs at hstep
    · cases hstep
      exact h₁
    · exact h₁.advance hstep
  | mark m t =>
    obtain ⟨tid, -, hstep⟩ := Option.bind_eq_some_iff.mp hstep
    have h₀ : MergeState.Mapped { s with tidPtr := some tid } := h
    exact h₀.advance hstep

/-- What the merger keeps while it reads entries. -/
structure MergeState.Kept (T : Tables) (s : MergeState) : Prop where
  trails : s.Trails T
  mapped : s.Mapped
  shaped : ∀ b ∈ s.blockTrace, b.Shaped

theorem kept_of_run {entries : List Entry}
    (hknown : ∀ e, .event e ∈ entries → e.Known P.toTables)
    (hrun : run (mergeStep P.toTables impactful) {} entries = some s) : s.Kept P.toTables := by
  have hinit : MergeState.Kept P.toTables {} :=
    ⟨Trail.init, fun _ h => absurd rfl h, by simp⟩
  exact run_follows (R := fun s (_ : Unit) => s.Kept P.toTables) (g := fun _ _ => ()) (r := ())
    (fun s _ x s' hx h hstep => ⟨h.trails.entry (fun e he => hknown e (he ▸ hx)) hstep,
      h.mapped.entry hstep, mergeStep_shaped h.shaped hstep⟩) hinit hrun

/-! ## The passes -/

/-- The blocks of a trail are pieces of basic blocks. -/
theorem Trail.fits {T : Tables} {first : Nat → Nat × Nat} {stks : Nat → List StackInfo}
    {l : List SmallestBlock} (h : Trail T first stks l) : ∀ b ∈ l, b.type ≠ .declareBlock →
      ∃ bb, T.bb2Ins[b.bbID]? = some bb ∧ b.Fits bb := by
  induction h with
  | init => simp
  | declare _ htype ih =>
    exact List.forall_mem_append.mpr ⟨ih, List.forall_mem_singleton.mpr fun hne => absurd htype hne⟩
  | emit _ hemit ih =>
    exact List.forall_mem_append.mpr
      ⟨ih, List.forall_mem_singleton.mpr fun _ => hemit.shape.2.2.2.2.1⟩
  | start _ _ _ ih | jump _ _ _ _ _ _ _ ih | call _ _ _ _ _ _ ih => exact ih

/-- The blocks of a trail are well-formed. -/
theorem Trail.wellFormed {first : Nat → Nat × Nat} {stks : Nat → List StackInfo}
    {l : List SmallestBlock} (h : Trail P.toTables first stks l) (hshaped : ∀ b ∈ l, b.Shaped)
    (hwords : ∀ b ∈ l, b.Words) : ∀ b ∈ l, b.WellFormed P.toTables := by
  intro b hb
  refine ⟨fun hcounted => ?_, hwords b hb, (hshaped b hb).range, (hshaped b hb).ranges⟩
  obtain ⟨bb, hbb, hfits⟩ := h.fits b hb (by
    rintro htype
    simp [SmallestBlock.counted, htype] at hcounted)
  have hlt : b.start < bb.length := hfits.1.trans_le hfits.2.1
  have hid := P.ids_lt bb (List.mem_of_getElem? hbb) _ (List.getElem_mem hlt)
  refine ⟨bb[b.start], P.ins[bb[b.start]], ?_, List.getElem?_eq_getElem hid⟩
  rw [SmallestBlock.insID?, hbb, Option.bind_some, List.getElem?_eq_getElem hlt]

/-- The merged trace is what the merger has kept, and the blocks of the closing loop. -/
theorem mergeTrace_eq_some {T : Tables} {entries : List Entry}
    (hmerge : mergeTrace T impactful entries = some trace) :
    ∃ s closing, run (mergeStep T impactful) {} entries = some s ∧
      closeThreads T s.tidPtr s.callStack s.tids = some closing ∧
      trace = s.blockTrace ++ closing := by
  simp only [mergeTrace, Option.bind_eq_bind, Option.bind_eq_some_iff] at hmerge
  obtain ⟨s, hrun, closing, hclosing, htrace⟩ := hmerge
  exact ⟨s, closing, hrun, hclosing, (Option.some.inj htrace).symm⟩

/-- The blocks of a merged trace are well-formed. -/
theorem mergeTrace_wellFormed {entries : List Entry}
    (hevents : ∀ e, .event e ∈ entries → e.InRange ∧ e.Known P.toTables)
    (hmerge : mergeTrace P.toTables impactful entries = some trace) :
    ∀ b ∈ trace, b.WellFormed P.toTables := by
  have hwords := mergeTrace_words (fun e he => (hevents e he).1) hmerge
  obtain ⟨s, closing, hrun, hclosing, rfl⟩ := mergeTrace_eq_some hmerge
  have hkept := kept_of_run (fun e he => (hevents e he).2) hrun
  obtain ⟨hclosers, -⟩ := closeThreads_closing hclosing
  obtain ⟨hwords, hwords'⟩ := List.forall_mem_append.mp hwords
  refine List.forall_mem_append.mpr ⟨hkept.trails.wellFormed hkept.shaped hwords, fun b hb => ?_⟩
  refine ⟨fun hcounted => ?_, hwords' b hb, (hclosers b hb).2.range, (hclosers b hb).2.ranges⟩
  simp [SmallestBlock.counted, (hclosers b hb).1.type] at hcounted

/-- The backward pass comes to the first block of a merged trace. -/
theorem mergeTrace_extracts {entries : List Entry}
    (hknown : ∀ e, .event e ∈ entries → e.Known P.toTables)
    (hmerge : mergeTrace P.toTables impactful entries = some trace) {I : PassInput}
    (hI : I.tables = P.toTables) : ∃ unneeded, extractUneededOperation I trace = some unneeded := by
  obtain ⟨s, closing, hrun, hclosing, rfl⟩ := mergeTrace_eq_some hmerge
  have hkept := kept_of_run hknown hrun
  obtain ⟨hclosers, hcount⟩ := closeThreads_closing hclosing
  have hempty : ({} : PassState).Indexed I.tables := ⟨by simp, by simp⟩
  have hclosings : ∀ b ∈ closing.reverse, b.Closing := fun b hb =>
    (hclosers b (List.mem_reverse.mp hb)).1
  obtain ⟨u, hu, hindexed, hheight⟩ := hempty.closings hclosings
  have hready : u.Ready P.toTables s.isFirst s.callStack := by
    refine ⟨hI ▸ hindexed, fun tid k => ?_⟩
    rw [hheight, List.countP_reverse]
    have hle : openEntries (s.isFirst tid) (s.callStack tid) ≤ (s.callStack tid).length :=
      Nat.sub_le _ _
    by_cases hnil : s.callStack tid = []
    · simp [openEntries, hnil]
    · have := hcount tid (hkept.mapped tid hnil)
      omega
  obtain ⟨u', hu'⟩ := hkept.trails.extract hI (fun b hb => (hkept.shaped b hb).isLast) hready
  refine ⟨u'.unneededDI, ?_⟩
  rw [extractUneededOperation, List.reverse_append, run_append, hu, Option.bind_some, hu']
  rfl

/-- **The analysis goes through.** When the events of a trace name what the tables have, both passes
return on every block trace that `MergeTrace` has made of it. -/
theorem analysis_completes {entries : List Entry}
    (hevents : ∀ e, .event e ∈ entries → e.InRange ∧ e.Known P.toTables)
    (hmerge : mergeTrace P.toTables impactful entries = some trace) (G : Groups)
    (postDominator : Nat → Finset Nat) :
    ∃ deps, extractMemoryDependency P.toTables G trace = some deps ∧
      ∀ memDependencies : DynamicInst → Finset DynamicInst,
        ∃ unneeded, extractUneededOperation ⟨P.toTables, postDominator, memDependencies⟩ trace =
          some unneeded := by
  obtain ⟨deps, hdeps, -⟩ := extract_follows P.toTables G (mergeTrace_wellFormed hevents hmerge)
  refine ⟨deps, hdeps, fun memDependencies => ?_⟩
  exact mergeTrace_extracts (fun e he => (hevents e he).2) hmerge rfl

end

/-- The program of `callProgram` is stopped while it calls `g`: a frame is left to be closed. -/
theorem analysis_completes_cutOff : ∃ trace,
    mergeTrace callProgram.toTables (fun _ => false)
      ([.basicBlock 7 0, .memory 7 0 4096 8].map .event) = some trace ∧
    (∃ b ∈ trace, b.stop = b.start) ∧
    ∃ deps, extractMemoryDependency callProgram.toTables oneGroup trace = some deps ∧
      ∀ memDependencies : DynamicInst → Finset DynamicInst,
        ∃ unneeded, extractUneededOperation ⟨callProgram.toTables, fun _ => ∅, memDependencies⟩ trace =
          some unneeded := by
  have hmerge : mergeTrace callProgram.toTables (fun _ => false)
      ([.basicBlock 7 0, .memory 7 0 4096 8].map .event) = some _ := rfl
  refine ⟨_, hmerge, by decide, analysis_completes (fun e he => ?_) hmerge oneGroup fun _ => ∅⟩
  simp only [List.map_cons, List.map_nil, List.mem_cons, Entry.event.injEq, List.not_mem_nil,
    or_false] at he
  rcases he with rfl | rfl
  · exact ⟨by simp [Event.InRange, Event.fields], Nat.two_pos⟩
  · exact ⟨by simp [Event.InRange, Event.fields], .inr ⟨_, rfl, by decide⟩⟩

end Slimmer
