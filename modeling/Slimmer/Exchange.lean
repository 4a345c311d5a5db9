import Slimmer.Twins

/-!
# Exchanging independent blocks

Two blocks of different threads are independent when neither writes an address the other one
accesses (`Independent`). How such neighbours were interleaved should not matter.

**The forward pass.** Their accesses commute in the reference, so the dependencies are the same
(`extractMemoryDependency_exchange`).

**The backward pass.** Both turns work on their own thread (`extractStep_twin`) and share only
`mem_depended`. What the main loop finds in one turn does not depend on what the other turn meets.
What `OneBlock` finds late may: then it matters which turn comes first.

**Theorem (`reported_exchange`).** The dependencies do not change when two independent neighbours
are exchanged, and the reported set does not change if, in the state before the two turns, nothing
`OneBlock` finds in one of them depends on an execution the other one meets (`LateApart`).
-/

namespace Slimmer

/-! ## The forward pass -/

/-- Neither access writes an address of the other one. -/
structure Access.Apart (a a' : Access) : Prop where
  writes : Disjoint a.writes (a'.reads ∪ a'.writes)
  writes' : Disjoint a'.writes (a.reads ∪ a.writes)

/-- Neighbours of different threads of which neither writes an address that the other one reads or
writes. -/
structure Independent (T : Tables) (G : Groups) (b b' : SmallestBlock) : Prop where
  tid : b.tid ≠ b'.tid
  type : b.type ≠ .declareBlock
  type' : b'.type ≠ .declareBlock
  apart : ∀ a ∈ b.accesses InstType.accesses T G, ∀ a' ∈ b'.accesses InstType.accesses T G,
    a.Apart a'

section

variable {T : Tables} {G : Groups} {b b' : SmallestBlock} {d d' : DynamicInst} {w : LastWriters}
  {as as' : List Access}

theorem Independent.symm (h : Independent T G b b') : Independent T G b' b :=
  ⟨h.tid.symm, h.type', h.type, fun a ha a' ha' =>
    ⟨(h.apart a' ha' a ha).writes', (h.apart a' ha' a ha).writes⟩⟩

/-- What the pass sees of a block is part of what it does. -/
theorem accessesSeen_subset {a : Access} (ha : a ∈ b.accesses InstType.accessesSeen T G) :
    a ∈ b.accesses InstType.accesses T G := by
  unfold SmallestBlock.accesses at ha ⊢
  cases htype : b.type with
  | memoryAccessBlock =>
    simp only [htype] at ha ⊢
    split_ifs at ha with hlt
    · rw [if_pos hlt]
      cases hinst : b.insType T with
      | none => simp [hinst] at ha
      | some t =>
        simp only [hinst, Option.map_some, Option.getD_some, InstType.accessesSeen] at ha ⊢
        split_ifs at ha
        · cases ha
        · exact ha
    · cases ha
  | _ =>
    simp only [htype] at ha ⊢
    exact ha

/-- Two accesses that are apart commute. -/
theorem access_comm {a a' : Access} (h : a.Apart a') :
    (w.access d a).access d' a' = (w.access d' a').access d a := by
  have hread : ∀ {a a' : Access} {d : DynamicInst} (x : Nat), Disjoint a.writes (a'.reads ∪ a'.writes) →
      x ∈ a'.reads → (w.access d a).last x = w.last x := by
    intro a a' d x hdisj hx
    rw [access_last, if_neg fun hmem => Set.disjoint_left.mp hdisj hmem (Or.inl hx)]
  refine LastWriters.ext' (funext fun x => ?_) rfl (Set.ext fun p => ?_)
  · simp only [access_last]
    by_cases hx : x ∈ a.writes
    · have hx' : x ∉ a'.writes := fun hmem => Set.disjoint_left.mp h.writes hx (Or.inr hmem)
      simp [hx, hx']
    · simp [hx]
  · simp only [mem_access_deps]
    have h₁ : (∃ x ∈ a'.reads, (w.access d a).last x = some p.2) ↔
        ∃ x ∈ a'.reads, w.last x = some p.2 :=
      exists_congr fun x => and_congr_right fun hx => by rw [hread x h.writes hx]
    have h₂ : (∃ x ∈ a.reads, (w.access d' a').last x = some p.2) ↔
        ∃ x ∈ a.reads, w.last x = some p.2 :=
      exists_congr fun x => and_congr_right fun hx => by rw [hread x h.writes' hx]
    rw [h₁, h₂, or_right_comm]

theorem foldl_access_comm (h : ∀ a ∈ as, ∀ a' ∈ as', a.Apart a') :
    as'.foldl (LastWriters.access d') (as.foldl (LastWriters.access d) w) =
      as.foldl (LastWriters.access d) (as'.foldl (LastWriters.access d') w) := by
  have hone : ∀ (a' : Access) (as : List Access) (w : LastWriters), (∀ a ∈ as, a.Apart a') →
      (as.foldl (LastWriters.access d) w).access d' a' =
        as.foldl (LastWriters.access d) (w.access d' a') := by
    intro a' as
    induction as with
    | nil => exact fun w _ => rfl
    | cons a as ih =>
      intro w has
      rcases List.forall_mem_cons.mp has with ⟨ha, has⟩
      rw [List.foldl_cons, List.foldl_cons, ih _ has, access_comm ha]
  induction as' generalizing w with
  | nil => rfl
  | cons a' as' ih =>
    rw [List.foldl_cons, List.foldl_cons, hone a' as w fun a ha => h a ha a' List.mem_cons_self]
    exact ih fun a ha a'' ha'' => h a ha a'' (List.mem_cons_of_mem a' ha'')

/-- Counting an execution changes neither the last writers nor the dependencies. -/
theorem foldl_access_bump (as : List Access) :
    (as.foldl (LastWriters.access d) w).bump T b = as.foldl (LastWriters.access d) (w.bump T b) := by
  induction as generalizing w with
  | nil => rfl
  | cons a as ih => exact ih

theorem bump_comm (htid : b.tid ≠ b'.tid) : (w.bump T b).bump T b' = (w.bump T b').bump T b := by
  have hne : (b.tid, b.insID T) ≠ (b'.tid, b'.insID T) := fun h => htid (congrArg Prod.fst h)
  refine LastWriters.ext' rfl (funext fun key => ?_) rfl
  simp only [LastWriters.bump, Function.update_of_ne hne, Function.update_of_ne hne.symm]
  rw [Function.update_comm hne]

/-- Another thread's execution does not change the name of an execution. -/
theorem name_step (htid : b.tid ≠ b'.tid) (as : List Access) :
    (as.foldl (LastWriters.access d) (w.bump T b)).name T b' = w.name T b' := by
  have hne : (b'.tid, b'.insID T) ≠ (b.tid, b.insID T) := fun h => htid (congrArg Prod.fst h).symm
  have hcount : (w.bump T b).count (b'.tid, b'.insID T) = w.count (b'.tid, b'.insID T) :=
    Function.update_of_ne hne _ _
  rw [LastWriters.name, LastWriters.name, foldl_access_count, hcount]

/-- **Independent blocks commute** in the reference. -/
theorem step_comm (h : Independent T G b b') :
    (w.step InstType.accessesSeen T G b).step InstType.accessesSeen T G b' =
      (w.step InstType.accessesSeen T G b').step InstType.accessesSeen T G b := by
  unfold LastWriters.step
  by_cases hb : b.counted
  · by_cases hb' : b'.counted
    · simp only [if_pos hb, if_pos hb']
      rw [name_step h.tid, name_step h.tid.symm, foldl_access_bump, foldl_access_bump,
        bump_comm h.tid]
      exact foldl_access_comm fun a ha a' ha' =>
        h.apart a (accessesSeen_subset ha) a' (accessesSeen_subset ha')
    · simp only [if_pos hb, if_neg hb']
  · simp only [if_neg hb]

/-- **The dependencies** do not change when independent neighbours are exchanged. -/
theorem extractMemoryDependency_exchange {pre post : List SmallestBlock}
    (htrace : ∀ c ∈ pre ++ b :: b' :: post, c.WellFormed T) (h : Independent T G b b') :
    extractMemoryDependency T G (pre ++ b' :: b :: post) =
      extractMemoryDependency T G (pre ++ b :: b' :: post) := by
  have htrace' : ∀ c ∈ pre ++ b' :: b :: post, c.WellFormed T := fun c hc => htrace c (by
    simp only [List.mem_append, List.mem_cons] at hc ⊢
    rwa [or_left_comm (a := c = b)])
  rcases extract_follows T G htrace with ⟨deps, hdeps, heq⟩
  rcases extract_follows T G htrace' with ⟨deps', hdeps', heq'⟩
  have hsame : lastWritersOf InstType.accessesSeen T G (pre ++ b' :: b :: post) =
      lastWritersOf InstType.accessesSeen T G (pre ++ b :: b' :: post) := by
    unfold lastWritersOf
    rw [List.foldl_append, List.foldl_append, List.foldl_cons, List.foldl_cons, List.foldl_cons,
      List.foldl_cons, step_comm h]
  rw [hdeps, hdeps', Option.some.injEq]
  refine Finset.coe_injective ?_
  rw [heq, heq', hsame]

end

/-! ## What a turn finds and meets -/

section

variable {I : PassInput} {s s' z z' s₁ s₂ : PassState} {t : PassSets} {b b' : SmallestBlock}
  {d w : DynamicInst} {nextBBID : Nat}

/-- When `OneBlock` is called, its terminator has been met, and not more than the executions of the
block has been counted. -/
theorem OneBlockCall.visited (hterm : s.TerminatorsVisited) (hcall : OneBlockCall I s b t d nextBBID) :
    d.tid = b.tid ∧ t.Visited d ∧
      ∀ key, t.instCount key ≤ s.instCount key + b.namedCount I.tables key := by
  cases hcall with
  | @finished nextBBID l e l' _ _ _ _ hstack hneeded =>
    rcases hterm b.tid e (by rw [hstack]; exact List.mem_cons_self) hneeded with ⟨htid, hv⟩
    exact ⟨htid, hv, fun key => Nat.le_add_right _ _⟩
  | @first s₁ s₂ s₃ nextBBID l e l' htype henter hskip hbody _ hcaller _ hstack hneeded =>
    rcases Option.bind_eq_some_iff.mp hbody with ⟨su, hsu, hmark⟩
    rcases PassState.mark_cases hmark with ⟨e', l'', -, rfl⟩
    rcases PassState.needCaller_cases hcaller with ⟨n, -, rfl⟩
    have hvisits := instructions_visits hskip hsu
    have hterm₂ := hvisits.terminators (hterm.enter htype henter)
    rcases hterm₂ b.tid e (by rw [show su.1.terminatorStack b.tid = _ from hstack]
                              exact List.mem_cons_self) hneeded with ⟨htid, hv⟩
    refine ⟨htid, hv, fun key => ?_⟩
    show su.1.instCount key ≤ _
    have hcount := (PassState.enter_scanned htype henter).1.instCount
    rw [hvisits.instCount, List.count_reverse, SmallestBlock.namedCount]
    show s₁.instCount key + _ ≤ _
    rw [hcount]

/-- What a turn meets belongs to its thread, and has been met when the turn is over. -/
theorem Meets.met (hterm : s.TerminatorsVisited) (h : Meets I s b d) : d.tid = b.tid ∧
    -((s.instCount d.key + b.namedCount I.tables d.key : Nat) : Int) < d.cnt := by
  cases h with
  | visit hnames =>
    rcases hnames with ⟨htid, -, hcnt⟩
    refine ⟨htid, ?_⟩
    rw [SmallestBlock.namedCount, if_pos (show b.tid = d.key.1 from htid.symm)]
    exact hcnt
  | terminator hcall =>
    rcases hcall.visited hterm with ⟨htid, hv, hcount⟩
    have hle := hcount d.key
    unfold PassSets.Visited at hv
    exact ⟨htid, by omega⟩
  | @rescan t d nextBBID id bb hcall _ _ =>
    rcases hcall.visited hterm with ⟨htid, hv, hcount⟩
    have hle := hcount (b.tid, id)
    have hdiff : 0 < cntDiff t d b := by
      have : -(t.instCount (d.tid, d.id) : Int) < d.cnt := hv
      unfold cntDiff
      rw [← htid]
      omega
    refine ⟨rfl, ?_⟩
    show -((s.instCount (b.tid, id) + b.namedCount I.tables (b.tid, id) : Nat) : Int) <
      cntDiff t d b - t.instCount (b.tid, id)
    omega

/-- `OneBlock` finds the execution in the turn for `b`. -/
def LateFinds (I : PassInput) (s : PassState) (b : SmallestBlock) (e : DynamicInst) : Prop :=
  ∃ t d nextBBID bb k, OneBlockCall I s b t d nextBBID ∧
    I.tables.bb2Ins[nextBBID]? = some bb ∧ Wanted I b t d bb.reverse k e

/-- Nothing `OneBlock` finds in the turn for `b` depends on an execution that the turn for `b'`
meets. -/
def LateApart (I : PassInput) (s : PassState) (b b' : SmallestBlock) : Prop :=
  ∀ e, LateFinds I s b e → ∀ w ∈ I.memDependencies e, ¬ Meets I s b' w

/-- The executions passed to `OneInstruction` between two states all satisfy `P`. -/
def FoundAll (P : DynamicInst → Prop) (t t' : PassSets) : Prop :=
  ∃ new, t'.found = new ++ t.found ∧ ∀ f ∈ new, P f.inst

theorem FoundAll.refl (P : DynamicInst → Prop) (t : PassSets) : FoundAll P t t :=
  ⟨[], rfl, fun _ hf => (nomatch hf)⟩

theorem FoundAll.trans {P : DynamicInst → Prop} {t t₁ t' : PassSets} (h : FoundAll P t t₁)
    (h' : FoundAll P t₁ t') : FoundAll P t t' := by
  rcases h with ⟨new, hnew, hall⟩
  rcases h' with ⟨new', hnew', hall'⟩
  refine ⟨new' ++ new, by rw [hnew', hnew, List.append_assoc], fun f hf => ?_⟩
  rcases List.mem_append.mp hf with hf | hf
  · exact hall' f hf
  · exact hall f hf

theorem Check.foundAll {P : DynamicInst → Prop} {s₀ : PassState}
    (hlate : ∀ e, LateFinds I s₀ b e → P e)
    (h : Check I b (OneBlockCall I s₀ b) nextBBID s s') :
    FoundAll P s.toPassSets s'.toPassSets := by
  cases h with
  | needed => exact .refl P _
  | scan _ _ hsets hcall =>
    rcases oneBlock_wanted hsets with ⟨bb, new, hbb, hnew, hall⟩
    refine ⟨new, hnew, fun f hf => hlate _ ?_⟩
    rcases hall f hf with ⟨k, hk⟩
    exact ⟨_, _, _, bb, k, hcall, hbb, hk⟩

/-- The main loop finds executions that it meets. -/
theorem Visits.foundAll {P : DynamicInst → Prop} {ids : List Nat} {su su' : PassState × Bool}
    (hvisits : Visits I b su ids su') (hnames : ∀ e, Names b.tid su.1.toPassSets ids e → P e) :
    FoundAll P su.1.toPassSets su'.1.toPassSets := by
  induction hvisits with
  | nil => exact .refl P _
  | @cons s s₁ used n id ids su hvisit _ ih =>
    refine FoundAll.trans ?_ (ih fun e he => hnames e (he.cons hvisit))
    rcases hvisit.sets with ⟨report, hreport, hsets⟩
    rcases (PassSets.visit_cases hreport hsets).2 with ⟨-, -, hfound, -⟩ | ⟨-, -, -, hfound, -⟩
    · refine ⟨[_], hfound, fun f hf => ?_⟩
      rw [List.mem_singleton.mp hf]
      exact hnames _ (names_name List.mem_cons_self)
    · exact ⟨[], hfound, fun f hf => (nomatch hf)⟩

/-- **What a turn finds**: `OneBlock` finds it, or the main loop meets it. -/
theorem extractStep_foundAll (h : extractStep I s b = some s') :
    FoundAll (fun e => LateFinds I s b e ∨ Names b.tid s.toPassSets (b.named I.tables) e)
      s.toPassSets s'.toPassSets := by
  rcases extractStep_cases h with ⟨-, rfl⟩ | ⟨htype, s₁, henter, hrest⟩
  · exact .refl _ _
  have h₁ : FoundAll (fun e => LateFinds I s b e ∨ Names b.tid s.toPassSets (b.named I.tables) e)
      s.toPassSets s₁.toPassSets := by
    rcases PassState.enter_cases htype henter with ⟨-, rfl⟩ | ⟨-, rfl, -⟩ |
      ⟨-, nextBBID, l, s₀, -, -, hcheck, hset⟩
    · exact .refl _ _
    · exact .refl _ _
    · rcases PassState.setTerminator_cases hset with ⟨e, l', -, rfl⟩
      show FoundAll _ s.toPassSets s₀.toPassSets
      exact hcheck.foundAll fun e he => Or.inl he
  rcases hrest with ⟨-, rfl⟩ | ⟨-, s₂, used, s₃, s₄, hvisits, hmark, hleave, rfl⟩
  · exact h₁
  have hcount := (PassState.enter_scanned htype henter).1.instCount
  refine h₁.trans ((hvisits.foundAll fun e he => Or.inr ?_).trans ?_)
  · rcases he with ⟨htid, hnew, hcnt⟩
    rw [List.count_reverse] at hcnt
    unfold PassSets.Visited at hnew
    refine ⟨htid, ?_, ?_⟩
    · unfold PassSets.Visited
      rw [← hcount]
      exact hnew
    · rw [← hcount]
      exact hcnt
  · rcases PassState.mark_cases hmark with ⟨e, l, -, rfl⟩
    cases hleave with
    | stay => exact .refl _ _
    | @pop needed s₅ _ e l _ _ _ hcheck hpop =>
      rcases PassState.pop_cases hpop with ⟨-, -, -, -, -, -, hsets, -⟩
      show FoundAll _ s₂.toPassSets s₄.toPassSets
      rw [hsets]
      rcases hcheck with ⟨-, rfl⟩ | ⟨-, hcheck⟩
      · exact ⟨[], rfl, fun _ hf => (nomatch hf)⟩
      · have hlast := hcheck.foundAll fun e he =>
          Or.inl (b := Names b.tid s.toPassSets (b.named I.tables) e) he
        exact hlast

end

/-! ## Two turns -/

/-- The states differ in the history at most. -/
def Same (s z : PassState) : Prop := ∀ tid, Agree tid Set.univ s z

section

variable {I : PassInput} {tid tid' : Nat} {M M' : Set DynamicInst} {new : List DynamicInst}
  {s s' z z' s₁ s₂ : PassState} {t t' : PassSets} {b b' : SmallestBlock} {d e w : DynamicInst}

theorem Agree.refl (s : PassState) : Agree tid M s s :=
  ⟨⟨fun _ => rfl, fun _ => Iff.rfl, fun _ _ => Iff.rfl, fun _ _ => Iff.rfl⟩, rfl, rfl, rfl⟩

theorem Agree.symm (h : Agree tid M s z) : Agree tid M z s :=
  ⟨⟨fun id => (h.sets.instCount id).symm, fun id => (h.sets.needed id).symm,
    fun d hd => (h.sets.memDepended d hd).symm, fun d hd => (h.sets.unneededDI d hd).symm⟩,
    h.funUsed.symm, h.nextBBUsed.symm, h.terminatorStack.symm⟩

theorem Agree.trans (h : Agree tid M s z) (h' : Agree tid M z z') : Agree tid M s z' :=
  ⟨⟨fun id => (h'.sets.instCount id).trans (h.sets.instCount id),
    fun id => (h'.sets.needed id).trans (h.sets.needed id),
    fun d hd => (h'.sets.memDepended d hd).trans (h.sets.memDepended d hd),
    fun d hd => (h'.sets.unneededDI d hd).trans (h.sets.unneededDI d hd)⟩,
    h'.funUsed.trans h.funUsed, h'.nextBBUsed.trans h.nextBBUsed,
    h'.terminatorStack.trans h.terminatorStack⟩

/-- `mem_depended` is looked at for itself. -/
theorem Agree.of_mem (h : Agree tid M s z)
    (hmem : ∀ d ∈ M', (d ∈ z.memDepended ↔ d ∈ s.memDepended)) : Agree tid M' s z :=
  ⟨⟨h.sets.instCount, h.sets.needed, hmem, h.sets.unneededDI⟩, h.funUsed, h.nextBBUsed,
    h.terminatorStack⟩

theorem Agree.empty (h : Agree tid M s z) : Agree tid ∅ s z :=
  h.of_mem fun d hd => absurd hd (Set.notMem_empty d)

/-- A step leaves the other threads alone. -/
theorem Moved.other (h : Moved I tid M new s s') (htid : tid' ≠ tid) : Agree tid' ∅ s s' :=
  ⟨⟨fun _ => h.sets.instCount _ htid, fun _ => h.sets.needed _ htid,
    fun d hd => absurd hd (Set.notMem_empty d),
    fun d hd => h.sets.unneededDI d (hd.trans_ne htid)⟩,
    h.funUsed _ htid, h.nextBBUsed _ htid, h.terminatorStack _ htid⟩

/-- It may find nothing that depends on `M'`. -/
theorem Moved.apart (h : Moved I tid M new s s') (htid : tid' ≠ tid) (hM : ∀ d ∈ M', d ∉ M)
    (hnew : ∀ e ∈ new, ∀ w ∈ I.memDependencies e, w ∉ M') : Agree tid' M' s s' := by
  apply (h.other htid).of_mem
  intro d hd
  rw [h.sets.memDepended d (hM d hd)]
  exact or_iff_left fun ⟨e, he, hw⟩ => hnew e he d hw hd

theorem Same.unneededDI (h : Same s z) : z.unneededDI = s.unneededDI :=
  Finset.ext fun d => (h d.tid).sets.unneededDI d rfl

/-- **A step** in two states that differ in the history at most. -/
theorem Same.step (hterm : s.TerminatorsVisited) (h : Same s z) :
    Option.Rel Same (extractStep I s b) (extractStep I z b) := by
  have htwin := extractStep_twin (I := I) hterm (h b.tid) fun d _ => Set.mem_univ d
  refine rel_mono htwin fun s' z' _ _ ht => ?_
  rcases ht with ⟨hagree, new, hs, hz⟩
  intro tid
  by_cases htid : tid = b.tid
  · rw [htid]
    exact hagree
  · have hthread := ((hs.other htid).symm.trans (h tid).empty).trans (hz.other htid)
    exact hthread.of_mem hagree.sets.memDepended

/-- What is found in a step is what it finds. -/
theorem FoundAll.moved {P : DynamicInst → Prop} (h : FoundAll P t t')
    (hmove : SetsMoved I tid M new t t') : ∀ e ∈ new, P e := by
  rcases h with ⟨found, hfound, hall⟩
  have hmap := hmove.found
  rw [hfound, List.map_append] at hmap
  intro e he
  rw [← List.append_cancel_right hmap] at he
  rcases List.mem_map.mp he with ⟨f, hf, rfl⟩
  exact hall f hf

/-- **The square.** Both ways lead to the same state when neither thread finds anything that depends
on what the other one meets. -/
theorem Same.square {new' : List DynamicInst} {s₁₂ s₂₁ : PassState} (htid : tid ≠ tid')
    (hM : ∀ d ∈ M, d ∉ M') (hnew : ∀ e ∈ new, ∀ w ∈ I.memDependencies e, w ∉ M')
    (hnew' : ∀ e ∈ new', ∀ w ∈ I.memDependencies e, w ∉ M)
    (h₁ : Moved I tid M new s s₁) (h₂ : Moved I tid' M' new' s s₂)
    (h₁₂ : Moved I tid' M' new' s₁ s₁₂) (h₂₁ : Moved I tid M new s₂ s₂₁)
    (hagree : Agree tid M s₁ s₂₁) (hagree' : Agree tid' M' s₂ s₁₂) : Same s₁₂ s₂₁ := by
  have hmem : ∀ d, d ∈ s₂₁.memDepended ↔ d ∈ s₁₂.memDepended := by
    intro d
    have hnot : ∀ {M : Set DynamicInst} {new : List DynamicInst},
        (∀ e ∈ new, ∀ w ∈ I.memDependencies e, w ∉ M) → d ∈ M →
          ¬ ∃ e ∈ new, d ∈ I.memDependencies e :=
      fun hnew hd ⟨e, he, hw⟩ => hnew e he d hw hd
    by_cases hd : d ∈ M
    · rw [hagree.sets.memDepended d hd, h₁₂.sets.memDepended d (hM d hd),
        or_iff_left (hnot hnew' hd)]
    by_cases hd' : d ∈ M'
    · rw [hagree'.sets.memDepended d hd', h₂₁.sets.memDepended d hd, or_iff_left (hnot hnew hd')]
    · rw [h₁₂.sets.memDepended d hd', h₂₁.sets.memDepended d hd, h₁.sets.memDepended d hd,
        h₂.sets.memDepended d hd', or_right_comm]
  intro u
  have hthread : Agree u ∅ s₁₂ s₂₁ := by
    by_cases hu : u = tid
    · rw [hu]
      exact (h₁₂.other htid).symm.trans hagree.empty
    by_cases hu' : u = tid'
    · rw [hu']
      exact hagree'.empty.symm.trans (h₂₁.other htid.symm)
    · exact ((h₁₂.other hu').symm.trans (h₁.other hu).symm).trans
        ((h₂.other hu').trans (h₂₁.other hu))
  exact hthread.of_mem fun d _ => hmem d

/-- What a step does to its thread. -/
theorem extractStep_moved (hterm : s.TerminatorsVisited) (h : extractStep I s b = some s')
    (hM : ∀ d, Meets I s b d → d ∈ M) : ∃ new, Moved I b.tid M new s s' := by
  have htwin := extractStep_twin (I := I) hterm (Agree.refl s) hM
  rw [h] at htwin
  cases htwin with
  | some ht => exact ht.2.imp fun new hmove => hmove.1

/-- The dependencies of the execution are not met in the turn for `b`. -/
def Unmet (I : PassInput) (s : PassState) (b : SmallestBlock) (e : DynamicInst) : Prop :=
  ∀ w ∈ I.memDependencies e, ¬ Meets I s b w

/-- The other turn, which finds nothing that depends on what this one meets, comes first. -/
theorem extractStep_behind (hterm : s.TerminatorsVisited) (htid : b.tid ≠ b'.tid)
    (hapart : ∀ d, Meets I s b d → ¬ Meets I s b' d)
    (hfound : ∀ s', extractStep I s b' = some s' →
      FoundAll (Unmet I s b) s.toPassSets s'.toPassSets)
    (h : extractStep I s b' = some s₂) :
    Option.Rel (Twin I b.tid (Meets I s b) s s₂) (extractStep I s b) (extractStep I s₂ b) := by
  rcases extractStep_moved hterm h (M := Meets I s b') fun d hd => hd with ⟨new, hmove⟩
  have hnew := (hfound s₂ h).moved hmove.sets
  exact extractStep_twin hterm (hmove.apart htid hapart hnew) fun d hd => hd

/-- **Two turns** of different threads, neither of which finds anything that depends on what the
other one meets. -/
theorem exchange_turns (hterm : s.TerminatorsVisited) (htid : b.tid ≠ b'.tid)
    (hfound : ∀ s', extractStep I s b = some s' →
      FoundAll (Unmet I s b') s.toPassSets s'.toPassSets)
    (hfound' : ∀ s', extractStep I s b' = some s' →
      FoundAll (Unmet I s b) s.toPassSets s'.toPassSets) :
    Option.Rel Same (run (extractStep I) s [b, b']) (run (extractStep I) s [b', b]) := by
  have hapart : ∀ d, Meets I s b d → ¬ Meets I s b' d := fun d hd hd' =>
    htid ((hd.met hterm).1.symm.trans (hd'.met hterm).1)
  simp only [run_cons, run_nil, Option.bind_fun_some]
  cases hs₁ : extractStep I s b with
  | none =>
    cases hs₂ : extractStep I s b' with
    | none => exact .none
    | some s₂ =>
      -- the turn for `b` is blocked in both orders
      have hbehind := extractStep_behind hterm htid hapart hfound' hs₂
      rw [hs₁] at hbehind
      simp only [Option.bind_none, Option.bind_some, eq_none_of_rel hbehind]
      exact .none
  | some s₁ =>
    have hbehind' := extractStep_behind hterm htid.symm (fun d hd hd' => hapart d hd' hd) hfound hs₁
    cases hs₂ : extractStep I s b' with
    | none =>
      rw [hs₂] at hbehind'
      simp only [Option.bind_none, Option.bind_some, eq_none_of_rel hbehind']
      exact .none
    | some s₂ =>
      have hbehind := extractStep_behind hterm htid hapart hfound' hs₂
      rw [hs₁] at hbehind
      rw [hs₂] at hbehind'
      rcases exists_of_rel hbehind with ⟨s₂₁, hs₂₁, hagree, new, h₁, h₂₁⟩
      rcases exists_of_rel hbehind' with ⟨s₁₂, hs₁₂, hagree', new', h₂, h₁₂⟩
      simp only [Option.bind_some, hs₂₁, hs₁₂]
      exact .some (.square htid hapart ((hfound s₁ hs₁).moved h₁.sets)
        ((hfound' s₂ hs₂).moved h₂.sets) h₁ h₂ h₁₂ h₂₁ hagree hagree')

/-- Nothing depends on what a turn meets when all dependencies are executions of other threads. -/
theorem lateApart_of_tid (hterm : s.TerminatorsVisited)
    (h : ∀ e, ∀ w ∈ I.memDependencies e, w.tid ≠ b'.tid) : LateApart I s b b' :=
  fun e _ w hw hmeets => h e w hw (hmeets.met hterm).1

/-- **A turn in a run** in which all that is found late is met by no other turn: what the turn finds
depends on nothing the turn before or behind it meets. -/
theorem extractStep_unmet (hlate : LateApart I s b b')
    (hmain : ∀ e, Names b.tid s.toPassSets (b.named I.tables) e → Unmet I s b' e)
    (h : extractStep I s b = some s') : FoundAll (Unmet I s b') s.toPassSets s'.toPassSets := by
  rcases extractStep_foundAll h with ⟨new, hnew, hall⟩
  refine ⟨new, hnew, fun f hf => ?_⟩
  rcases hall f hf with hfound | hnames
  · exact hlate f.inst hfound
  · exact hmain f.inst hnames

end

/-! ## Two traces -/

section

variable {T : Tables} {G : Groups} {postDominator : Nat → Finset Nat}
  {deps : Finset (DynamicInst × DynamicInst)} {pre post : List SmallestBlock}
  {b b' : SmallestBlock} {s : PassState} {e : DynamicInst}

/-- What the main loop finds in a block depends on executions before the block, so on none that the
turn of a neighbour meets. -/
theorem main_unmet {trace behind q : List SmallestBlock} {c c' : SmallestBlock}
    (htrace : ∀ b ∈ trace, b.WellFormed T) (hkinds : KindsAgree T trace)
    (hextract : extractMemoryDependency T G trace = some deps) (htid : c.tid ≠ c'.tid)
    (hsplit : trace.reverse = behind ++ c' :: c :: q)
    (hterm : s.TerminatorsVisited)
    (hrun : run (extractStep (passInput T postDominator deps)) {} behind = some s)
    (hnames : Names c.tid s.toPassSets (c.named T) e) :
    Unmet (passInput T postDominator deps) s c' e := by
  intro w hw hmeets
  have hw : w ∈ dependenciesOf deps e := hw
  rcases hnames with ⟨hetid, hnew, hcnt⟩
  unfold PassSets.Visited at hnew
  have hcount : ∀ key, s.instCount key = backCount T behind key := fun key => run_instCount hrun
  have hmem : e.id ∈ c.named T := List.count_pos_iff.mp (by omega)
  have hc : c ∈ trace := List.mem_reverse.mp (by rw [hsplit]; simp)
  cases hkind : c.kind T with
  | normal =>
    have hne := (normal_no_dependency htrace hkinds hextract hc hkind hw e.id hmem).1
    exact hne (by rw [← hetid]; rfl)
  | counted =>
    -- the execution is the one the forward pass has recorded the dependencies for
    rw [SmallestBlock.named, hkind] at hcnt hmem
    have hid : e.id = c.insID T := List.mem_singleton.mp hmem
    have hone : [c.insID T].count e.id = 1 := by rw [hid, List.count_singleton_self]
    have hkey : e.key = (c.tid, c.insID T) := by rw [DynamicInst.key, hetid, hid]
    have hname : e = ⟨c.tid, c.insID T, -backCount T (behind ++ [c']) (c.tid, c.insID T)⟩ := by
      have hskip : backCount T [c'] (c.tid, c.insID T) = 0 := by
        simp [backCount, SmallestBlock.namedCount, htid.symm]
      rw [hone] at hcnt
      rw [backCount_append, hskip, ← hkey, ← hcount]
      cases e
      simp only [DynamicInst.key] at hetid hid hcnt hnew ⊢
      rw [DynamicInst.mk.injEq]
      exact ⟨hetid, hid, by omega⟩
    rw [hname] at hw
    have hle := dependency_unmet htrace hkinds hextract (b := c)
      (hsplit.trans (List.append_cons behind c' (c :: q)))  hkind hw
    -- it is met behind both blocks, or in the neighbour
    have hlt := (hmeets.met hterm).2
    have hsum : backCount T (behind ++ [c']) w.key =
        s.instCount w.key + c'.namedCount T w.key := by
      rw [backCount_append, hcount]
      simp [backCount]
    have hlt : -((s.instCount w.key + c'.namedCount T w.key : Nat) : Int) < w.cnt := hlt
    rw [hsum] at hle
    omega
  | skipped =>
    rw [SmallestBlock.named, hkind] at hmem
    cases hmem
  | declare =>
    rw [SmallestBlock.named, hkind] at hmem
    cases hmem

/-- **The interleaving of independent neighbours does not matter** as far as nothing that `OneBlock`
finds late in one of the two turns depends on an execution the other turn meets. For every
well-formed block trace in which all blocks of one instruction have the same kind, and every two
independent neighbours: exchanging them changes neither the memory dependencies nor, under this
condition on the state before the two turns, the reported set. -/
theorem reported_exchange (htrace : ∀ c ∈ pre ++ b :: b' :: post, c.WellFormed T)
    (hkinds : KindsAgree T (pre ++ b :: b' :: post)) (h : Independent T G b b') :
    extractMemoryDependency T G (pre ++ b' :: b :: post) =
      extractMemoryDependency T G (pre ++ b :: b' :: post) ∧
    ∀ deps postDominator, extractMemoryDependency T G (pre ++ b :: b' :: post) = some deps →
      (∀ s, run (extractStep (passInput T postDominator deps)) {} post.reverse = some s →
        LateApart (passInput T postDominator deps) s b b' ∧
          LateApart (passInput T postDominator deps) s b' b) →
      extractUneededOperation (passInput T postDominator deps) (pre ++ b' :: b :: post) =
        extractUneededOperation (passInput T postDominator deps) (pre ++ b :: b' :: post) := by
  have hdeps := extractMemoryDependency_exchange htrace h
  refine ⟨hdeps, fun deps postDominator hextract hlate => ?_⟩
  have hperm : ∀ c, c ∈ pre ++ b' :: b :: post ↔ c ∈ pre ++ b :: b' :: post := by
    intro c
    simp only [List.mem_append, List.mem_cons]
    rw [or_left_comm (a := c = b)]
  have htrace' : ∀ c ∈ pre ++ b' :: b :: post, c.WellFormed T := fun c hc => htrace c ((hperm c).mp hc)
  have hkinds' : KindsAgree T (pre ++ b' :: b :: post) := fun c hc c' hc' =>
    hkinds c ((hperm c).mp hc) c' ((hperm c').mp hc')
  unfold extractUneededOperation
  rw [show (pre ++ b' :: b :: post).reverse = post.reverse ++ b :: b' :: pre.reverse by simp,
    show (pre ++ b :: b' :: post).reverse = post.reverse ++ b' :: b :: pre.reverse by simp,
    run_append, run_append]
  cases hs : run (extractStep (passInput T postDominator deps)) {} post.reverse with
  | none => rfl
  | some s =>
    have hterm : s.TerminatorsVisited :=
      run_invariant (fun s b s' h hstep => h.step hstep) (fun tid e he => absurd he List.not_mem_nil) hs
    rcases hlate s hs with ⟨hapart, hapart'⟩
    have hturns := exchange_turns (I := passInput T postDominator deps) hterm h.tid
      (fun s' => extractStep_unmet hapart fun e he =>
        main_unmet (q := pre.reverse) htrace hkinds hextract h.tid (by simp) hterm hs he)
      (fun s' => extractStep_unmet hapart' fun e he =>
        main_unmet (q := pre.reverse) htrace' hkinds' (hdeps.trans hextract) h.tid.symm (by simp)
          hterm hs he)
    have hruns := run_exchange (fun s b s' h hstep => h.step hstep)
      (fun s z c hterm hsz => hsz.step hterm) hterm hturns pre.reverse
    simp only [Option.bind_some]
    exact rel_eq (rel_map hruns fun s z _ _ hsz => hsz.unneededDI.symm)

end

/-! ## Two stores and a call -/

/-- A thread calls `write`, loads and branches on what is loaded; the branch may be left out.
Another thread stores. -/
def neighbourTables : Tables where
  ins := [{ type := .externalCallInst, fn := "write" }, { type := .loadInst },
    { type := .terminatorInst, ssaDependencies := [(.inst, 1)], successors := [1, 2] },
    { type := .returnInst, code := "ret void" }, { type := .storeInst },
    { type := .returnInst, code := "ret void" }]
  bb2Ins := [[0, 1, 2], [3], [4, 5]]

/-- Block 1 is behind block 0 in every run. -/
def neighbourPostDominator (bbID : Nat) : Finset Nat := if bbID = 0 then {1} else ∅

/-- The call, with which the activation of the first thread begins. -/
def neighbourCall : SmallestBlock :=
  { type := .impactfulCallBlock, tid := 1, stop := 1, addr := [0], isFirst := 2, lastBBID := -1 }

/-- The store of the second thread. -/
def neighbourStore : SmallestBlock :=
  { type := .memoryAccessBlock, tid := 2, bbID := 2, stop := 1, addr := [100, 104], isFirst := 2,
    lastBBID := -1 }

/-- What comes behind both of them. The load is of `addr`. -/
def neighbourRest (addr : List Nat) : List SmallestBlock :=
  [{ type := .memoryAccessBlock, tid := 1, start := 1, stop := 2, addr := addr, lastBBID := -1 },
    { type := .normalBlock, tid := 1, start := 2, stop := 3, lastBBID := -1 },
    { type := .normalBlock, tid := 1, bbID := 1, stop := 1, isLast := 2 },
    { type := .normalBlock, tid := 2, bbID := 2, start := 1, stop := 2, isLast := 2,
      lastBBID := -1 }]

/-- A third thread has stored, too. -/
def neighbourBefore : List SmallestBlock :=
  [{ type := .memoryAccessBlock, tid := 3, bbID := 2, stop := 1, addr := [200, 204], isFirst := 2,
      lastBBID := -1 },
    { type := .normalBlock, tid := 3, bbID := 2, start := 1, stop := 2, isLast := 2,
      lastBBID := -1 }]

/-- The call with a pointer into the upper half of the addresses. -/
def pointerCall : SmallestBlock :=
  { neighbourCall with addr := [0, 0x8000000000000000] }

/-- The upper half of the addresses is covered by group 1. -/
def upperHalf : SegmentTree Int :=
  .node .partialSegment 0 0 maxRange (.leaf .emptySegment 0 0 (mid 0 maxRange))
    (.leaf .coveredSegment 1 (mid 0 maxRange) maxRange)

theorem upperHalf_wf : SegmentTree.WF 0 maxRange upperHalf :=
  .split (.leaf (by decide) (by decide)) (.leaf (by decide) (by decide))

/-- The upper half of the addresses is group 1, and no other address is in a group. -/
def upperGroup : Groups where
  addr2Group := upperHalf
  group2Addr := fun _ => upperHalf
  addr2Group_wf := upperHalf_wf
  hasTree := fun _ _ _ => upperHalf_wf

theorem mem_upperGroup {g : Int} {x : Nat} (hx : x ∈ upperGroup.addrs g) : mid 0 maxRange ≤ x := by
  by_contra hlt
  have hnone : upperHalf.get x = none := by
    rw [upperHalf, SegmentTree.get_split, if_pos (not_le.mp hlt)]
    rfl
  have hsome := hx.2
  rw [show upperGroup.group2Addr (groupKey g) = upperHalf from rfl, hnone] at hsome
  cases hsome

/-- The store and the call are independent. -/
theorem neighbours_independent :
    Independent neighbourTables upperGroup neighbourStore pointerCall := by
  refine ⟨by decide, by decide, by decide, fun a ha a' ha' => ?_⟩
  obtain rfl := List.mem_singleton.mp
    (show a ∈ [(⟨∅, Set.Ico 100 104⟩ : Access)] from ha)
  obtain rfl := List.mem_singleton.mp
    (show a' ∈ [(⟨upperGroup.addrs 1, upperGroup.addrs 1⟩ : Access)] from ha')
  have hapart : Disjoint (Set.Ico 100 104) (upperGroup.addrs 1) := by
    refine Set.disjoint_left.mpr fun x hx hgroup => ?_
    have hlow := mem_upperGroup hgroup
    have hmid : mid 0 maxRange = 9223372036854775807 := by decide
    have hhigh := hx.2
    omega
  exact ⟨by simpa using hapart, by simpa using hapart.symm⟩

/-- When the call is met, `OneBlock` finds the branch of its block and the load the branch rests on,
which depends on the store of the third thread. The store of the second thread is reported, before the
call and behind it. -/
theorem reported_exchange_store :
    extractMemoryDependency neighbourTables upperGroup
        (neighbourBefore ++ pointerCall :: neighbourStore :: neighbourRest [200, 204]) =
      some {(⟨1, 1, 0⟩, ⟨3, 4, 0⟩)} ∧
    extractUneededOperation
        (passInput neighbourTables neighbourPostDominator {(⟨1, 1, 0⟩, ⟨3, 4, 0⟩)})
        (neighbourBefore ++ pointerCall :: neighbourStore :: neighbourRest [200, 204]) =
      some {⟨2, 4, 0⟩} := by
  have htrace : ∀ c ∈ neighbourBefore ++ neighbourStore :: pointerCall :: neighbourRest [200, 204],
      c.WellFormed neighbourTables := by decide
  have hkinds : KindsAgree neighbourTables
      (neighbourBefore ++ neighbourStore :: pointerCall :: neighbourRest [200, 204]) := by
    unfold KindsAgree
    decide
  rcases reported_exchange htrace hkinds neighbours_independent with ⟨hdeps, hreported⟩
  have hextract : extractMemoryDependency neighbourTables upperGroup
      (neighbourBefore ++ neighbourStore :: pointerCall :: neighbourRest [200, 204]) =
        some {(⟨1, 1, 0⟩, ⟨3, 4, 0⟩)} := by decide +kernel
  refine ⟨hdeps.trans hextract, (hreported _ neighbourPostDominator hextract fun s hs => ?_).trans
    (by decide +kernel)⟩
  have hterm : s.TerminatorsVisited :=
    run_invariant (fun s b s' h hstep => h.step hstep) (fun tid e he => absurd he List.not_mem_nil) hs
  have hthird : ∀ e, ∀ w ∈ (passInput neighbourTables neighbourPostDominator
      {(⟨1, 1, 0⟩, ⟨3, 4, 0⟩)}).memDependencies e, w.tid = 3 := by
    intro e w hw
    have hpair := Finset.mem_singleton.mp (mem_dependenciesOf.mp hw)
    exact congrArg (fun p => p.2.tid) hpair
  exact ⟨lateApart_of_tid hterm fun e w hw => by rw [hthird e w hw]; decide,
    lateApart_of_tid hterm fun e w hw => by rw [hthird e w hw]; decide⟩

/-- The load is found when the call is met, because the branch is. If the store is met before the
call, it is reported then; if it is met behind it, it is not. -/
theorem late_store_depends_on_order :
    ¬ ∀ (T : Tables) (G : Groups) (postDominator : Nat → Finset Nat)
      (pre post : List SmallestBlock) (b b' : SmallestBlock)
      (deps : Finset (DynamicInst × DynamicInst)),
      (∀ c ∈ pre ++ b :: b' :: post, c.WellFormed T) → KindsAgree T (pre ++ b :: b' :: post) →
      Independent T G b b' →
      extractMemoryDependency T G (pre ++ b :: b' :: post) = some deps →
      extractUneededOperation (passInput T postDominator deps) (pre ++ b' :: b :: post) =
        extractUneededOperation (passInput T postDominator deps) (pre ++ b :: b' :: post) := by
  intro h
  have hsame := h neighbourTables oneGroup neighbourPostDominator [] (neighbourRest [100, 104])
    neighbourStore neighbourCall {(⟨1, 1, 0⟩, ⟨2, 4, 0⟩)} (by decide) ?_ ?_ (by decide +kernel)
  · have hreported := congrArg (Option.map fun r => decide (⟨2, 4, 0⟩ ∈ r)) hsame
    have hne : (extractUneededOperation (passInput neighbourTables neighbourPostDominator
        {(⟨1, 1, 0⟩, ⟨2, 4, 0⟩)}) (neighbourCall :: neighbourStore :: neighbourRest [100, 104])).map
          (fun r => decide (⟨2, 4, 0⟩ ∈ r)) = some true := by decide +kernel
    have hne' : (extractUneededOperation (passInput neighbourTables neighbourPostDominator
        {(⟨1, 1, 0⟩, ⟨2, 4, 0⟩)}) (neighbourStore :: neighbourCall :: neighbourRest [100, 104])).map
          (fun r => decide (⟨2, 4, 0⟩ ∈ r)) = some false := by decide +kernel
    rw [List.nil_append, List.nil_append, hne, hne'] at hreported
    cases hreported
  · unfold KindsAgree
    decide
  · refine ⟨by decide, by decide, by decide, fun a _ a' ha' => ?_⟩
    cases ha'

end Slimmer
