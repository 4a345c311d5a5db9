import Slimmer.GroupConsistent

/-!
# `MergeInst`

`MergeInst` does nothing to the addresses but to rename groups (`Regroups`). Its first part joins
the groups of the operands (`mergeOperands_effect`). Its second part, in the first block of a
function, hands the labelled arguments over to the operands of the call one by one
(`handOver_effect`).

**Theorem (`mergeInst_spec`).** `MergeInst` keeps the invariant and joins the groups it is given.
The group it returns still has a tree iff no argument was joined with a smaller one (`KeepsGroup`).
-/

namespace Slimmer

section

variable {T : Tables} {s s' s₁ : GroupState} {b : SmallestBlock} {f f' : Nat → Nat}
  {g h i tid key : Nat} {groups gs keys shouldMerge : List Nat} {x : Nat × Nat}

/-! ## Renaming groups -/

/-- The invariant holds after an operation that renames groups and gives no group to an address that
had none. -/
structure Regroups (f : Nat → Nat) (s s' : GroupState) : Prop where
  consistent : s'.Consistent
  renames : Renames f s s'
  addr : ∀ a, a < maxRange → s'.addr2Group.get a = (s.addr2Group.get a).map f

theorem Regroups.trans (hs : s.Consistent) (h : Regroups f s s₁) (h' : Regroups f' s₁ s') :
    Regroups (f' ∘ f) s s' where
  consistent := h'.consistent
  renames := h.renames.trans hs.le_max h'.renames
  addr a ha := by rw [h'.addr a ha, h.addr a ha, Option.map_map]

/-- Only the values have changed. -/
theorem Regroups.of_eq (hs' : s'.Consistent) (haddr : s'.addr2Group = s.addr2Group)
    (htree : s'.group2Addr = s.group2Addr) (hmax : s'.maxGroupID = s.maxGroupID) :
    Regroups id s s' where
  consistent := hs'
  renames := Renames.of_eq haddr htree hmax
  addr a _ := by rw [haddr, Option.map_id, id]

theorem MergingSpec.regroups (h : MergingSpec s groups g s') : Regroups (joined groups g) s s' :=
  ⟨h.consistent, h.renames, h.addr⟩

theorem Regroups.unlabel (hs : s.Consistent) (x : Nat × Nat) : Regroups id s (s.unlabel x) := by
  rcases unlabel_groups s x with ⟨haddr, htree, hmax, -, -⟩
  exact Regroups.of_eq (hs.unlabel x) haddr htree hmax

/-- The operands get the label. -/
theorem Regroups.foldl_label (hs : s.Consistent) (hg : s.Live g) {keys : List Nat}
    (hkeys : ∀ key ∈ keys, ∀ h, s.ins2Group (tid, key) = some h → h = g) :
    Regroups id s (keys.foldl (GroupState.label T tid g) s) := by
  induction keys generalizing s with
  | nil => exact Regroups.of_eq hs rfl rfl rfl
  | cons key keys ih =>
    have hlabel := hs.label (T := T) hg (hkeys key List.mem_cons_self)
    refine Regroups.trans hs (Regroups.of_eq hlabel rfl rfl rfl) (ih hlabel hg fun key' hkey' h hh => ?_)
    replace hh : Function.update s.ins2Group (tid, key) (some g) (tid, key') = some h := hh
    rw [Function.update_apply] at hh
    split_ifs at hh
    · exact (Option.some.inj hh).symm
    · exact hkeys key' (List.mem_cons_of_mem _ hkey') h hh

theorem mem_addGroup : h ∈ s.addGroup groups x ↔ h ∈ groups ∨ s.ins2Group x = some h := by
  unfold GroupState.addGroup
  cases s.ins2Group x with
  | none => simp
  | some g => simp [mem_insertSorted, or_comm, eq_comm]

theorem addGroup_pairwise (hsorted : groups.Pairwise (· < ·)) :
    (s.addGroup groups x).Pairwise (· < ·) := by
  unfold GroupState.addGroup
  cases s.ins2Group x with
  | none => exact hsorted
  | some g => exact insertSorted_pairwise hsorted

/-- The groups of the operands. -/
theorem foldl_addGroup (s : GroupState) (tid : Nat) (keys : List Nat)
    (hsorted : groups.Pairwise (· < ·)) :
    (keys.foldl (fun groups key => s.addGroup groups (tid, key)) groups).Pairwise (· < ·) ∧
      ∀ h, h ∈ keys.foldl (fun groups key => s.addGroup groups (tid, key)) groups ↔
        h ∈ groups ∨ ∃ key ∈ keys, s.ins2Group (tid, key) = some h := by
  induction keys generalizing groups with
  | nil => exact ⟨hsorted, fun h => by simp⟩
  | cons key keys ih =>
    rcases ih (addGroup_pairwise (x := (tid, key)) (s := s) hsorted) with ⟨hsorted', hmem⟩
    refine ⟨hsorted', fun h => ?_⟩
    rw [List.foldl_cons, hmem h, mem_addGroup, or_assoc]
    simp

/-- The groups that `MergeInst` joins first. -/
def GroupState.operandGroups (s : GroupState) (keys shouldMerge : List Nat) (ins : Nat × Nat)
    (tid : Nat) : List Nat :=
  keys.foldl (fun groups key => s.addGroup groups (tid, key)) (s.addGroup shouldMerge ins)

theorem operandGroups_pairwise (s : GroupState) (keys : List Nat) (x : Nat × Nat) (tid : Nat)
    (hsorted : shouldMerge.Pairwise (· < ·)) :
    (s.operandGroups keys shouldMerge x tid).Pairwise (· < ·) :=
  (foldl_addGroup s tid keys (addGroup_pairwise hsorted)).1

theorem mem_operandGroups (s : GroupState) (keys : List Nat) (x : Nat × Nat) (tid : Nat)
    (hsorted : shouldMerge.Pairwise (· < ·)) (h : Nat) :
    h ∈ s.operandGroups keys shouldMerge x tid ↔ h ∈ shouldMerge ∨ s.ins2Group x = some h ∨
      ∃ key ∈ keys, s.ins2Group (tid, key) = some h := by
  rw [GroupState.operandGroups, (foldl_addGroup s tid keys (addGroup_pairwise hsorted)).2 h,
    mem_addGroup, or_assoc]

theorem operandGroups_live (hs : s.Consistent) (keys : List Nat) (x : Nat × Nat) (tid : Nat)
    (hsorted : shouldMerge.Pairwise (· < ·)) (hlive : ∀ h ∈ shouldMerge, s.Live h) :
    ∀ h ∈ s.operandGroups keys shouldMerge x tid, s.Live h := by
  intro h hh
  rcases (mem_operandGroups s keys x tid hsorted h).mp hh with hh | hh | ⟨key, -, hh⟩
  · exact hlive h hh
  · exact hs.ins_live x h hh
  · exact hs.ins_live (tid, key) h hh

/-! ## The first part of `MergeInst` -/

theorem foldl_label_ins : (keys.foldl (GroupState.label T tid g) s).ins2Group x =
    if x.1 = tid ∧ x.2 ∈ keys then some g else s.ins2Group x := by
  induction keys generalizing s with
  | nil => simp
  | cons key keys ih =>
    rw [List.foldl_cons, ih]
    show (if x.1 = tid ∧ x.2 ∈ keys then some g
      else Function.update s.ins2Group (tid, key) (some g) x) = _
    by_cases hx : x = (tid, key)
    · rw [hx, Function.update_self]
      simp
    · rw [Function.update_of_ne hx]
      have hne : x.1 = tid → x.2 ≠ key := fun htid hkey => hx (Prod.ext htid hkey)
      by_cases htid : x.1 = tid
      · simp [htid, hne htid]
      · simp [htid]

/-- The labelled arguments of a thread are those of a list. -/
theorem foldl_label_args {t a : Nat} : a ∈ (keys.foldl (GroupState.label T tid g) s).labeledArgs t ↔
    a ∈ s.labeledArgs t ∨ t = tid ∧ a ∈ keys ∧ T.ins.length ≤ a := by
  induction keys generalizing s with
  | nil => simp
  | cons key keys ih =>
    have hlabel : a ∈ (s.label T tid g key).labeledArgs t ↔
        a ∈ s.labeledArgs t ∨ t = tid ∧ a = key ∧ T.ins.length ≤ a := by
      unfold GroupState.label
      simp only []
      split_ifs with hkey
      · by_cases ht : t = tid
        · rw [ht, Function.update_self, mem_insertSorted, or_comm]
          refine or_congr_right ⟨fun ha => ⟨rfl, ha, ha ▸ hkey⟩, fun ha => ha.2.1⟩
        · rw [Function.update_of_ne ht]
          exact (or_iff_left fun h => ht h.1).symm
      · refine (or_iff_left fun ha => hkey ?_).symm
        rw [← ha.2.1]
        exact ha.2.2
    rw [List.foldl_cons, ih, hlabel, List.mem_cons, or_assoc]
    refine or_congr_right ?_
    tauto

theorem label_sorted (h : ∀ t, (s.labeledArgs t).Pairwise (· < ·)) (t : Nat) :
    ((s.label T tid g key).labeledArgs t).Pairwise (· < ·) := by
  unfold GroupState.label
  simp only []
  split_ifs
  · by_cases ht : t = tid
    · rw [ht, Function.update_self]
      exact insertSorted_pairwise (h tid)
    · rw [Function.update_of_ne ht]
      exact h t
  · exact h t

theorem foldl_label_sorted (h : ∀ t, (s.labeledArgs t).Pairwise (· < ·)) (t : Nat) :
    ((keys.foldl (GroupState.label T tid g) s).labeledArgs t).Pairwise (· < ·) := by
  induction keys generalizing s with
  | nil => exact h t
  | cons key keys ih => exact ih (label_sorted h)

/-- What the first part of `MergeInst` does for the instruction `x` with the operands `keys`: the
groups `gs` become `g`. -/
structure OperandsMerged (T : Tables) (s : GroupState) (shouldMerge : List Nat) (x : Nat × Nat)
    (tid : Nat) (keys gs : List Nat) (g : Nat) (s' : GroupState) : Prop where
  groups : ∀ h, h ∈ gs ↔ h ∈ shouldMerge ∨ s.ins2Group x = some h ∨
    ∃ key ∈ keys, s.ins2Group (tid, key) = some h
  merged : g ∈ gs ∨ gs = [] ∧ ¬ s.Live g
  regroups : Regroups (joined gs g) s s'
  live : s'.Live g
  ins : ∀ y, s'.ins2Group y = if y.1 = tid ∧ y.2 ∈ keys then some g
    else if y = x then none else (s.ins2Group y).map (joined gs g)
  labels : ∀ t a, a ∈ s'.labeledArgs t ↔
    a ∈ s.labeledArgs t ∨ t = tid ∧ a ∈ keys ∧ T.ins.length ≤ a
  sorted : (∀ t, (s.labeledArgs t).Pairwise (· < ·)) → ∀ t, (s'.labeledArgs t).Pairwise (· < ·)

theorem mergeOperands_effect (hs : s.Consistent) (hsorted : shouldMerge.Pairwise (· < ·))
    (hlive : ∀ h ∈ shouldMerge, s.Live h)
    (hmerge : s.mergeOperands T shouldMerge x tid = some (g, s')) :
    ∃ i keys gs, T.ins[x.2]? = some i ∧ operandKeys T i.ssaDependencies = some keys ∧
      OperandsMerged T s shouldMerge x tid keys gs g s' := by
  simp only [GroupState.mergeOperands, Option.bind_eq_bind, Option.bind_eq_some_iff,
    Option.some.injEq, Prod.mk.injEq, Prod.exists] at hmerge
  rcases hmerge with ⟨i, hi, keys, hkeys, g', s₁, hmerge, rfl, rfl⟩
  have hgroups := mem_operandGroups s keys x tid hsorted
  have hsorted' := operandGroups_pairwise s keys x tid hsorted
  have hlive' := operandGroups_live hs keys x tid hsorted hlive
  rcases merging_spec hs hsorted' hlive' with ⟨g'', s₂, hmerge', hM⟩
  cases hmerge'.symm.trans hmerge
  have hkeysIns : ∀ key ∈ keys, ∀ h, (s₁.unlabel x).ins2Group (tid, key) = some h → h = g' := by
    intro key hkey h hh
    rw [(unlabel_groups s₁ x).2.2.2.2, Function.update_apply] at hh
    split_ifs at hh
    rw [hM.ins] at hh
    rcases Option.map_eq_some_iff.mp hh with ⟨k, hk, rfl⟩
    exact joined_of_mem ((hgroups k).mpr (Or.inr (Or.inr ⟨key, hkey, hk⟩)))
  have hunlabel := Regroups.unlabel hM.consistent x
  have hlive₁ : (s₁.unlabel x).Live g' := hunlabel.renames.live g' hM.live
  have hlabel := Regroups.foldl_label (T := T) hunlabel.consistent hlive₁ hkeysIns
  refine ⟨i, keys, s.operandGroups keys shouldMerge x tid, hi, hkeys, hgroups, ?_, ?_, ?_,
    fun y => ?_, fun t a => ?_, fun h t => ?_⟩
  · have hhead := hM.head
    cases hgs : s.operandGroups keys shouldMerge x tid with
    | nil =>
      rw [hgs] at hhead
      refine Or.inr ⟨rfl, fun hg => ?_⟩
      have := hs.le_max g' hg
      rw [hhead, List.headD_nil] at this
      omega
    | cons k ks =>
      rw [hgs] at hhead
      rw [hhead]
      exact Or.inl List.mem_cons_self
  · exact hM.regroups.trans hs (hunlabel.trans hM.consistent hlabel)
  · exact hlabel.renames.live g' hlive₁
  · rw [foldl_label_ins, (unlabel_groups s₁ x).2.2.2.2, Function.update_apply, hM.ins]
  · rw [foldl_label_args, (unlabel_groups s₁ x).2.2.2.1, hM.labels]
  · apply foldl_label_sorted
    intro t
    rw [(unlabel_groups s₁ x).2.2.2.1, hM.labels]
    exact h t

/-! ## The second part of `MergeInst` -/

/-- The key of the operand of the call that an argument is handed over to. -/
def usedKey (T : Tables) (b : SmallestBlock) (i : Nat) : Option (Option Nat) :=
  if b.isFirst = 1 ∧ b.caller ≠ noId then
    (T.ins[b.caller]?).bind fun caller =>
      (caller.ssaDependencies[i - T.ins.length]?).bind (operandKey T)
  else some none

theorem unlabel_ins (s : GroupState) (tid i key : Nat) :
    (s.unlabel (tid, i)).ins2Group (tid, key) =
      if key = i then none else s.ins2Group (tid, key) := by
  rw [(unlabel_groups s (tid, i)).2.2.2.2, Function.update_apply]
  simp

/-- What happens when the argument `i` of the group `g` is handed over to the operand `key`: the
groups `gs` become `h`, which is then the label of the operand. -/
structure HandedOver (T : Tables) (b : SmallestBlock) (s : GroupState) (i g key : Nat)
    (gs : List Nat) (h : Nat) (s' : GroupState) : Prop where
  groups : ∀ k, k ∈ gs ↔ k = g ∨ key ≠ i ∧ s.ins2Group (b.tid, key) = some k
  merged : h ∈ gs
  least : ∀ k ∈ gs, h ≤ k
  regroups : Regroups (joined gs h) s s'
  ins : ∀ y, s'.ins2Group y = if y = (b.tid, key) then some h
    else if y = (b.tid, i) then none else (s.ins2Group y).map (joined gs h)
  labels : ∀ t a, a ∈ s'.labeledArgs t ↔
    a ∈ s.labeledArgs t ∨ t = b.tid ∧ a = key ∧ T.ins.length ≤ a
  sorted : (∀ t, (s.labeledArgs t).Pairwise (· < ·)) → ∀ t, (s'.labeledArgs t).Pairwise (· < ·)

theorem label_args {t a : Nat} : a ∈ (s.label T tid g key).labeledArgs t ↔
    a ∈ s.labeledArgs t ∨ t = tid ∧ a = key ∧ T.ins.length ≤ a := by
  have h : a ∈ ([key].foldl (GroupState.label T tid g) s).labeledArgs t ↔
      a ∈ s.labeledArgs t ∨ t = tid ∧ a ∈ [key] ∧ T.ins.length ≤ a := foldl_label_args
  rw [List.foldl_cons, List.foldl_nil, List.mem_singleton] at h
  exact h

/-- The operand has no group, or the groups `gs` are merged. -/
theorem handedOver_of_label (hs : s.Consistent) (hg : s.ins2Group (b.tid, i) = some g)
    (hgroups : ∀ k, k ∈ gs ↔ k = g ∨ key ≠ i ∧ s.ins2Group (b.tid, key) = some k)
    (hsorted : gs.Pairwise (· < ·))
    (hmerge : (s.unlabel (b.tid, i)).merging gs = some (h, s₁)) :
    HandedOver T b s i g key gs h (s₁.label T b.tid h key) := by
  have hunlabel := Regroups.unlabel hs (b.tid, i)
  have hlive : ∀ k ∈ gs, (s.unlabel (b.tid, i)).Live k := by
    intro k hk
    apply hunlabel.renames.live k
    rcases (hgroups k).mp hk with rfl | ⟨-, hk⟩
    · exact hs.ins_live _ k hg
    · exact hs.ins_live _ k hk
  rcases merging_spec hunlabel.consistent hsorted hlive with ⟨h', s₂, hmerge', hM⟩
  cases hmerge'.symm.trans hmerge
  have hhead : h ∈ gs ∧ ∀ k ∈ gs, h ≤ k := by
    rw [hM.head]
    cases gs with
    | nil => exact nomatch (hgroups g).mpr (Or.inl rfl)
    | cons k gs =>
      refine ⟨List.mem_cons_self, fun k' hk' => ?_⟩
      rcases List.mem_cons.mp hk' with rfl | hk'
      · exact le_rfl
      · exact (List.rel_of_pairwise_cons hsorted hk').le
  have hins : ∀ y, s₁.ins2Group y =
      if y = (b.tid, i) then none else (s.ins2Group y).map (joined gs h) := by
    intro y
    rw [hM.ins, (unlabel_groups s (b.tid, i)).2.2.2.2, Function.update_apply]
    split_ifs <;> rfl
  have hkey : ∀ k, s₁.ins2Group (b.tid, key) = some k → k = h := by
    intro k hk
    rw [hins] at hk
    split_ifs at hk with hki
    rcases Option.map_eq_some_iff.mp hk with ⟨k', hk', rfl⟩
    refine joined_of_mem ((hgroups k').mpr (Or.inr ⟨fun heq => hki ?_, hk'⟩))
    rw [heq]
  have hlabel : (s₁.label T b.tid h key).Consistent := hM.consistent.label hM.live hkey
  refine ⟨hgroups, hhead.1, hhead.2, ?_, fun y => ?_, fun t a => ?_, fun hsort t => ?_⟩
  · exact hunlabel.trans hs (hM.regroups.trans hunlabel.consistent (Regroups.of_eq hlabel rfl rfl rfl))
  · show Function.update s₁.ins2Group (b.tid, key) (some h) y = _
    rw [Function.update_apply, hins]
  · rw [label_args, hM.labels, (unlabel_groups s (b.tid, i)).2.2.2.1]
  · apply label_sorted
    intro t
    rw [hM.labels, (unlabel_groups s (b.tid, i)).2.2.2.1]
    exact hsort t

theorem mem_pair {k : Nat} : k ∈ insertSorted h [g] ↔ k = h ∨ k = g := by
  rw [mem_insertSorted, List.mem_singleton]

theorem handOver_effect (hs : s.Consistent) (hg : s.ins2Group (b.tid, i) = some g)
    (hstep : s.handOver T b i = some s') :
    usedKey T b i = some none ∧ s' = s.unlabel (b.tid, i) ∨
      ∃ key gs h, usedKey T b i = some (some key) ∧ HandedOver T b s i g key gs h s' := by
  unfold GroupState.handOver at hstep
  rw [hg] at hstep
  by_cases hfirst : b.isFirst = 1 ∧ b.caller ≠ noId
  · simp only [if_pos hfirst, Option.bind_eq_bind, Option.bind_eq_some_iff] at hstep
    rcases hstep with ⟨caller, hcaller, usedArg, hused, key?, hkey?, hstep⟩
    have hkey : usedKey T b i = some key? := by
      rw [usedKey, if_pos hfirst, hcaller, Option.bind_some, hused, Option.bind_some, hkey?]
    cases key? with
    | none => exact Or.inl ⟨hkey, (Option.some.inj hstep).symm⟩
    | some key =>
      have hins := unlabel_ins s b.tid i key
      cases hgroup : (s.unlabel (b.tid, i)).ins2Group (b.tid, key) with
      | none =>
        simp only [hgroup] at hstep
        cases hstep
        refine Or.inr ⟨key, [g], g, hkey, handedOver_of_label hs hg (fun k => ?_)
          (List.pairwise_singleton _ _) rfl⟩
        rw [List.mem_singleton]
        refine (or_iff_left fun hk => ?_).symm
        rw [hgroup, if_neg hk.1, hk.2] at hins
        cases hins
      | some k =>
        simp only [hgroup, Option.bind_eq_some_iff, Prod.exists] at hstep
        rcases hstep with ⟨h, s₁, hmerge, hs'⟩
        cases hs'
        have hne : key ≠ i := by
          intro heq
          rw [hgroup, if_pos heq] at hins
          cases hins
        rw [hgroup, if_neg hne] at hins
        refine Or.inr ⟨key, _, h, hkey, handedOver_of_label hs hg (fun k' => ?_)
          (insertSorted_pairwise (List.pairwise_singleton _ _)) hmerge⟩
        rw [mem_pair, ← hins, Option.some.injEq, and_iff_right hne, or_comm, eq_comm (a := k)]
  · simp only [if_neg hfirst] at hstep
    refine Or.inl ⟨?_, (Option.some.inj hstep).symm⟩
    rw [usedKey, if_neg hfirst]

/-! ## The group that is returned -/

/-- Handing over the argument `i` joins its group `g` with the group `h` of the operand. -/
def Joins (T : Tables) (b : SmallestBlock) (s : GroupState) (i g h : Nat) : Prop :=
  s.ins2Group (b.tid, i) = some g ∧ ∃ key, usedKey T b i = some (some key) ∧ key ≠ i ∧
    s.ins2Group (b.tid, key) = some h

/-- The groups that are joined are determined. -/
theorem Joins.unique {i g' h' : Nat} (hj : Joins T b s i g h) (hj' : Joins T b s i g' h') :
    g' = g ∧ h' = h := by
  rcases hj with ⟨hg, key, hkey, -, hh⟩
  rcases hj' with ⟨hg', key', hkey', -, hh'⟩
  rw [hkey, Option.some.injEq, Option.some.injEq] at hkey'
  rw [← hkey', hh, Option.some.injEq] at hh'
  rw [hg, Option.some.injEq] at hg'
  exact ⟨hg'.symm, hh'.symm⟩

/-- An argument that is handed over does not join the group `g` with a smaller one. -/
def KeepsGroup (T : Tables) (b : SmallestBlock) (g : Nat) (s : GroupState) (i : Nat) : Prop :=
  ∀ h k, Joins T b s i h k → g = h ∨ g = k → g ≤ h ∧ g ≤ k

/-- A group stays iff no argument joins it with a smaller one. -/
theorem HandedOver.keeps_iff {m : Nat} (hH : HandedOver T b s i g key gs m s')
    (hg : s.ins2Group (b.tid, i) = some g) (hused : usedKey T b i = some (some key)) (k : Nat) :
    joined gs m k = k ↔ KeepsGroup T b k s i := by
  have hjoins : ∀ {h}, key ≠ i → s.ins2Group (b.tid, key) = some h → Joins T b s i g h :=
    fun hne hh => ⟨hg, key, hused, hne, hh⟩
  constructor
  · intro hk g' h' hj hor
    have hg' : g' ∈ gs := by
      rw [hH.groups]
      exact Or.inl (Option.some.inj (hj.1.symm.trans hg))
    have hh' : h' ∈ gs := by
      rcases hj with ⟨-, key', hused', hne, hins⟩
      rw [hused, Option.some.injEq, Option.some.injEq] at hused'
      subst hused'
      exact (hH.groups h').mpr (Or.inr ⟨hne, hins⟩)
    have hmem : k ∈ gs := by
      rcases hor with rfl | rfl
      · exact hg'
      · exact hh'
    rw [joined_of_mem hmem] at hk
    rw [← hk]
    exact ⟨hH.least g' hg', hH.least h' hh'⟩
  · intro hkeep
    by_cases hmem : k ∈ gs
    · rw [joined_of_mem hmem]
      refine le_antisymm (hH.least k hmem) ?_
      -- the least of the groups is the label of the argument or of the operand
      rcases (hH.groups m).mp hH.merged with rfl | ⟨hne, hm⟩
      · rcases (hH.groups k).mp hmem with rfl | ⟨hne, hk⟩
        · exact le_rfl
        · exact (hkeep m k (hjoins hne hk) (Or.inr rfl)).1
      · refine (hkeep g m (hjoins hne hm) ?_).2
        refine ((hH.groups k).mp hmem).imp_right fun hk => ?_
        exact Option.some.inj (hk.2.symm.trans hm)
    · exact joined_of_notMem hmem

/-- **Handing over an argument** keeps the invariant. A group stays unless it is joined with a
smaller one. -/
theorem handOver_spec (hs : s.Consistent) {i : Nat} (hstep : s.handOver T b i = some s') :
    ∃ f, Regroups f s s' ∧ ∀ g, s.Live g → (s'.Live g ↔ KeepsGroup T b g s i) := by
  cases hi : s.ins2Group (b.tid, i) with
  | none =>
    unfold GroupState.handOver at hstep
    rw [hi] at hstep
    cases hstep
    refine ⟨id, Regroups.of_eq hs rfl rfl rfl, fun g hg => iff_of_true hg fun h k hj => ?_⟩
    exact nomatch hi.symm.trans hj.1
  | some g =>
    rcases handOver_effect hs hi hstep with ⟨hused, rfl⟩ | ⟨key, gs, m, hused, hH⟩
    · have hunlabel := Regroups.unlabel hs (b.tid, i)
      refine ⟨id, hunlabel, fun k hk => iff_of_true (hunlabel.renames.live k hk) fun h k hj => ?_⟩
      rcases hj with ⟨-, key, hkey, -⟩
      rw [hused] at hkey
      exact nomatch hkey
    · refine ⟨_, hH.regroups, fun k hk => ?_⟩
      rw [hH.regroups.renames.live_iff hk, hH.keeps_iff hi hused]

/-- A group stays through the loop over the arguments iff no argument joins it with a smaller
one. -/
theorem handOvers_spec (hs : s.Consistent) {args : List Nat}
    (hrun : run (GroupState.handOver T b) s args = some s') :
    ∃ f, Regroups f s s' ∧
      ∀ g, s.Live g → (s'.Live g ↔ RunOk (GroupState.handOver T b) (KeepsGroup T b g) s args) := by
  induction args generalizing s with
  | nil =>
    cases hrun
    exact ⟨id, Regroups.of_eq hs rfl rfl rfl, fun g hg => iff_of_true hg (RunOk.nil _)⟩
  | cons i args ih =>
    rcases run_cons_eq_some.mp hrun with ⟨s₁, hstep, hrest⟩
    rcases handOver_spec hs hstep with ⟨f, hf, hlive⟩
    rcases ih hf.consistent hrest with ⟨f', hf', hlive'⟩
    refine ⟨_, hf.trans hs hf', fun g hg => ?_⟩
    rw [runOk_cons hstep, ← hlive g hg]
    constructor
    · intro hg'
      have hg₁ : s₁.Live g := by
        by_contra hdead
        exact hf'.renames.dead g ((hs.le_max g hg).trans hf.renames.max_le) hdead hg'
      exact ⟨hg₁, (hlive' g hg₁).mp hg'⟩
    · exact fun hok => (hlive' g hok.1).mpr hok.2

/-- The state in which the loop over the arguments starts, and its arguments. -/
def GroupState.clearArgs (s : GroupState) (tid : Nat) : GroupState :=
  { s with labeledArgs := Function.update s.labeledArgs tid [] }

theorem GroupState.Consistent.clearArgs (hs : s.Consistent) (tid : Nat) :
    (s.clearArgs tid).Consistent :=
  hs.of_eq rfl rfl rfl hs.ins_live hs.paired

/-- The condition for `MergeInst`, with the state behind its first part: in the first block of a
function no argument joins the group with a smaller one. -/
def KeepsReturned (T : Tables) (b : SmallestBlock) (g : Nat) (s : GroupState) : Prop :=
  b.isFirst = 1 ∨ b.isFirst = 2 →
    RunOk (GroupState.handOver T b) (KeepsGroup T b g) (s.clearArgs b.tid) (s.labeledArgs b.tid)

theorem relabel_spec (hs : s.Consistent) (hrelabel : s.relabel T b = some s') :
    ∃ f, Regroups f s s' ∧ ∀ g, s.Live g → (s'.Live g ↔ KeepsReturned T b g s) := by
  unfold GroupState.relabel at hrelabel
  split_ifs at hrelabel with hfirst
  · have hclear := hs.clearArgs b.tid
    have hregroups : Regroups id s (s.clearArgs b.tid) := Regroups.of_eq hclear rfl rfl rfl
    rcases handOvers_spec hclear hrelabel with ⟨f, hf, hlive⟩
    refine ⟨_, hregroups.trans hs hf, fun g hg => ?_⟩
    rw [hlive g hg]
    exact ⟨fun h _ => h, fun h => h hfirst⟩
  · cases hrelabel
    exact ⟨id, Regroups.of_eq hs rfl rfl rfl, fun g hg => iff_of_true hg fun h => absurd h hfirst⟩

/-- **`MergeInst`** keeps the invariant, and what is in `shouldMerge` is then in one group. The group
it returns still has a tree iff it was not joined with a smaller one. -/
theorem mergeInst_spec (hs : s.Consistent) {shouldMerge : List Nat}
    (hsorted : shouldMerge.Pairwise (· < ·)) (hlive : ∀ h ∈ shouldMerge, s.Live h)
    (hmerge : s.mergeInst T shouldMerge x b = some (g, s')) :
    ∃ f s₁, Regroups f s s' ∧ s.mergeOperands T shouldMerge x b.tid = some (g, s₁) ∧
      (s'.Live g ↔ KeepsReturned T b g s₁) ∧ (s'.Live g → ∀ h ∈ shouldMerge, f h = g) ∧
        ∃ h, ∀ k ∈ shouldMerge, f k = h := by
  simp only [GroupState.mergeInst, Option.bind_eq_some_iff, Option.map_eq_some_iff, Prod.exists,
    Prod.mk.injEq] at hmerge
  rcases hmerge with ⟨g', s₁, hfirst, s₂, hrelabel, rfl, rfl⟩
  rcases mergeOperands_effect hs hsorted hlive hfirst with ⟨-, keys, gs, -, -, hM⟩
  have hjoin : ∀ h ∈ shouldMerge, joined gs g' h = g' := by
    intro h hh
    exact joined_of_mem ((hM.groups h).mpr (Or.inl hh))
  rcases relabel_spec hM.regroups.consistent hrelabel with ⟨f', hf', hkeep⟩
  refine ⟨_, s₁, hM.regroups.trans hs hf', hfirst, hkeep g' hM.live, fun hg' h hh => ?_, f' g',
    fun k hk => ?_⟩
  · rw [Function.comp_apply, hjoin h hh]
    exact hf'.renames.kept g' hM.live hg'
  · rw [Function.comp_apply, hjoin k hk]

end

end Slimmer
