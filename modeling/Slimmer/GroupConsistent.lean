import Slimmer.GroupMemory

/-!
# The memory groups stay consistent

`GroupState.Consistent` is the invariant of `GroupMemory`: `Addr2Group` and the trees of `Group2Addr`
have the same addresses, `Ins2Group` and `Group2Ins` the same values, and a value is in a group that
has a tree. An operation renames the groups it joins (`Renames`).

**Theorem (`merging_spec`).** When all the groups have a tree, `Merging` makes the first of them out
of all, and keeps the invariant.
-/

namespace Slimmer

/-! ## The invariant -/

/-- The group has a tree. -/
def GroupState.Live (s : GroupState) (g : Nat) : Prop := (s.group2Addr g).isSome

/-- `Ins2Group` and `Group2Ins` agree. -/
def GroupState.Paired (s : GroupState) : Prop :=
  ∀ x g, s.ins2Group x = some g ↔ x ∈ s.group2Ins g

/-- `Addr2Group` and `Group2Addr` agree. -/
def GroupState.AddrsAgree (s : GroupState) : Prop :=
  ∀ a, a < maxRange → ∀ g, s.addr2Group.get a = some g ↔
    ∃ tree, s.group2Addr g = some tree ∧ (tree.get a).isSome

structure GroupState.Consistent (s : GroupState) : Prop where
  addr_wf : s.addr2Group.WF 0 maxRange
  tree_wf : ∀ g tree, s.group2Addr g = some tree → tree.WF 0 maxRange
  agree : s.AddrsAgree
  le_max : ∀ g, s.Live g → g ≤ s.maxGroupID
  ins_live : ∀ x g, s.ins2Group x = some g → s.Live g
  paired : s.Paired

/-- What `Merging` relies on: both books of the addresses and both books of the values agree. -/
structure GroupState.BooksAgree (s : GroupState) : Prop where
  addr_wf : s.addr2Group.WF 0 maxRange
  tree_wf : ∀ g tree, s.group2Addr g = some tree → tree.WF 0 maxRange
  agree : s.AddrsAgree
  paired : s.Paired

theorem GroupState.Consistent.books {s : GroupState} (hs : s.Consistent) : s.BooksAgree :=
  ⟨hs.addr_wf, hs.tree_wf, hs.agree, hs.paired⟩

/-- The groups of `s` are those of `s'` under the names `f`: addresses keep their groups, and a group
that has got another name is gone for good. -/
structure Renames (f : Nat → Nat) (s s' : GroupState) : Prop where
  addr : ∀ a, a < maxRange → ∀ g, s.addr2Group.get a = some g → s'.addr2Group.get a = some (f g)
  live : ∀ g, s.Live g → s'.Live (f g)
  kept : ∀ g, s.Live g → s'.Live g → f g = g
  dead : ∀ g, g ≤ s.maxGroupID → ¬ s.Live g → ¬ s'.Live g
  max_le : s.maxGroupID ≤ s'.maxGroupID

/-- The names when `groups` have been joined into `g`. -/
def joined (groups : List Nat) (g h : Nat) : Nat := if h ∈ groups then g else h

section

variable {T : Tables} {s s' s₁ : GroupState} {b : SmallestBlock} {f f' : Nat → Nat}
  {g h tid key : Nat} {groups : List Nat} {x : Nat × Nat}

theorem GroupState.Consistent.init : ({} : GroupState).Consistent where
  addr_wf := SegmentTree.newTree_wf 0
  tree_wf _ _ h := nomatch h
  agree _ _ _ := ⟨fun h => (nomatch h), fun ⟨_, h, _⟩ => (nomatch h)⟩
  le_max _ h := nomatch h
  ins_live _ _ h := nomatch h
  paired x _ := ⟨fun h => (nomatch h), fun h => absurd h (Finset.notMem_empty x)⟩

theorem Renames.refl (s : GroupState) : Renames id s s :=
  ⟨fun _ _ _ h => h, fun _ h => h, fun _ _ _ => rfl, fun _ _ h => h, le_rfl⟩

theorem Renames.trans (hle : ∀ g, s.Live g → g ≤ s.maxGroupID) (h : Renames f s s₁)
    (h' : Renames f' s₁ s') : Renames (f' ∘ f) s s' where
  addr a ha g hg := h'.addr a ha (f g) (h.addr a ha g hg)
  live g hg := h'.live (f g) (h.live g hg)
  kept g hg hg' := by
    have hlive : s₁.Live g := by
      by_contra hdead
      exact h'.dead g ((hle g hg).trans h.max_le) hdead hg'
    have hfg := h.kept g hg hlive
    rw [Function.comp_apply, hfg]
    exact h'.kept g hlive hg'
  dead g hle hg := h'.dead g (hle.trans h.max_le) (h.dead g hle hg)
  max_le := h.max_le.trans h'.max_le

/-- A group that keeps its name is not gone. -/
theorem Renames.live_iff (h : Renames f s s') (hg : s.Live g) : s'.Live g ↔ f g = g := by
  refine ⟨h.kept g hg, fun hfg => ?_⟩
  have := h.live g hg
  rwa [hfg] at this

/-- Two states with the same groups. -/
theorem Renames.of_eq (haddr : s'.addr2Group = s.addr2Group) (htree : s'.group2Addr = s.group2Addr)
    (hmax : s'.maxGroupID = s.maxGroupID) : Renames id s s' := by
  have hlive : ∀ g, s'.Live g ↔ s.Live g := fun g => by rw [GroupState.Live, htree]; rfl
  refine ⟨fun a _ g hg => ?_, fun g hg => (hlive g).mpr hg, fun _ _ _ => rfl,
    fun g _ hg hg' => hg ((hlive g).mp hg'), hmax.ge⟩
  rw [haddr]
  exact hg

/-- The invariant needs to be checked for the values only, when the groups are the same. -/
theorem GroupState.Consistent.of_eq (hs : s.Consistent) (haddr : s'.addr2Group = s.addr2Group)
    (htree : s'.group2Addr = s.group2Addr) (hmax : s'.maxGroupID = s.maxGroupID)
    (hins : ∀ x g, s'.ins2Group x = some g → s.Live g) (hpaired : s'.Paired) : s'.Consistent where
  addr_wf := by
    rw [haddr]
    exact hs.addr_wf
  tree_wf := by
    rw [htree]
    exact hs.tree_wf
  agree := by
    unfold AddrsAgree
    rw [haddr, htree]
    exact hs.agree
  le_max := by
    unfold GroupState.Live
    rw [htree, hmax]
    exact hs.le_max
  ins_live x g hg := by
    rw [GroupState.Live, htree]
    exact hins x g hg
  paired := hpaired

/-! ## Labels -/

theorem unlabel_groups (s : GroupState) (x : Nat × Nat) :
    (s.unlabel x).addr2Group = s.addr2Group ∧ (s.unlabel x).group2Addr = s.group2Addr ∧
      (s.unlabel x).maxGroupID = s.maxGroupID ∧ (s.unlabel x).labeledArgs = s.labeledArgs ∧
        (s.unlabel x).ins2Group = Function.update s.ins2Group x none := by
  unfold GroupState.unlabel
  cases hx : s.ins2Group x with
  | none => exact ⟨rfl, rfl, rfl, rfl, (Function.update_eq_self_iff.mpr hx.symm).symm⟩
  | some g => exact ⟨rfl, rfl, rfl, rfl, rfl⟩

theorem GroupState.Paired.unlabel (hs : s.Paired) (x : Nat × Nat) : (s.unlabel x).Paired := by
  unfold GroupState.unlabel
  cases hx : s.ins2Group x with
  | none => exact hs
  | some g =>
    intro y h
    show Function.update s.ins2Group x none y = some h ↔
      y ∈ Function.update s.group2Ins g ((s.group2Ins g).erase x) h
    by_cases hyx : y = x
    · subst hyx
      rw [Function.update_self]
      by_cases hhg : h = g
      · subst hhg
        simp
      · rw [Function.update_of_ne hhg, ← hs y h, hx]
        simp [Ne.symm hhg]
    · rw [Function.update_of_ne hyx, hs y h]
      by_cases hhg : h = g
      · subst hhg
        simp [hyx]
      · rw [Function.update_of_ne hhg]

theorem GroupState.Consistent.unlabel (hs : s.Consistent) (x : Nat × Nat) :
    (s.unlabel x).Consistent := by
  rcases unlabel_groups s x with ⟨haddr, htree, hmax, -, hins⟩
  refine hs.of_eq haddr htree hmax (fun y h hy => ?_) (hs.paired.unlabel x)
  rw [hins] at hy
  by_cases hyx : y = x
  · rw [hyx, Function.update_self] at hy
    cases hy
  · rw [Function.update_of_ne hyx] at hy
    exact hs.ins_live y h hy

/-- An operand that has no group or the group `g` already gets the label `g`. -/
theorem GroupState.Consistent.label (hs : s.Consistent) (hg : s.Live g)
    (hkey : ∀ h, s.ins2Group (tid, key) = some h → h = g) : (s.label T tid g key).Consistent := by
  refine hs.of_eq rfl rfl rfl (fun y h hy => ?_) (fun y h => ?_)
  · replace hy : Function.update s.ins2Group (tid, key) (some g) y = some h := hy
    by_cases hyk : y = (tid, key)
    · rw [hyk, Function.update_self] at hy
      cases hy
      exact hg
    · rw [Function.update_of_ne hyk] at hy
      exact hs.ins_live y h hy
  · show Function.update s.ins2Group (tid, key) (some g) y = some h ↔
      y ∈ Function.update s.group2Ins g (insert (tid, key) (s.group2Ins g)) h
    by_cases hyk : y = (tid, key)
    · subst hyk
      rw [Function.update_self]
      by_cases hhg : h = g
      · subst hhg
        simp
      · rw [Function.update_of_ne hhg, ← hs.paired]
        refine ⟨fun heq => absurd (Option.some.inj heq).symm hhg, fun heq => ?_⟩
        exact absurd (hkey h heq) hhg
    · rw [Function.update_of_ne hyk, hs.paired y h]
      by_cases hhg : h = g
      · subst hhg
        simp [hyk]
      · rw [Function.update_of_ne hhg]

/-! ## Merging groups -/

theorem absorb_spec (hs : s.Paired) {i : Nat} (hi : i ≠ g) :
    (s.absorb g i).Paired ∧
      ∀ x, (s.absorb g i).ins2Group x = (s.ins2Group x).map fun h => if h = i then g else h := by
  have hins : ∀ x, (s.absorb g i).ins2Group x =
      (s.ins2Group x).map fun h => if h = i then g else h := by
    intro x
    show (if x ∈ s.group2Ins i then some g else s.ins2Group x) = _
    rw [if_congr (hs x i).symm rfl rfl]
    cases s.ins2Group x with
    | none => simp
    | some h =>
      by_cases hhi : h = i
      · simp [hhi]
      · simp [hhi]
  refine ⟨fun x h => ?_, hins⟩
  rw [hins x]
  show _ ↔ x ∈ Function.update (Function.update s.group2Ins g
    (s.group2Ins g ∪ s.group2Ins i)) i ∅ h
  by_cases hhi : h = i
  · subst hhi
    rw [Function.update_self]
    cases hx : s.ins2Group x with
    | none => simp
    | some k =>
      by_cases hk : k = h
      · simp [hk, Ne.symm hi]
      · simp [hk]
  · rw [Function.update_of_ne hhi]
    by_cases hhg : h = g
    · subst hhg
      rw [Function.update_self, Finset.mem_union, ← hs x h, ← hs x i]
      cases hx : s.ins2Group x with
      | none => simp
      | some k =>
        by_cases hk : k = i
        · simp [hk]
        · simp [hk]
    · rw [Function.update_of_ne hhg, ← hs x h]
      cases hx : s.ins2Group x with
      | none => simp
      | some k =>
        by_cases hk : k = i
        · simp [hk, Ne.symm hhg, Ne.symm hhi]
        · simp [hk]

/-- What absorbing a list of groups does. -/
theorem foldl_absorb (hs : s.Paired) (hgroups : g ∉ groups) :
    (groups.foldl (GroupState.absorb g) s).Paired ∧
      (∀ x, (groups.foldl (GroupState.absorb g) s).ins2Group x =
        (s.ins2Group x).map (joined groups g)) ∧
      (∀ h, (groups.foldl (GroupState.absorb g) s).group2Addr h =
        if h ∈ groups then none else s.group2Addr h) ∧
      (groups.foldl (GroupState.absorb g) s).addr2Group = s.addr2Group ∧
      (groups.foldl (GroupState.absorb g) s).maxGroupID = s.maxGroupID ∧
      (groups.foldl (GroupState.absorb g) s).labeledArgs = s.labeledArgs := by
  induction groups generalizing s with
  | nil =>
    refine ⟨hs, fun x => ?_, fun h => rfl, rfl, rfl, rfl⟩
    have hid : joined [] g = id := rfl
    rw [hid, Option.map_id]
    rfl
  | cons i groups ih =>
    rw [List.mem_cons, not_or] at hgroups
    rcases absorb_spec hs (Ne.symm hgroups.1) with ⟨hpaired, hins⟩
    rcases ih hpaired hgroups.2 with ⟨hpaired', hins', htree, haddr, hmax, hlabels⟩
    refine ⟨hpaired', fun x => ?_, fun h => ?_, haddr, hmax, hlabels⟩
    · rw [List.foldl_cons, hins' x, hins x, Option.map_map]
      congr 1
      funext h
      unfold joined
      by_cases hhi : h = i
      · simp [hhi, hgroups.2]
      · simp [hhi]
    · rw [List.foldl_cons, htree h]
      show (if h ∈ groups then none else Function.update s.group2Addr i none h) = _
      by_cases hhi : h = i
      · subst hhi
        simp
      · rw [Function.update_of_ne hhi]
        simp [hhi]

/-- What `Merging` does with groups that all have a tree. -/
structure MergingSpec (s : GroupState) (groups : List Nat) (g : Nat) (s' : GroupState) : Prop where
  head : g = groups.headD (s.maxGroupID + 1)
  consistent : s'.Consistent
  renames : Renames (joined groups g) s s'
  live : s'.Live g
  addr : ∀ a, a < maxRange → s'.addr2Group.get a = (s.addr2Group.get a).map (joined groups g)
  ins : ∀ x, s'.ins2Group x = (s.ins2Group x).map (joined groups g)
  labels : s'.labeledArgs = s.labeledArgs

theorem joined_of_mem (hh : h ∈ groups) : joined groups g h = g := if_pos hh

theorem joined_of_notMem (hh : h ∉ groups) : joined groups g h = h := if_neg hh

theorem joined_nil : joined [] g = id := rfl

theorem joined_singleton : joined [g] g = id := by
  funext h
  unfold joined
  split_ifs with hh
  · exact (List.mem_singleton.mp hh).symm
  · rfl

/-- The first group keeps its name. -/
theorem joined_cons : joined (g :: groups) g = joined groups g := by
  funext h
  unfold joined
  by_cases hhg : h = g
  · simp [hhg]
  · simp [hhg]

/-- Nothing to merge: a new group. -/
theorem merging_nil (hs : s.Consistent) :
    ∃ g s', s.merging [] = some (g, s') ∧ MergingSpec s [] g s' := by
  have hmerge : ∃ s' : GroupState, s.merging [] = some (s.maxGroupID + 1, s') ∧
      s'.addr2Group = s.addr2Group ∧ s'.maxGroupID = s.maxGroupID + 1 ∧
      (∀ g, s'.group2Addr g =
        if g = s.maxGroupID + 1 then some (.newTree 0) else s.group2Addr g) ∧
      s'.ins2Group = s.ins2Group ∧ s'.group2Ins = s.group2Ins ∧ s'.labeledArgs = s.labeledArgs :=
    ⟨_, rfl, rfl, rfl, fun g => Function.update_apply _ _ _ g, rfl, rfl, rfl⟩
  rcases hmerge with ⟨s', hmerge, haddr, hmax, htree, hins, hgroup, hlabels⟩
  have hdead : ¬ s.Live (s.maxGroupID + 1) := fun h => absurd (hs.le_max _ h) (by omega)
  have hlive : ∀ g, s'.Live g ↔ g = s.maxGroupID + 1 ∨ s.Live g := by
    intro g
    rw [GroupState.Live, htree g]
    split_ifs with hg
    · simp [hg]
    · simp [hg, GroupState.Live]
  refine ⟨_, s', hmerge, rfl, ?_, ?_, (hlive _).mpr (Or.inl rfl), fun a _ => ?_, fun x => ?_,
    hlabels⟩
  · refine ⟨?_, fun g tree h => ?_, fun a ha g => ?_, fun g h => ?_, fun x g h => ?_, ?_⟩
    · rw [haddr]
      exact hs.addr_wf
    · rw [htree g] at h
      split_ifs at h
      · cases h
        exact SegmentTree.newTree_wf 0
      · exact hs.tree_wf g tree h
    · rw [haddr, htree g, hs.agree a ha g]
      split_ifs with hg
      · have hnone : s.group2Addr g = none := by
          rw [hg]
          exact Option.not_isSome_iff_eq_none.mp hdead
        simp [hnone]
      · rfl
    · rw [hmax]
      rcases (hlive g).mp h with hg | hg
      · exact hg.le
      · exact (hs.le_max g hg).trans (Nat.le_succ _)
    · rw [hins] at h
      exact (hlive g).mpr (Or.inr (hs.ins_live x g h))
    · unfold GroupState.Paired
      rw [hins, hgroup]
      exact hs.paired
  · rw [joined_nil]
    refine ⟨fun a _ g h => by rw [haddr]; exact h, fun g h => (hlive g).mpr (Or.inr h),
      fun _ _ _ => rfl, fun g hle h hg => ?_, by omega⟩
    rcases (hlive g).mp hg with hg | hg
    · omega
    · exact h hg
  · rw [joined_nil, Option.map_id, id, haddr]
  · rw [joined_nil, Option.map_id, id, hins]

/-- One group stays as it is. -/
theorem merging_singleton (hs : s.Consistent) (hg : s.Live g) : MergingSpec s [g] g s where
  head := rfl
  consistent := hs
  renames := by
    rw [joined_singleton]
    exact Renames.refl s
  live := hg
  addr a _ := by rw [joined_singleton, Option.map_id, id]
  ins x := by rw [joined_singleton, Option.map_id, id]
  labels := rfl

/-- The trees of the groups have the addresses of the groups. -/
theorem anyHas_trees (hs : s.BooksAgree) {a : Nat} (ha : a < maxRange) :
    AnyHas (groups.filterMap s.group2Addr) a ↔ ∃ h ∈ groups, s.addr2Group.get a = some h := by
  constructor
  · intro hany
    rcases hany with ⟨tree, htree, hget⟩
    rcases List.mem_filterMap.mp htree with ⟨h, hh, heq⟩
    exact ⟨h, hh, (hs.agree a ha h).mpr ⟨tree, heq, hget⟩⟩
  · intro hex
    rcases hex with ⟨h, hh, hget⟩
    rcases (hs.agree a ha h).mp hget with ⟨tree, heq, hget⟩
    exact ⟨tree, List.mem_filterMap.mpr ⟨h, hh, heq⟩, hget⟩

/-- Two groups or more: their trees become one, and then the first group takes the others in. -/
theorem merging_trees (hs : s.BooksAgree) (hg : s.Live g) {i : Nat} (hnot : g ∉ i :: groups) :
    ∃ tree s', s.merging (g :: i :: groups) = some (g, s') ∧
      Merged 0 maxRange g ((g :: i :: groups).filterMap s.group2Addr) s.addr2Group
        (tree, s'.addr2Group) ∧
      s'.Paired ∧ (∀ x, s'.ins2Group x = (s.ins2Group x).map (joined (i :: groups) g)) ∧
      (∀ h, s'.group2Addr h =
        if h ∈ i :: groups then none else if h = g then some tree else s.group2Addr h) ∧
      s'.maxGroupID = s.maxGroupID ∧ s'.labeledArgs = s.labeledArgs := by
  have htrees : ∀ t ∈ (g :: i :: groups).filterMap s.group2Addr, t.WF 0 maxRange := by
    intro t ht
    rcases List.mem_filterMap.mp ht with ⟨h, -, heq⟩
    exact hs.tree_wf h t heq
  have hne : (g :: i :: groups).filterMap s.group2Addr ≠ [] := by
    rcases Option.isSome_iff_exists.mp hg with ⟨tree, htree⟩
    exact List.ne_nil_of_mem (List.mem_filterMap.mpr ⟨g, List.mem_cons_self, htree⟩)
  rcases mergingTrees_spec (g := g) 64 htrees hne (by decide) le_rfl hs.addr_wf with
    ⟨⟨tree, addr⟩, hmerge, hM⟩
  have hpaired : GroupState.Paired { s with
      addr2Group := addr
      group2Addr := Function.update s.group2Addr g (some tree) } := hs.paired
  rcases foldl_absorb hpaired hnot with ⟨hpaired', hins, htree, haddr, hmax, hlabels⟩
  refine ⟨tree, _, ?_, ?_, hpaired', hins, fun h => ?_, hmax, hlabels⟩
  · rw [GroupState.merging, hmerge]
    · rfl
    · exact fun hnil => (nomatch hnil)
  · rw [haddr]
    exact hM
  · rw [htree h]
    show (if h ∈ i :: groups then none else Function.update s.group2Addr g (some tree) h) = _
    rw [Function.update_apply]

/-- What the merged trees say of an address: its group has become the first one, or it is as
before. -/
theorem Merged.get (hs : s.BooksAgree) {i : Nat} {r : SegmentTree Int × SegmentTree Nat}
    (hM : Merged 0 maxRange g ((g :: i :: groups).filterMap s.group2Addr) s.addr2Group r) {a : Nat}
    (ha : a < maxRange) : r.2.get a = (s.addr2Group.get a).map (joined (i :: groups) g) := by
  rw [← joined_cons]
  by_cases hany : AnyHas ((g :: i :: groups).filterMap s.group2Addr) a
  · rcases (anyHas_trees hs ha).mp hany with ⟨h, hh, hgeth⟩
    rw [hgeth, Option.map_some, joined_of_mem hh]
    exact hM.inside a (Nat.zero_le a) ha hany
  · rw [hM.outside a ha fun hc => hany hc.2.2]
    cases hgeth : s.addr2Group.get a with
    | none => rfl
    | some h =>
      have hh : h ∉ g :: i :: groups := fun hh => hany ((anyHas_trees hs ha).mpr ⟨h, hh, hgeth⟩)
      rw [Option.map_some, joined_of_notMem hh]

/-- A group that has been joined is no group's name any more. -/
theorem joined_ne (hnot : g ∉ groups) (hh : h ∈ groups) (k : Nat) : joined groups g k ≠ h := by
  unfold joined
  split_ifs with hk
  · exact fun heq => hnot (heq ▸ hh)
  · exact fun heq => hk (heq ▸ hh)

/-- **The books agree** after two groups or more have been merged. -/
theorem merging_books (hs : s.BooksAgree) (hg : s.Live g) {i : Nat} (hnot : g ∉ i :: groups) :
    ∃ tree s', s.merging (g :: i :: groups) = some (g, s') ∧ s'.BooksAgree ∧
      (∀ a, a < maxRange →
        s'.addr2Group.get a = (s.addr2Group.get a).map (joined (i :: groups) g)) ∧
      (∀ x, s'.ins2Group x = (s.ins2Group x).map (joined (i :: groups) g)) ∧
      (∀ h, s'.group2Addr h =
        if h ∈ i :: groups then none else if h = g then some tree else s.group2Addr h) ∧
      s'.maxGroupID = s.maxGroupID ∧ s'.labeledArgs = s.labeledArgs := by
  rcases merging_trees hs hg hnot with ⟨tree, s', hmerge, hM, hpaired, hins, htree, hrest⟩
  have hget : ∀ a, a < maxRange →
      s'.addr2Group.get a = (s.addr2Group.get a).map (joined (i :: groups) g) :=
    fun a ha => hM.get hs ha
  refine ⟨tree, s', hmerge, ⟨hM.addr_wf, fun h t ht => ?_, fun a ha h => ?_, hpaired⟩, hget, hins,
    htree, hrest⟩
  · rw [htree h] at ht
    split_ifs at ht
    · cases ht
      exact hM.tree_wf
    · exact hs.tree_wf h t ht
  · rw [hget a ha, htree h, Option.map_eq_some_iff]
    split_ifs with hmem hhg
    · -- a group that is gone
      refine iff_of_false (fun hex => ?_) fun hex => (nomatch hex.choose_spec.1)
      rcases hex with ⟨k, -, hjk⟩
      exact joined_ne hnot hmem k hjk
    · -- the merged one
      have hiff : (tree.get a).isSome ↔ _ :=
        (hM.tree a (Nat.zero_le a) ha).trans (anyHas_trees hs ha)
      simp only [Option.some.injEq, exists_eq_left']
      rw [hiff, hhg, ← joined_cons]
      constructor
      · intro hex
        rcases hex with ⟨k, hk, hjk⟩
        refine ⟨k, ?_, hk⟩
        by_contra hnotin
        rw [joined_of_notMem hnotin] at hjk
        exact hnotin (hjk ▸ List.mem_cons_self)
      · intro hex
        rcases hex with ⟨k, hk, hgetk⟩
        exact ⟨k, hgetk, joined_of_mem hk⟩
    · -- one of the others
      rw [← hs.agree a ha h]
      constructor
      · intro hex
        rcases hex with ⟨k, hk, hjk⟩
        by_cases hkin : k ∈ i :: groups
        · rw [joined_of_mem hkin] at hjk
          exact absurd hjk.symm hhg
        · rw [joined_of_notMem hkin] at hjk
          rw [hk, hjk]
      · exact fun hk => ⟨h, hk, joined_of_notMem hmem⟩

theorem merging_cons (hs : s.Consistent) (hg : s.Live g) {i : Nat} (hnot : g ∉ i :: groups) :
    ∃ s', s.merging (g :: i :: groups) = some (g, s') ∧ MergingSpec s (g :: i :: groups) g s' := by
  rcases merging_books hs.books hg hnot with ⟨tree, s', hmerge, hbooks, hget, hins, htree, hmax, hlabels⟩
  rw [← joined_cons] at hget hins
  have hlive' : ∀ h, s'.Live h ↔ h ∉ i :: groups ∧ s.Live h := by
    intro h
    rw [GroupState.Live, htree h]
    split_ifs with hmem hhg
    · simp [hmem]
    · rw [hhg]
      exact ⟨fun _ => ⟨hnot, hg⟩, fun _ => rfl⟩
    · exact ⟨fun hh => ⟨hmem, hh⟩, fun hh => hh.2⟩
  have hjoined : ∀ h, s.Live h → s'.Live (joined (g :: i :: groups) g h) := by
    intro h hh
    by_cases hmem : h ∈ g :: i :: groups
    · rw [joined_of_mem hmem]
      exact (hlive' g).mpr ⟨hnot, hg⟩
    · rw [joined_of_notMem hmem]
      exact (hlive' h).mpr ⟨fun hc => hmem (List.mem_cons_of_mem _ hc), hh⟩
  refine ⟨s', hmerge, rfl, ?_, ?_, (hlive' g).mpr ⟨hnot, hg⟩, hget, hins, hlabels⟩
  · refine ⟨hbooks.addr_wf, hbooks.tree_wf, hbooks.agree, fun h hh => ?_, fun x h hx => ?_,
      hbooks.paired⟩
    · rw [hmax]
      exact hs.le_max h ((hlive' h).mp hh).2
    · rw [hins x] at hx
      rcases Option.map_eq_some_iff.mp hx with ⟨k, hk, rfl⟩
      exact hjoined k (hs.ins_live x k hk)
  · refine ⟨fun a ha h hh => ?_, hjoined, fun h _ hh => ?_, fun h _ hh hh' => ?_, hmax.ge⟩
    · rw [hget a ha, hh, Option.map_some]
    · rw [joined_cons, joined_of_notMem ((hlive' h).mp hh).1]
    · exact hh ((hlive' h).mp hh').2

/-- **Merging groups.** -/
theorem merging_spec (hs : s.Consistent) (hsorted : groups.Pairwise (· < ·))
    (hlive : ∀ h ∈ groups, s.Live h) :
    ∃ g s', s.merging groups = some (g, s') ∧ MergingSpec s groups g s' := by
  rcases groups with _ | ⟨g, _ | ⟨i, groups⟩⟩
  · exact merging_nil hs
  · exact ⟨g, s, rfl, merging_singleton hs (hlive g List.mem_cons_self)⟩
  · rcases List.pairwise_cons.mp hsorted with ⟨hlt, -⟩
    exact ⟨g, merging_cons hs (hlive g List.mem_cons_self)
      fun hg => absurd (hlt g hg) (lt_irrefl g)⟩

end

end Slimmer
