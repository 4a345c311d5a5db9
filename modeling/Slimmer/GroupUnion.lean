import Slimmer.GroupBlocks
import Mathlib.Data.Finset.Sort
import Mathlib.Data.Finset.Union

/-!
# Merging groups is union

`merging_spec` says what `Merging` does to a consistent state. Here only the two books of the
addresses and the two books of the values have to agree (`BooksAgree`), and everything is said of
the books themselves: the merged group has what the groups had, and nothing else changes
(`Unites`).
-/

namespace Slimmer

/-- `s'` is `s` with the groups united in the smallest of them, `m`. -/
structure Unites (s : GroupState) (groups : Finset Nat) (m : Nat) (s' : GroupState) : Prop where
  least : IsLeast (groups : Set Nat) m
  /-- The tree of `m` covers what the trees of the groups covered. -/
  tree : ∃ tree, s'.group2Addr m = some tree ∧ tree.WF 0 maxRange ∧ ∀ a, (tree.get a).isSome ↔
    ∃ g ∈ groups, ∃ t, s.group2Addr g = some t ∧ (t.get a).isSome
  /-- These addresses, and no others, are in `m`. -/
  addr : ∀ a, s'.addr2Group.get a = some m ↔
    ∃ g ∈ groups, ∃ t, s.group2Addr g = some t ∧ (t.get a).isSome
  addr_other : ∀ a, (∀ g ∈ groups, ∀ t, s.group2Addr g = some t → t.get a = none) →
    s'.addr2Group.get a = s.addr2Group.get a
  gone : ∀ g ∈ groups, g ≠ m → s'.group2Addr g = none ∧ s'.group2Ins g = ∅
  ins : s'.group2Ins m = groups.biUnion s.group2Ins
  ins_joined : ∀ x, ∀ g ∈ groups, x ∈ s.group2Ins g → s'.ins2Group x = some m
  ins_other : ∀ x, (∀ g ∈ groups, x ∉ s.group2Ins g) → s'.ins2Group x = s.ins2Group x
  other : ∀ g, g ∉ groups →
    s'.group2Addr g = s.group2Addr g ∧ s'.group2Ins g = s.group2Ins g
  books : s'.BooksAgree
  rest : s'.maxGroupID = s.maxGroupID ∧ s'.labeledArgs = s.labeledArgs

section

variable {s s' : GroupState} {groups : Finset Nat} {g m a : Nat} {α : Type}

/-- Beyond its range a tree reads as in its last address. -/
theorem SegmentTree.get_min {t : SegmentTree α} (h : t.WF 0 maxRange) (a : Nat) :
    t.get (min a (maxRange - 1)) = t.get a := by
  by_cases ha : a < maxRange
  · rw [min_eq_left (Nat.le_sub_one_of_lt ha)]
  · rw [min_eq_right (by omega), get_of_ge h (not_lt.mp ha)]

theorem min_lt_maxRange (a : Nat) : min a (maxRange - 1) < maxRange :=
  lt_of_le_of_lt (min_le_right _ _) (by decide)

/-- The agreement for all addresses. -/
theorem GroupState.BooksAgree.addr_iff (hs : s.BooksAgree) (a g : Nat) :
    s.addr2Group.get a = some g ↔ ∃ tree, s.group2Addr g = some tree ∧ (tree.get a).isSome := by
  have hiff := hs.agree (min a (maxRange - 1)) (min_lt_maxRange a) g
  rw [SegmentTree.get_min hs.addr_wf] at hiff
  rw [hiff]
  refine exists_congr fun tree => and_congr_right fun htree => ?_
  rw [SegmentTree.get_min (hs.tree_wf g tree htree)]

/-- An address of a group in `Addr2Group` is one of its tree. -/
theorem exists_group_iff (hs : s.BooksAgree) : (∃ g ∈ groups, s.addr2Group.get a = some g) ↔
    ∃ g ∈ groups, ∃ t, s.group2Addr g = some t ∧ (t.get a).isSome :=
  exists_congr fun g => and_congr_right fun _ => hs.addr_iff a g

/-- The smallest group comes first. -/
theorem exists_sort_cons (hcard : 1 < groups.card) : ∃ m i rest,
    groups.sort = m :: i :: rest ∧ m ∉ i :: rest ∧ IsLeast (groups : Set Nat) m ∧
      ∀ g, g ∈ i :: rest ↔ g ∈ groups ∧ g ≠ m := by
  have hlen : groups.sort.length = groups.card := Finset.length_sort _
  have hmem : ∀ g, g ∈ groups.sort ↔ g ∈ groups := fun g => Finset.mem_sort _
  have hnodup : groups.sort.Nodup := Finset.sort_nodup _ _
  have hsorted : groups.sort.Pairwise (· ≤ ·) := Finset.pairwise_sort _ _
  cases hsort : groups.sort with
  | nil =>
    rw [hsort, List.length_nil] at hlen
    omega
  | cons m rest =>
    cases rest with
    | nil =>
      rw [hsort, List.length_singleton] at hlen
      omega
    | cons i rest =>
      rw [hsort] at hnodup hsorted
      rcases List.nodup_cons.mp hnodup with ⟨hnot, -⟩
      have hm : m ∈ groups := (hmem m).mp (by rw [hsort]; exact List.mem_cons_self)
      refine ⟨m, i, rest, rfl, hnot, ⟨hm, fun g hg => ?_⟩, fun g => ⟨fun hg => ?_, fun hg => ?_⟩⟩
      · have hg : g ∈ m :: i :: rest := by
          rw [← hsort]
          exact (hmem g).mpr hg
        rcases List.mem_cons.mp hg with rfl | hg
        · exact le_rfl
        · exact (List.pairwise_cons.mp hsorted).1 g hg
      · refine ⟨(hmem g).mp (by rw [hsort]; exact List.mem_cons_of_mem m hg), ?_⟩
        rintro rfl
        exact hnot hg
      · have hg' : g ∈ m :: i :: rest := by
          rw [← hsort]
          exact (hmem g).mpr hg.1
        exact (List.mem_cons.mp hg').resolve_left hg.2

/-! ## The books under the new names -/

/-- What `m` has taken in. -/
theorem map_joined_iff {o : Option Nat} (hm : m ∈ groups) :
    o.map (joined groups.sort m) = some m ↔ ∃ g ∈ groups, o = some g := by
  rw [Option.map_eq_some_iff]
  constructor
  · intro hex
    rcases hex with ⟨g, hg, hjoined⟩
    refine ⟨g, ?_, hg⟩
    by_contra hnot
    rw [joined_of_notMem fun h => hnot ((Finset.mem_sort _).mp h)] at hjoined
    exact hnot (hjoined ▸ hm)
  · intro hex
    rcases hex with ⟨g, hmem, hg⟩
    exact ⟨g, hg, joined_of_mem ((Finset.mem_sort _).mpr hmem)⟩

theorem map_joined_of_notMem {o : Option Nat} (h : ∀ g ∈ groups, o ≠ some g) :
    o.map (joined groups.sort m) = o := by
  cases o with
  | none => rfl
  | some g =>
    rw [Option.map_some, joined_of_notMem fun hg => h g ((Finset.mem_sort _).mp hg) rfl]

/-- A group that is not among them has what it had. -/
theorem map_joined_other {o : Option Nat} (hm : m ∈ groups) (hg : g ∉ groups) :
    o.map (joined groups.sort m) = some g ↔ o = some g := by
  by_cases hex : ∃ h ∈ groups, o = some h
  · rw [(map_joined_iff hm).mpr hex]
    rcases hex with ⟨h, hh, rfl⟩
    rw [Option.some.injEq, Option.some.injEq]
    exact iff_of_false (fun heq => hg (heq ▸ hm)) fun heq => hg (heq ▸ hh)
  · rw [map_joined_of_notMem fun h hh heq => hex ⟨h, hh, heq⟩]

/-- **Merging groups is union and nothing else**: for every state whose books agree and every two or
more groups that have a tree. -/
theorem merging_unites (hs : s.BooksAgree) (hcard : 1 < groups.card)
    (hlive : ∀ g ∈ groups, s.Live g) :
    ∃ m s', s.merging groups.sort = some (m, s') ∧ Unites s groups m s' := by
  rcases exists_sort_cons hcard with ⟨m, i, rest, hsort, hnot, hleast, hmem⟩
  have hm : m ∈ groups := hleast.1
  rcases merging_books hs (hlive m hm) hnot with
    ⟨tree, s', hmerge, hbooks, hget, hins, htree, hrest⟩
  rw [← hsort] at hmerge
  rw [← joined_cons, ← hsort] at hget hins
  have hgetAll : ∀ a, s'.addr2Group.get a = (s.addr2Group.get a).map (joined groups.sort m) := by
    intro a
    rw [← SegmentTree.get_min hbooks.addr_wf, ← SegmentTree.get_min hs.addr_wf]
    exact hget _ (min_lt_maxRange a)
  have hmergedTree : s'.group2Addr m = some tree := by
    rw [htree m, if_neg hnot, if_pos rfl]
  have haddr : ∀ a, s'.addr2Group.get a = some m ↔
      ∃ g ∈ groups, ∃ t, s.group2Addr g = some t ∧ (t.get a).isSome := by
    intro a
    rw [hgetAll a, map_joined_iff hm, exists_group_iff hs]
  have hmemIns : ∀ x g, x ∈ s'.group2Ins g ↔
      (s.ins2Group x).map (joined groups.sort m) = some g := by
    intro x g
    rw [← hbooks.paired x g, hins x]
  refine ⟨m, s', hmerge, hleast, ?_, haddr, fun a ha => ?_, fun g hg hgm => ?_, ?_,
    fun x g hg hx => ?_, fun x hx => ?_, fun g hg => ?_, hbooks, hrest⟩
  · refine ⟨tree, hmergedTree, hbooks.tree_wf m tree hmergedTree, fun a => ?_⟩
    rw [← haddr a, hbooks.addr_iff, hmergedTree]
    simp
  · rw [hgetAll a]
    apply map_joined_of_notMem
    intro g hg hga
    rcases (hs.addr_iff a g).mp hga with ⟨t, ht, hta⟩
    rw [ha g hg t ht] at hta
    cases hta
  · have hgone : g ∈ i :: rest := (hmem g).mpr ⟨hg, hgm⟩
    refine ⟨by rw [htree g, if_pos hgone], ?_⟩
    apply Finset.eq_empty_of_forall_notMem
    intro x hx
    rw [hmemIns, hsort, joined_cons, Option.map_eq_some_iff] at hx
    rcases hx with ⟨h, -, hh⟩
    exact joined_ne hnot hgone h hh
  · ext x
    rw [hmemIns, map_joined_iff hm, Finset.mem_biUnion]
    exact exists_congr fun g => and_congr_right fun _ => hs.paired x g
  · rw [hins x, map_joined_iff hm]
    exact ⟨g, hg, (hs.paired x g).mpr hx⟩
  · rw [hins x]
    exact map_joined_of_notMem fun g hg hxg => hx g hg ((hs.paired x g).mp hxg)
  · have hgm : g ≠ m := fun hgm => hg (hgm ▸ hm)
    refine ⟨by rw [htree g, if_neg fun hc => hg ((hmem g).mp hc).1, if_neg hgm], ?_⟩
    ext x
    rw [hmemIns, map_joined_other hm hg, hs.paired x g]

/-- Three pointers, and a load from each. -/
def loadsTables : Tables where
  ins := [{ type := .normalInst, isPointer := true }, { type := .normalInst, isPointer := true },
    { type := .normalInst, isPointer := true }, { type := .loadInst, ssaDependencies := [(.inst, 0)] },
    { type := .loadInst, ssaDependencies := [(.inst, 1)] },
    { type := .loadInst, ssaDependencies := [(.inst, 2)] }]
  bb2Ins := [[0, 1, 2, 3, 4, 5]]

/-- The loads; the blocks of the pointers, before them, are still to be met. -/
def loadsTrace : List SmallestBlock :=
  [{ type := .memoryAccessBlock, start := 3, stop := 4, addr := [100, 104] },
    { type := .memoryAccessBlock, start := 4, stop := 5, addr := [200, 204] },
    { type := .memoryAccessBlock, start := 5, stop := 6, addr := [300, 304] }]

/-- Each pointer is in the group of its load, backward. The groups of the last two loads are merged. -/
theorem merging_unites_loads : ∃ (s s' : GroupState) (m : Nat),
    groupMemory loadsTables loadsTrace = some s ∧ s.group2Ins 1 = {(0, 2)} ∧
      s.group2Ins 2 = {(0, 1)} ∧ s.group2Ins 3 = {(0, 0)} ∧
      s.merging ({1, 2} : Finset Nat).sort = some (m, s') ∧ Unites s {1, 2} m s' := by
  have hsome : (groupMemory loadsTables loadsTrace).isSome := by decide +kernel
  have hend : (groupMemory loadsTables loadsTrace).all (fun s =>
      decide ((s.group2Ins 1 = {(0, 2)} ∧ s.group2Ins 2 = {(0, 1)} ∧ s.group2Ins 3 = {(0, 0)}) ∧
        (s.group2Addr 1).isSome ∧ (s.group2Addr 2).isSome)) := by decide +kernel
  rcases Option.isSome_iff_exists.mp hsome with ⟨s, hs⟩
  rw [hs, Option.all_some, decide_eq_true_eq] at hend
  rcases hend with ⟨⟨hone, htwo, hthree⟩, hlive₁, hlive₂⟩
  have hbooks := (consistent_of_run (by decide) (List.append_nil _).symm hs).books
  have hall : ∀ g ∈ ({1, 2} : Finset Nat), s.Live g := by
    intro g hg
    rcases Finset.mem_insert.mp hg with rfl | hg
    · exact hlive₁
    · rw [Finset.mem_singleton.mp hg]
      exact hlive₂
  rcases merging_unites hbooks (by decide) hall with ⟨m, s', hmerge, hunites⟩
  exact ⟨s, s', m, hs, hone, htwo, hthree, hmerge, hunites⟩

end

end Slimmer
