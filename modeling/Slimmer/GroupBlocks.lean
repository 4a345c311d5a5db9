import Slimmer.MergeInst
import Mathlib.Data.List.ModifyLast

/-!
# The blocks and their groups

**Theorem (`groups_consistent`).** Between any two blocks `Addr2Group` and `Group2Addr` agree on all
addresses: the trees of the groups are disjoint and cover what `Addr2Group` maps.

**Theorem (`accesses_grouped`).** When `GroupMemory` has gone through a trace, the addresses of each
block are in one group; and addresses that are in one group after a block stay together.

**Theorem (`returned_group_live_iff`).** The group that `MergeInst` returns has a tree iff, in the
first block of a function, no argument joins it with a smaller group when it is handed over.

A block looks at segments that together cover its addresses (`Looked`). Those that have a group are
joined, the others are filled behind it.
-/

namespace Slimmer

section

variable {T : Tables} {s s' s₁ : GroupState} {b : SmallestBlock} {f : Nat → Nat}
  {g l r : Nat} {groups : List Nat} {segs : List (Segment Nat)}

/-! ## Filling ranges -/

/-- The invariant holds, and the groups have been renamed. -/
def GroupState.Evolves (s s' : GroupState) : Prop := s'.Consistent ∧ ∃ f, Renames f s s'

theorem GroupState.Evolves.refl (hs : s.Consistent) : s.Evolves s := ⟨hs, id, Renames.refl s⟩

theorem GroupState.Evolves.trans (hs : s.Consistent) (h : s.Evolves s₁) (h' : s₁.Evolves s') :
    s.Evolves s' := by
  rcases h with ⟨-, f, hf⟩
  rcases h' with ⟨hs', f', hf'⟩
  exact ⟨hs', f' ∘ f, hf.trans hs.le_max hf'⟩

theorem Regroups.evolves (h : Regroups f s s') : s.Evolves s' := ⟨h.consistent, f, h.renames⟩

theorem run_evolves {α : Type} {step : GroupState → α → Option GroupState} {as : List α}
    (hstep : ∀ s a s', a ∈ as → s.Consistent → step s a = some s' → s.Evolves s')
    (hs : s.Consistent) (hrun : run step s as = some s') : s.Evolves s' := by
  induction as generalizing s with
  | nil =>
    cases hrun
    exact .refl hs
  | cons a as ih =>
    rcases run_cons_eq_some.mp hrun with ⟨s₁, hfirst, hrest⟩
    have h₁ := hstep s a s₁ List.mem_cons_self hs hfirst
    exact h₁.trans hs (ih (fun s c s' hc => hstep s c s' (List.mem_cons_of_mem a hc)) h₁.1 hrest)

/-- `Set` on any range, an empty one too. -/
theorem set_get {α : Type} [DecidableEq α] {t : SegmentTree α} (h : t.WF 0 maxRange)
    (hr : r ≤ maxRange) (v : α) :
    ∃ t', t.set l r v = some t' ∧ t'.WF 0 maxRange ∧
      ∀ a, a < maxRange → t'.get a = if l ≤ a ∧ a < r then some v else t.get a := by
  by_cases hlr : l < r
  · exact SegmentTree.set_spec h hlr hr
  · refine ⟨t, SegmentTree.set_of_le h (by omega), h, fun a _ => ?_⟩
    rw [if_neg (by omega)]

/-- A range without a group is filled with one that has a tree. -/
theorem fill_spec (hs : s.Consistent) (hg : s.Live g) (hr : r ≤ maxRange)
    (hfree : ∀ a, l ≤ a → a < r → ∀ h, s.addr2Group.get a = some h → h = g) :
    ∃ s', s.fill g (l, r) = some s' ∧ s'.Consistent ∧ Renames id s s' ∧
      ∀ a, a < maxRange →
        s'.addr2Group.get a = if l ≤ a ∧ a < r then some g else s.addr2Group.get a := by
  rcases Option.isSome_iff_exists.mp hg with ⟨tree, htree⟩
  rcases set_get (l := l) (hs.tree_wf g tree htree) hr 1 with ⟨tree', hset, hwf, hget⟩
  rcases set_get (l := l) hs.addr_wf hr g with ⟨addr, haset, hawf, haget⟩
  have hlive : ∀ h, (Function.update s.group2Addr g (some tree') h).isSome ↔ s.Live h := by
    intro h
    by_cases hhg : h = g
    · rw [hhg, Function.update_self]
      exact iff_of_true rfl hg
    · rw [Function.update_of_ne hhg]
      rfl
  refine ⟨{ s with
    addr2Group := addr
    group2Addr := Function.update s.group2Addr g (some tree') }, ?_, ?_, ?_, haget⟩
  · simp [GroupState.fill, htree, hset, haset]
  · refine ⟨hawf, fun h t ht => ?_, fun a ha h => ?_, fun h hh => hs.le_max h ((hlive h).mp hh),
      fun x h hx => (hlive h).mpr (hs.ins_live x h hx), hs.paired⟩
    · by_cases hhg : h = g
      · simp only [hhg, Function.update_self, Option.some.injEq] at ht
        rw [← ht]
        exact hwf
      · simp only [Function.update_of_ne hhg] at ht
        exact hs.tree_wf h t ht
    · show addr.get a = some h ↔
        ∃ t, Function.update s.group2Addr g (some tree') h = some t ∧ (t.get a).isSome
      rw [haget a ha]
      have hagree := hs.agree a ha h
      by_cases hhg : h = g
      · subst hhg
        rw [htree] at hagree
        simp only [Option.some.injEq, exists_eq_left'] at hagree
        simp only [Function.update_self, Option.some.injEq, exists_eq_left', hget a ha]
        split_ifs
        · exact iff_of_true rfl rfl
        · exact hagree
      · rw [Function.update_of_ne hhg, ← hagree]
        split_ifs with hin
        · refine iff_of_false (fun heq => hhg (Option.some.inj heq).symm) fun heq => hhg ?_
          exact hfree a hin.1 hin.2 h heq
        · rfl
  · refine ⟨fun a ha h hh => ?_, fun h hh => (hlive h).mpr hh, fun _ _ _ => rfl,
      fun h _ hh hh' => hh ((hlive h).mp hh'), le_rfl⟩
    show addr.get a = some h
    rw [haget a ha]
    split_ifs with hin
    · rw [hfree a hin.1 hin.2 h hh]
    · exact hh

/-- No range is filled with a group that has no tree. -/
theorem fill_dead (hg : ¬ s.Live g) (range : Nat × Nat) : s.fill g range = none := by
  rw [GroupState.fill, Option.not_isSome_iff_eq_none.mp hg]
  rfl

/-- The ranges that were filled, and the others. -/
theorem fills_spec (hs : s.Consistent) (hg : s.Live g) {ranges : List (Nat × Nat)}
    (hr : ∀ p ∈ ranges, p.2 ≤ maxRange)
    (hfree : ∀ p ∈ ranges, ∀ a, p.1 ≤ a → a < p.2 → ∀ h, s.addr2Group.get a = some h → h = g) :
    ∃ s', run (GroupState.fill g) s ranges = some s' ∧ s'.Consistent ∧ Renames id s s' ∧
      ∀ a, a < maxRange → s'.addr2Group.get a =
        if ∃ p ∈ ranges, p.1 ≤ a ∧ a < p.2 then some g else s.addr2Group.get a := by
  induction ranges generalizing s with
  | nil => exact ⟨s, rfl, hs, Renames.refl s, fun a _ => by simp⟩
  | cons p ranges ih =>
    rcases List.forall_mem_cons.mp hr with ⟨hpr, hr'⟩
    rcases List.forall_mem_cons.mp hfree with ⟨hpfree, hfree'⟩
    rcases fill_spec hs hg hpr hpfree with ⟨s₁, hfill, hs₁, hren, hget⟩
    have hfree₁ : ∀ q ∈ ranges, ∀ a, q.1 ≤ a → a < q.2 →
        ∀ h, s₁.addr2Group.get a = some h → h = g := by
      intro q hq a hqa haq h hh
      rw [hget a (haq.trans_le (hr' q hq))] at hh
      split_ifs at hh
      · exact (Option.some.inj hh).symm
      · exact hfree' q hq a hqa haq h hh
    rcases ih hs₁ (hren.live g hg) hr' hfree₁ with ⟨s₂, hrun, hs₂, hren₂, hget₂⟩
    refine ⟨s₂, run_cons_eq_some.mpr ⟨s₁, hfill, hrun⟩, hs₂, hren.trans hs.le_max hren₂,
      fun a ha => ?_⟩
    rw [hget₂ a ha, hget a ha]
    simp only [List.exists_mem_cons_iff]
    by_cases hrest : ∃ q ∈ ranges, q.1 ≤ a ∧ a < q.2
    · rw [if_pos hrest, if_pos (Or.inr hrest)]
    · rw [if_neg hrest, if_congr (or_iff_left hrest) rfl rfl]

/-! ## The segments of a block -/

/-- The part of a segment that lies in the query. -/
def Segment.clip (l r : Nat) (i : Segment Nat) : Segment Nat :=
  { i with left := max i.left l, right := min i.right r }

theorem collected_first {t : SegmentTree Nat} {i : Segment Nat} (hcol : t.Collected l r (i :: segs))
    (hlr : l < r) : i.left ≤ l ∧ l < i.right := by
  rcases hcol.covers l le_rfl hlr with ⟨j, hj, hjl⟩
  rcases List.mem_cons.mp hj with rfl | hj
  · exact hjl
  · have hij := (List.pairwise_cons.mp hcol.sorted).1 j hj
    rcases hcol.meets i List.mem_cons_self with ⟨x, hx⟩
    omega

theorem collected_last {t : SegmentTree Nat} {i : Segment Nat}
    (hcol : t.Collected l r (segs ++ [i])) (hlr : l < r) : i.left < r ∧ r ≤ i.right := by
  have hi : i ∈ segs ++ [i] := List.mem_append_right segs List.mem_cons_self
  rcases hcol.meets i hi with ⟨x, hx⟩
  rcases hcol.covers (r - 1) (by omega) (by omega) with ⟨j, hj, hjr⟩
  rcases List.mem_append.mp hj with hj | hj
  · have hji := (List.pairwise_append.mp hcol.sorted).2.2 j hj i List.mem_cons_self
    omega
  · rw [List.mem_singleton.mp hj] at hjr
    omega

/-- Cutting the first and the last segment cuts all of them. -/
theorem cut_eq_clip {t : SegmentTree Nat} (hcol : t.Collected l r segs) (hlr : l < r) :
    (segs.modifyHead fun i => { i with left := l }).modifyLast (fun i => { i with right := r }) =
      segs.map (Segment.clip l r) := by
  cases segs with
  | nil =>
    rcases hcol.covers l le_rfl hlr with ⟨j, hj, -⟩
    cases hj
  | cons i segs =>
    have hfirst := collected_first hcol hlr
    rcases List.eq_nil_or_concat' segs with rfl | ⟨mids, j, rfl⟩
    · have hlast : i.left < r ∧ r ≤ i.right :=
        collected_last (show t.Collected l r ([] ++ [i]) from hcol) hlr
      show [_] = [_]
      rw [Segment.clip, max_eq_right hfirst.1, min_eq_right hlast.2]
    · have hlast : j.left < r ∧ r ≤ j.right :=
        collected_last (show t.Collected l r ((i :: mids) ++ [j]) from hcol) hlr
      have hsorted := List.pairwise_cons.mp hcol.sorted
      have hij := hsorted.1 j (List.mem_append_right mids List.mem_cons_self)
      have hmids : mids.map (Segment.clip l r) = mids := by
        refine (List.map_congr_left fun k hk => ?_).trans mids.map_id
        have hik := hsorted.1 k (List.mem_append_left [j] hk)
        have hkj := (List.pairwise_append.mp hsorted.2).2.2 k hk j List.mem_cons_self
        rw [Segment.clip, max_eq_left (by omega), min_eq_left (by omega), id]
      rw [List.modifyHead_cons, ← List.cons_append, List.modifyLast_concat, List.map_cons,
        List.map_append, hmids, List.map_singleton, List.cons_append, Segment.clip, Segment.clip,
        max_eq_right hfirst.1, min_eq_right hlast.2, min_eq_left (by omega), max_eq_left (by omega)]

/-- The segments cover the addresses `query` and no others, and say what `Addr2Group` reads. -/
structure Looked (s : GroupState) (query : Nat → Prop) (segs : List (Segment Nat)) : Prop where
  range : ∀ i ∈ segs, i.left < i.right ∧ i.right ≤ maxRange
  inside : ∀ i ∈ segs, ∀ a, i.left ≤ a → a < i.right → query a
  types : ∀ i ∈ segs, i.type ≠ .partialSegment
  agrees : ∀ i ∈ segs, ∀ a, i.left ≤ a → a < i.right → s.addr2Group.get a = i.get
  covers : ∀ a, query a → ∃ i ∈ segs, i.left ≤ a ∧ a < i.right

theorem looked_collect (hs : s.Consistent) (hr : r ≤ maxRange)
    (hcollect : collectSegments l r s.addr2Group = some segs) :
    Looked s (fun a => l ≤ a ∧ a < r) segs := by
  rcases SegmentTree.collect_spec (l := l) hs.addr_wf hr with ⟨cols, hcols, hcol⟩
  have htypes := SegmentTree.collect_types hcols
  rw [collectSegments, hcols, Option.bind_some] at hcollect
  split_ifs at hcollect with hnil
  have hlr : l < r := by
    rcases List.exists_mem_of_ne_nil cols fun h => hnil (List.length_eq_zero_iff.mpr h) with ⟨i, hi⟩
    rcases hcol.meets i hi with ⟨x, hx⟩
    omega
  rw [cut_eq_clip hcol hlr] at hcollect
  cases hcollect
  have hclip : ∀ {P : Segment Nat → Prop}, (∀ i ∈ cols, P (i.clip l r)) →
      ∀ i ∈ cols.map (Segment.clip l r), P i := by
    intro P hP i hi
    rcases List.mem_map.mp hi with ⟨j, hj, rfl⟩
    exact hP j hj
  refine ⟨hclip fun i hi => ?_, hclip fun i hi a hl ha => ?_, hclip fun i hi => htypes i hi,
    hclip fun i hi a hl ha => ?_, fun a ha => ?_⟩
  · have hrange := hcol.range i hi
    rcases hcol.meets i hi with ⟨x, hx⟩
    show max i.left l < min i.right r ∧ min i.right r ≤ maxRange
    omega
  · replace hl : max i.left l ≤ a := hl
    replace ha : a < min i.right r := ha
    omega
  · replace hl : max i.left l ≤ a := hl
    replace ha : a < min i.right r := ha
    exact hcol.agrees i hi a (by omega) (by omega)
  · rcases hcol.covers a ha.1 ha.2 with ⟨i, hi, hia⟩
    refine ⟨i.clip l r, List.mem_map_of_mem hi, ?_⟩
    show max i.left l ≤ a ∧ a < min i.right r
    omega

theorem Looked.append {query query' : Nat → Prop} {segs' : List (Segment Nat)}
    (h : Looked s query segs) (h' : Looked s query' segs') :
    Looked s (fun a => query a ∨ query' a) (segs ++ segs') where
  range := List.forall_mem_append.mpr ⟨h.range, h'.range⟩
  inside := List.forall_mem_append.mpr ⟨fun i hi a hl ha => Or.inl (h.inside i hi a hl ha),
    fun i hi a hl ha => Or.inr (h'.inside i hi a hl ha)⟩
  types := List.forall_mem_append.mpr ⟨h.types, h'.types⟩
  agrees := List.forall_mem_append.mpr ⟨h.agrees, h'.agrees⟩
  covers a ha := by
    rcases ha with ha | ha
    · rcases h.covers a ha with ⟨i, hi, hia⟩
      exact ⟨i, List.mem_append_left _ hi, hia⟩
    · rcases h'.covers a ha with ⟨i, hi, hia⟩
      exact ⟨i, List.mem_append_right _ hi, hia⟩

theorem Looked.congr {query query' : Nat → Prop} (h : Looked s query segs)
    (hquery : ∀ a, query a ↔ query' a) : Looked s query' segs := by
  rw [← funext fun a => propext (hquery a)]
  exact h

/-- The groups of the segments, in order. -/
theorem segmentGroups_spec (segs : List (Segment Nat)) :
    (segmentGroups segs).Pairwise (· < ·) ∧
      ∀ h, h ∈ segmentGroups segs ↔ ∃ i ∈ segs, i.type ≠ .emptySegment ∧ i.value = h := by
  have hfold : ∀ groups : List Nat, groups.Pairwise (· < ·) →
      (segs.foldl (fun groups i => if i.type = .emptySegment then groups
        else insertSorted i.value groups) groups).Pairwise (· < ·) ∧
      ∀ h, h ∈ segs.foldl (fun groups i => if i.type = .emptySegment then groups
        else insertSorted i.value groups) groups ↔
          h ∈ groups ∨ ∃ i ∈ segs, i.type ≠ .emptySegment ∧ i.value = h := by
    induction segs with
    | nil => exact fun groups hgroups => ⟨hgroups, fun h => by simp⟩
    | cons i segs ih =>
      intro groups hgroups
      by_cases hi : i.type = .emptySegment
      · simp only [List.foldl_cons, if_pos hi]
        rcases ih groups hgroups with ⟨hsorted, hmem⟩
        refine ⟨hsorted, fun h => ?_⟩
        rw [hmem h]
        simp [hi]
      · simp only [List.foldl_cons, if_neg hi]
        rcases ih _ (insertSorted_pairwise (a := i.value) hgroups) with ⟨hsorted, hmem⟩
        refine ⟨hsorted, fun h => ?_⟩
        have hne : i.type ≠ .emptySegment := hi
        rw [hmem h, mem_insertSorted, List.exists_mem_cons_iff, and_iff_right hne, or_assoc,
          or_left_comm, eq_comm (a := h)]
  rcases hfold [] .nil with ⟨hsorted, hmem⟩
  refine ⟨hsorted, fun h => ?_⟩
  rw [segmentGroups, hmem h]
  simp

/-- A segment that is not empty has a group with a tree. -/
theorem Looked.live {query : Nat → Prop} (h : Looked s query segs) (hs : s.Consistent) :
    ∀ g ∈ segmentGroups segs, s.Live g := by
  intro g hg
  rcases ((segmentGroups_spec segs).2 g).mp hg with ⟨i, hi, htype, rfl⟩
  rcases h.range i hi with ⟨hlt, hle⟩
  have hget := h.agrees i hi i.left le_rfl hlt
  have hcovered : i.type = .coveredSegment := by
    cases hi' : i.type with
    | emptySegment => exact absurd hi' htype
    | partialSegment => exact absurd hi' (h.types i hi)
    | coveredSegment => rfl
  rw [Segment.get, if_pos hcovered] at hget
  rcases (hs.agree i.left (by omega) i.value).mp hget with ⟨tree, htree, -⟩
  rw [GroupState.Live, htree]
  rfl

/-! ## The steps -/

theorem Looked.value {query : Nat → Prop} (h : Looked s query segs) {i : Segment Nat} (hi : i ∈ segs)
    (htype : i.type ≠ .emptySegment) : i.get = some i.value ∧ i.value ∈ segmentGroups segs := by
  refine ⟨if_pos ?_, ((segmentGroups_spec segs).2 i.value).mpr ⟨i, hi, htype, rfl⟩⟩
  cases hi' : i.type with
  | emptySegment => exact absurd hi' htype
  | partialSegment => exact absurd hi' (h.types i hi)
  | coveredSegment => rfl

/-- The segment of an address, and what the first part of the block leaves there. -/
theorem Looked.get {query : Nat → Prop} (h : Looked s query segs)
    (hquery : ∀ a, query a → a < maxRange) (hf : Regroups f s s₁) {a : Nat} (ha : query a) :
    ∃ i ∈ segs, i.left ≤ a ∧ a < i.right ∧ s₁.addr2Group.get a = i.get.map f := by
  rcases h.covers a ha with ⟨i, hi, hia⟩
  refine ⟨i, hi, hia.1, hia.2, ?_⟩
  rw [hf.addr a (hquery a ha), h.agrees i hi a hia.1 hia.2]

theorem mem_segmentRanges {i : Segment Nat} (hi : i ∈ segs) (htype : i.type = .emptySegment) :
    (i.left, i.right) ∈ segmentRanges segs :=
  List.mem_map.mpr ⟨i, List.mem_filter.mpr ⟨hi, decide_eq_true htype⟩, rfl⟩

/-- The ranges without a group can be filled with a group that has a tree. -/
theorem Looked.fills {query : Nat → Prop} (h : Looked s query segs) (hf : Regroups f s s₁)
    (hg : s₁.Live g) :
    ∃ s', run (GroupState.fill g) s₁ (segmentRanges segs) = some s' ∧ s'.Consistent ∧
      Renames id s₁ s' ∧ ∀ a, a < maxRange → s'.addr2Group.get a =
        if ∃ p ∈ segmentRanges segs, p.1 ≤ a ∧ a < p.2 then some g else s₁.addr2Group.get a := by
  have hranges : ∀ p ∈ segmentRanges segs, p.2 ≤ maxRange ∧
      ∀ a, p.1 ≤ a → a < p.2 → s₁.addr2Group.get a = none := by
    intro p hp
    rcases List.mem_map.mp hp with ⟨i, hi, rfl⟩
    rcases List.mem_filter.mp hi with ⟨hi, htype⟩
    have hle := (h.range i hi).2
    refine ⟨hle, fun a hl ha => ?_⟩
    rw [hf.addr a (ha.trans_le hle), h.agrees i hi a hl ha, Segment.get, of_decide_eq_true htype]
    rfl
  refine fills_spec hf.consistent hg (fun p hp => (hranges p hp).1) fun p hp a hl ha k hk => ?_
  rw [(hranges p hp).2 a hl ha] at hk
  cases hk

/-- Without a tree only no range at all can be filled. -/
theorem fills_dead (hg : ¬ s.Live g) {ranges : List (Nat × Nat)}
    (hrun : run (GroupState.fill g) s ranges = some s') : ranges = [] ∧ s' = s := by
  cases ranges with
  | nil => exact ⟨rfl, (Option.some.inj hrun).symm⟩
  | cons p ranges =>
    rw [run_cons, fill_dead hg] at hrun
    cases hrun

/-- Filling changes no value. -/
theorem fills_values {ranges : List (Nat × Nat)} (hrun : run (GroupState.fill g) s ranges = some s') :
    s'.ins2Group = s.ins2Group ∧ s'.labeledArgs = s.labeledArgs := by
  refine run_invariant (P := fun t => t.ins2Group = s.ins2Group ∧ t.labeledArgs = s.labeledArgs)
    (fun t range t' ht hfill => ?_) ⟨rfl, rfl⟩ hrun
  simp only [GroupState.fill, Option.bind_eq_bind, Option.bind_eq_some_iff] at hfill
  rcases hfill with ⟨tree, -, tree', -, addr2Group, -, hfill⟩
  cases hfill
  exact ht

/-- The groups of the segments are those of the addresses. -/
theorem Looked.groups_iff {query : Nat → Prop} (h : Looked s query segs) {k : Nat} :
    k ∈ segmentGroups segs ↔ ∃ a, query a ∧ s.addr2Group.get a = some k := by
  rw [(segmentGroups_spec segs).2 k]
  constructor
  · intro hc
    obtain ⟨i, hi, htype, rfl⟩ := hc
    have hlt := (h.range i hi).1
    refine ⟨i.left, h.inside i hi _ le_rfl hlt, ?_⟩
    rw [h.agrees i hi _ le_rfl hlt, (h.value hi htype).1]
  · intro hc
    obtain ⟨a, ha, hget⟩ := hc
    rcases h.covers a ha with ⟨i, hi, hl, hr⟩
    rw [h.agrees i hi a hl hr] at hget
    have htype : i.type ≠ .emptySegment := by
      intro htype
      rw [Segment.get, htype] at hget
      cases hget
    rw [(h.value hi htype).1] at hget
    exact ⟨i, hi, htype, Option.some.inj hget⟩

/-- **The addresses of a block.** The groups of the segments have become `k`, and the ranges without
a group are filled with it. -/
theorem Looked.filled {query : Nat → Prop} (h : Looked s query segs)
    (hquery : ∀ a, query a → a < maxRange) (hf : Regroups f s s₁) {k : Nat}
    (hk : ∀ h ∈ segmentGroups segs, f h = k) (hlive : s₁.Live g → k = g)
    (hrun : run (GroupState.fill g) s₁ (segmentRanges segs) = some s') :
    s'.Consistent ∧ Renames id s₁ s' ∧ ∀ a, a < maxRange →
      (query a → s'.addr2Group.get a = some k) ∧
        (¬ query a → s'.addr2Group.get a = s₁.addr2Group.get a) := by
  -- an address with a group
  have hgrouped : ∀ a, query a → (¬ ∃ p ∈ segmentRanges segs, p.1 ≤ a ∧ a < p.2) →
      s₁.addr2Group.get a = some k := by
    intro a ha hin
    rcases h.get hquery hf ha with ⟨i, hi, hl, hr, hgeta⟩
    have htype : i.type ≠ .emptySegment :=
      fun htype => hin ⟨_, mem_segmentRanges hi htype, hl, hr⟩
    rcases h.value hi htype with ⟨hval, hmem⟩
    rw [hgeta, hval, Option.map_some, hk i.value hmem]
  by_cases hg : s₁.Live g
  · rcases h.fills hf hg with ⟨s₂, hrun', hs₂, hren, hget⟩
    cases hrun'.symm.trans hrun
    refine ⟨hs₂, hren, fun a ha => ⟨fun hq => ?_, fun hq => ?_⟩⟩
    · rw [hget a ha]
      split_ifs with hin
      · rw [hlive hg]
      · exact hgrouped a hq hin
    · rw [hget a ha, if_neg]
      intro hc
      obtain ⟨p, hp, hl, hr⟩ := hc
      rcases List.mem_map.mp hp with ⟨i, hi, rfl⟩
      exact hq (h.inside i (List.mem_of_mem_filter hi) a hl hr)
  · -- nothing is filled
    rcases fills_dead hg hrun with ⟨hranges, rfl⟩
    refine ⟨hf.consistent, Renames.refl s', fun a ha => ⟨fun hq => hgrouped a hq ?_, fun _ => rfl⟩⟩
    intro hc
    obtain ⟨p, hp, -⟩ := hc
    rw [hranges] at hp
    cases hp

/-- They come into one group. -/
theorem fill_segments {query : Nat → Prop} (h : Looked s query segs) (hs : s.Consistent)
    (hquery : ∀ a, query a → a < maxRange) (hf : Regroups f s s₁)
    (hlive : s₁.Live g → ∀ h ∈ segmentGroups segs, f h = g)
    (hjoin : ∃ h, ∀ k ∈ segmentGroups segs, f k = h)
    (hrun : run (GroupState.fill g) s₁ (segmentRanges segs) = some s') :
    s.Evolves s' ∧ ∃ h, ∀ a, query a → s'.addr2Group.get a = some h := by
  obtain ⟨k, hk, hkg⟩ : ∃ k, (∀ h ∈ segmentGroups segs, f h = k) ∧ (s₁.Live g → k = g) := by
    by_cases hg : s₁.Live g
    · exact ⟨g, hlive hg, fun _ => rfl⟩
    · rcases hjoin with ⟨k, hk⟩
      exact ⟨k, hk, fun hg' => absurd hg' hg⟩
  rcases h.filled hquery hf hk hkg hrun with ⟨hs', hren, hget⟩
  exact ⟨⟨hs', id ∘ f, hf.renames.trans hs.le_max hren⟩, k,
    fun a ha => (hget a (hquery a ha)).1 ha⟩

/-- The addresses a block accesses: `[Addr[0], Addr[1])`, and `[Addr[2], Addr[3])` for a memmove. -/
def SmallestBlock.Covers (b : SmallestBlock) (a : Nat) : Prop :=
  (∃ l r, b.addr[0]? = some l ∧ b.addr[1]? = some r ∧ l ≤ a ∧ a < r) ∨
    b.type = .memmoveBlock ∧ ∃ l r, b.addr[2]? = some l ∧ b.addr[3]? = some r ∧ l ≤ a ∧ a < r

/-- Addresses are 64-bit words. -/
def SmallestBlock.Words (b : SmallestBlock) : Prop := ∀ x ∈ b.addr, x < 2 ^ 64

instance (b : SmallestBlock) : Decidable b.Words :=
  inferInstanceAs (Decidable (∀ x ∈ b.addr, x < 2 ^ 64))

theorem SmallestBlock.Words.le (hb : b.Words) {k : Nat} (hr : b.addr[k]? = some r) :
    r ≤ maxRange :=
  Nat.le_sub_one_of_lt (hb r (List.mem_of_getElem? hr))

theorem SmallestBlock.Covers.lt {a : Nat} (h : b.Covers a) (hb : b.Words) : a < maxRange := by
  rcases h with ⟨l, r, -, hr, -, ha⟩ | ⟨-, l, r, -, hr, -, ha⟩
  · exact ha.trans_le (hb.le hr)
  · exact ha.trans_le (hb.le hr)

theorem looked_block (hs : s.Consistent) (hb : b.Words) (hsegs : s.blockSegments b = some segs) :
    Looked s b.Covers segs := by
  simp only [GroupState.blockSegments, Option.bind_eq_bind, Option.bind_eq_some_iff] at hsegs
  rcases hsegs with ⟨l, hl, r, hr, segs₁, hsegs₁, hsegs⟩
  have hlooked := looked_collect hs (hb.le hr) hsegs₁
  split_ifs at hsegs with htype
  · rcases Option.bind_eq_some_iff.mp hsegs with ⟨l', hl', hsegs⟩
    rcases Option.bind_eq_some_iff.mp hsegs with ⟨r', hr', hsegs⟩
    rcases Option.bind_eq_some_iff.mp hsegs with ⟨segs₂, hsegs₂, hsegs⟩
    cases hsegs
    refine (hlooked.append (looked_collect hs (hb.le hr') hsegs₂)).congr fun a => ?_
    simp only [SmallestBlock.Covers, hl, hr, hl', hr', Option.some.injEq, htype, true_and]
    simp
  · cases hsegs
    refine hlooked.congr fun a => ?_
    simp only [SmallestBlock.Covers, hl, hr, Option.some.injEq, htype, false_and, or_false]
    simp

theorem accessBlock_spec (hs : s.Consistent) (hb : b.Words) (hstep : s.accessBlock T b = some s') :
    s.Evolves s' ∧ ((∃ l r, b.addr[0]? = some l ∧ b.addr[1]? = some r ∧ l < r) →
      ∃ g, ∀ a, b.Covers a → s'.addr2Group.get a = some g) := by
  simp only [GroupState.accessBlock, Option.bind_eq_bind, Option.bind_eq_some_iff] at hstep
  rcases hstep with ⟨l, hl, r, hr, hstep⟩
  split_ifs at hstep with hrl
  · cases hstep
    refine ⟨.refl hs, fun hex => ?_⟩
    rcases hex with ⟨l', r', hl', hr', hlr⟩
    rw [hl, Option.some.injEq] at hl'
    rw [hr, Option.some.injEq] at hr'
    omega
  · simp only [Option.bind_eq_some_iff, Prod.exists] at hstep
    rcases hstep with ⟨insID, -, segs, hsegs, g, s₁, hmerge, hrun⟩
    have hlooked := looked_block hs hb hsegs
    rcases mergeInst_spec hs (segmentGroups_spec segs).1 (hlooked.live hs) hmerge with
      ⟨f, s₀, hf, -, -, hlive, hjoin⟩
    rcases fill_segments hlooked hs (fun a ha => ha.lt hb) hf hlive hjoin hrun with ⟨hevolves, hgroup⟩
    exact ⟨hevolves, fun _ => hgroup⟩

theorem declareBlock_spec (hs : s.Consistent) (hb : b.Words) (hstep : s.declareBlock b = some s') :
    s.Evolves s' ∧ ∃ g, ∀ a, b.Covers a → s'.addr2Group.get a = some g := by
  simp only [GroupState.declareBlock, Option.bind_eq_bind, Option.bind_eq_some_iff,
    Prod.exists] at hstep
  rcases hstep with ⟨segs, hsegs, g, s₁, hmerge, hrun⟩
  have hlooked := looked_block hs hb hsegs
  rcases merging_spec hs (segmentGroups_spec segs).1 (hlooked.live hs) with ⟨g', s₂, hmerge', hM⟩
  cases hmerge'.symm.trans hmerge
  have hjoin : ∀ h ∈ segmentGroups segs, joined (segmentGroups segs) g h = g :=
    fun h hh => joined_of_mem hh
  exact fill_segments hlooked hs (fun a ha => ha.lt hb) hM.regroups (fun _ => hjoin) ⟨g, hjoin⟩ hrun

/-- An address that has no group gets a new one. -/
theorem passPointer_none (hs : s.Consistent) {addr : Nat} (haddr : addr < 2 ^ 64)
    (hget : s.addr2Group.get addr = none) (hstep : s.passPointer addr = some s') :
    ∃ g s₁, MergingSpec s [] g s₁ ∧ s'.Consistent ∧ Renames id s₁ s' ∧
      s'.ins2Group = s₁.ins2Group ∧ s'.labeledArgs = s₁.labeledArgs ∧
      ∀ a, a < maxRange → s'.addr2Group.get a = if a = addr then some g else s₁.addr2Group.get a := by
  unfold GroupState.passPointer at hstep
  simp only [hget, Option.bind_eq_some_iff, Prod.exists] at hstep
  rcases hstep with ⟨g, s₁, hmerge, hfill⟩
  rcases merging_nil hs with ⟨g', s₂, hmerge', hM⟩
  cases hmerge'.symm.trans hmerge
  have hle : (addr + 1) % 2 ^ 64 ≤ maxRange := Nat.le_sub_one_of_lt (Nat.mod_lt _ (by decide))
  have honly : ∀ a, addr ≤ a ∧ a < (addr + 1) % 2 ^ 64 → a = addr := by
    intro a ha
    have hmod := Nat.mod_le (addr + 1) (2 ^ 64)
    omega
  have hfree : ∀ a, addr ≤ a → a < (addr + 1) % 2 ^ 64 →
      ∀ h, s₁.addr2Group.get a = some h → h = g := by
    intro a hl ha h hh
    rw [hM.addr a (ha.trans_le hle), honly a ⟨hl, ha⟩, hget] at hh
    cases hh
  rcases fill_spec hM.consistent hM.live hle hfree with ⟨s₃, hfill', hs₃, hren, hget'⟩
  cases hfill'.symm.trans hfill
  rcases fills_values (run_cons_eq_some.mpr ⟨_, hfill, run_nil _⟩) with ⟨hins, hlabels⟩
  refine ⟨g, s₁, hM, hs₃, hren, hins, hlabels, fun a ha => ?_⟩
  rw [hget' a ha]
  refine if_congr ⟨honly a, ?_⟩ rfl rfl
  rintro rfl
  have hlt : a + 1 < 2 ^ 64 := by
    have hrange : maxRange = 2 ^ 64 - 1 := rfl
    omega
  rw [Nat.mod_eq_of_lt hlt]
  exact ⟨le_rfl, Nat.lt_succ_self a⟩

theorem passPointer_evolves (hs : s.Consistent) {addr : Nat} (haddr : addr < 2 ^ 64)
    (hstep : s.passPointer addr = some s') : s.Evolves s' := by
  cases hget : s.addr2Group.get addr with
  | some g =>
    unfold GroupState.passPointer at hstep
    simp only [hget] at hstep
    cases hstep
    exact .refl hs
  | none =>
    rcases passPointer_none hs haddr hget hstep with ⟨g, s₁, hM, hs', hren, -⟩
    exact hM.regroups.evolves.trans hs ⟨hs', id, hren⟩

theorem normalInst_evolves (hs : s.Consistent) {id : Nat}
    (hstep : s.normalInst T b id = some s') : s.Evolves s' := by
  simp only [GroupState.normalInst, Option.bind_eq_bind, Option.bind_eq_some_iff] at hstep
  rcases hstep with ⟨i, -, hstep⟩
  split_ifs at hstep
  · cases hstep
    exact .refl hs
  · rcases Option.map_eq_some_iff.mp hstep with ⟨⟨g, s₁⟩, hmerge, rfl⟩
    rcases mergeInst_spec hs .nil (List.forall_mem_nil _) hmerge with ⟨f, s₀, hf, -⟩
    exact hf.evolves

/-- **One turn** keeps the invariant. -/
theorem groupStep_evolves (hs : s.Consistent) (hb : b.Words) (hstep : groupStep T s b = some s') :
    s.Evolves s' := by
  unfold groupStep at hstep
  cases htype : b.type <;> simp only [htype] at hstep
  case memoryAccessBlock | memsetBlock | memmoveBlock => exact (accessBlock_spec hs hb hstep).1
  case declareBlock => exact (declareBlock_spec hs hb hstep).1
  case externalCallBlock | impactfulCallBlock =>
    exact run_evolves (fun s a s' ha hs h =>
      passPointer_evolves hs (hb a (List.mem_of_mem_tail ha)) h) hs hstep
  case normalBlock =>
    rcases Option.bind_eq_some_iff.mp hstep with ⟨ids, -, hrun⟩
    exact run_evolves (fun s id s' _ hs h => normalInst_evolves hs h) hs hrun

/-- The blocks of a trace. -/
theorem groupSteps_evolve {bs : List SmallestBlock} (hbs : ∀ b ∈ bs, b.Words) (hs : s.Consistent)
    (hrun : run (groupStep T) s bs = some s') : s.Evolves s' :=
  run_evolves (fun _ b _ hb hs h => groupStep_evolves hs (hbs b hb) h) hs hrun

/-! ## The results -/

/-- Two groups have no address in common, and all of them together have the addresses that
`Addr2Group` maps. -/
theorem GroupState.AddrsAgree.partition (h : s.AddrsAgree) :
    (∀ g g' tree tree', g ≠ g' → s.group2Addr g = some tree → s.group2Addr g' = some tree' →
        ∀ a, a < maxRange → ¬ ((tree.get a).isSome ∧ (tree'.get a).isSome)) ∧
      ∀ a, a < maxRange →
        ((s.addr2Group.get a).isSome ↔ ∃ g tree, s.group2Addr g = some tree ∧ (tree.get a).isSome) := by
  refine ⟨fun g g' tree tree' hne htree htree' a ha hboth => ?_, fun a ha => ?_⟩
  · have hg := (h a ha g).mpr ⟨tree, htree, hboth.1⟩
    have hg' := (h a ha g').mpr ⟨tree', htree', hboth.2⟩
    rw [hg, Option.some.injEq] at hg'
    exact hne hg'
  · rw [Option.isSome_iff_exists]
    exact exists_congr (h a ha)

theorem consistent_of_run {trace pre post : List SmallestBlock} (hword : ∀ b ∈ trace, b.Words)
    (hsplit : trace.reverse = pre ++ post) (hrun : run (groupStep T) {} pre = some s) :
    s.Consistent := by
  refine (groupSteps_evolve (fun b hb => hword b ?_) .init hrun).1
  rw [← List.mem_reverse, hsplit]
  exact List.mem_append_left post hb

/-- **The memory groups are consistent** between any two blocks of any trace. -/
theorem groups_consistent {trace pre post : List SmallestBlock} (hword : ∀ b ∈ trace, b.Words)
    (hsplit : trace.reverse = pre ++ post) (hrun : run (groupStep T) {} pre = some s) :
    (∀ a, a < maxRange → ∀ g, s.addr2Group.get a = some g ↔
        ∃ tree, s.group2Addr g = some tree ∧ (tree.get a).isSome) ∧
      (∀ g g' tree tree', g ≠ g' → s.group2Addr g = some tree → s.group2Addr g' = some tree' →
        ∀ a, a < maxRange → ¬ ((tree.get a).isSome ∧ (tree'.get a).isSome)) ∧
      ∀ a, a < maxRange →
        ((s.addr2Group.get a).isSome ↔
          ∃ g tree, s.group2Addr g = some tree ∧ (tree.get a).isSome) :=
  have hagree := (consistent_of_run hword hsplit hrun).agree
  ⟨hagree, hagree.partition⟩

/-- `g` loads from its argument, and `f` calls it with a pointer that it stores to afterwards. -/
def entryTables : Tables where
  ins := [
    { type := .loadInst, ssaDependencies := [(.pointerArg, 0)] },
    { type := .returnInst },
    { type := .normalInst, isPointer := true },
    { type := .callInst, ssaDependencies := [(.inst, 2)] },
    { type := .storeInst, ssaDependencies := [(.inst, 2)] },
    { type := .returnInst }]
  bb2Ins := [[0, 1], [2, 3, 4, 5]]

/-- The first block of `g`. -/
def entryBlock : SmallestBlock :=
  { type := .memoryAccessBlock, bbID := 0, start := 0, stop := 1, addr := [100, 104], isFirst := 1,
    caller := 3 }

/-- What `f` executes after the call, and before it the end of `g`. -/
def callTail : List SmallestBlock := [
  { type := .normalBlock, bbID := 0, start := 1, stop := 2, isLast := 1, caller := 3 },
  { type := .memoryAccessBlock, bbID := 1, start := 2, stop := 3, addr := [200, 204] },
  { type := .normalBlock, bbID := 1, start := 3, stop := 4, isLast := 2 }]

def entryTrace : List SmallestBlock :=
  { type := .normalBlock, bbID := 1, start := 0, stop := 2, isFirst := 2 } :: entryBlock :: callTail

theorem groups_consistent_callTail : ∃ s, run (groupStep entryTables) {} callTail.reverse = some s ∧
    ∀ a, a < maxRange → ∀ g, s.addr2Group.get a = some g ↔
      ∃ tree, s.group2Addr g = some tree ∧ (tree.get a).isSome := by
  have hsome : (run (groupStep entryTables) {} callTail.reverse).isSome := by decide +kernel
  rcases Option.isSome_iff_exists.mp hsome with ⟨s, hs⟩
  exact ⟨s, hs, (groups_consistent (by decide) (List.append_nil _).symm hs).1⟩

/-- The block is one that puts its addresses into one group. -/
def SmallestBlock.PutsTogether (b : SmallestBlock) : Prop :=
  b.type = .memoryAccessBlock ∨ b.type = .memsetBlock ∨ b.type = .memmoveBlock ∨
    b.type = .declareBlock

theorem groupStep_groups (hs : s.Consistent) (hb : b.Words) (htype : b.PutsTogether)
    (haddr : ∃ l r, b.addr[0]? = some l ∧ b.addr[1]? = some r ∧ l < r)
    (hstep : groupStep T s b = some s') : ∃ g, ∀ a, b.Covers a → s'.addr2Group.get a = some g := by
  unfold groupStep at hstep
  rcases htype with htype | htype | htype | htype
  · rw [htype] at hstep
    exact (accessBlock_spec hs hb hstep).2 haddr
  · rw [htype] at hstep
    exact (accessBlock_spec hs hb hstep).2 haddr
  · rw [htype] at hstep
    exact (accessBlock_spec hs hb hstep).2 haddr
  · rw [htype] at hstep
    exact (declareBlock_spec hs hb hstep).2

/-- Addresses that share a group stay together. -/
theorem GroupState.Evolves.together (hs : s.Consistent) (h : s.Evolves s') {a a' : Nat}
    (ha : s.addr2Group.get a = some g) (ha' : s.addr2Group.get a' = some g) :
    ∃ g', s'.addr2Group.get a = some g' ∧ s'.addr2Group.get a' = some g' := by
  rcases h with ⟨hs', f, hf⟩
  have hget : ∀ a, s.addr2Group.get a = some g → s'.addr2Group.get a = some (f g) := by
    intro a ha
    by_cases hlt : a < maxRange
    · exact hf.addr a hlt g ha
    · rw [SegmentTree.get_of_ge hs.addr_wf (not_lt.mp hlt)] at ha
      rw [SegmentTree.get_of_ge hs'.addr_wf (not_lt.mp hlt)]
      exact hf.addr _ (by decide) g ha
  exact ⟨f g, hget a ha, hget a' ha'⟩

/-- **Every access lies in one group at the end**, and groups are only ever joined. -/
theorem accesses_grouped {trace : List SmallestBlock} (hword : ∀ b ∈ trace, b.Words)
    (hrun : groupMemory T trace = some s) :
    (∀ b ∈ trace, b.PutsTogether → (∃ l r, b.addr[0]? = some l ∧ b.addr[1]? = some r ∧ l < r) →
        ∃ g, ∀ a, b.Covers a → s.addr2Group.get a = some g) ∧
      ∀ pre mid post s₁ s₂, trace.reverse = pre ++ mid ++ post →
        run (groupStep T) {} pre = some s₁ → run (groupStep T) s₁ mid = some s₂ →
          ∀ a a' g, s₁.addr2Group.get a = some g → s₁.addr2Group.get a' = some g →
            ∃ g', s₂.addr2Group.get a = some g' ∧ s₂.addr2Group.get a' = some g' := by
  have hword' : ∀ b ∈ trace.reverse, b.Words := fun b hb => hword b (List.mem_reverse.mp hb)
  constructor
  · intro b hb hgroups haddr
    rcases List.append_of_mem (List.mem_reverse.mpr hb) with ⟨pre, post, hsplit⟩
    rw [groupMemory, hsplit] at hrun
    rcases run_append_eq_some.mp hrun with ⟨s₁, hpre, hrest⟩
    rcases run_cons_eq_some.mp hrest with ⟨s₂, hstep, hpost⟩
    have hs₁ := consistent_of_run hword hsplit hpre
    rcases groupStep_groups hs₁ (hword b hb) hgroups haddr hstep with ⟨g, hg⟩
    have hs₂ := (groupStep_evolves hs₁ (hword b hb) hstep).1
    have hpost_word : ∀ c ∈ post, c.Words := fun c hc =>
      hword' c (by rw [hsplit]; exact List.mem_append_right pre (List.mem_cons_of_mem b hc))
    rcases groupSteps_evolve hpost_word hs₂ hpost with ⟨-, f, hf⟩
    exact ⟨f g, fun a ha => hf.addr a (ha.lt (hword b hb)) g (hg a ha)⟩
  · intro pre mid post s₁ s₂ hsplit hpre hmid a a' g ha ha'
    have hs₁ := consistent_of_run hword (hsplit.trans (List.append_assoc pre mid post)) hpre
    have hmid_word : ∀ c ∈ mid, c.Words := fun c hc =>
      hword' c (by rw [hsplit]; exact List.mem_append_left post (List.mem_append_right pre hc))
    exact (groupSteps_evolve hmid_word hs₁ hmid).together hs₁ ha ha'

theorem accesses_grouped_callTail : ∃ s g, groupMemory entryTables callTail = some s ∧
    ∀ a, 200 ≤ a → a < 204 → s.addr2Group.get a = some g := by
  have hsome : (groupMemory entryTables callTail).isSome := by decide +kernel
  rcases Option.isSome_iff_exists.mp hsome with ⟨s, hs⟩
  rcases (accesses_grouped (by decide) hs).1 (callTail[1]) (by decide) (Or.inl rfl)
    ⟨200, 204, rfl, rfl, by decide⟩ with ⟨g, hg⟩
  exact ⟨s, g, hs, fun a hl ha => hg a (Or.inl ⟨200, 204, rfl, rfl, hl, ha⟩)⟩

/-- The calls of `MergeInst` on a trace: the state before it and its arguments. -/
inductive MergeCall (T : Tables) (trace : List SmallestBlock) :
    GroupState → List Nat → Nat × Nat → SmallestBlock → Prop
  /-- Of a memory access, a memset or a memmove. -/
  | access {pre post : List SmallestBlock} {b : SmallestBlock} {s : GroupState}
      {segs : List (Segment Nat)} {l r insID : Nat} (hsplit : trace.reverse = pre ++ b :: post)
      (hrun : run (groupStep T) {} pre = some s)
      (htype : b.type = .memoryAccessBlock ∨ b.type = .memsetBlock ∨ b.type = .memmoveBlock)
      (hl : b.addr[0]? = some l) (hr : b.addr[1]? = some r) (hlr : l < r)
      (hins : b.insID? T = some insID) (hsegs : s.blockSegments b = some segs) :
      MergeCall T trace s (segmentGroups segs) (b.tid, insID) b
  /-- Of an instruction of a `NormalBlock`. -/
  | normal {pre post : List SmallestBlock} {b : SmallestBlock} {s₀ s : GroupState}
      {ids done rest : List Nat} {id : Nat} {i : InstInfo}
      (hsplit : trace.reverse = pre ++ b :: post) (hrun : run (groupStep T) {} pre = some s₀)
      (htype : b.type = .normalBlock) (hids : b.insIDs? T = some ids)
      (hrest : ids.reverse = done ++ id :: rest)
      (hdone : run (GroupState.normalInst T b) s₀ done = some s) (hi : T.ins[id]? = some i)
      (hpointer : i.isPointer = true) (hcall : i.type ≠ .callInst) :
      MergeCall T trace s [] (b.tid, id) b

/-- The invariant holds before a call, and the groups that it is given have trees. -/
theorem MergeCall.ready {trace : List SmallestBlock} {shouldMerge : List Nat} {ins : Nat × Nat}
    (hcall : MergeCall T trace s shouldMerge ins b) (hword : ∀ b ∈ trace, b.Words) :
    s.Consistent ∧ b.Words ∧ shouldMerge.Pairwise (· < ·) ∧ ∀ h ∈ shouldMerge, s.Live h := by
  cases hcall with
  | @access pre post b s segs l r insID hsplit hrun _ _ _ _ _ hsegs =>
    have hs := consistent_of_run hword hsplit hrun
    have hb : b.Words := hword b (List.mem_reverse.mp (by rw [hsplit]; simp))
    exact ⟨hs, hb, (segmentGroups_spec segs).1, (looked_block hs hb hsegs).live hs⟩
  | @normal pre post b s₀ s _ _ _ _ _ hsplit hrun _ _ _ hdone =>
    have hs₀ := consistent_of_run hword hsplit hrun
    have hb : b.Words := hword b (List.mem_reverse.mp (by rw [hsplit]; simp))
    have hs := (run_evolves (fun s id s' _ hs h => normalInst_evolves hs h) hs₀ hdone).1
    exact ⟨hs, hb, .nil, List.forall_mem_nil _⟩

/-- **The group `MergeInst` returns** has a tree iff no argument of a function's first block joins it
with a smaller group when it is handed over; and only then can ranges be filled with it. -/
theorem returned_group_live_iff {trace : List SmallestBlock} {shouldMerge : List Nat}
    {ins : Nat × Nat} (hword : ∀ b ∈ trace, b.Words) (hcall : MergeCall T trace s shouldMerge ins b)
    (hmerge : s.mergeInst T shouldMerge ins b = some (g, s')) :
    (s'.Live g ↔
      ∀ s₁, s.mergeOperands T shouldMerge ins b.tid = some (g, s₁) → KeepsReturned T b g s₁) ∧
      ∀ segs, s.blockSegments b = some segs →
        ((run (GroupState.fill g) s' (segmentRanges segs)).isSome ↔
          s'.Live g ∨ segmentRanges segs = []) := by
  rcases hcall.ready hword with ⟨hs, hb, hsorted, hlive⟩
  rcases mergeInst_spec hs hsorted hlive hmerge with ⟨f, s₁, hf, hfirst, hkeep, -⟩
  refine ⟨hkeep.trans ⟨fun h s₂ hs₂ => ?_, fun h => h s₁ hfirst⟩, fun segs hsegs => ?_⟩
  · cases hfirst.symm.trans hs₂
    exact h
  · constructor
    · intro hsome
      rcases Option.isSome_iff_exists.mp hsome with ⟨s₂, hrun⟩
      by_contra hnot
      rw [not_or] at hnot
      exact hnot.2 (fills_dead hnot.1 hrun).1
    · intro hor
      rcases hor with hg | hnil
      · rcases (looked_block hs hb hsegs).fills hf hg with ⟨s₂, hrun, -⟩
        rw [hrun]
        rfl
      · rw [hnil]
        rfl

/-- The call of `MergeInst` for the first block of `g`: the group of its argument is new, and joined
with the older group of the pointer that `f` passes. -/
theorem entry_call : ∃ s segs g s', MergeCall entryTables entryTrace s (segmentGroups segs) (0, 0)
      entryBlock ∧ s.mergeInst entryTables (segmentGroups segs) (0, 0) entryBlock = some (g, s') ∧
      s.blockSegments entryBlock = some segs ∧ s'.group2Addr g = none := by
  have hcall : ((run (groupStep entryTables) {} callTail.reverse).bind fun s =>
      (s.blockSegments entryBlock).bind fun segs =>
        (s.mergeInst entryTables (segmentGroups segs) (0, 0) entryBlock).map fun r =>
          r.2.group2Addr r.1) = some none := by
    decide +kernel
  simp only [Option.bind_eq_some_iff, Option.map_eq_some_iff, Prod.exists] at hcall
  rcases hcall with ⟨s, hs, segs, hsegs, g, s', hmerge, hdead⟩
  exact ⟨s, segs, g, s', .access (l := 100) (r := 104) rfl hs (Or.inl rfl) rfl rfl (by decide) rfl
    hsegs, hmerge, hsegs, hdead⟩

theorem returned_group_live_iff_entry : ∃ (s : GroupState) (segs : List (Segment Nat)) (g : Nat)
    (s' : GroupState),
    MergeCall entryTables entryTrace s (segmentGroups segs) (0, 0) entryBlock ∧
      (s'.Live g ↔ ∀ s₁, s.mergeOperands entryTables (segmentGroups segs) (0, 0) 0 = some (g, s₁) →
        KeepsReturned entryTables entryBlock g s₁) := by
  rcases entry_call with ⟨s, segs, g, s', hcall, hmerge, -⟩
  exact ⟨s, segs, g, s', hcall, (returned_group_live_iff (by decide) hcall hmerge).1⟩

/-- `MergeInst` can return a group that is gone, and then `GroupMemory` follows a null pointer. -/
theorem returned_group_gone : (∀ b ∈ entryTrace, b.Words) ∧
    (∃ s shouldMerge ins b g s', MergeCall entryTables entryTrace s shouldMerge ins b ∧
      s.mergeInst entryTables shouldMerge ins b = some (g, s') ∧ ¬ s'.Live g) ∧
    groupMemory entryTables entryTrace = none := by
  rcases entry_call with ⟨s, segs, g, s', hcall, hmerge, -, hdead⟩
  refine ⟨by decide, ⟨s, segmentGroups segs, (0, 0), entryBlock, g, s', hcall, hmerge, ?_⟩, ?_⟩
  · rw [GroupState.Live, hdead]
    exact Bool.false_ne_true
  · exact Option.not_isSome_iff_eq_none.mp (by decide +kernel)

end

end Slimmer
