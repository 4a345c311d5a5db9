import Slimmer.SegmentTree
import Slimmer.Lib.Runs
import Mathlib.Data.List.Chain

/-!
# A segment tree is a map

What a tree says after any number of calls of `Set` on `NewTree()`.

* `sets_get`: `Get` returns the value of the last call whose range has the address.
* `collect_decomposes`: `Collect` cuts the query into the runs of equal values, each as long as the
  tree has it.

`get` reads a null pointer as an address that is not covered; `get?` does not, and agrees with it
on the trees that can be reached.
-/

namespace Slimmer

namespace SegmentTree

variable {α : Type}

/-- `Get`; `none` when a null pointer is followed. -/
def get? : SegmentTree α → Nat → Option (Option α)
  | null, _ => none
  | node type value left right lChild rChild, x =>
    match type with
    | .emptySegment => some none
    | .coveredSegment => some (some value)
    | .partialSegment => if x < mid left right then lChild.get? x else rChild.get? x

/-- A call of `Set`. -/
structure SetCall (α : Type) where
  l : UInt64
  r : UInt64
  v : α

/-- The range has the address. -/
def SetCall.Has (c : SetCall α) (x : Nat) : Prop := c.l.toNat ≤ x ∧ x < c.r.toNat

instance (c : SetCall α) (x : Nat) : Decidable (c.Has x) :=
  inferInstanceAs (Decidable (_ ∧ _))

/-- The value of the last call that has the address. -/
def lastSet (calls : List (SetCall α)) (x : Nat) : Option α :=
  (calls.reverse.find? fun c => c.Has x).map SetCall.v

theorem lastSet_concat (calls : List (SetCall α)) (c : SetCall α) (x : Nat) :
    lastSet (calls ++ [c]) x = if c.Has x then some c.v else lastSet calls x := by
  rw [lastSet, List.reverse_append, List.reverse_singleton, List.singleton_append,
    List.find?_cons]
  by_cases hc : c.Has x
  · simp [hc]
  · simp [hc, lastSet]

/-- No null pointer is followed in a well-formed tree. -/
theorem WF.get?_eq {a b : Nat} {t : SegmentTree α} (h : WF a b t) (x : Nat) :
    t.get? x = some (t.get x) := by
  induction h with
  | @leaf a b type value htype hlt =>
    cases type with
    | emptySegment => rfl
    | partialSegment => exact absurd rfl htype
    | coveredSegment => rfl
  | @split a b value lChild rChild hl hr ihl ihr =>
    show (if x < mid a b then lChild.get? x else rChild.get? x) = _
    rw [ihl, ihr, get_split, apply_ite some]

section

variable [DecidableEq α] {t : SegmentTree α} {calls : List (SetCall α)} {value : α} {l r : Nat}
  {segs : List (Segment α)}

/-- One call. -/
def setCall (t : SegmentTree α) (c : SetCall α) : Option (SegmentTree α) :=
  t.set c.l.toNat c.r.toNat c.v

theorem setCall_spec (h : WF 0 maxRange t) (c : SetCall α) :
    ∃ t', setCall t c = some t' ∧ WF 0 maxRange t' ∧
      ∀ x, x < maxRange → t'.get x = if c.Has x then some c.v else t.get x := by
  by_cases hlr : c.l.toNat < c.r.toNat
  · have hr : c.r.toNat ≤ maxRange := Nat.le_sub_one_of_lt c.r.toNat_lt
    exact set_spec h hlr hr
  · -- an empty range has no address
    refine ⟨t, set_of_le h (not_lt.mp hlr), h, fun x _ => ?_⟩
    rw [if_neg fun hc => hlr (lt_of_le_of_lt hc.1 hc.2)]

theorem setCalls_spec (value : α) (calls : List (SetCall α)) :
    ∃ t, run setCall (newTree value) calls = some t ∧ WF 0 maxRange t ∧
      ∀ x, x < maxRange → t.get x = lastSet calls x := by
  induction calls using List.reverseRecOn with
  | nil => exact ⟨newTree value, rfl, newTree_wf value, fun x _ => rfl⟩
  | append_singleton calls c ih =>
    rcases ih with ⟨t, hrun, hwf, hget⟩
    rcases setCall_spec hwf c with ⟨t', hset, hwf', hget'⟩
    refine ⟨t', run_concat_eq_some.mpr ⟨t, hrun, hset⟩, hwf', fun x hx => ?_⟩
    rw [hget' x hx, hget x hx, lastSet_concat]

/-- **The segment tree is a map.** After any calls of `Set`, `Get` returns the value of the last
call that has the address. Neither follows a null pointer, and the recursions end. -/
theorem sets_get (value : α) (calls : List (SetCall α)) :
    ∃ t, run setCall (newTree value) calls = some t ∧
      ∀ x, x < maxRange → t.get? x = some (lastSet calls x) := by
  rcases setCalls_spec value calls with ⟨t, hrun, hwf, hget⟩
  refine ⟨t, hrun, fun x hx => ?_⟩
  rw [hwf.get?_eq, hget x hx]

/-! ## The runs of a query -/

/-- The type and, for a covered segment, the value are the same. -/
def Segment.Alike (s s' : Segment α) : Prop :=
  s.type = s'.type ∧ (s.type = .coveredSegment → s.value = s'.value)

/-- `segs` cuts the query `[l, r)` into the runs of the tree. -/
structure Decomposes (t : SegmentTree α) (l r : Nat) (segs : List (Segment α)) : Prop where
  touch : segs.IsChain fun s s' => s.right = s'.left
  first : ∃ s, segs.head? = some s ∧ s.left ≤ l ∧ l < s.right
  last : ∃ s, segs.getLast? = some s ∧ s.left ≤ r - 1 ∧ r - 1 < s.right
  reads : ∀ s ∈ segs, s.left < s.right ∧ s.right ≤ maxRange ∧ ∀ x, s.left ≤ x → x < s.right →
    (s.type = .emptySegment ∧ t.get? x = some none) ∨
      (s.type = .coveredSegment ∧ t.get? x = some (some s.value))
  distinct : segs.IsChain fun s s' => ¬ Segment.Alike s s'

omit [DecidableEq α] in
/-- There is no gap between two neighbours, since the address behind the first one is in the
query. -/
theorem Collected.touch (h : Collected t l r segs) :
    segs.IsChain fun s s' => s.right = s'.left := by
  rw [List.isChain_iff_forall_rel_of_append_cons_cons]
  intro s s' p q hsegs
  have hs : s ∈ segs := by rw [hsegs]; simp
  have hs' : s' ∈ segs := by rw [hsegs]; simp
  have hsorted := h.sorted
  rw [hsegs, List.pairwise_append] at hsorted
  rcases hsorted with ⟨-, hrest, hpre⟩
  rcases List.pairwise_cons.mp hrest with ⟨hbehind, hrest⟩
  rcases List.pairwise_cons.mp hrest with ⟨hbehind', -⟩
  have hle := hbehind s' List.mem_cons_self
  by_contra hne
  rcases h.meets s hs with ⟨x, -, hxs, hlx, -⟩
  rcases h.meets s' hs' with ⟨y, hys, -, -, hyr⟩
  rcases h.covers s.right (by omega) (by omega) with ⟨m, hm, hml, hmr⟩
  rw [hsegs] at hm
  have hlt := (h.range s hs).1
  have hlt' := (h.range s' hs').1
  rcases List.mem_append.mp hm with hm | hm
  · have := hpre m hm s List.mem_cons_self
    omega
  rcases List.mem_cons.mp hm with rfl | hm
  · omega
  rcases List.mem_cons.mp hm with rfl | hm
  · omega
  · have := hbehind' m hm
    omega

omit [DecidableEq α] in
theorem Collected.first (h : Collected t l r segs) (hlr : l < r) :
    ∃ s, segs.head? = some s ∧ s.left ≤ l ∧ l < s.right := by
  rcases h.covers l le_rfl hlr with ⟨m, hm, hml, hmr⟩
  cases segs with
  | nil => cases hm
  | cons s segs =>
    refine ⟨s, rfl, ?_⟩
    rcases List.mem_cons.mp hm with rfl | hm
    · exact ⟨hml, hmr⟩
    · have hle := (List.pairwise_cons.mp h.sorted).1 m hm
      rcases h.meets s List.mem_cons_self with ⟨x, -, hxs, hlx, -⟩
      omega

omit [DecidableEq α] in
theorem Collected.last (h : Collected t l r segs) (hlr : l < r) :
    ∃ s, segs.getLast? = some s ∧ s.left ≤ r - 1 ∧ r - 1 < s.right := by
  rcases h.covers (r - 1) (by omega) (by omega) with ⟨m, hm, hml, hmr⟩
  cases segs using List.reverseRecOn with
  | nil => cases hm
  | append_singleton segs s =>
    refine ⟨s, List.getLast?_concat, ?_⟩
    rcases List.mem_append.mp hm with hm | hm
    · have hle := (List.pairwise_append.mp h.sorted).2.2 m hm s (List.mem_singleton.mpr rfl)
      rcases h.meets s (by simp) with ⟨x, hxs, -, -, hxr⟩
      omega
    · rw [List.mem_singleton.mp hm] at hml hmr
      exact ⟨hml, hmr⟩

/-- Two neighbours that touch differ, the last one first. -/
def Joined (res : List (Segment α)) : Prop :=
  res.IsChain fun s s' => s'.right = s.left → ¬ Segment.Alike s' s

theorem pushSegment_joined {s : Segment α} {res : List (Segment α)}
    (hs : s.type ≠ .partialSegment) (hres : Joined res) : Joined (pushSegment s res) := by
  cases res with
  | nil => exact List.isChain_singleton s
  | cons last res =>
    rw [pushSegment]
    split_ifs with hjoin
    · -- the joined segment is like the last one where it begins
      cases res with
      | nil => exact List.isChain_singleton _
      | cons before res =>
        rcases List.isChain_cons_cons.mp hres with ⟨hfirst, hrest⟩
        exact List.isChain_cons_cons.mpr ⟨hfirst, hrest⟩
    · refine List.isChain_cons_cons.mpr ⟨fun htouch halike => hjoin ⟨?_, htouch⟩, hres⟩
      rcases halike with ⟨htype, hvalue⟩
      cases hlast : last.type with
      | emptySegment => exact Or.inl ⟨rfl, by rw [← htype, hlast]⟩
      | partialSegment => exact absurd (by rw [← htype, hlast]) hs
      | coveredSegment => exact Or.inr ⟨by rw [← hlast, htype], hvalue hlast⟩

theorem collect2_joined {res res' : List (Segment α)} (hres : Joined res)
    (hcollect : t.collect2 l r res = some res') : Joined res' := by
  induction t generalizing l r res res' with
  | null => cases hcollect
  | node type value left right lChild rChild ihl ihr =>
    rw [collect2] at hcollect
    split_ifs at hcollect with hrl htype
    · cases hcollect
      exact hres
    · cases hcollect
      exact pushSegment_joined htype hres
    · rcases Option.bind_eq_some_iff.mp hcollect with ⟨res₁, hleft, hright⟩
      have hres₁ : Joined res₁ := by
        split_ifs at hleft
        · exact ihl hres hleft
        · cases hleft
          exact hres
      split_ifs at hright
      · exact ihr hres₁ hright
      · cases hright
        exact hres₁

theorem collect_distinct (hcollect : t.collect l r = some segs) (hC : Collected t l r segs) :
    segs.IsChain fun s s' => ¬ Segment.Alike s s' := by
  rcases Option.map_eq_some_iff.mp hcollect with ⟨res, hres, rfl⟩
  have hjoined : Joined res := collect2_joined .nil hres
  have htouch := hC.touch
  rw [List.isChain_reverse] at htouch ⊢
  rw [List.isChain_iff_forall_rel_of_append_cons_cons] at htouch ⊢
  intro s s' p q hsegs
  exact List.isChain_iff_forall_rel_of_append_cons_cons.mp hjoined hsegs (htouch hsegs)

/-- **`Collect` returns the run decomposition of the query**, for every tree that calls of `Set` can
build. -/
theorem collect_decomposes (hrun : run setCall (newTree value) calls = some t) (hlr : l < r)
    (hr : r ≤ maxRange) : ∃ segs, t.collect l r = some segs ∧ Decomposes t l r segs := by
  rcases setCalls_spec value calls with ⟨t', hrun', hwf, -⟩
  cases hrun.symm.trans hrun'
  rcases collect_spec hwf hr with ⟨segs, hcollect, hC⟩
  refine ⟨segs, hcollect, hC.touch, hC.first hlr, hC.last hlr, fun s hs => ?_,
    collect_distinct hcollect hC⟩
  refine ⟨(hC.range s hs).1, (hC.range s hs).2, fun x hx hx' => ?_⟩
  rw [hwf.get?_eq, hC.agrees s hs x hx hx', Segment.get]
  cases htype : s.type with
  | emptySegment => exact Or.inl ⟨rfl, rfl⟩
  | partialSegment => exact absurd htype (collect_types hcollect s hs)
  | coveredSegment => exact Or.inr ⟨rfl, rfl⟩

/-- Three calls that cover `[4, 20)`. -/
def touchingCalls : List (SetCall Int) := [⟨4, 10, 1⟩, ⟨12, 20, 1⟩, ⟨10, 12, 1⟩]

theorem collect_decomposes_touching : ∃ (t : SegmentTree Int) (segs : List (Segment Int)),
    t.collect 0 maxRange = some segs ∧ Decomposes t 0 maxRange segs := by
  rcases setCalls_spec 0 touchingCalls with ⟨t, hrun, -, -⟩
  exact ⟨t, collect_decomposes hrun (by decide) le_rfl⟩

end

end SegmentTree

end Slimmer
