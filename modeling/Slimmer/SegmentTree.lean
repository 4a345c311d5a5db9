import Mathlib.Algebra.Group.Nat.Defs
import Mathlib.Data.List.Basic
import Mathlib.Data.Nat.Basic
import Mathlib.Order.Lattice

/-!
# Segment trees

A `SegmentTree` maps 64-bit addresses to values (`include/SegmentTree.hpp`). A node stands for a
range; it is empty, has one value for the whole range, or is split in the middle between its two
children. `Set` splits the leaves it overwrites in part, and joins two children that have become
equal. `Collect` lists the leaves a query meets, whole, and joins equal neighbours.

A tree is read by `Get`. For a well-formed tree (`WF`):

* `set_spec`: `Set` returns, keeps the tree well formed, and changes what `Get` reads on the range
  it is given only;
* `collect_tiles`: the segments `Collect` returns are disjoint and in order, say what `Get` reads
  everywhere in them, each of them meets the query, and together they cover it.
-/

namespace Slimmer

inductive SegmentType
  | emptySegment
  | partialSegment
  | coveredSegment
  deriving DecidableEq, Repr

/-- One entry of what `Collect` returns. -/
structure Segment (α : Type) where
  type : SegmentType
  value : α
  left : Nat
  right : Nat
  deriving DecidableEq, Repr

/-- What a segment says of the addresses in it. -/
def Segment.get {α : Type} (s : Segment α) : Option α :=
  if s.type = .coveredSegment then some s.value else none

/-- A node of the tree, or a null pointer. The range of a node is `[left, right)`. -/
inductive SegmentTree (α : Type)
  | null
  | node (type : SegmentType) (value : α) (left right : Nat) (lChild rChild : SegmentTree α)
  deriving DecidableEq, Repr

/-- `MAX_RANGE`. -/
def maxRange : Nat := 2 ^ 64 - 1

/-- The middle of a range. -/
def mid (left right : Nat) : Nat :=
  left / 2 + right / 2 + if left % 2 = 1 ∧ right % 2 = 1 then 1 else 0

theorem mid_eq (left right : Nat) : mid left right = (left + right) / 2 := by
  unfold mid
  split_ifs <;> omega

namespace SegmentTree

variable {α : Type}

/-- A node without children. -/
def leaf (type : SegmentType) (value : α) (left right : Nat) : SegmentTree α :=
  node type value left right null null

/-- `NewTree`, with `value` for `T()`. -/
def newTree (value : α) : SegmentTree α := leaf .emptySegment value 0 maxRange

/-! ## The operations -/

/-- `Get`: the value at `x`, `none` if it is not covered. -/
def get : SegmentTree α → Nat → Option α
  | null, _ => none
  | node type value left right lChild rChild, x =>
    match type with
    | .emptySegment => none
    | .coveredSegment => some value
    | .partialSegment => if x < mid left right then lChild.get x else rChild.get x

section

variable [DecidableEq α]

/-- The children of a node, after a leaf has been split. Only a split node has children. -/
def children (type : SegmentType) (value : α) (left right : Nat)
    (lChild rChild : SegmentTree α) : Option (SegmentTree α × SegmentTree α) :=
  if type = .partialSegment then some (lChild, rChild)
  else if lChild = null ∧ rChild = null then
    some (leaf type value left (mid left right), leaf type value (mid left right) right)
  else none

/-- A split node, which becomes a leaf again when its children have become equal. -/
def join (value : α) (left right : Nat) : SegmentTree α → SegmentTree α → SegmentTree α
  | node lt lv ll lr lc₁ lc₂, node rt rv rl rr rc₁ rc₂ =>
    if (lt = .coveredSegment ∧ rt = .coveredSegment ∧ lv = rv) ∨
        (lt = .emptySegment ∧ rt = .emptySegment) then leaf lt lv left right
    else node .partialSegment value left right (node lt lv ll lr lc₁ lc₂)
      (node rt rv rl rr rc₁ rc₂)
  | lChild, rChild => node .partialSegment value left right lChild rChild

/-- `Set` with the depth of the recursion bounded; `none` when it goes deeper, when an assert
fails, or when a null pointer is followed. -/
def setWithin : Nat → SegmentTree α → Nat → Nat → α → Option (SegmentTree α)
  | 0, _, _, _, _ => none
  | _ + 1, null, _, _, _ => none
  | depth + 1, node type value left right lChild rChild, l, r, v =>
    if r ≤ l then some (node type value left right lChild rChild)
    else if type = .coveredSegment ∧ value = v then
      some (node type value left right lChild rChild)
    else if l ≤ left ∧ right ≤ r then some (leaf .coveredSegment v left right)
    else
      let m := mid left right
      (children type value left right lChild rChild).bind fun (lChild, rChild) =>
        (if l < m then setWithin depth lChild l (min r m) v else some lChild).bind fun lChild =>
          (if m < r then setWithin depth rChild (max l m) r v else some rChild).bind fun rChild =>
            some (join value left right lChild rChild)

/-- `Set`: the range `[l, r)` gets the value `v`. A tree of 64-bit addresses has depth 65. -/
def set (t : SegmentTree α) (l r : Nat) (v : α) : Option (SegmentTree α) :=
  setWithin 65 t l r v

/-- Append a segment to a list kept with its last segment first, or join it to the last one. -/
def pushSegment (s : Segment α) : List (Segment α) → List (Segment α)
  | [] => [s]
  | last :: res =>
    if ((last.type = .emptySegment ∧ s.type = .emptySegment) ∨
        (last.type = s.type ∧ last.value = s.value)) ∧ last.right = s.left then
      { last with right := s.right } :: res
    else s :: last :: res

/-- `Collect2`; `none` when a null pointer is followed. -/
def collect2 : SegmentTree α → Nat → Nat → List (Segment α) → Option (List (Segment α))
  | null, _, _, _ => none
  | node type value left right lChild rChild, l, r, res =>
    if r ≤ l then some res
    else if type ≠ .partialSegment then some (pushSegment ⟨type, value, left, right⟩ res)
    else
      let m := mid left right
      (if l < m then lChild.collect2 l (min r m) res else some res).bind fun res =>
        if m < r then rChild.collect2 (max l m) r res else some res

/-- `Collect`: the leaves within `[l, r)`. -/
def collect (t : SegmentTree α) (l r : Nat) : Option (List (Segment α)) :=
  (t.collect2 l r []).map List.reverse

end

/-! ## Well-formed trees -/

/-- The tree stands for the range `[a, b)`: leaves have no children, and the children of a split
node stand for the two halves of its range. -/
inductive WF : Nat → Nat → SegmentTree α → Prop
  | leaf {a b : Nat} {type : SegmentType} {value : α} (htype : type ≠ .partialSegment)
      (hlt : a < b) : WF a b (leaf type value a b)
  | split {a b : Nat} {value : α} {lChild rChild : SegmentTree α}
      (hl : WF a (mid a b) lChild) (hr : WF (mid a b) b rChild) :
      WF a b (node .partialSegment value a b lChild rChild)

theorem WF.lt {a b : Nat} {t : SegmentTree α} (h : WF a b t) : a < b := by
  induction h with
  | leaf _ hlt => exact hlt
  | split _ _ ihl ihr => exact Nat.lt_trans ihl ihr

theorem WF.exists_node {a b : Nat} {t : SegmentTree α} (h : WF a b t) :
    ∃ type value lChild rChild, t = node type value a b lChild rChild := by
  cases h with
  | leaf => exact ⟨_, _, _, _, rfl⟩
  | split => exact ⟨_, _, _, _, rfl⟩

theorem newTree_wf (value : α) : WF 0 maxRange (newTree value) :=
  .leaf (by decide) (by decide)

@[simp] theorem get_newTree (value : α) (x : Nat) : (newTree value).get x = none := rfl

theorem get_split (value : α) (left right : Nat) (lChild rChild : SegmentTree α) (x : Nat) :
    (node .partialSegment value left right lChild rChild).get x =
      if x < mid left right then lChild.get x else rChild.get x := rfl

/-- A leaf reads the same everywhere. -/
theorem get_leaf (type : SegmentType) (value : α) (a b a' b' x y : Nat) :
    (leaf type value a b).get x = (leaf type value a' b').get y := by
  cases type with
  | partialSegment => simp [leaf, get]
  | _ => rfl

section

variable [DecidableEq α] {a b l r : Nat} {v : α}

/-! ## `Set` -/

theorem join_wf {lChild rChild : SegmentTree α} (value : α) (hl : WF a (mid a b) lChild)
    (hr : WF (mid a b) b rChild) : WF a b (join value a b lChild rChild) := by
  have hab := Nat.lt_trans hl.lt hr.lt
  cases lChild <;> cases rChild
  case node.node lt lv ll lr lc₁ lc₂ rt rv rl rr rc₁ rc₂ =>
    rw [join]
    split_ifs with hc
    · refine .leaf ?_ hab
      rintro rfl
      simp at hc
    · exact .split hl hr
  all_goals exact .split hl hr

theorem get_join {lChild rChild : SegmentTree α} (value : α) (left right x : Nat) :
    (join value left right lChild rChild).get x =
      if x < mid left right then lChild.get x else rChild.get x := by
  cases lChild <;> cases rChild
  case node.node lt lv ll lr lc₁ lc₂ rt rv rl rr rc₁ rc₂ =>
    rw [join]
    by_cases hc : (lt = .coveredSegment ∧ rt = .coveredSegment ∧ lv = rv) ∨
        (lt = .emptySegment ∧ rt = .emptySegment)
    · rw [if_pos hc]
      obtain ⟨rfl, rfl, rfl⟩ | ⟨rfl, rfl⟩ := hc <;> simp [leaf, get]
    · rw [if_neg hc]
      exact get_split ..
  all_goals exact get_split ..

/-- Splitting a leaf changes nothing. -/
theorem children_spec {type : SegmentType} {value : α} {lChild rChild : SegmentTree α}
    (h : WF a b (node type value a b lChild rChild)) (hab : a + 2 ≤ b) :
    ∃ lc rc, children type value a b lChild rChild = some (lc, rc) ∧ WF a (mid a b) lc ∧
      WF (mid a b) b rc ∧ ∀ x, (node type value a b lChild rChild).get x =
        if x < mid a b then lc.get x else rc.get x := by
  have hmid := mid_eq a b
  cases h with
  | leaf htype hlt =>
    refine ⟨leaf type value a (mid a b), leaf type value (mid a b) b, ?_, .leaf htype (by omega),
      .leaf htype (by omega), fun x => ?_⟩
    · simp [children, htype]
    · show (leaf type value a b).get x = _
      rw [get_leaf type value a b a (mid a b) x x, get_leaf type value (mid a b) b a (mid a b) x x]
      simp
  | split hl hr => exact ⟨lChild, rChild, by simp [children], hl, hr, fun x => rfl⟩

/-- `Set` on a range of at most `2 ^ depth` addresses. -/
theorem setWithin_spec (depth : Nat) {t : SegmentTree α} (h : WF a b t)
    (hdepth : b - a ≤ 2 ^ depth) (hl : a ≤ l) (hlr : l < r) (hr : r ≤ b) :
    ∃ t', setWithin (depth + 1) t l r v = some t' ∧ WF a b t' ∧
      ∀ x, a ≤ x → x < b → t'.get x = if l ≤ x ∧ x < r then some v else t.get x := by
  induction depth generalizing a b t l r with
  | zero =>
    -- a single address is covered whole
    have hwhole : l = a ∧ r = b := by
      have := h.lt
      omega
    obtain ⟨rfl, rfl⟩ := hwhole
    have hleaf : ∀ x, l ≤ x → x < r → (leaf .coveredSegment v l r).get x =
        if l ≤ x ∧ x < r then some v else t.get x := fun x h₁ h₂ => by
      rw [if_pos ⟨h₁, h₂⟩]; rfl
    rcases h.exists_node with ⟨type, value, lChild, rChild, rfl⟩
    by_cases hv : type = .coveredSegment ∧ value = v
    · obtain ⟨rfl, rfl⟩ := hv
      refine ⟨_, by simp [setWithin], h, fun x h₁ h₂ => ?_⟩
      rw [if_pos ⟨h₁, h₂⟩]; rfl
    · exact ⟨_, by simp [setWithin, hv, not_le.mpr hlr], .leaf (by simp) hlr, hleaf⟩
  | succ depth ih =>
    rcases h.exists_node with ⟨type, value, lChild, rChild, rfl⟩
    by_cases hv : type = .coveredSegment ∧ value = v
    · obtain ⟨rfl, rfl⟩ := hv
      refine ⟨_, by simp [setWithin], h, fun x _ _ => ?_⟩
      split_ifs <;> rfl
    by_cases hwhole : l ≤ a ∧ b ≤ r
    · refine ⟨leaf .coveredSegment v a b, by simp [setWithin, hv, hwhole, not_le.mpr hlr],
        .leaf (by simp) h.lt, fun x h₁ h₂ => ?_⟩
      rw [if_pos ⟨by omega, by omega⟩]; rfl
    -- otherwise there are at least two addresses, and both halves are smaller
    have hmid := mid_eq a b
    have hpow : 2 ^ (depth + 1) = 2 * 2 ^ depth := by rw [Nat.pow_succ]; omega
    obtain ⟨lc, rc, hchildren, hlc, hrc, hget⟩ := children_spec h (by omega)
    obtain ⟨lc', hlset, hlc', hlget⟩ : ∃ lc', (if l < mid a b then
        setWithin (depth + 1) lc l (min r (mid a b)) v else some lc) = some lc' ∧
        WF a (mid a b) lc' ∧ ∀ x, a ≤ x → x < mid a b →
          lc'.get x = if l ≤ x ∧ x < r then some v else lc.get x := by
      by_cases hlm : l < mid a b
      · obtain ⟨lc', hset, hwf, hget'⟩ := ih hlc (by omega) hl
          (show l < min r (mid a b) by omega) (min_le_right _ _)
        refine ⟨lc', by rw [if_pos hlm, hset], hwf, fun x h₁ h₂ => ?_⟩
        rw [hget' x h₁ h₂]
        exact if_congr (by omega) rfl rfl
      · refine ⟨lc, by rw [if_neg hlm], hlc, fun x h₁ h₂ => ?_⟩
        rw [if_neg (by omega)]
    obtain ⟨rc', hrset, hrc', hrget⟩ : ∃ rc', (if mid a b < r then
        setWithin (depth + 1) rc (max l (mid a b)) r v else some rc) = some rc' ∧
        WF (mid a b) b rc' ∧ ∀ x, mid a b ≤ x → x < b →
          rc'.get x = if l ≤ x ∧ x < r then some v else rc.get x := by
      by_cases hmr : mid a b < r
      · obtain ⟨rc', hset, hwf, hget'⟩ := ih hrc (by omega) (le_max_right _ _)
          (show max l (mid a b) < r by omega) hr
        refine ⟨rc', by rw [if_pos hmr, hset], hwf, fun x h₁ h₂ => ?_⟩
        rw [hget' x h₁ h₂]
        exact if_congr (by omega) rfl rfl
      · refine ⟨rc, by rw [if_neg hmr], hrc, fun x h₁ h₂ => ?_⟩
        rw [if_neg (by omega)]
    refine ⟨join value a b lc' rc', ?_, join_wf value hlc' hrc', fun x h₁ h₂ => ?_⟩
    · rw [setWithin, if_neg (by omega), if_neg hv, if_neg hwhole]
      show Option.bind _ _ = _
      rw [hchildren, Option.bind_some]
      show Option.bind _ _ = _
      rw [hlset, Option.bind_some, hrset, Option.bind_some]
    · rw [get_join, hget x]
      by_cases hx : x < mid a b
      · rw [if_pos hx, if_pos hx, hlget x h₁ hx]
      · rw [if_neg hx, if_neg hx, hrget x (by omega) h₂]

/-- **`Set` sets the range it is given** and nothing else. -/
theorem set_spec {t : SegmentTree α} (h : WF 0 maxRange t) (hlr : l < r) (hr : r ≤ maxRange) :
    ∃ t', t.set l r v = some t' ∧ WF 0 maxRange t' ∧
      ∀ x, x < maxRange → t'.get x = if l ≤ x ∧ x < r then some v else t.get x := by
  obtain ⟨t', hset, hwf, hget⟩ := setWithin_spec (v := v) 64 h (by decide) (Nat.zero_le l) hlr hr
  exact ⟨t', hset, hwf, fun x hx => hget x (Nat.zero_le x) hx⟩

omit [DecidableEq α] in
/-- Beyond its range a tree reads as in its last address. -/
theorem get_of_ge {t : SegmentTree α} (h : WF a b t) {x : Nat} (hx : b ≤ x) :
    t.get x = t.get (b - 1) := by
  induction h with
  | leaf => exact get_leaf ..
  | @split a b _ _ _ hl hr _ ihr =>
    have h₁ := hl.lt
    have h₂ := hr.lt
    rw [get_split, get_split, if_neg (by omega), if_neg (by omega)]
    exact ihr hx

/-- An empty range changes nothing. -/
theorem set_of_le {t : SegmentTree α} (h : WF a b t) (hrl : r ≤ l) : t.set l r v = some t := by
  cases h with
  | leaf => exact if_pos hrl
  | split => exact if_pos hrl

/-! ## `Collect` -/

/-- The segments collected of the part of a tree below `bound`, the last one first. `f` is what
the tree reads, `[l, r)` the query. -/
structure Tiles (f : Nat → Option α) (l r bound : Nat) (res : List (Segment α)) : Prop where
  sorted : res.Pairwise fun s s' => s'.right ≤ s.left
  range : ∀ s ∈ res, s.left < s.right ∧ s.right ≤ bound
  agrees : ∀ s ∈ res, ∀ x, s.left ≤ x → x < s.right → f x = s.get
  meets : ∀ s ∈ res, ∃ x, s.left ≤ x ∧ x < s.right ∧ l ≤ x ∧ x < r
  covers : ∀ x, l ≤ x → x < r → x < bound → ∃ s ∈ res, s.left ≤ x ∧ x < s.right

variable {f : Nat → Option α} {res : List (Segment α)}

omit [DecidableEq α] in
theorem Tiles.nil : Tiles f l r 0 [] where
  sorted := .nil
  range := by simp
  agrees := by simp
  meets := by simp
  covers := fun x _ _ hx => absurd hx (Nat.not_lt_zero x)

omit [DecidableEq α] in
/-- The part of the tree from `a` to `b` may be left out when the query does not meet it. -/
theorem Tiles.skip (h : Tiles f l r a res) (hab : a ≤ b)
    (hmeet : ∀ x, l ≤ x → x < r → x < b → x < a) : Tiles f l r b res :=
  { h with
    range := fun s hs => ⟨(h.range s hs).1, (h.range s hs).2.trans hab⟩
    covers := fun x h₁ h₂ h₃ => h.covers x h₁ h₂ (hmeet x h₁ h₂ h₃) }

theorem Tiles.push (h : Tiles f l r a res) {s : Segment α} (hab : s.left = a ∧ s.right = b)
    (hlt : a < b) (hagrees : ∀ x, a ≤ x → x < b → f x = s.get)
    (hmeets : ∃ x, a ≤ x ∧ x < b ∧ l ≤ x ∧ x < r) : Tiles f l r b (pushSegment s res) := by
  obtain ⟨rfl, rfl⟩ := hab
  -- the segment is put in front
  have hcons : Tiles f l r s.right (s :: res) := by
    refine ⟨List.pairwise_cons.mpr ⟨fun s' hs' => (h.range s' hs').2, h.sorted⟩, ?_, ?_, ?_, ?_⟩
    · rw [List.forall_mem_cons]
      exact ⟨⟨hlt, le_rfl⟩, fun s' hs' => ⟨(h.range s' hs').1, by have := h.range s' hs'; omega⟩⟩
    · rw [List.forall_mem_cons]
      exact ⟨hagrees, h.agrees⟩
    · rw [List.forall_mem_cons]
      exact ⟨hmeets, h.meets⟩
    · intro x h₁ h₂ h₃
      by_cases hx : x < s.left
      · obtain ⟨s', hs', hin⟩ := h.covers x h₁ h₂ hx
        exact ⟨s', List.mem_cons_of_mem _ hs', hin⟩
      · exact ⟨s, List.mem_cons_self, by omega, h₃⟩
  cases res with
  | nil => exact hcons
  | cons last res =>
    rw [pushSegment]
    split_ifs with hjoin
    · -- or joined to the last one, which says the same
      obtain ⟨hsame, hnext⟩ := hjoin
      have hget : last.get = s.get := by
        obtain ⟨h₁, h₂⟩ | ⟨h₁, h₂⟩ := hsame
        · simp [Segment.get, h₁, h₂]
        · simp [Segment.get, h₁, h₂]
      obtain ⟨hlast, hsorted⟩ := List.pairwise_cons.mp h.sorted
      obtain ⟨hlastlt, -⟩ := h.range last List.mem_cons_self
      refine ⟨List.pairwise_cons.mpr ⟨hlast, hsorted⟩, ?_, ?_, ?_, ?_⟩
      · rw [List.forall_mem_cons]
        refine ⟨⟨?_, le_rfl⟩, fun s' hs' => ?_⟩
        · show last.left < s.right
          omega
        · exact hcons.range s' (List.mem_cons_of_mem _ (List.mem_cons_of_mem _ hs'))
      · rw [List.forall_mem_cons]
        refine ⟨fun x h₁ h₂ => ?_, fun s' hs' => h.agrees s' (List.mem_cons_of_mem _ hs')⟩
        show f x = last.get
        by_cases hx : x < last.right
        · exact h.agrees last List.mem_cons_self x h₁ hx
        · rw [hget]
          exact hagrees x (by omega) h₂
      · rw [List.forall_mem_cons]
        refine ⟨?_, fun s' hs' => h.meets s' (List.mem_cons_of_mem _ hs')⟩
        obtain ⟨x, h₁, h₂, h₃⟩ := h.meets last List.mem_cons_self
        exact ⟨x, h₁, show x < s.right by omega, h₃⟩
      · intro x h₁ h₂ h₃
        obtain ⟨s', hs', hin⟩ := hcons.covers x h₁ h₂ h₃
        obtain rfl | hs' := List.mem_cons.mp hs'
        · exact ⟨_, List.mem_cons_self, show last.left ≤ x by omega, hin.2⟩
        obtain rfl | hs' := List.mem_cons.mp hs'
        · exact ⟨_, List.mem_cons_self, hin.1, show x < s.right by omega⟩
        · exact ⟨s', List.mem_cons_of_mem _ hs', hin⟩
    · exact hcons

/-- `Collect2` on a node, with the part of the query `[l, r)` that lies in its range. -/
theorem collect2_tiles {t : SegmentTree α} (h : WF a b t) {l' r' : Nat}
    (hf : ∀ x, a ≤ x → x < b → f x = t.get x) (hres : Tiles f l r a res) (hl : l' = max l a)
    (hr : r' = min r b) (hlr : l' < r') :
    ∃ res', t.collect2 l' r' res = some res' ∧ Tiles f l r b res' := by
  induction h generalizing l' r' res with
  | @leaf a b type value htype hlt =>
    refine ⟨pushSegment ⟨type, value, a, b⟩ res, ?_, hres.push ⟨rfl, rfl⟩ hlt (fun x h₁ h₂ => ?_)
      ⟨l', by omega⟩⟩
    · simp [leaf, collect2, not_le.mpr hlr, htype]
    · rw [hf x h₁ h₂]
      cases type <;> simp_all [leaf, get, Segment.get]
  | @split a b value lChild rChild hwl hwr ihl ihr =>
    have h₁ := hwl.lt
    have h₂ := hwr.lt
    have hfl : ∀ x, a ≤ x → x < mid a b → f x = lChild.get x := fun x hx hxm => by
      rw [hf x hx (by omega), get_split, if_pos hxm]
    have hfr : ∀ x, mid a b ≤ x → x < b → f x = rChild.get x := fun x hx hxb => by
      rw [hf x (by omega) hxb, get_split, if_neg (by omega)]
    obtain ⟨res₁, hleft, htiles⟩ : ∃ res₁, (if l' < mid a b then
        lChild.collect2 l' (min r' (mid a b)) res else some res) = some res₁ ∧
        Tiles f l r (mid a b) res₁ := by
      by_cases hlm : l' < mid a b
      · rw [if_pos hlm]
        exact ihl hfl hres hl (by omega) (by omega)
      · exact ⟨res, by rw [if_neg hlm], hres.skip h₁.le fun x _ _ _ => by omega⟩
    obtain ⟨res₂, hright, htiles'⟩ : ∃ res₂, (if mid a b < r' then
        rChild.collect2 (max l' (mid a b)) r' res₁ else some res₁) = some res₂ ∧
        Tiles f l r b res₂ := by
      by_cases hmr : mid a b < r'
      · rw [if_pos hmr]
        exact ihr hfr htiles (by omega) (by omega) (by omega)
      · exact ⟨res₁, by rw [if_neg hmr], htiles.skip h₂.le fun x _ _ _ => by omega⟩
    refine ⟨res₂, ?_, htiles'⟩
    rw [collect2, if_neg (by omega), if_neg (by simp)]
    show Option.bind _ _ = _
    rw [hleft, Option.bind_some, hright]

theorem pushSegment_types {s : Segment α} (hs : s.type ≠ .partialSegment)
    (hres : ∀ s ∈ res, s.type ≠ .partialSegment) :
    ∀ s' ∈ pushSegment s res, s'.type ≠ .partialSegment := by
  cases res with
  | nil => exact List.forall_mem_singleton.mpr hs
  | cons last res =>
    rcases List.forall_mem_cons.mp hres with ⟨hlast, hrest⟩
    rw [pushSegment]
    split_ifs
    · exact List.forall_mem_cons.mpr ⟨hlast, hrest⟩
    · exact List.forall_mem_cons.mpr ⟨hs, hres⟩

/-- A segment that is collected is empty or covered. -/
theorem collect2_types {t : SegmentTree α} {res' : List (Segment α)}
    (hres : ∀ s ∈ res, s.type ≠ .partialSegment) (hcollect : t.collect2 l r res = some res') :
    ∀ s ∈ res', s.type ≠ .partialSegment := by
  induction t generalizing l r res res' with
  | null => cases hcollect
  | node type value left right lChild rChild ihl ihr =>
    rw [collect2] at hcollect
    split_ifs at hcollect with hrl htype
    · cases hcollect
      exact hres
    · cases hcollect
      exact pushSegment_types htype hres
    · rcases Option.bind_eq_some_iff.mp hcollect with ⟨res₁, hleft, hright⟩
      have hres₁ : ∀ s ∈ res₁, s.type ≠ .partialSegment := by
        split_ifs at hleft
        · exact ihl hres hleft
        · cases hleft
          exact hres
      split_ifs at hright
      · exact ihr hres₁ hright
      · cases hright
        exact hres₁

theorem collect_types {t : SegmentTree α} {segs : List (Segment α)}
    (hcollect : t.collect l r = some segs) : ∀ s ∈ segs, s.type ≠ .partialSegment := by
  rcases Option.map_eq_some_iff.mp hcollect with ⟨res, hres, rfl⟩
  intro s hs
  exact collect2_types (List.forall_mem_nil _) hres s (List.mem_reverse.mp hs)

/-- What `Collect` returns for the query `[l, r)`. -/
structure Collected (t : SegmentTree α) (l r : Nat) (segs : List (Segment α)) : Prop where
  sorted : segs.Pairwise fun s s' => s.right ≤ s'.left
  range : ∀ s ∈ segs, s.left < s.right ∧ s.right ≤ maxRange
  agrees : ∀ s ∈ segs, ∀ x, s.left ≤ x → x < s.right → t.get x = s.get
  meets : ∀ s ∈ segs, ∃ x, s.left ≤ x ∧ x < s.right ∧ l ≤ x ∧ x < r
  covers : ∀ x, l ≤ x → x < r → ∃ s ∈ segs, s.left ≤ x ∧ x < s.right

/-- **`Collect` collects the query.** -/
theorem collect_spec {t : SegmentTree α} (h : WF 0 maxRange t) (hr : r ≤ maxRange) :
    ∃ segs, t.collect l r = some segs ∧ Collected t l r segs := by
  by_cases hlr : l < r
  · obtain ⟨res, hres, htiles⟩ := collect2_tiles (f := t.get) h (fun _ _ _ => rfl) Tiles.nil
      (show l = max l 0 by omega) (show r = min r maxRange by omega) hlr
    refine ⟨res.reverse, by rw [collect, hres]; rfl, List.pairwise_reverse.mpr htiles.sorted,
      ?_, ?_, ?_, fun x h₁ h₂ => ?_⟩
    · exact fun s hs => htiles.range s (List.mem_reverse.mp hs)
    · exact fun s hs => htiles.agrees s (List.mem_reverse.mp hs)
    · exact fun s hs => htiles.meets s (List.mem_reverse.mp hs)
    · obtain ⟨s, hs, hin⟩ := htiles.covers x h₁ h₂ (by omega)
      exact ⟨s, List.mem_reverse.mpr hs, hin⟩
  · refine ⟨[], ?_, .nil, by simp, by simp, by simp, fun x h₁ h₂ => by omega⟩
    cases t with
    | null => cases h
    | node => simp [collect, collect2, not_lt.mp hlr]

omit [DecidableEq α] in
/-- The values collected are those `Get` reads in the query. -/
theorem Collected.value_iff {t : SegmentTree α} {segs : List (Segment α)}
    (h : Collected t l r segs) (v : α) :
    (∃ s ∈ segs, s.type = .coveredSegment ∧ s.value = v) ↔
      ∃ x, l ≤ x ∧ x < r ∧ t.get x = some v := by
  constructor
  · rintro ⟨s, hs, htype, rfl⟩
    obtain ⟨x, h₁, h₂, h₃, h₄⟩ := h.meets s hs
    exact ⟨x, h₃, h₄, by rw [h.agrees s hs x h₁ h₂, Segment.get, if_pos htype]⟩
  · rintro ⟨x, h₁, h₂, hx⟩
    obtain ⟨s, hs, h₃, h₄⟩ := h.covers x h₁ h₂
    rw [h.agrees s hs x h₃ h₄, Segment.get] at hx
    split_ifs at hx with htype
    exact ⟨s, hs, htype, Option.some.inj hx⟩

end

end SegmentTree

end Slimmer
