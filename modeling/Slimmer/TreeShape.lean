import Slimmer.SegmentMap

/-!
# The shape of a segment tree

**Theorem (`sets_canonical`).** In a tree that calls of `Set` have made of `NewTree()` every node has a
nonempty range, a node is split if and only if it has two children, which stand for the two halves of
its range, and two children are neither both empty nor both covered with one value. So two sequences
of calls that define the same map end with trees of the same shape and the same leaves.

The invariant (`Canonical`) says what the leaves are: an empty one has the value `T()`, which
`NewTree()` gives it. `Set` keeps it, since the children of every node it has gone through are compared
on the way out. Where a canonical tree reads the same everywhere it is a leaf, which makes the tree
unique.
-/

namespace Slimmer

namespace SegmentTree

variable {α : Type}

/-! ## Canonical trees -/

/-- The two children are both covered with one value, or both empty. -/
def Equal : SegmentTree α → SegmentTree α → Prop
  | node lt lv _ _ _ _, node rt rv _ _ _ _ =>
    (lt = .coveredSegment ∧ rt = .coveredSegment ∧ lv = rv) ∨
      (lt = .emptySegment ∧ rt = .emptySegment)
  | _, _ => False

/-- The leaf that reads `o` everywhere. An empty one has the value `T()`. -/
def leafOf (value : α) (a b : Nat) : Option α → SegmentTree α
  | none => leaf .emptySegment value a b
  | some v => leaf .coveredSegment v a b

/-- The tree stands for `[a, b)`, and no two children are equal. -/
inductive Canonical (value : α) : Nat → Nat → SegmentTree α → Prop
  | leaf {a b : Nat} (o : Option α) (hlt : a < b) : Canonical value a b (leafOf value a b o)
  | split {a b : Nat} {v : α} {lChild rChild : SegmentTree α}
      (hl : Canonical value a (mid a b) lChild) (hr : Canonical value (mid a b) b rChild)
      (hne : ¬ Equal lChild rChild) :
      Canonical value a b (node .partialSegment v a b lChild rChild)

section

variable {value v : α} {a b l r : Nat} {t t' lChild rChild : SegmentTree α} {o : Option α}

@[simp] theorem get_leafOf (x : Nat) : (leafOf value a b o).get x = o := by
  cases o <;> rfl

theorem leafOf_ne_split {m n : Nat} :
    leafOf value a b o ≠ node .partialSegment v m n lChild rChild := by
  cases o <;> simp [leafOf, leaf]

theorem Canonical.wf (h : Canonical value a b t) : WF a b t := by
  induction h with
  | leaf o hlt =>
    cases o with
    | none => exact .leaf (by decide) hlt
    | some v => exact .leaf (by decide) hlt
  | split _ _ _ ihl ihr => exact .split ihl ihr

theorem newTree_canonical (value : α) : Canonical value 0 maxRange (newTree value) :=
  .leaf none (by decide)

/-- Two leaves that read the same are equal. -/
theorem equal_leafOf {m n : Nat} : Equal (leafOf value a b o) (leafOf value m n o) := by
  cases o with
  | none => exact Or.inr ⟨rfl, rfl⟩
  | some v => exact Or.inl ⟨rfl, rfl, rfl⟩

theorem Equal.eq_leafOf (h : Equal lChild rChild) (hl : Canonical value a b lChild) {m n : Nat}
    (hr : Canonical value m n rChild) :
    ∃ o, lChild = leafOf value a b o ∧ rChild = leafOf value m n o := by
  cases hl with
  | split => cases hr with
    | split => simp [Equal] at h
    | leaf o => cases o <;> simp [Equal, leafOf, leaf] at h
  | leaf o => cases hr with
    | split => cases o <;> simp [Equal, leafOf, leaf] at h
    | leaf o' =>
      refine ⟨o, rfl, ?_⟩
      cases o <;> cases o' <;> simp_all [Equal, leafOf, leaf]

/-! ## `Set` keeps a tree canonical -/

variable [DecidableEq α]

theorem join_of_not_equal (h : ¬ Equal lChild rChild) :
    join v a b lChild rChild = node .partialSegment v a b lChild rChild := by
  cases lChild <;> cases rChild
  case node.node => exact if_neg h
  all_goals rfl

theorem join_leafOf {m n : Nat} :
    join v a b (leafOf value a m o) (leafOf value n b o) = leafOf value a b o := by
  cases o <;> simp [join, leafOf, leaf]

theorem join_canonical (hl : Canonical value a (mid a b) lChild)
    (hr : Canonical value (mid a b) b rChild) :
    Canonical value a b (join v a b lChild rChild) := by
  by_cases heq : Equal lChild rChild
  · rcases heq.eq_leafOf hl hr with ⟨o, rfl, rfl⟩
    rw [join_leafOf]
    exact .leaf o (lt_trans hl.wf.lt hr.wf.lt)
  · rw [join_of_not_equal heq]
    exact .split hl hr heq

/-- A leaf that is split has leaves for children. -/
theorem children_canonical {type : SegmentType}
    (h : Canonical value a b (node type v a b lChild rChild)) (hab : a + 2 ≤ b) :
    ∃ lc rc, children type v a b lChild rChild = some (lc, rc) ∧
      Canonical value a (mid a b) lc ∧ Canonical value (mid a b) b rc := by
  have hmid := mid_eq a b
  generalize ht : node type v a b lChild rChild = t at h
  cases h with
  | leaf o =>
    refine ⟨leafOf value a (mid a b) o, leafOf value (mid a b) b o, ?_, .leaf o (by omega),
      .leaf o (by omega)⟩
    cases o <;> cases ht <;> rfl
  | split hl hr =>
    cases ht
    exact ⟨_, _, rfl, hl, hr⟩

theorem setWithin_canonical (depth : Nat) (h : Canonical value a b t) (hl : a ≤ l) (hr : r ≤ b)
    (hset : setWithin depth t l r v = some t') : Canonical value a b t' := by
  induction depth generalizing a b l r t t' with
  | zero => cases hset
  | succ depth ih =>
    rcases h.wf.exists_node with ⟨type, w, lChild, rChild, rfl⟩
    rw [setWithin] at hset
    split_ifs at hset with hrl hv hwhole
    · cases hset
      exact h
    · cases hset
      exact h
    · cases hset
      exact .leaf (some v) h.wf.lt
    -- a single address is covered whole, so there are two of them
    rcases children_canonical h (by omega) with ⟨lc, rc, hchildren, hlc, hrc⟩
    simp only [hchildren, Option.bind_some] at hset
    rcases Option.bind_eq_some_iff.mp hset with ⟨lc', hlset, hset⟩
    rcases Option.bind_eq_some_iff.mp hset with ⟨rc', hrset, hset⟩
    have hlc' : Canonical value a (mid a b) lc' := by
      split_ifs at hlset
      · exact ih hlc hl (min_le_right _ _) hlset
      · cases hlset
        exact hlc
    have hrc' : Canonical value (mid a b) b rc' := by
      split_ifs at hrset
      · exact ih hrc (le_max_right _ _) hr hrset
      · cases hrset
        exact hrc
    cases hset
    exact join_canonical hlc' hrc'

theorem setCall_canonical (h : Canonical value 0 maxRange t) (c : SetCall α)
    (hset : setCall t c = some t') : Canonical value 0 maxRange t' :=
  setWithin_canonical 65 h (Nat.zero_le _) (Nat.le_sub_one_of_lt c.r.toNat_lt) hset

theorem setCalls_canonical (value : α) (calls : List (SetCall α)) :
    ∃ t, run setCall (newTree value) calls = some t ∧ Canonical value 0 maxRange t := by
  rcases setCalls_spec value calls with ⟨t, hrun, -, -⟩
  refine ⟨t, hrun, ?_⟩
  exact run_invariant (fun _ c _ h hset => setCall_canonical h c hset) (newTree_canonical value)
    hrun

/-! ## The shape is unique -/

omit [DecidableEq α] in
/-- A canonical tree that reads the same everywhere is a leaf. -/
theorem Canonical.eq_leafOf (h : Canonical value a b t)
    (hget : ∀ x, a ≤ x → x < b → t.get x = o) : t = leafOf value a b o := by
  induction h with
  | leaf o' hlt =>
    have ho := hget _ le_rfl hlt
    rw [get_leafOf] at ho
    rw [ho]
  | @split a b v lChild rChild hl hr hne ihl ihr =>
    have hlt := hl.wf.lt
    have hlt' := hr.wf.lt
    have hleft := ihl fun x h₁ h₂ => by
      have hx := hget x h₁ (by omega)
      rwa [get_split, if_pos h₂] at hx
    have hright := ihr fun x h₁ h₂ => by
      have hx := hget x (by omega) h₂
      rwa [get_split, if_neg (by omega)] at hx
    rw [hleft, hright] at hne
    exact absurd equal_leafOf hne

end

/-- The trees have the same nodes, up to the value of a split node, which nothing reads. -/
def SameShape : SegmentTree α → SegmentTree α → Prop
  | null, null => True
  | node type v left right lChild rChild, node type' v' left' right' lChild' rChild' =>
    type = type' ∧ left = left' ∧ right = right' ∧ (type ≠ .partialSegment → v = v') ∧
      SameShape lChild lChild' ∧ SameShape rChild rChild'
  | _, _ => False

section

variable {value v : α} {a b left right : Nat} {type : SegmentType}
  {t t' lChild rChild : SegmentTree α}

@[refl] theorem SameShape.refl (t : SegmentTree α) : SameShape t t := by
  induction t with
  | null => trivial
  | node type v left right lChild rChild ihl ihr =>
    exact ⟨rfl, rfl, rfl, fun _ => rfl, ihl, ihr⟩

theorem SameShape.get_eq (h : SameShape t t') (x : Nat) : t.get x = t'.get x := by
  induction t generalizing t' with
  | null =>
    cases t' with
    | null => rfl
    | node => exact h.elim
  | node type v left right lChild rChild ihl ihr =>
    cases t' with
    | null => exact h.elim
    | node type' v' left' right' lChild' rChild' =>
      rcases h with ⟨rfl, rfl, rfl, hv, hl, hr⟩
      cases type with
      | emptySegment => rfl
      | partialSegment => rw [get_split, get_split, ihl hl, ihr hr]
      | coveredSegment => exact congrArg some (hv (by decide))

/-- **The map determines the tree.** -/
theorem Canonical.sameShape (h : Canonical value a b t) (h' : Canonical value a b t')
    (hget : ∀ x, a ≤ x → x < b → t.get x = t'.get x) : SameShape t t' := by
  induction h generalizing t' with
  | @leaf a b o hlt =>
    have ht' : t' = leafOf value a b o :=
      h'.eq_leafOf fun x h₁ h₂ => by rw [← hget x h₁ h₂, get_leafOf]
    rw [ht']
  | @split a b v lChild rChild hl hr hne ihl ihr =>
    have hlt := hl.wf.lt
    have hlt' := hr.wf.lt
    cases h' with
    | leaf o =>
      -- a split tree does not read the same everywhere
      have ht := (Canonical.split (v := v) hl hr hne).eq_leafOf fun x h₁ h₂ => by
        rw [hget x h₁ h₂, get_leafOf]
      exact absurd ht.symm leafOf_ne_split
    | split hl' hr' hne' =>
      refine ⟨rfl, rfl, rfl, fun htype => absurd rfl htype, ihl hl' fun x h₁ h₂ => ?_,
        ihr hr' fun x h₁ h₂ => ?_⟩
      · have hx := hget x h₁ (by omega)
        rwa [get_split, get_split, if_pos h₂, if_pos h₂] at hx
      · have hx := hget x (by omega) h₂
        rwa [get_split, get_split, if_neg (by omega), if_neg (by omega)] at hx

/-! ## Every node -/

/-- The nodes of a tree, the root first. -/
def nodes : SegmentTree α → List (SegmentTree α)
  | null => []
  | node type v left right lChild rChild =>
    node type v left right lChild rChild :: (lChild.nodes ++ rChild.nodes)

/-- The tree is a node for `[left, right)`. -/
def HasRange (left right : Nat) : SegmentTree α → Prop
  | null => False
  | node _ _ left' right' _ _ => left' = left ∧ right' = right

/-- What holds of every node. -/
structure CanonicalNode (type : SegmentType) (left right : Nat) (lChild rChild : SegmentTree α) :
    Prop where
  lt : left < right
  partial_iff : type = .partialSegment ↔ lChild ≠ null ∧ rChild ≠ null
  alone : type ≠ .partialSegment → lChild = null ∧ rChild = null
  halves : type = .partialSegment → left < mid left right ∧ mid left right < right ∧
    lChild.HasRange left (mid left right) ∧ rChild.HasRange (mid left right) right
  differ : type = .partialSegment → ¬ Equal lChild rChild

theorem WF.hasRange (h : WF a b t) : t.HasRange a b := by
  rcases h.exists_node with ⟨type, v, lChild, rChild, rfl⟩
  exact ⟨rfl, rfl⟩

theorem WF.ne_null (h : WF a b t) : t ≠ null := by
  rcases h.exists_node with ⟨type, v, lChild, rChild, rfl⟩
  simp

theorem Canonical.node_of_mem (h : Canonical value a b t)
    (hnode : node type v left right lChild rChild ∈ t.nodes) :
    CanonicalNode type left right lChild rChild := by
  induction h with
  | leaf o hlt =>
    cases o <;> cases List.mem_singleton.mp hnode <;>
      exact ⟨hlt, by simp, fun _ => ⟨rfl, rfl⟩, nofun, nofun⟩
  | split hl hr hne ihl ihr =>
    rcases List.mem_cons.mp hnode with heq | hnode
    · cases heq
      exact {
        lt := lt_trans hl.wf.lt hr.wf.lt
        partial_iff := ⟨fun _ => ⟨hl.wf.ne_null, hr.wf.ne_null⟩, fun _ => rfl⟩
        alone := fun htype => absurd rfl htype
        halves := fun _ => ⟨hl.wf.lt, hr.wf.lt, hl.wf.hasRange, hr.wf.hasRange⟩
        differ := fun _ => hne }
    rcases List.mem_append.mp hnode with hnode | hnode
    · exact ihl hnode
    · exact ihr hnode

/-- **The shape of a tree is canonical.** After any calls of `Set` every node is as it should be,
and calls that define the same map end with the same shape and the same leaves. -/
theorem sets_canonical [DecidableEq α] (value : α) (calls calls' : List (SetCall α)) :
    ∃ t t', run setCall (newTree value) calls = some t ∧
      run setCall (newTree value) calls' = some t' ∧
      (∀ type v left right lChild rChild, node type v left right lChild rChild ∈ t.nodes →
        CanonicalNode type left right lChild rChild) ∧
      ((∀ x, x < maxRange → t.get? x = t'.get? x) ↔ SameShape t t') := by
  rcases setCalls_canonical value calls with ⟨t, hrun, h⟩
  rcases setCalls_canonical value calls' with ⟨t', hrun', h'⟩
  refine ⟨t, t', hrun, hrun', fun _ _ _ _ _ _ => h.node_of_mem, fun hget => ?_, fun hshape x _ => ?_⟩
  · refine h.sameShape h' fun x _ hx => ?_
    have heq := hget x hx
    rw [h.wf.get?_eq, h'.wf.get?_eq] at heq
    exact Option.some.inj heq
  · rw [h.wf.get?_eq, h'.wf.get?_eq, hshape.get_eq]

end

end SegmentTree

end Slimmer
