import Slimmer.Merge
import Slimmer.MemoryDependency
import Mathlib.Data.Finset.Lattice.Basic

/-!
# `GroupMemory`

`GroupMemory` (`tools/PrintBug/GroupMemory.cpp`) goes backward through the block trace and puts
addresses and pointer values into groups. The addresses of a group are kept twice: `Addr2Group` maps
an address to its group, and `Group2Addr` has a segment tree for each group. So are the values:
`Ins2Group` maps an instruction or an argument of a thread to its group, `Group2Ins` the other way.

`MergeInst` joins the groups of an instruction, its operands and the memory it accesses. In the first
block of a function it then hands the groups of the arguments over to the operands of the call.

`none` stands for an index out of range or a null pointer that is followed. Group numbers are
unbounded here.
-/

namespace Slimmer

/-- The variables of `GroupMemory`. A group without a tree has no key in `Group2Addr`, or a null
pointer. -/
structure GroupState where
  maxGroupID : Nat := 0
  addr2Group : SegmentTree Nat := .newTree 0
  group2Addr : Nat → Option (SegmentTree Int) := fun _ => none
  ins2Group : Nat × Nat → Option Nat := fun _ => none
  group2Ins : Nat → Finset (Nat × Nat) := fun _ => ∅
  labeledArgs : Nat → List Nat := fun _ => []

/-! ## Merging -/

/-- What the loop over the trees finds: a tree that is covered, or the children of those that are
split. -/
inductive TreeCase
  | covered (left right : Nat)
  | split (lChilds rChilds : List (SegmentTree Int))

/-- The loop over the trees. -/
def splitTrees : List (SegmentTree Int) → Option TreeCase
  | [] => some (.split [] [])
  | .null :: _ => none
  | .node .coveredSegment _ left right _ _ :: _ => some (.covered left right)
  | .node .emptySegment _ _ _ _ _ :: trees => splitTrees trees
  | .node .partialSegment _ _ _ lChild rChild :: trees =>
    (splitTrees trees).map fun
      | .covered left right => .covered left right
      | .split lChilds rChilds => .split (lChild :: lChilds) (rChild :: rChilds)

/-- `Merging` on trees, with the depth of the recursion bounded: the merged tree, and `Addr2Group`
with its addresses in `newGroup`. -/
def mergingTrees : Nat → List (SegmentTree Int) → Nat → SegmentTree Nat →
    Option (SegmentTree Int × SegmentTree Nat)
  | 0, _, _, _ => none
  | depth + 1, trees, newGroup, addr2Group =>
    (splitTrees trees).bind fun
      | .covered left right => (addr2Group.set left right newGroup).map fun addr2Group =>
        (.leaf .coveredSegment 1 left right, addr2Group)
      | .split lChilds rChilds =>
        match trees with
        | .node _ _ left right _ _ :: _ =>
          if lChilds.length = 0 then some (.leaf .emptySegment 0 left right, addr2Group)
          else
            (mergingTrees depth lChilds newGroup addr2Group).bind fun (lChild, addr2Group) =>
              (mergingTrees depth rChilds newGroup addr2Group).map fun (rChild, addr2Group) =>
                (.node .partialSegment (-1) left right lChild rChild, addr2Group)
        | _ => none

/-- Group `i` goes into `newGroup`. -/
def GroupState.absorb (newGroup : Nat) (s : GroupState) (i : Nat) : GroupState :=
  { s with
    group2Addr := Function.update s.group2Addr i none
    ins2Group := fun x => if x ∈ s.group2Ins i then some newGroup else s.ins2Group x
    group2Ins := Function.update
      (Function.update s.group2Ins newGroup (s.group2Ins newGroup ∪ s.group2Ins i)) i ∅ }

/-- `Merging` on groups, given in order. -/
def GroupState.merging (s : GroupState) : List Nat → Option (Nat × GroupState)
  | [] => some (s.maxGroupID + 1, { s with
      maxGroupID := s.maxGroupID + 1
      group2Addr := Function.update s.group2Addr (s.maxGroupID + 1) (some (.newTree 0)) })
  | [newGroup] => some (newGroup, s)
  | newGroup :: groups =>
    (mergingTrees 65 ((newGroup :: groups).filterMap s.group2Addr) newGroup s.addr2Group).map
      fun (tree, addr2Group) => (newGroup, groups.foldl (absorb newGroup) { s with
        addr2Group := addr2Group
        group2Addr := Function.update s.group2Addr newGroup (some tree) })

/-! ## `MergeInst` -/

/-- Erase the group of `x`. -/
def GroupState.unlabel (s : GroupState) (x : Nat × Nat) : GroupState :=
  match s.ins2Group x with
  | none => s
  | some g => { s with
      ins2Group := Function.update s.ins2Group x none
      group2Ins := Function.update s.group2Ins g ((s.group2Ins g).erase x) }

/-- The key of a pointer operand in `Ins2Group`. Those of arguments lie behind those of
instructions. -/
def operandKey (T : Tables) : DepType × Nat → Option (Option Nat)
  | (.inst, id) => (T.ins[id]?).map fun i => if i.isPointer then some id else none
  | (.pointerArg, k) => some (some (k + T.ins.length))
  | _ => some none

/-- The keys of the pointer operands. -/
def operandKeys (T : Tables) (deps : List (DepType × Nat)) : Option (List Nat) :=
  (deps.mapM (operandKey T)).map List.reduceOption

/-- An operand gets the label `g`; an argument becomes a labelled one. -/
def GroupState.label (T : Tables) (tid g : Nat) (s : GroupState) (key : Nat) : GroupState :=
  { s with
    labeledArgs := if T.ins.length ≤ key then
        Function.update s.labeledArgs tid (insertSorted key (s.labeledArgs tid))
      else s.labeledArgs
    ins2Group := Function.update s.ins2Group (tid, key) (some g)
    group2Ins := Function.update s.group2Ins g (insert (tid, key) (s.group2Ins g)) }

/-- Insert the group of `x`, if it has one. -/
def GroupState.addGroup (s : GroupState) (groups : List Nat) (x : Nat × Nat) : List Nat :=
  match s.ins2Group x with
  | none => groups
  | some g => insertSorted g groups

/-- The first part of `MergeInst`: the instruction, its operands and what is in `shouldMerge`. -/
def GroupState.mergeOperands (T : Tables) (s : GroupState) (shouldMerge : List Nat)
    (ins : Nat × Nat) (tid : Nat) : Option (Nat × GroupState) := do
  let i ← T.ins[ins.2]?
  let keys ← operandKeys T i.ssaDependencies
  let groups := keys.foldl (fun groups key => s.addGroup groups (tid, key))
    (s.addGroup shouldMerge ins)
  let (newGroup, s) ← s.merging groups
  some (newGroup, keys.foldl (label T tid newGroup) (s.unlabel ins))

/-- The argument with the key `i` is handed over to the operand of the call. -/
def GroupState.handOver (T : Tables) (b : SmallestBlock) (s : GroupState) (i : Nat) :
    Option GroupState :=
  match s.ins2Group (b.tid, i) with
  | none => some s
  | some argGroup => do
    let s := s.unlabel (b.tid, i)
    if b.isFirst = 1 ∧ b.caller ≠ noId then
      let caller ← T.ins[b.caller]?
      let usedArg ← caller.ssaDependencies[i - T.ins.length]?
      match ← operandKey T usedArg with
      | none => some s
      | some key =>
        match s.ins2Group (b.tid, key) with
        | none => some (s.label T b.tid argGroup key)
        | some g =>
          let (argGroup, s) ← s.merging (insertSorted g [argGroup])
          some (s.label T b.tid argGroup key)
    else some s

/-- The second part of `MergeInst`, for the first block of a function. -/
def GroupState.relabel (T : Tables) (b : SmallestBlock) (s : GroupState) : Option GroupState :=
  if b.isFirst = 1 ∨ b.isFirst = 2 then
    run (handOver T b) { s with labeledArgs := Function.update s.labeledArgs b.tid [] }
      (s.labeledArgs b.tid)
  else some s

/-- `MergeInst`. -/
def GroupState.mergeInst (T : Tables) (s : GroupState) (shouldMerge : List Nat) (ins : Nat × Nat)
    (b : SmallestBlock) : Option (Nat × GroupState) :=
  (s.mergeOperands T shouldMerge ins b.tid).bind fun (newGroup, s) =>
    (s.relabel T b).map fun s => (newGroup, s)

/-! ## The loop over the blocks -/

/-- `Collect`: the first and the last segment are cut to the query. -/
def collectSegments (l r : Nat) (addr2Group : SegmentTree Nat) : Option (List (Segment Nat)) :=
  (addr2Group.collect l r).bind fun segments =>
    if segments.length = 0 then none
    else some ((segments.modifyHead fun s => { s with left := l }).modifyLast fun s =>
      { s with right := r })

/-- The groups found in the segments. -/
def segmentGroups (segments : List (Segment Nat)) : List Nat :=
  segments.foldl (fun groups i => if i.type = .emptySegment then groups
    else insertSorted i.value groups) []

/-- The ranges that have no group. -/
def segmentRanges (segments : List (Segment Nat)) : List (Nat × Nat) :=
  (segments.filter fun i => i.type = .emptySegment).map fun i => (i.left, i.right)

/-- A range gets the group `g`. -/
def GroupState.fill (g : Nat) (s : GroupState) (range : Nat × Nat) : Option GroupState := do
  let tree ← s.group2Addr g
  let tree ← tree.set range.1 range.2 1
  let addr2Group ← s.addr2Group.set range.1 range.2 g
  some { s with
    addr2Group := addr2Group
    group2Addr := Function.update s.group2Addr g (some tree) }

/-- The segments a block looks at. -/
def GroupState.blockSegments (s : GroupState) (b : SmallestBlock) : Option (List (Segment Nat)) := do
  let segments ← collectSegments (← b.addr[0]?) (← b.addr[1]?) s.addr2Group
  if b.type = .memmoveBlock then
    let segments' ← collectSegments (← b.addr[2]?) (← b.addr[3]?) s.addr2Group
    some (segments ++ segments')
  else some segments

/-- A memory access, a memset or a memmove. -/
def GroupState.accessBlock (T : Tables) (s : GroupState) (b : SmallestBlock) :
    Option GroupState := do
  let l ← b.addr[0]?
  let r ← b.addr[1]?
  if r ≤ l then some s
  else
    let insID ← b.insID? T
    let segments ← s.blockSegments b
    let (newGroup, s) ← s.mergeInst T (segmentGroups segments) (b.tid, insID) b
    run (fill newGroup) s (segmentRanges segments)

/-- A declaration. -/
def GroupState.declareBlock (s : GroupState) (b : SmallestBlock) : Option GroupState := do
  let segments ← s.blockSegments b
  let (newGroup, s) ← s.merging (segmentGroups segments)
  run (fill newGroup) s (segmentRanges segments)

/-- A pointer argument of an external call: an address that was not accessed gets a group. -/
def GroupState.passPointer (s : GroupState) (addr : Nat) : Option GroupState :=
  match s.addr2Group.get addr with
  | some _ => some s
  | none => (s.merging []).bind fun (newGroup, s) => s.fill newGroup (addr, (addr + 1) % 2 ^ 64)

/-- An instruction of a `NormalBlock`. -/
def GroupState.normalInst (T : Tables) (b : SmallestBlock) (s : GroupState) (id : Nat) :
    Option GroupState := do
  let i ← T.ins[id]?
  if i.isPointer = false ∨ i.type = .callInst then some s
  else (s.mergeInst T [] (b.tid, id) b).map Prod.snd

/-- One turn of the loop. -/
def groupStep (T : Tables) (s : GroupState) (b : SmallestBlock) : Option GroupState :=
  match b.type with
  | .memoryAccessBlock | .memsetBlock | .memmoveBlock => s.accessBlock T b
  | .declareBlock => s.declareBlock b
  | .externalCallBlock | .impactfulCallBlock => run GroupState.passPointer s b.addr.tail
  | .normalBlock => (b.insIDs? T).bind fun ids => run (GroupState.normalInst T b) s ids.reverse

/-- `GroupMemory`. -/
def groupMemory (T : Tables) (trace : List SmallestBlock) : Option GroupState :=
  run (groupStep T) {} trace.reverse

/-! ## Merging trees -/

section

variable {a b : Nat} {trees : List (SegmentTree Int)}

/-- Some tree has the address. -/
def AnyHas (trees : List (SegmentTree Int)) (x : Nat) : Prop := ∃ t ∈ trees, (t.get x).isSome

theorem anyHas_cons {t : SegmentTree Int} {x : Nat} :
    AnyHas (t :: trees) x ↔ (t.get x).isSome ∨ AnyHas trees x := by
  simp [AnyHas]

/-- The loop finds a covered tree, or it splits the trees in the middle. -/
theorem splitTrees_spec (h : ∀ t ∈ trees, t.WF a b) :
    (splitTrees trees = some (.covered a b) ∧ ∀ x, AnyHas trees x) ∨
      ∃ lChilds rChilds, splitTrees trees = some (.split lChilds rChilds) ∧
        (∀ t ∈ lChilds, t.WF a (mid a b)) ∧ (∀ t ∈ rChilds, t.WF (mid a b) b) ∧
          lChilds.length = rChilds.length ∧
            ∀ x, AnyHas trees x ↔ if x < mid a b then AnyHas lChilds x else AnyHas rChilds x := by
  induction trees with
  | nil => exact Or.inr ⟨[], [], rfl, by simp, by simp, rfl, fun x => by simp [AnyHas]⟩
  | cons t trees ih =>
    have ih := ih fun t ht => h t (List.mem_cons_of_mem _ ht)
    have hwf := h t List.mem_cons_self
    cases hwf with
    | @leaf _ _ type value htype hlt =>
      cases type with
      | partialSegment => exact absurd rfl htype
      | coveredSegment => exact Or.inl ⟨rfl, fun x => anyHas_cons.mpr (Or.inl rfl)⟩
      | emptySegment =>
        have hget : ∀ x, AnyHas (.leaf .emptySegment value a b :: trees) x ↔ AnyHas trees x := by
          intro x
          rw [anyHas_cons]
          exact or_iff_right (by simp [SegmentTree.leaf, SegmentTree.get])
        rcases ih with ⟨hsplit, hall⟩ | ⟨ls, rs, hsplit, hls, hrs, hlen, hall⟩
        · exact Or.inl ⟨hsplit, fun x => (hget x).mpr (hall x)⟩
        · exact Or.inr ⟨ls, rs, hsplit, hls, hrs, hlen, fun x => (hget x).trans (hall x)⟩
    | @split _ _ value lChild rChild hl hr =>
      rcases ih with ⟨hsplit, hall⟩ | ⟨ls, rs, hsplit, hls, hrs, hlen, hall⟩
      · refine Or.inl ⟨?_, fun x => anyHas_cons.mpr (Or.inr (hall x))⟩
        simp [splitTrees, hsplit]
      · refine Or.inr ⟨lChild :: ls, rChild :: rs, ?_, ?_, ?_, by simp [hlen], fun x => ?_⟩
        · simp [splitTrees, hsplit]
        · exact List.forall_mem_cons.mpr ⟨hl, hls⟩
        · exact List.forall_mem_cons.mpr ⟨hr, hrs⟩
        · rw [anyHas_cons, hall x, SegmentTree.get_split]
          split_ifs
          · rw [anyHas_cons]
          · rw [anyHas_cons]

/-- What merging the trees of the range `[a, b)` gives. -/
structure Merged (a b g : Nat) (trees : List (SegmentTree Int)) (addr2Group : SegmentTree Nat)
    (r : SegmentTree Int × SegmentTree Nat) : Prop where
  tree_wf : r.1.WF a b
  addr_wf : r.2.WF 0 maxRange
  tree : ∀ x, a ≤ x → x < b → ((r.1.get x).isSome ↔ AnyHas trees x)
  inside : ∀ x, a ≤ x → x < b → AnyHas trees x → r.2.get x = some g
  outside : ∀ x, x < maxRange → ¬ (a ≤ x ∧ x < b ∧ AnyHas trees x) →
    r.2.get x = addr2Group.get x

/-- One level, when the children can be merged. -/
theorem mergingTrees_level {g depth : Nat} {addr2Group : SegmentTree Nat}
    (h : ∀ t ∈ trees, t.WF a b) (hne : trees ≠ []) (hb : b ≤ maxRange)
    (haddr : addr2Group.WF 0 maxRange)
    (hrec : ∀ {a' b' : Nat} {trees' : List (SegmentTree Int)} {addr : SegmentTree Nat},
      (∀ t ∈ trees', t.WF a' b') → trees' ≠ [] → b' ≤ b → 2 * (b' - a') ≤ b - a + 1 →
        2 ≤ b - a → addr.WF 0 maxRange →
          ∃ r, mergingTrees depth trees' g addr = some r ∧ Merged a' b' g trees' addr r) :
    ∃ r, mergingTrees (depth + 1) trees g addr2Group = some r ∧
      Merged a b g trees addr2Group r := by
  rcases List.exists_cons_of_ne_nil hne with ⟨t, ts, rfl⟩
  have hlt := (h t List.mem_cons_self).lt
  rcases splitTrees_spec h with ⟨hsplit, hall⟩ | ⟨ls, rs, hsplit, hls, hrs, hlen, hall⟩
  · -- one tree is covered
    rcases SegmentTree.set_spec (v := g) haddr hlt hb with ⟨addr, hset, hwf, hget⟩
    refine ⟨(.leaf .coveredSegment 1 a b, addr), ?_, .leaf (by decide) hlt, hwf, ?_, ?_, ?_⟩
    · simp [mergingTrees, hsplit, hset]
    · exact fun x _ _ => ⟨fun _ => hall x, fun _ => rfl⟩
    · intro x hax hxb _
      show addr.get x = some g
      rw [hget x (by omega), if_pos ⟨hax, hxb⟩]
    · intro x hx hnot
      show addr.get x = _
      rw [hget x hx, if_neg fun hc => hnot ⟨hc.1, hc.2, hall x⟩]
  · rcases (h t List.mem_cons_self).exists_node with ⟨type, value, lc, rc, rfl⟩
    by_cases hnil : ls = []
    · -- all of them are empty
      have hrnil : rs = [] := by
        rw [hnil] at hlen
        exact List.length_eq_zero_iff.mp hlen.symm
      have hnone : ∀ x, ¬ AnyHas (.node type value a b lc rc :: ts) x := by
        intro x
        rw [hall x, hnil, hrnil]
        simp [AnyHas]
      refine ⟨(.leaf .emptySegment 0 a b, addr2Group), ?_, .leaf (by decide) hlt, haddr, ?_, ?_, ?_⟩
      · simp [mergingTrees, hsplit, hnil]
      · intro x _ _
        simp [hnone x, SegmentTree.leaf, SegmentTree.get]
      · exact fun x _ _ hany => absurd hany (hnone x)
      · exact fun x _ _ => rfl
    · have hrnil : rs ≠ [] := by
        intro hrnil
        rw [hrnil] at hlen
        exact hnil (List.length_eq_zero_iff.mp hlen)
      rcases List.exists_mem_of_ne_nil _ hnil with ⟨l, hl⟩
      have hal := (hls l hl).lt
      have hmid := mid_eq a b
      rcases hrec hls hnil (by omega) (by omega) (by omega) haddr with ⟨⟨lt, addr₁⟩, hleft, hL⟩
      rcases hrec hrs hrnil le_rfl (by omega) (by omega) hL.addr_wf with ⟨⟨rt, addr₂⟩, hright, hR⟩
      have hpos : ls.length ≠ 0 := fun hz => hnil (List.length_eq_zero_iff.mp hz)
      refine ⟨(.node .partialSegment (-1) a b lt rt, addr₂), ?_, .split hL.tree_wf hR.tree_wf,
        hR.addr_wf, ?_, ?_, ?_⟩
      · simp only [mergingTrees, hsplit, Option.bind_some, if_neg hpos, hleft, hright,
          Option.map_some]
      · intro x hax hxb
        show ((SegmentTree.node .partialSegment (-1) a b lt rt).get x).isSome ↔ _
        rw [SegmentTree.get_split, hall x]
        split_ifs with hx
        · exact hL.tree x hax hx
        · exact hR.tree x (by omega) hxb
      · intro x hax hxb hany
        show addr₂.get x = some g
        rw [hall x] at hany
        split_ifs at hany with hx
        · rw [hR.outside x (by omega) (by omega)]
          exact hL.inside x hax hx hany
        · exact hR.inside x (by omega) hxb hany
      · intro x hx hnot
        show addr₂.get x = addr2Group.get x
        rw [hall x] at hnot
        rw [hR.outside x hx fun hc => hnot ⟨by omega, hc.2.1, by rw [if_neg (by omega)]; exact hc.2.2⟩]
        exact hL.outside x hx fun hc => hnot ⟨hc.1, by omega, by rw [if_pos hc.2.1]; exact hc.2.2⟩

/-- **Merging trees**: the merged tree has the addresses of all of them, and these get the new
group. -/
theorem mergingTrees_spec {g : Nat} (depth : Nat) {addr2Group : SegmentTree Nat}
    (h : ∀ t ∈ trees, t.WF a b) (hne : trees ≠ []) (hdepth : b - a ≤ 2 ^ depth)
    (hb : b ≤ maxRange) (haddr : addr2Group.WF 0 maxRange) :
    ∃ r, mergingTrees (depth + 1) trees g addr2Group = some r ∧
      Merged a b g trees addr2Group r := by
  induction depth generalizing a b trees addr2Group with
  | zero => exact mergingTrees_level h hne hb haddr fun _ _ _ _ htwo _ => by omega
  | succ depth ih =>
    have hpow : 2 ^ (depth + 1) = 2 * 2 ^ depth := by
      rw [Nat.pow_succ]
      omega
    exact mergingTrees_level h hne hb haddr fun htrees hne' hb' hhalf _ haddr' =>
      ih htrees hne' (by omega) (hb'.trans hb) haddr'

end

end Slimmer
