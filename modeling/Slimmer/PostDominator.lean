import Mathlib.Algebra.Order.BigOperators.Group.Finset
import Slimmer.Lib.Graph
import Slimmer.Merge

/-!
# `PreparePostDominator`

`PreparePostDominator` (`tools/PrintBug/PrintBug.cpp`) reads the edges of the graph of basic blocks
and starts with the blocks that can be reached from each block. Round after round it keeps of a
block's set what all its successors have, until no set changes its size.

The variable `res` lives through a whole round. A block without successors takes over what `res`
holds, the set of the nearest block with successors that is numbered below it (`Below`), and hands it
on to its predecessors.

**Theorem (`rounds_end`).** The rounds end on every graph, although the set of a block without
successors can grow from one round to the next.
-/

namespace Slimmer

/-! ## The function -/

/-- The map `successor`: its keys in order, and its values. -/
structure Successor where
  keys : List Nat := []
  next : Nat → List Nat := fun _ => []

/-- `successor[a].push_back(b)` for every edge. -/
def readBBGraph (edges : List (Nat × Nat)) : Successor :=
  edges.foldl (fun s e =>
    ⟨insertSorted e.1 s.keys, Function.update s.next e.1 (s.next e.1 ++ [e.2])⟩) {}

/-- `DFSOnBBGraph`. -/
def dfsOnBBGraph (next : Nat → List Nat) (fuel bbID : Nat) (mark : List Nat) : Option (List Nat) :=
  dfs next fuel bbID mark

/-- `SetIntersection`. -/
def setIntersection (a b : Finset Nat) : Finset Nat := a.filter fun i => i ∈ b

/-- The first loop, from the key `k` on. A search makes a key of every block it marks, and the loop
comes to those that lie ahead. -/
def reachLoop (next : Nat → List Nat) :
    Nat → Nat → List Nat → (Nat → Finset Nat) → Option (List Nat × (Nat → Finset Nat))
  | 0, _, _, _ => none
  | fuel + 1, k, keys, postDominator =>
    match keys.find? (k ≤ ·) with
    | none => some (keys, postDominator)
    | some i =>
      -- `post_dominator[i.first]` has just been made and is empty
      (dfsOnBBGraph next fuel i []).bind fun mark =>
        reachLoop next fuel (i + 1) (mark.foldl (fun keys bb => insertSorted bb keys) keys)
          (Function.update postDominator i mark.toFinset)

/-- The variables of a round. -/
structure RoundState where
  postDominator : Nat → Finset Nat
  res : Finset Nat := ∅
  changed : Bool := false

/-- One turn of a round. -/
def RoundState.turn (next : Nat → List Nat) (s : RoundState) (i : Nat) : RoundState :=
  let res := if 0 < (next i).length then s.postDominator i else s.res
  let res := (next i).foldl (fun res j => setIntersection res (insert j (s.postDominator j))) res
  if res.card ≠ (s.postDominator i).card then
    ⟨Function.update s.postDominator i res, res, true⟩
  else { s with res := res }

/-- A round. -/
def round (next : Nat → List Nat) (keys : List Nat) (postDominator : Nat → Finset Nat) :
    RoundState :=
  keys.foldl (RoundState.turn next) { postDominator := postDominator }

/-- Rounds until nothing changes. -/
def fixpointLoop (next : Nat → List Nat) (keys : List Nat) :
    Nat → (Nat → Finset Nat) → Option (Nat → Finset Nat)
  | 0, _ => none
  | fuel + 1, postDominator =>
    let s := round next keys postDominator
    if s.changed then fixpointLoop next keys fuel s.postDominator else some s.postDominator

/-- `PreparePostDominator` on the edges it reads; `none` when a loop or a search has not ended within
`fuel` turns. -/
def preparePostDominator (fuel : Nat) (edges : List (Nat × Nat)) : Option (Nat → Finset Nat) :=
  (reachLoop (readBBGraph edges).next fuel 0 (readBBGraph edges).keys fun _ => ∅).bind fun r =>
    fixpointLoop (readBBGraph edges).next r.1 fuel r.2

/-- The edges as a relation. -/
def BBEdge (edges : List (Nat × Nat)) (i j : Nat) : Prop := (i, j) ∈ edges

/-- `p` is the nearest block with successors that is numbered below `e`. -/
def Below (E : Nat → Nat → Prop) (p e : Nat) : Prop :=
  p < e ∧ ¬ IsEnd E p ∧ ∀ q, q < e → ¬ IsEnd E q → q ≤ p

section

variable {next : Nat → List Nat} {keys : List Nat} {pd pd₀ pd' : Nat → Finset Nat} {fuel i e p : Nat}

/-- `successor` as a relation. -/
def NextOf (next : Nat → List Nat) (i j : Nat) : Prop := j ∈ next i

theorem isEnd_next : IsEnd (NextOf next) e ↔ next e = [] := List.eq_nil_iff_forall_not_mem.symm

/-! ## Reading the graph -/

theorem readBBGraph_concat (edges : List (Nat × Nat)) (e : Nat × Nat) :
    readBBGraph (edges ++ [e]) = ⟨insertSorted e.1 (readBBGraph edges).keys,
      Function.update (readBBGraph edges).next e.1 ((readBBGraph edges).next e.1 ++ [e.2])⟩ := by
  simp [readBBGraph]

theorem mem_readBBGraph {edges : List (Nat × Nat)} {a b : Nat} :
    b ∈ (readBBGraph edges).next a ↔ BBEdge edges a b := by
  induction edges using List.reverseRecOn with
  | nil => simp [readBBGraph, BBEdge]
  | append_singleton edges e ih =>
    rw [readBBGraph_concat]
    unfold BBEdge at ih ⊢
    by_cases ha : a = e.1
    · subst ha
      simp [ih, Prod.ext_iff]
    · simp [ha, ih, Prod.ext_iff]

theorem nextOf_readBBGraph (edges : List (Nat × Nat)) :
    NextOf (readBBGraph edges).next = BBEdge edges := by
  funext a b
  exact propext mem_readBBGraph

theorem readBBGraph_keys (edges : List (Nat × Nat)) :
    (readBBGraph edges).keys.Pairwise (· < ·) ∧
      ∀ a, a ∈ (readBBGraph edges).keys ↔ (readBBGraph edges).next a ≠ [] := by
  induction edges using List.reverseRecOn with
  | nil => exact ⟨List.Pairwise.nil, fun a => by simp [readBBGraph]⟩
  | append_singleton edges e ih =>
    rw [readBBGraph_concat]
    refine ⟨insertSorted_pairwise ih.1, fun a => ?_⟩
    rw [mem_insertSorted, ih.2 a]
    by_cases ha : a = e.1
    · subst ha
      simp
    · simp [ha]

/-! ## The first loop -/

/-- What the first loop leaves: every block is a key, the set of a block with successors is what can
be reached from it, and a block without successors has itself when it can be reached from below, and
nothing otherwise. -/
structure Reached (next : Nat → List Nat) (keys : List Nat) (pd : Nat → Finset Nat) : Prop where
  sorted : keys.Pairwise (· < ·)
  nonends : ∀ i, next i ≠ [] → i ∈ keys
  succs : ∀ i, ∀ j ∈ next i, j ∈ keys
  reach : ∀ i, next i ≠ [] → ∀ b, b ∈ pd i ↔ Relation.ReflTransGen (NextOf next) i b
  ends : ∀ e, next e = [] → pd e ⊆ {e}
  entered : ∀ e, next e = [] → (e ∈ pd e ↔ ∃ q < e, Relation.ReflTransGen (NextOf next) q e)

/-- The invariant of the first loop at the key `k`. -/
structure ReachInv (next : Nat → List Nat) (k : Nat) (keys : List Nat) (pd : Nat → Finset Nat) :
    Prop where
  sorted : keys.Pairwise (· < ·)
  nonends : ∀ i, next i ≠ [] → i ∈ keys
  visited : ∀ i, next i ≠ [] → i < k → ∀ b, (b ∈ pd i ↔ Relation.ReflTransGen (NextOf next) i b) ∧
    (Relation.ReflTransGen (NextOf next) i b → b ∈ keys)
  ends : ∀ e, next e = [] → pd e ⊆ {e}
  origin : ∀ x ∈ keys, next x ≠ [] ∨ ∃ q < k, next q ≠ [] ∧ Relation.ReflTransGen (NextOf next) q x
  fresh : ∀ e, next e = [] → e ∈ pd e → ∃ q < e, Relation.ReflTransGen (NextOf next) q e
  passed : ∀ e, next e = [] → e < k → (∃ q < e, Relation.ReflTransGen (NextOf next) q e) → e ∈ pd e

/-- A block without successors that can be reached from below is a key when the loop comes to it. -/
theorem ReachInv.mem_keys {k : Nat} (h : ReachInv next k keys pd) (hend : next e = [])
    (hlow : ∀ i ∈ keys, i < e → i < k) (hentered : ∃ q < e, Relation.ReflTransGen (NextOf next) q e) :
    e ∈ keys := by
  rcases hentered with ⟨q, hq, hreach⟩
  have hqnext : next q ≠ [] := by
    intro hnil
    rcases Relation.ReflTransGen.cases_head hreach with rfl | ⟨j, hj, -⟩
    · exact lt_irrefl _ hq
    · exact isEnd_next.mpr hnil j hj
  exact (h.visited q hqnext (hlow q (h.nonends q hqnext) hq) e).2 hreach

theorem ReachInv.step {k n : Nat} {mark : List Nat} (h : ReachInv next k keys pd)
    (hfind : keys.find? (k ≤ ·) = some i) (hmark : dfsOnBBGraph next n i [] = some mark) :
    ReachInv next (i + 1) (mark.foldl (fun keys bb => insertSorted bb keys) keys)
      (Function.update pd i mark.toFinset) := by
  rcases find_least h.sorted hfind with ⟨hi, hki, hleast⟩
  have hmem : ∀ b, b ∈ mark ↔ Relation.ReflTransGen (NextOf next) i b := fun b => mem_dfs hmark
  -- from a block without successors only the block itself can be reached
  have hself : next i = [] → ∀ b ∈ mark, b = i := by
    intro hnil b hb
    rcases Relation.ReflTransGen.cases_head ((hmem b).mp hb) with rfl | ⟨j, hj, -⟩
    · rfl
    · exact absurd hj (isEnd_next.mpr hnil j)
  constructor
  · exact foldl_insertSorted_pairwise h.sorted
  · exact fun a ha => mem_foldl_insertSorted.mpr (Or.inr (h.nonends a ha))
  · intro a ha hlt b
    by_cases hai : a = i
    · subst hai
      rw [Function.update_self, List.mem_toFinset]
      exact ⟨hmem b, fun hb => mem_foldl_insertSorted.mpr (Or.inl ((hmem b).mpr hb))⟩
    · have hak : a < k := by
        by_contra hge
        have := hleast a (h.nonends a ha) (by omega)
        omega
      rw [Function.update_of_ne hai]
      have hvisited := h.visited a ha hak b
      exact ⟨hvisited.1, fun hb => mem_foldl_insertSorted.mpr (Or.inr (hvisited.2 hb))⟩
  · intro e he
    by_cases hei : e = i
    · subst hei
      rw [Function.update_self]
      intro b hb
      exact Finset.mem_singleton.mpr (hself he b (List.mem_toFinset.mp hb))
    · rw [Function.update_of_ne hei]
      exact h.ends e he
  · intro x hx
    rcases mem_foldl_insertSorted.mp hx with hx | hx
    · by_cases hnil : next i = []
      · rw [hself hnil x hx]
        rcases h.origin i hi with hne | ⟨q, hq, hqnext, hreach⟩
        · exact absurd hnil hne
        · exact Or.inr ⟨q, by omega, hqnext, hreach⟩
      · exact Or.inr ⟨i, Nat.lt_succ_self i, hnil, (hmem x).mp hx⟩
    · rcases h.origin x hx with hne | ⟨q, hq, hrest⟩
      · exact Or.inl hne
      · exact Or.inr ⟨q, by omega, hrest⟩
  · intro e he hmem
    by_cases hei : e = i
    · subst hei
      rcases h.origin e hi with hnext | ⟨q, hq, -, hreach⟩
      · exact absurd he hnext
      · exact ⟨q, by omega, hreach⟩
    · rw [Function.update_of_ne hei] at hmem
      exact h.fresh e he hmem
  · intro e he hlt hentered
    by_cases hei : e = i
    · subst hei
      rw [Function.update_self, List.mem_toFinset]
      exact (hmem e).mpr .refl
    · rw [Function.update_of_ne hei]
      by_cases hek : e < k
      · exact h.passed e he hek hentered
      · -- the loop passes over no key
        have hkey := h.mem_keys he (fun a ha hae => by
          by_contra hka
          have := hleast a ha (by omega)
          omega) hentered
        have := hleast e hkey (by omega)
        omega

theorem reachLoop_reached {k : Nat} (h : ReachInv next k keys pd) {keys' : List Nat}
    (hloop : reachLoop next fuel k keys pd = some (keys', pd')) : Reached next keys' pd' := by
  induction fuel generalizing k keys pd with
  | zero => cases hloop
  | succ fuel ih =>
    simp only [reachLoop] at hloop
    split at hloop
    · rename_i hfind
      rcases Prod.mk.inj (Option.some.inj hloop) with ⟨rfl, rfl⟩
      have hlt := List.find?_eq_none.mp hfind
      simp only [decide_eq_true_eq, not_le] at hlt
      refine ⟨h.sorted, h.nonends, fun a j hj => ?_, fun a ha b => ?_, h.ends, fun e he =>
        ⟨h.fresh e he, fun hentered => ?_⟩⟩
      · have ha : next a ≠ [] := List.ne_nil_of_mem hj
        exact (h.visited a ha (hlt a (h.nonends a ha)) j).2 (.single hj)
      · exact (h.visited a ha (hlt a (h.nonends a ha)) b).1
      · exact h.passed e he (hlt e (h.mem_keys he (fun a ha _ => hlt a ha) hentered)) hentered
    · rename_i i hfind
      rcases Option.bind_eq_some_iff.mp hloop with ⟨mark, hmark, hloop⟩
      exact ih (h.step hfind hmark) hloop

/-- The first loop ends when it may take twice as many turns as there are blocks. -/
theorem reachLoop_isSome (pd : Nat → Finset Nat) {k : Nat} {U : Finset Nat}
    (hU : ∀ a ∈ U, ∀ b ∈ next a, b ∈ U)
    (hsorted : keys.Pairwise (· < ·)) (hkeys : ∀ a ∈ keys, a ∈ U)
    (hfuel : U.card + (U.filter (k ≤ ·)).card < fuel) :
    ∃ r, reachLoop next fuel k keys pd = some r := by
  induction fuel generalizing k keys pd with
  | zero => omega
  | succ fuel ih =>
    simp only [reachLoop]
    split
    · exact ⟨_, rfl⟩
    · rename_i i hfind
      rcases find_least hsorted hfind with ⟨hi, hki, -⟩
      have hiU : i ∈ U.filter (k ≤ ·) := Finset.mem_filter.mpr ⟨hkeys i hi, hki⟩
      have hpos := Finset.card_pos.mpr ⟨i, hiU⟩
      have hlt : (U.filter (i + 1 ≤ ·)).card < (U.filter (k ≤ ·)).card := by
        apply Finset.card_lt_card
        refine ⟨fun x hx => ?_, fun hsub => ?_⟩
        · rcases Finset.mem_filter.mp hx with ⟨hxU, hix⟩
          exact Finset.mem_filter.mpr ⟨hxU, by omega⟩
        · have := (Finset.mem_filter.mp (hsub hiU)).2
          omega
      have hsub : (U \ ([] : List Nat).toFinset).card ≤ fuel :=
        (Finset.card_le_card Finset.sdiff_subset).trans (by omega)
      rcases dfs_isSome hU (hkeys i hi) (by simp) hsub with ⟨mark, hmark⟩
      have hmem : ∀ b ∈ mark, b ∈ U := by
        intro b hb
        have hreach := (mem_dfs hmark).mp hb
        clear hb
        induction hreach with
        | refl => exact hkeys i hi
        | tail _ hedge ih => exact hU _ ih _ hedge
      have hkeys' : ∀ a ∈ mark.foldl (fun keys bb => insertSorted bb keys) keys, a ∈ U := by
        intro a ha
        rcases mem_foldl_insertSorted.mp ha with ha | ha
        · exact hmem a ha
        · exact hkeys a ha
      have hfuel' : U.card + (U.filter (i + 1 ≤ ·)).card < fuel := by omega
      rcases ih (Function.update pd i mark.toFinset) (foldl_insertSorted_pairwise hsorted) hkeys'
        hfuel' with ⟨r, hr⟩
      exact ⟨r, Option.bind_eq_some_iff.mpr ⟨mark, hmark, hr⟩⟩

/-! ## A turn -/

theorem mem_foldl_setIntersection {l : List Nat} {res : Finset Nat} {b : Nat} :
    b ∈ l.foldl (fun res j => setIntersection res (insert j (pd j))) res ↔
      b ∈ res ∧ ∀ j ∈ l, b ∈ insert j (pd j) := by
  induction l generalizing res with
  | nil => simp
  | cons j l ih =>
    rw [List.foldl_cons, ih, setIntersection, Finset.mem_filter, List.forall_mem_cons, and_assoc]

variable {s : RoundState}

/-- The turn of a block with successors keeps what all of them have. -/
theorem turn_next (h : next i ≠ []) : ∃ kept,
    (∀ b, b ∈ kept ↔ b ∈ s.postDominator i ∧ ∀ j ∈ next i, b ∈ insert j (s.postDominator j)) ∧
      (s.turn next i).postDominator = Function.update s.postDominator i kept ∧
        (s.turn next i).res = kept ∧
          ((s.changed = true ∨ kept ≠ s.postDominator i) ↔ (s.turn next i).changed = true) := by
  have hmem : ∀ b, b ∈ (next i).foldl (fun res j => setIntersection res (insert j
      (s.postDominator j))) (s.postDominator i) ↔
        b ∈ s.postDominator i ∧ ∀ j ∈ next i, b ∈ insert j (s.postDominator j) :=
    fun _ => mem_foldl_setIntersection
  refine ⟨_, hmem, ?_⟩
  generalize hkept : (next i).foldl (fun res j => setIntersection res (insert j (s.postDominator j)))
    (s.postDominator i) = kept
  have hsub : kept ⊆ s.postDominator i := by
    intro b hb
    rw [← hkept] at hb
    exact ((hmem b).mp hb).1
  have hturn : s.turn next i = if kept.card ≠ (s.postDominator i).card then
      ⟨Function.update s.postDominator i kept, kept, true⟩ else { s with res := kept } := by
    simp only [RoundState.turn, if_pos (List.length_pos_iff.mpr h), hkept]
  rw [hturn]
  by_cases hcard : kept.card = (s.postDominator i).card
  · have heq := Finset.eq_of_subset_of_card_le hsub hcard.ge
    rw [if_neg (not_not.mpr hcard)]
    refine ⟨?_, rfl, ?_⟩
    · rw [heq, Function.update_eq_self]
    · simp [heq]
  · rw [if_pos hcard]
    refine ⟨rfl, rfl, ?_⟩
    have hne : kept ≠ s.postDominator i := fun heq => hcard (by rw [heq])
    simp [hne]

/-- The turn of a block without successors takes over `res`. -/
theorem turn_end (h : next i = []) :
    (s.res.card = (s.postDominator i).card ∧ s.turn next i = s) ∨
      (s.res.card ≠ (s.postDominator i).card ∧
        s.turn next i = ⟨Function.update s.postDominator i s.res, s.res, true⟩) := by
  unfold RoundState.turn
  rw [h]
  by_cases hcard : s.res.card = (s.postDominator i).card
  · left
    refine ⟨hcard, ?_⟩
    simp [hcard]
  · right
    refine ⟨hcard, ?_⟩
    simp [hcard]

theorem turn_of_ne {k : Nat} (h : k ≠ i) :
    (s.turn next i).postDominator k = s.postDominator k := by
  by_cases hi : next i = []
  · rcases turn_end (s := s) hi with ⟨-, heq⟩ | ⟨-, heq⟩
    · rw [heq]
    · rw [heq]
      exact Function.update_of_ne h _ _
  · rcases turn_next (s := s) hi with ⟨kept, -, hpd, -⟩
    rw [hpd, Function.update_of_ne h]

/-! ## A round -/

/-- The round has come to the blocks `pre`, in the order of the keys. -/
structure Rounding (next : Nat → List Nat) (keys : List Nat) (pre : List Nat) (i : Nat) : Prop where
  lt : ∀ q ∈ pre, q < i
  mem : ∀ q ∈ keys, q < i → q ∈ pre
  key : i ∈ keys

/-- **The rule for a round.** -/
theorem round_induction (hsorted : keys.Pairwise (· < ·)) {P : List Nat → RoundState → Prop}
    (h : P [] { postDominator := pd })
    (hstep : ∀ pre i s, Rounding next keys pre i → P pre s → P (pre ++ [i]) (s.turn next i)) :
    P keys (round next keys pd) := by
  have hpre : ∀ pre, (∃ post, keys = pre ++ post) →
      P pre (pre.foldl (RoundState.turn next) { postDominator := pd }) := by
    intro pre
    induction pre using List.reverseRecOn with
    | nil => exact fun _ => h
    | append_singleton pre i ih =>
      intro hpost
      rcases hpost with ⟨post, rfl⟩
      rw [List.append_assoc] at hsorted
      rw [List.foldl_append]
      rcases List.pairwise_append.mp hsorted with ⟨-, hpost, hlt⟩
      refine hstep pre i _ ⟨fun q hq => hlt q hq i (by simp), fun q hq hqi => ?_, by simp⟩
        (ih ⟨i :: post, by simp⟩)
      rw [List.append_assoc] at hq
      rcases List.mem_append.mp hq with hq | hq
      · exact hq
      · rcases List.mem_cons.mp hq with rfl | hq
        · exact absurd hqi (lt_irrefl _)
        · have := (List.pairwise_cons.mp hpost).1 q hq
          omega
  exact hpre keys ⟨[], (List.append_nil _).symm⟩

/-- The set of `p` is what a block without successors takes over. -/
structure Stale (next : Nat → List Nat) (pre : List Nat) (p : Nat) : Prop where
  mem : p ∈ pre
  nonend : next p ≠ []
  last : ∀ q ∈ pre, next q ≠ [] → q ≤ p

/-- What holds in a round that started with `pd₀` and has come to the blocks `pre`. -/
structure RoundInv (next : Nat → List Nat) (pd₀ : Nat → Finset Nat) (pre : List Nat)
    (s : RoundState) : Prop where
  sub : ∀ k, next k ≠ [] → s.postDominator k ⊆ pd₀ k
  later : ∀ k, k ∉ pre → s.postDominator k = pd₀ k
  res : ∀ p, Stale next pre p → s.res = s.postDominator p
  res_none : (∀ q ∈ pre, next q = []) → s.res = ∅
  unchanged : s.changed = false → s.postDominator = pd₀
  stable : s.changed = false → ∀ i ∈ pre, next i ≠ [] → ∀ j ∈ next i, pd₀ i ⊆ insert j (pd₀ j)
  aligned : ∀ e ∈ pre, next e = [] → (∀ p, Below (NextOf next) p e →
    (s.postDominator e).card = (s.postDominator p).card) ∧
      ((∀ p, p < e → next p = []) → s.postDominator e = ∅)

theorem RoundInv.init : RoundInv next pd [] { postDominator := pd } where
  sub _ _ := subset_rfl
  later _ _ := rfl
  res _ h := (nomatch h.mem)
  res_none _ := rfl
  unchanged _ := rfl
  stable _ _ h := (nomatch h)
  aligned _ h := (nomatch h)

variable {pre : List Nat}

/-- When it comes to a block, the last block with successors is the nearest one below. -/
theorem Rounding.stale (h : Rounding next keys pre i) (hkeys : ∀ i, next i ≠ [] → i ∈ keys)
    (hp : Below (NextOf next) p i) : Stale next pre p := by
  rcases hp with ⟨hlt, hnext, hnear⟩
  rw [isEnd_next] at hnext
  refine ⟨h.mem p (hkeys p hnext) hlt, hnext, fun q hq hqnext => ?_⟩
  exact hnear q (h.lt q hq) fun hend => hqnext (isEnd_next.mp hend)

theorem RoundInv.turn_later (h : RoundInv next pd₀ pre s) {k : Nat} (hk : k ∉ pre ++ [i]) :
    (s.turn next i).postDominator k = pd₀ k := by
  rw [List.mem_append, List.mem_singleton, not_or] at hk
  rw [turn_of_ne hk.2]
  exact h.later k hk.1

/-- The blocks without successors that it has been at are as they were. -/
theorem RoundInv.turn_aligned (h : RoundInv next pd₀ pre s) (hr : Rounding next keys pre i) {e : Nat}
    (he : e ∈ pre) (hend : next e = []) :
    (∀ p, Below (NextOf next) p e →
      ((s.turn next i).postDominator e).card = ((s.turn next i).postDominator p).card) ∧
        ((∀ p, p < e → next p = []) → (s.turn next i).postDominator e = ∅) := by
  rw [turn_of_ne (hr.lt e he).ne]
  refine ⟨fun p hp => ?_, (h.aligned e he hend).2⟩
  rw [turn_of_ne (hp.1.trans (hr.lt e he)).ne]
  exact (h.aligned e he hend).1 p hp

/-- The turn of a block without successors aligns it with `res`. -/
theorem RoundInv.turn_end_aligned (h : RoundInv next pd₀ pre s)
    (hkeys : ∀ i, next i ≠ [] → i ∈ keys) (hr : Rounding next keys pre i) (hnext : next i = []) :
    (∀ p, Below (NextOf next) p i →
      ((s.turn next i).postDominator i).card = ((s.turn next i).postDominator p).card) ∧
        ((∀ p, p < i → next p = []) → (s.turn next i).postDominator i = ∅) := by
  have hcard : ((s.turn next i).postDominator i).card = s.res.card := by
    rcases turn_end (s := s) hnext with ⟨hcard, heq⟩ | ⟨-, heq⟩
    · rw [heq, hcard]
    · rw [heq]
      exact congrArg Finset.card (Function.update_self ..)
  refine ⟨fun p hp => ?_, fun hlow => ?_⟩
  · rw [hcard, turn_of_ne hp.1.ne, h.res p (hr.stale hkeys hp)]
  · rw [← Finset.card_eq_zero, hcard, h.res_none fun q hq => hlow q (hr.lt q hq)]
    rfl

/-- What is stale when a block without successors has been passed was stale before. -/
theorem Stale.of_end (hnext : next i = []) (hp : Stale next (pre ++ [i]) p) : Stale next pre p := by
  have hpi : p ≠ i := by
    rintro rfl
    exact hp.nonend hnext
  refine ⟨?_, hp.nonend, fun q hq => hp.last q (List.mem_append_left _ hq)⟩
  rcases List.mem_append.mp hp.mem with hmem | hmem
  · exact hmem
  · exact absurd (List.mem_singleton.mp hmem) hpi

/-- A turn at a block without successors. -/
theorem RoundInv.turnEnd (h : RoundInv next pd₀ pre s) (hkeys : ∀ i, next i ≠ [] → i ∈ keys)
    (hr : Rounding next keys pre i) (hnext : next i = []) :
    RoundInv next pd₀ (pre ++ [i]) (s.turn next i) := by
  have hres : (s.turn next i).res = s.res := by
    rcases turn_end (s := s) hnext with ⟨-, heq⟩ | ⟨-, heq⟩
    · rw [heq]
    · rw [heq]
  have hchanged : (s.turn next i).changed = false → s.turn next i = s := by
    intro hc
    rcases turn_end (s := s) hnext with ⟨-, heq⟩ | ⟨-, heq⟩
    · exact heq
    · rw [heq] at hc
      cases hc
  constructor
  · intro k hk
    rw [turn_of_ne (show k ≠ i from fun hki => hk (hki ▸ hnext))]
    exact h.sub k hk
  · exact fun k hk => h.turn_later hk
  · intro p hp
    rw [hres, h.res p (hp.of_end hnext),
      turn_of_ne (show p ≠ i from fun hpi => hp.nonend (hpi ▸ hnext))]
  · intro hnone
    rw [hres]
    exact h.res_none fun q hq => hnone q (List.mem_append_left _ hq)
  · intro hc
    have heq := hchanged hc
    rw [heq] at hc ⊢
    exact h.unchanged hc
  · intro hc k hk hknext
    rw [hchanged hc] at hc
    rcases List.mem_append.mp hk with hk | hk
    · exact h.stable hc k hk hknext
    · rw [List.mem_singleton.mp hk] at hknext
      exact absurd hnext hknext
  · intro e he hend
    rcases List.mem_append.mp he with he | he
    · exact h.turn_aligned hr he hend
    · rw [List.mem_singleton.mp he]
      exact h.turn_end_aligned hkeys hr hnext

/-- A turn at a block with successors. -/
theorem RoundInv.turnNext (h : RoundInv next pd₀ pre s) (hr : Rounding next keys pre i)
    (hnext : next i ≠ []) : RoundInv next pd₀ (pre ++ [i]) (s.turn next i) := by
  rcases turn_next (s := s) hnext with ⟨kept, hkept, hpd, hres, hchanged⟩
  have hquiet : (s.turn next i).changed = false → s.changed = false ∧ kept = s.postDominator i := by
    intro hc
    rw [← Bool.not_eq_true, ← hchanged, not_or, not_not, Bool.not_eq_true] at hc
    exact hc
  have hsub : kept ⊆ s.postDominator i := fun b hb => ((hkept b).mp hb).1
  constructor
  · intro k hk
    by_cases hki : k = i
    · subst hki
      rw [hpd, Function.update_self]
      exact hsub.trans (h.sub k hk)
    · rw [turn_of_ne hki]
      exact h.sub k hk
  · exact fun k hk => h.turn_later hk
  · intro p hp
    have hpi : p = i := by
      have hle := hp.last i (by simp) hnext
      rcases List.mem_append.mp hp.mem with hmem | hmem
      · have := hr.lt p hmem
        omega
      · exact List.mem_singleton.mp hmem
    rw [hres, hpd, hpi, Function.update_self]
  · intro hnone
    exact absurd (hnone i (by simp)) hnext
  · intro hc
    rcases hquiet hc with ⟨hc, heq⟩
    rw [hpd, heq, Function.update_eq_self]
    exact h.unchanged hc
  · intro hc k hk hknext
    rcases hquiet hc with ⟨hc, heq⟩
    rcases List.mem_append.mp hk with hk | hk
    · exact h.stable hc k hk hknext
    · rw [List.mem_singleton.mp hk]
      intro j hj b hb
      rw [← h.unchanged hc, ← heq] at hb
      rw [← h.unchanged hc]
      exact ((hkept b).mp hb).2 j hj
  · intro e he hend
    have hei : e ≠ i := fun hei => hnext (hei ▸ hend)
    have hmem : e ∈ pre := by
      rcases List.mem_append.mp he with he | he
      · exact he
      · exact absurd (List.mem_singleton.mp he) hei
    exact h.turn_aligned hr hmem hend

theorem RoundInv.turn (h : RoundInv next pd₀ pre s) (hkeys : ∀ i, next i ≠ [] → i ∈ keys)
    (hr : Rounding next keys pre i) : RoundInv next pd₀ (pre ++ [i]) (s.turn next i) := by
  by_cases hnext : next i = []
  · exact h.turnEnd hkeys hr hnext
  · exact h.turnNext hr hnext

/-- **What a round does.** -/
theorem roundInv (h : Reached next keys pd) (pd₀ : Nat → Finset Nat) :
    RoundInv next pd₀ keys (round next keys pd₀) :=
  round_induction h.sorted RoundInv.init fun _ _ _ hr hP => hP.turn h.nonends hr

/-! ## The rounds end -/

/-- The blocks without successors have sets of the size of what they would take over. -/
def SizesAligned (next : Nat → List Nat) (keys : List Nat) (pd : Nat → Finset Nat) : Prop :=
  ∀ e ∈ keys, next e = [] → (∀ p, Below (NextOf next) p e → (pd e).card = (pd p).card) ∧
    ((∀ p, p < e → next p = []) → pd e = ∅)

/-- The nearest block with successors below. -/
theorem exists_below (next : Nat → List Nat) (e : Nat) :
    (∃ p, Below (NextOf next) p e) ∨ ∀ p, p < e → next p = [] := by
  induction e with
  | zero => exact Or.inr fun p hp => absurd hp (Nat.not_lt_zero p)
  | succ e ih =>
    by_cases he : next e = []
    · rcases ih with ⟨p, hlt, hnext, hnear⟩ | hlow
      · refine Or.inl ⟨p, hlt.trans (Nat.lt_succ_self e), hnext, fun q hq hqnext => ?_⟩
        rcases Nat.lt_succ_iff_lt_or_eq.mp hq with hq | rfl
        · exact hnear q hq hqnext
        · exact absurd (isEnd_next.mpr he) hqnext
      · refine Or.inr fun p hp => ?_
        rcases Nat.lt_succ_iff_lt_or_eq.mp hp with hp | rfl
        · exact hlow p hp
        · exact he
    · refine Or.inl ⟨e, Nat.lt_succ_self e, fun hend => he (isEnd_next.mp hend), fun q hq _ => ?_⟩
      exact Nat.lt_succ_iff.mp hq

/-- In a round that starts aligned nothing changes before the set of a block with successors does. -/
theorem exists_changed (h : Reached next keys pd) (haligned : SizesAligned next keys pd₀)
    (hchanged : (round next keys pd₀).changed = true) :
    ∃ i ∈ keys, next i ≠ [] ∧ (round next keys pd₀).postDominator i ≠ pd₀ i := by
  have hround : RoundInv next pd₀ keys (round next keys pd₀) ∧
      ((round next keys pd₀).changed = true →
        ∃ i ∈ keys, next i ≠ [] ∧ (round next keys pd₀).postDominator i ≠ pd₀ i) := by
    refine round_induction (P := fun pre s => RoundInv next pd₀ pre s ∧ (s.changed = true →
      ∃ i ∈ pre, next i ≠ [] ∧ s.postDominator i ≠ pd₀ i)) h.sorted
      ⟨RoundInv.init, fun hc => (nomatch hc)⟩ fun pre i s hr hP => ?_
    refine ⟨hP.1.turn h.nonends hr, fun hc => ?_⟩
    have hi : i ∉ pre := fun hmem => lt_irrefl i (hr.lt i hmem)
    have hkeep : (∃ k ∈ pre, next k ≠ [] ∧ s.postDominator k ≠ pd₀ k) →
        ∃ k ∈ pre ++ [i], next k ≠ [] ∧ (s.turn next i).postDominator k ≠ pd₀ k := by
      intro hold
      rcases hold with ⟨k, hk, hknext, hne⟩
      refine ⟨k, List.mem_append_left _ hk, hknext, ?_⟩
      rw [turn_of_ne (hr.lt k hk).ne]
      exact hne
    by_cases hold : ∃ k ∈ pre, next k ≠ [] ∧ s.postDominator k ≠ pd₀ k
    · exact hkeep hold
    · by_cases hnext : next i = []
      · -- what it would take over has the size of its set
        rcases turn_end (s := s) hnext with ⟨-, heq⟩ | ⟨hcard, -⟩
        · rw [heq] at hc
          exact hkeep (hP.2 hc)
        · exfalso
          apply hcard
          rw [hP.1.later i hi]
          rcases exists_below next i with ⟨p, hp⟩ | hlow
          · have hstale := hr.stale h.nonends hp
            have hsame : s.postDominator p = pd₀ p := by
              by_contra hne
              exact hold ⟨p, hstale.mem, hstale.nonend, hne⟩
            rw [hP.1.res p hstale, hsame, (haligned i hr.key hnext).1 p hp]
          · rw [hP.1.res_none fun q hq => hlow q (hr.lt q hq), (haligned i hr.key hnext).2 hlow]
      · rcases turn_next (s := s) hnext with ⟨kept, -, hpd, -, hchanged⟩
        rcases hchanged.mpr hc with hc | hne
        · exact hkeep (hP.2 hc)
        · refine ⟨i, by simp, hnext, ?_⟩
          rw [hpd, Function.update_self, ← hP.1.later i hi]
          exact hne
  exact hround.2 hchanged

/-- The sizes of the sets of the blocks with successors. -/
def weight (next : Nat → List Nat) (keys : List Nat) (pd : Nat → Finset Nat) : Nat :=
  ∑ i ∈ keys.toFinset.filter (fun i => next i ≠ []), (pd i).card

theorem weight_lt (h : Reached next keys pd) (haligned : SizesAligned next keys pd₀)
    (hchanged : (round next keys pd₀).changed = true) :
    weight next keys (round next keys pd₀).postDominator < weight next keys pd₀ := by
  have hinv := roundInv h pd₀
  rcases exists_changed h haligned hchanged with ⟨i, hi, hnext, hne⟩
  apply Finset.sum_lt_sum
  · intro k hk
    exact Finset.card_le_card (hinv.sub k (Finset.mem_filter.mp hk).2)
  · refine ⟨i, Finset.mem_filter.mpr ⟨List.mem_toFinset.mpr hi, hnext⟩, ?_⟩
    exact Finset.card_lt_card ((hinv.sub i hnext).ssubset_of_ne hne)

/-- **The rounds end.** -/
theorem fixpointLoop_isSome (h : Reached next keys pd) (haligned : SizesAligned next keys pd₀)
    (hfuel : weight next keys pd₀ < fuel) : ∃ pd', fixpointLoop next keys fuel pd₀ = some pd' := by
  induction fuel generalizing pd₀ with
  | zero => omega
  | succ fuel ih =>
    simp only [fixpointLoop]
    by_cases hchanged : (round next keys pd₀).changed = true
    · rw [if_pos hchanged]
      have hlt := weight_lt h haligned hchanged
      exact ih (roundInv h pd₀).aligned (by omega)
    · rw [if_neg hchanged]
      exact ⟨_, rfl⟩

/-- **The rule for the rounds.** What holds after the first round and is kept by every round holds at
the end, when a further round changes nothing. -/
theorem fixpointLoop_induction (h : Reached next keys pd) {P : (Nat → Finset Nat) → Prop}
    (hround : ∀ pd, P pd → P (round next keys pd).postDominator)
    (hfirst : P (round next keys pd₀).postDominator)
    (hloop : fixpointLoop next keys fuel pd₀ = some pd') :
    P pd' ∧ (round next keys pd').changed = false := by
  induction fuel generalizing pd₀ with
  | zero => cases hloop
  | succ fuel ih =>
    simp only [fixpointLoop] at hloop
    split_ifs at hloop with hchanged
    · exact ih (hround _ hfirst) hloop
    · cases hloop
      rw [Bool.not_eq_true] at hchanged
      have heq := (roundInv h pd₀).unchanged hchanged
      refine ⟨hfirst, ?_⟩
      rw [heq]
      exact hchanged
/-! ## Whole graphs -/

/-- The blocks of the graph. -/
def blocksOfEdges (edges : List (Nat × Nat)) : Finset Nat :=
  (edges.map Prod.fst).toFinset ∪ (edges.map Prod.snd).toFinset

theorem next_subset_blocks (edges : List (Nat × Nat)) :
    (∀ a, (readBBGraph edges).next a ≠ [] → a ∈ blocksOfEdges edges) ∧
      ∀ a, ∀ b ∈ (readBBGraph edges).next a, b ∈ blocksOfEdges edges := by
  have hedge : ∀ a b, b ∈ (readBBGraph edges).next a →
      a ∈ blocksOfEdges edges ∧ b ∈ blocksOfEdges edges := by
    intro a b hb
    have hmem : (a, b) ∈ edges := mem_readBBGraph.mp hb
    simp only [blocksOfEdges, Finset.mem_union, List.mem_toFinset, List.mem_map]
    exact ⟨Or.inl ⟨_, hmem, rfl⟩, Or.inr ⟨_, hmem, rfl⟩⟩
  refine ⟨fun a ha => ?_, fun a b hb => (hedge a b hb).2⟩
  rcases List.exists_mem_of_ne_nil _ ha with ⟨b, hb⟩
  exact (hedge a b hb).1

theorem reachInv_readBBGraph (edges : List (Nat × Nat)) :
    ReachInv (readBBGraph edges).next 0 (readBBGraph edges).keys fun _ => ∅ := by
  rcases readBBGraph_keys edges with ⟨hsorted, hkeys⟩
  exact ⟨hsorted, fun i hi => (hkeys i).mpr hi, fun i _ hi => absurd hi (Nat.not_lt_zero i),
    fun e _ => Finset.empty_subset _, fun x hx => Or.inl ((hkeys x).mp hx),
    fun e _ hmem => absurd hmem (Finset.notMem_empty e), fun e _ hlt => absurd hlt (Nat.not_lt_zero e)⟩

theorem weight_le {edges : List (Nat × Nat)} (h : Reached (readBBGraph edges).next keys pd)
    (hs : ∀ i, (readBBGraph edges).next i ≠ [] → pd' i ⊆ pd i) :
    weight (readBBGraph edges).next keys pd' ≤
      (blocksOfEdges edges).card * (blocksOfEdges edges).card := by
  rcases next_subset_blocks edges with ⟨hblock, hsucc⟩
  have hset : ∀ i, (readBBGraph edges).next i ≠ [] →
      (pd' i).card ≤ (blocksOfEdges edges).card := by
    intro i hi
    apply Finset.card_le_card
    intro b hb
    have hreach := (h.reach i hi b).mp (hs i hi hb)
    clear hb
    induction hreach with
    | refl => exact hblock i hi
    | tail _ hedge _ => exact hsucc _ _ hedge
  have hsum : weight (readBBGraph edges).next keys pd' ≤
      (keys.toFinset.filter fun i => (readBBGraph edges).next i ≠ []).card *
        (blocksOfEdges edges).card :=
    Finset.sum_le_card_nsmul _ _ _ fun i hi => hset i (Finset.mem_filter.mp hi).2
  refine hsum.trans (Nat.mul_le_mul_right _ (Finset.card_le_card fun i hi => ?_))
  exact hblock i (Finset.mem_filter.mp hi).2

/-- The first loop ends on every graph. -/
theorem reachLoop_readBBGraph_isSome (edges : List (Nat × Nat))
    (hfuel : 2 * (blocksOfEdges edges).card < fuel) :
    ∃ r, reachLoop (readBBGraph edges).next fuel 0 (readBBGraph edges).keys (fun _ => ∅) = some r := by
  rcases next_subset_blocks edges with ⟨hblock, hsucc⟩
  rcases readBBGraph_keys edges with ⟨hsorted, hkeys⟩
  have hcard : ((blocksOfEdges edges).filter (0 ≤ ·)).card ≤ (blocksOfEdges edges).card :=
    Finset.card_le_card (Finset.filter_subset _ _)
  exact reachLoop_isSome (fun _ => ∅) (fun a _ b hb => hsucc a b hb) hsorted
    (fun a ha => hblock a ((hkeys a).mp ha)) (by omega)

/-- The first round aligns the sets of the blocks without successors, and from then on every round
that changes something makes the set of a block with successors smaller. -/
theorem fixpointLoop_readBBGraph_isSome {edges : List (Nat × Nat)}
    (h : Reached (readBBGraph edges).next keys pd)
    (hfuel : (blocksOfEdges edges).card * (blocksOfEdges edges).card + 1 < fuel) :
    ∃ pd', fixpointLoop (readBBGraph edges).next keys fuel pd = some pd' := by
  have hround := roundInv h pd
  have hweight := weight_le h hround.sub
  obtain ⟨fuel, rfl⟩ : ∃ n, fuel = n + 1 := ⟨fuel - 1, by omega⟩
  simp only [fixpointLoop]
  split_ifs
  · apply fixpointLoop_isSome h hround.aligned
    omega
  · exact ⟨_, rfl⟩

/-- **`PreparePostDominator` returns** when its loops may take enough turns. -/
theorem preparePostDominator_isSome (edges : List (Nat × Nat)) :
    ∃ n, ∀ fuel, n ≤ fuel → ∃ pd, preparePostDominator fuel edges = some pd := by
  let c := (blocksOfEdges edges).card
  refine ⟨2 * c + c * c + 3, fun fuel hfuel => ?_⟩
  have hturns : 2 * c < fuel := by omega
  obtain ⟨⟨keys, pd⟩, hreach⟩ := reachLoop_readBBGraph_isSome edges hturns
  have hreached := reachLoop_reached (reachInv_readBBGraph edges) hreach
  have hrounds : c * c + 1 < fuel := by omega
  obtain ⟨pd', hpd'⟩ := fixpointLoop_readBBGraph_isSome hreached hrounds
  exact ⟨pd', Option.bind_eq_some_iff.mpr ⟨_, hreach, hpd'⟩⟩

/-- **The rounds end** on every graph, after at most as many rounds as there are pairs of blocks, and
two more: the first one and the one that finds nothing to change. -/
theorem rounds_end (edges : List (Nat × Nat)) :
    (∃ n, ∀ fuel, n ≤ fuel → ∃ r,
      reachLoop (readBBGraph edges).next fuel 0 (readBBGraph edges).keys (fun _ => ∅) = some r) ∧
      ∀ fuel keys pd,
        reachLoop (readBBGraph edges).next fuel 0 (readBBGraph edges).keys (fun _ => ∅) =
          some (keys, pd) →
        ∀ n, (blocksOfEdges edges).card ^ 2 + 2 ≤ n →
          ∃ pd', fixpointLoop (readBBGraph edges).next keys n pd = some pd' := by
  constructor
  · exact ⟨2 * (blocksOfEdges edges).card + 1, fun fuel hfuel =>
      reachLoop_readBBGraph_isSome edges (by omega)⟩
  · intro fuel keys pd hreach n hn
    have hreached := reachLoop_reached (reachInv_readBBGraph edges) hreach
    apply fixpointLoop_readBBGraph_isSome hreached
    rw [pow_two] at hn
    omega

/-- A block with a self-loop, a doubled edge and a block without successors below its
predecessor. -/
theorem rounds_end_loop : ∃ fuel keys pd,
    reachLoop (readBBGraph [(1, 1), (1, 0), (1, 0)]).next fuel 0
        (readBBGraph [(1, 1), (1, 0), (1, 0)]).keys (fun _ => ∅) = some (keys, pd) ∧
      ∃ pd', fixpointLoop (readBBGraph [(1, 1), (1, 0), (1, 0)]).next keys 6 pd = some pd' := by
  obtain ⟨⟨n, hn⟩, hloop⟩ := rounds_end [(1, 1), (1, 0), (1, 0)]
  obtain ⟨⟨keys, pd⟩, hreach⟩ := hn n le_rfl
  exact ⟨n, keys, pd, hreach, hloop n keys pd hreach 6 (by decide)⟩

end

end Slimmer
