import Slimmer.PostDominator

/-!
# The sets as post-dominators

The set of a block without successors should be empty: no path leaves the block. The turn of such a
block gives it the set of the nearest block with successors numbered below it instead, and its
predecessors numbered above then keep blocks that they should drop.

**Sparing.** The first loop has put into the set of a block without successors the block itself when it
can be reached from below. The first round compares sizes, so this set stays as it is when the block
that it would be taken from has one block left (`FirstKept`). It then stays for good, and a spared
block (`Spared`) hands on nothing wrong.

**What the rounds end with** (`mem_iff_not_dropped`). `Dropped` follows the edges, and from a block
without successors that is not spared it goes on to the block whose set it takes over. A set holds in
the end what has not been dropped.

**Theorem (`post_dominator_right`).** The function returns, and the set of every block with successors
is the set of its post-dominators if and only if a predecessor of a block without successors drops
everything but that block (`Clean`).
-/

namespace Slimmer

/-! ## Post-dominators -/

/-- Every path from `i` to a block without successors visits `b` after leaving `i`. -/
def PostDominates (edges : List (Nat × Nat)) (i b : Nat) : Prop :=
  ∀ l e, List.IsChain (BBEdge edges) (i :: l) → (i :: l).getLast? = some e →
    IsEnd (BBEdge edges) e → b ∈ l

/-- The sets of all blocks with successors are their post-dominators. -/
def PostDominatorRight (edges : List (Nat × Nat)) (postDominator : Nat → Finset Nat) : Prop :=
  ∀ i, ¬ IsEnd (BBEdge edges) i → ∀ b, b ∈ postDominator i ↔ PostDominates edges i b

/-! ## The first round -/

/-- The first round leaves `b` in the set of `i`: it can be reached from `i`, and every successor other
than `b` itself has it. A successor has what can be reached from it when its turn is still to come, and
what the round has left it otherwise. A block without successors has what it takes over, if it does. -/
def FirstKept (E : Nat → Nat → Prop) (i b : Nat) : Prop :=
  Relation.ReflTransGen E i b ∧ ∀ j, E i j → j ≠ b →
    (i ≤ j ∧ ¬ IsEnd E j ∧ Relation.ReflTransGen E j b) ∨
    (∃ _ : j < i, ¬ IsEnd E j ∧ FirstKept E j b) ∨
    ∃ p, ∃ _ : p < j, ∃ _ : j < i, IsEnd E j ∧ Below E p j ∧
      -- the sets that are compared have one block each
      ¬ ((∃ q < j, Relation.ReflTransGen E q j) ∧ ∃! x, FirstKept E p x) ∧ FirstKept E p b
termination_by i

/-- The block without successors `e` keeps its own set in the first round: it has been put into it from
below, and just one block is left in the set that it would take over. -/
def Spared (E : Nat → Nat → Prop) (e : Nat) : Prop :=
  (∃ q < e, Relation.ReflTransGen E q e) ∧ ∃ p, Below E p e ∧ ∃! x, FirstKept E p x

/-- The block `b` is not kept in the set of `i`: it cannot be reached from `i`, or a successor does
not have it. A block without successors has nothing but itself before its first turn and when it is
spared, and otherwise what the nearest block with successors below it has. -/
inductive Dropped (E : Nat → Nat → Prop) (b : Nat) : Nat → Prop
  | unreached {i} (h : ¬ Relation.ReflTransGen E i b) : Dropped E b i
  | step {i j} (h : E i j) (hnext : ¬ IsEnd E j) (hne : j ≠ b) (ht : Dropped E b j) : Dropped E b i
  | higher {i e} (h : E i e) (hend : IsEnd E e) (hne : e ≠ b) (hlt : i < e) : Dropped E b i
  | lowest {i e} (h : E i e) (hend : IsEnd E e) (hne : e ≠ b) (hlow : ∀ p, p < e → IsEnd E p) :
      Dropped E b i
  | spared {i e} (h : E i e) (hend : IsEnd E e) (hne : e ≠ b) (hspared : Spared E e) : Dropped E b i
  | behind {i e p} (h : E i e) (hend : IsEnd E e) (hne : e ≠ b) (hp : Below E p e)
      (ht : Dropped E b p) : Dropped E b i

/-- A predecessor of a block without successors keeps that block at most. -/
def Clean (E : Nat → Nat → Prop) : Prop :=
  ∀ i e, E i e → IsEnd E e → ∀ b, b ≠ e → Dropped E b i

section

variable {E : Nat → Nat → Prop} {i j e p q b : Nat}

theorem Below.unique (hp : Below E p e) (hq : Below E q e) : p = q :=
  le_antisymm (hq.2.2 p hp.1 hp.2.1) (hp.2.2 q hq.1 hq.2.1)

theorem spared_iff (hp : Below E p e) :
    Spared E e ↔ (∃ q < e, Relation.ReflTransGen E q e) ∧ ∃! x, FirstKept E p x := by
  refine and_congr_right fun _ => ⟨fun h => ?_, fun h => ⟨p, hp, h⟩⟩
  rcases h with ⟨q, hq, hone⟩
  rw [hp.unique hq]
  exact hone

/-- What a successor `j` has in the turn of `i` in the first round. -/
inductive FirstHas (E : Nat → Nat → Prop) (i j b : Nat) : Prop
  | ahead (hle : i ≤ j) (hnext : ¬ IsEnd E j) (h : Relation.ReflTransGen E j b)
  | passed (hlt : j < i) (hnext : ¬ IsEnd E j) (h : FirstKept E j b)
  | taken {p : Nat} (hlt : j < i) (hend : IsEnd E j) (hp : Below E p j) (hspared : ¬ Spared E j)
      (h : FirstKept E p b)

theorem firstKept_iff : FirstKept E i b ↔
    Relation.ReflTransGen E i b ∧ ∀ j, E i j → j ≠ b → FirstHas E i j b := by
  rw [FirstKept]
  refine and_congr_right fun _ => forall₃_congr fun j _ _ => ⟨fun h => ?_, fun h => ?_⟩
  · rcases h with ⟨hle, hnext, h⟩ | ⟨hlt, hnext, h⟩ | ⟨p, -, hlt, hend, hp, hspared, h⟩
    · exact .ahead hle hnext h
    · exact .passed hlt hnext h
    · exact .taken hlt hend hp (fun hs => hspared ((spared_iff hp).mp hs)) h
  · cases h with
    | ahead hle hnext h => exact Or.inl ⟨hle, hnext, h⟩
    | passed hlt hnext h => exact Or.inr (Or.inl ⟨hlt, hnext, h⟩)
    | taken hlt hend hp hspared h =>
      exact Or.inr (Or.inr ⟨_, hp.1, hlt, hend, hp, fun hs => hspared ((spared_iff hp).mpr hs), h⟩)

/-- What is dropped does not post-dominate. -/
theorem Dropped.avoids (hexit : ∀ i, ∃ e, Relation.ReflTransGen E i e ∧ IsEnd E e)
    (h : Dropped E b i) (hi : ¬ IsEnd E i) : Avoids E b i := by
  induction h with
  | @unreached i hnot =>
    rcases hexit i with ⟨e, hreach, hend⟩
    exact avoids_of_not_reach hreach hend hi hnot
  | step h hnext hne _ ih => exact .step h hne (ih hnext)
  | higher h hend hne _ => exact .last h hend hne
  | lowest h hend hne _ => exact .last h hend hne
  | spared h hend hne _ => exact .last h hend hne
  | behind h hend hne _ _ _ => exact .last h hend hne

/-- In a clean graph an avoiding path drops the block all along. -/
theorem Clean.dropped (h : Clean E) (havoids : Avoids E b i) : Dropped E b i := by
  induction havoids with
  | last hedge hend hne => exact h _ _ hedge hend b (Ne.symm hne)
  | @step i j hedge hne ht ih =>
    refine .step hedge (fun hend => ?_) hne ih
    cases ht with
    | last hedge' | step hedge' => exact hend _ hedge'

end

section

variable {next : Nat → List Nat} {keys pre : List Nat} {pd pd₀ pd' : Nat → Finset Nat}
  {s : RoundState} {i p b : Nat}

/-! ## What blocks without successors take over -/

/-- A block without successors that is spared has itself at most, any other one what it takes over. -/
def EndsSettled (next : Nat → List Nat) (pre : List Nat) (pd : Nat → Finset Nat) : Prop :=
  ∀ e ∈ pre, next e = [] → ∀ p, Below (NextOf next) p e →
    (Spared (NextOf next) e → pd e ⊆ {e}) ∧ (¬ Spared (NextOf next) e → pd e = pd p)

/-- Only the turn of the block itself matters. -/
theorem EndsSettled.turn (h : EndsSettled next pre s.postDominator) (hr : Rounding next keys pre i)
    (hturn : next i = [] → ∀ p, Below (NextOf next) p i →
      (Spared (NextOf next) i → (s.turn next i).postDominator i ⊆ {i}) ∧
        (¬ Spared (NextOf next) i → (s.turn next i).postDominator i = s.postDominator p)) :
    EndsSettled next (pre ++ [i]) (s.turn next i).postDominator := by
  intro e he hend p hp
  rcases List.mem_append.mp he with he | he
  · have hei := hr.lt e he
    rw [turn_of_ne hei.ne, turn_of_ne (hp.1.trans hei).ne]
    exact h e he hend p hp
  · rcases List.mem_singleton.mp he with rfl
    rw [turn_of_ne hp.1.ne]
    exact hturn hend p hp

/-! ## What the first round leaves -/

/-- The first round has come to the blocks `pre`. -/
structure FirstRound (next : Nat → List Nat) (pd : Nat → Finset Nat) (pre : List Nat)
    (s : RoundState) : Prop where
  inv : RoundInv next pd pre s
  kept : ∀ k ∈ pre, next k ≠ [] → ∀ b, b ∈ s.postDominator k ↔ FirstKept (NextOf next) k b
  settled : EndsSettled next pre s.postDominator

/-- What a successor has in the turn of a block. -/
theorem FirstRound.has_iff (hf : FirstRound next pd pre s) (h : Reached next keys pd)
    (hr : Rounding next keys pre i) (hnext : next i ≠ []) {j : Nat} (hj : j ∈ next i) (hjb : j ≠ b) :
    b ∈ s.postDominator j ↔ FirstHas (NextOf next) i j b := by
  have hjkey := h.succs i j hj
  by_cases hjnext : next j = []
  · have hend : IsEnd (NextOf next) j := isEnd_next.mpr hjnext
    have hij : j ≠ i := by
      rintro rfl
      exact hnext hjnext
    rcases lt_or_gt_of_ne hij with hlt | hlt
    · have hjpre := hr.mem j hjkey hlt
      rcases exists_below next j with ⟨p, hp⟩ | hlow
      · have hpnext : next p ≠ [] := fun hnil => hp.2.1 (isEnd_next.mpr hnil)
        have hppre := hr.mem p (h.nonends p hpnext) (hp.1.trans hlt)
        rcases hf.settled j hjpre hjnext p hp with ⟨hself, htaken⟩
        constructor
        · intro hb
          have hspared : ¬ Spared (NextOf next) j := fun hs =>
            hjb (Finset.mem_singleton.mp (hself hs hb)).symm
          rw [htaken hspared, hf.kept p hppre hpnext] at hb
          exact .taken hlt hend hp hspared hb
        · intro hb
          cases hb with
          | ahead _ hnot | passed _ hnot => exact absurd hend hnot
          | taken _ _ hp' hspared hb =>
            rw [htaken hspared, hf.kept p hppre hpnext, hp.unique hp']
            exact hb
      · rw [(hf.inv.aligned j hjpre hjnext).2 hlow]
        refine ⟨fun hb => absurd hb (Finset.notMem_empty b), fun hb => ?_⟩
        cases hb with
        | ahead _ hnot | passed _ hnot => exact absurd hend hnot
        | taken _ _ hp => exact absurd (isEnd_next.mpr (hlow _ hp.1)) hp.2.1
    · rw [hf.inv.later j fun hmem => (hr.lt j hmem).not_gt hlt]
      refine ⟨fun hb => absurd (Finset.mem_singleton.mp (h.ends j hjnext hb)).symm hjb, fun hb => ?_⟩
      cases hb with
      | ahead _ hnot => exact absurd hend hnot
      | passed hlt' | taken hlt' => exact absurd hlt' hlt.not_gt
  · have hnot : ¬ IsEnd (NextOf next) j := fun hend => hjnext (isEnd_next.mp hend)
    by_cases hlt : j < i
    · rw [hf.kept j (hr.mem j hjkey hlt) hjnext]
      refine ⟨fun hb => .passed hlt hnot hb, fun hb => ?_⟩
      cases hb with
      | ahead hle => exact absurd hlt hle.not_gt
      | passed _ _ hb => exact hb
      | taken _ hend => exact absurd hend hnot
    · rw [hf.inv.later j fun hmem => hlt (hr.lt j hmem), h.reach j hjnext]
      refine ⟨fun hb => .ahead (not_lt.mp hlt) hnot hb, fun hb => ?_⟩
      cases hb with
      | ahead _ _ hb => exact hb
      | passed hlt' | taken hlt' => exact absurd hlt' hlt

/-- The turn of a block with successors. -/
theorem FirstRound.turn_kept (hf : FirstRound next pd pre s) (h : Reached next keys pd)
    (hr : Rounding next keys pre i) (hnext : next i ≠ []) :
    b ∈ (s.turn next i).postDominator i ↔ FirstKept (NextOf next) i b := by
  have hlater : s.postDominator i = pd i := hf.inv.later i fun hmem => lt_irrefl i (hr.lt i hmem)
  rcases turn_next (s := s) hnext with ⟨kept, hmem, hpd, -⟩
  rw [hpd, Function.update_self, hmem, hlater, h.reach i hnext, firstKept_iff]
  refine and_congr_right fun _ => forall₂_congr fun j hj => ?_
  rw [Finset.mem_insert, or_iff_not_imp_left]
  refine ⟨fun hb hjb => ?_, fun hb hbj => ?_⟩
  · exact (hf.has_iff h hr hnext hj hjb).mp (hb (Ne.symm hjb))
  · exact (hf.has_iff h hr hnext hj (Ne.symm hbj)).mpr (hb (Ne.symm hbj))

/-- The first loop leaves a block without successors itself, or nothing. -/
theorem Reached.mem_iff_card (h : Reached next keys pd) (hnext : next i = []) :
    (pd i).card ≤ 1 ∧ (i ∈ pd i ↔ (pd i).card = 1) := by
  have hle := Finset.card_le_card (h.ends i hnext)
  rw [Finset.card_singleton] at hle
  refine ⟨hle, fun hmem => le_antisymm hle (Finset.card_pos.mpr ⟨i, hmem⟩), fun hcard => ?_⟩
  rcases Finset.card_eq_one.mp hcard with ⟨x, hx⟩
  have hxi := h.ends i hnext (hx ▸ Finset.mem_singleton_self x)
  rw [hx, Finset.mem_singleton.mp hxi]
  exact Finset.mem_singleton_self i

/-- The turn of a block without successors: it is spared, or it takes over what `res` holds. -/
theorem FirstRound.turn_taken (hf : FirstRound next pd pre s) (h : Reached next keys pd)
    (hr : Rounding next keys pre i) (hnext : next i = []) (hp : Below (NextOf next) p i) :
    (Spared (NextOf next) i → (s.turn next i).postDominator i ⊆ {i}) ∧
      (¬ Spared (NextOf next) i → (s.turn next i).postDominator i = s.postDominator p) := by
  have hlater : s.postDominator i = pd i := hf.inv.later i fun hmem => lt_irrefl i (hr.lt i hmem)
  have hstale := hr.stale h.nonends hp
  have hres := hf.inv.res p hstale
  rcases h.mem_iff_card hnext with ⟨hle, hmem⟩
  have hone : s.res.card = 1 ↔ ∃! x, FirstKept (NextOf next) p x := by
    rw [hres, Finset.card_eq_one_iff_existsUnique]
    exact existsUnique_congr fun x => hf.kept p hstale.mem hstale.nonend x
  rw [spared_iff hp, ← h.entered i hnext, hmem, ← hone]
  rcases turn_end (s := s) hnext with ⟨hsize, heq⟩ | ⟨hsize, heq⟩
  · rw [heq, hlater]
    refine ⟨fun _ => h.ends i hnext, fun hnot => ?_⟩
    -- sets of the same size, which is not one
    rw [hlater] at hsize
    have hzero : (pd i).card = 0 := by omega
    rw [← hres, Finset.card_eq_zero.mp hzero]
    exact (Finset.card_eq_zero.mp (hsize.trans hzero)).symm
  · rw [heq]
    show (_ → Function.update s.postDominator i s.res i ⊆ {i}) ∧
      (_ → Function.update s.postDominator i s.res i = s.postDominator p)
    rw [Function.update_self]
    refine ⟨fun hs => ?_, fun _ => hres⟩
    rw [hlater] at hsize
    omega

/-! ## What is kept -/

/-- What is not dropped is kept. -/
def KeepsUndropped (next : Nat → List Nat) (pd : Nat → Finset Nat) : Prop :=
  ∀ i, next i ≠ [] → ∀ b, ¬ Dropped (NextOf next) b i → b ∈ pd i

theorem KeepsUndropped.turn (h : KeepsUndropped next s.postDominator)
    (hsettled : EndsSettled next pre s.postDominator)
    (hreached : Reached next keys pd) (hr : Rounding next keys pre i) :
    KeepsUndropped next (s.turn next i).postDominator := by
  intro k hk b hb
  by_cases hki : k = i
  · subst hki
    rcases turn_next (s := s) hk with ⟨kept, hkept, hpd, -⟩
    rw [hpd, Function.update_self]
    refine (hkept b).mpr ⟨h k hk b hb, fun j hj => ?_⟩
    by_cases hjb : j = b
    · exact Finset.mem_insert.mpr (Or.inl hjb.symm)
    · apply Finset.mem_insert_of_mem
      by_cases hjnext : next j = []
      · have hjend := isEnd_next.mpr hjnext
        have hjk : j < k := by
          by_contra hle
          have hne : k ≠ j := fun hkj => hk (hkj ▸ hjnext)
          exact hb (.higher hj hjend hjb (by omega))
        rcases exists_below next j with ⟨p, hp⟩ | hlow
        · -- a block without successors that has had its turn and is not spared
          have hspared : ¬ Spared (NextOf next) j := fun hs => hb (.spared hj hjend hjb hs)
          rw [(hsettled j (hr.mem j (hreached.succs k j hj) hjk) hjnext p hp).2 hspared]
          exact h p (fun hnil => hp.2.1 (isEnd_next.mpr hnil)) b fun ht =>
            hb (.behind hj hjend hjb hp ht)
        · exact absurd (.lowest hj hjend hjb fun p hp => isEnd_next.mpr (hlow p hp)) hb
      · exact h j hjnext b fun ht =>
          hb (.step hj (fun hend => hjnext (isEnd_next.mp hend)) hjb ht)
  · rw [turn_of_ne hki]
    exact h k hk b hb

/-- **What the first round leaves.** -/
theorem first_round (h : Reached next keys pd) :
    FirstRound next pd keys (round next keys pd) ∧
      KeepsUndropped next (round next keys pd).postDominator := by
  refine round_induction (P := fun pre s => FirstRound next pd pre s ∧
    KeepsUndropped next s.postDominator) h.sorted ⟨⟨RoundInv.init, fun e he => ?_, fun e he => ?_⟩,
      fun i hi b hb => ?_⟩ fun pre i s hr hP => ?_
  · exact absurd he List.not_mem_nil
  · exact absurd he List.not_mem_nil
  · by_contra hnot
    exact hb (.unreached fun hreach => hnot ((h.reach i hi b).mpr hreach))
  · rcases hP with ⟨hf, hkeeps⟩
    refine ⟨⟨hf.inv.turn h.nonends hr, fun k hk hknext b => ?_,
      hf.settled.turn hr fun hnext p hp => hf.turn_taken h hr hnext hp⟩,
      hkeeps.turn hf.settled h hr⟩
    rcases List.mem_append.mp hk with hk | hk
    · rw [turn_of_ne (hr.lt k hk).ne]
      exact hf.kept k hk hknext b
    · rcases List.mem_singleton.mp hk with rfl
      exact hf.turn_kept h hr hknext

/-- In a later round the set that is taken over has become smaller at most, and the sizes tell whether
it has. -/
theorem RoundInv.turn_taken (hinv : RoundInv next pd₀ pre s) (hs : EndsSettled next keys pd₀)
    (haligned : SizesAligned next keys pd₀) (h : Reached next keys pd) (hr : Rounding next keys pre i)
    (hnext : next i = []) (hp : Below (NextOf next) p i) :
    (Spared (NextOf next) i → (s.turn next i).postDominator i ⊆ {i}) ∧
      (¬ Spared (NextOf next) i → (s.turn next i).postDominator i = s.postDominator p) := by
  have hlater : s.postDominator i = pd₀ i := hinv.later i fun hmem => lt_irrefl i (hr.lt i hmem)
  have hres := hinv.res p (hr.stale h.nonends hp)
  have hsub := hinv.sub p fun hend => hp.2.1 (isEnd_next.mpr hend)
  have hcard := (haligned i hr.key hnext).1 p hp
  rcases hs i hr.key hnext p hp with ⟨hself, htaken⟩
  rcases turn_end (s := s) hnext with ⟨hsize, heq⟩ | ⟨hsize, heq⟩
  · rw [heq, hlater]
    refine ⟨hself, fun hspared => ?_⟩
    rw [hres, hlater, hcard] at hsize
    rw [htaken hspared]
    exact (Finset.eq_of_subset_of_card_le hsub hsize.ge).symm
  · rw [heq]
    show (_ → Function.update s.postDominator i s.res i ⊆ {i}) ∧
      (_ → Function.update s.postDominator i s.res i = s.postDominator p)
    rw [Function.update_self, hres]
    refine ⟨fun hspared => ?_, fun _ => rfl⟩
    -- what it takes over has become smaller than its own block
    have hone := Finset.card_le_card (hself hspared)
    have hle := Finset.card_le_card hsub
    rw [hres, hlater] at hsize
    rw [Finset.card_singleton] at hone
    have hempty : s.postDominator p = ∅ := Finset.card_eq_zero.mp (by omega)
    rw [hempty]
    exact Finset.empty_subset _

/-- **What a later round keeps.** -/
theorem later_round (h : Reached next keys pd) (hs : EndsSettled next keys pd₀)
    (haligned : SizesAligned next keys pd₀) (hkeeps : KeepsUndropped next pd₀) :
    EndsSettled next keys (round next keys pd₀).postDominator ∧
      KeepsUndropped next (round next keys pd₀).postDominator := by
  have hround : RoundInv next pd₀ keys (round next keys pd₀) ∧
      EndsSettled next keys (round next keys pd₀).postDominator ∧
        KeepsUndropped next (round next keys pd₀).postDominator := by
    refine round_induction (P := fun pre s => RoundInv next pd₀ pre s ∧
      EndsSettled next pre s.postDominator ∧ KeepsUndropped next s.postDominator)
      h.sorted ⟨RoundInv.init, fun e he => absurd he List.not_mem_nil, hkeeps⟩ fun pre i s hr hP => ?_
    rcases hP with ⟨hinv, hsettled, hkeeps⟩
    exact ⟨hinv.turn h.nonends hr,
      hsettled.turn hr fun hnext p hp => hinv.turn_taken hs haligned h hr hnext hp,
      hkeeps.turn hsettled h hr⟩
  exact hround.2

/-! ## What is dropped -/

/-- A predecessor numbered below a block without successors keeps that block at most. -/
def LowerKeep (next : Nat → List Nat) (pd : Nat → Finset Nat) : Prop :=
  ∀ i, ∀ e ∈ next i, next e = [] → i < e → pd i ⊆ {e}

/-- The first round comes to the predecessor first. -/
theorem lowerKeep_first (h : Reached next keys pd) :
    LowerKeep next (round next keys pd).postDominator := by
  intro i e he hend hlt b hb
  have hnext : next i ≠ [] := List.ne_nil_of_mem he
  rw [(first_round h).1.kept i (h.nonends i hnext) hnext, firstKept_iff] at hb
  by_contra hne
  cases hb.2 e he (fun heb => hne (Finset.mem_singleton.mpr heb.symm)) with
  | ahead _ hnot => exact hnot (isEnd_next.mpr hend)
  | passed _ hnot => exact hnot (isEnd_next.mpr hend)
  | taken hlt' => omega

/-- What holds between two rounds. -/
structure BetweenRounds (next : Nat → List Nat) (keys : List Nat) (pd₀ pd : Nat → Finset Nat) :
    Prop where
  sub : ∀ i, next i ≠ [] → pd i ⊆ pd₀ i
  aligned : SizesAligned next keys pd
  settled : EndsSettled next keys pd
  keeps : KeepsUndropped next pd
  lower : LowerKeep next pd

theorem BetweenRounds.round (hb : BetweenRounds next keys pd₀ pd) (h : Reached next keys pd₀) :
    BetweenRounds next keys pd₀ (round next keys pd).postDominator := by
  have hinv := roundInv h pd
  rcases later_round h hb.settled hb.aligned hb.keeps with ⟨hsettled, hkeeps⟩
  refine ⟨fun i hi => (hinv.sub i hi).trans (hb.sub i hi), hinv.aligned, hsettled, hkeeps,
    fun i e he hend hlt => ?_⟩
  exact (hinv.sub i (List.ne_nil_of_mem he)).trans (hb.lower i e he hend hlt)

theorem Reached.betweenRounds (h : Reached next keys pd) :
    BetweenRounds next keys pd (Slimmer.round next keys pd).postDominator := by
  rcases first_round h with ⟨hfirst, hkeeps⟩
  exact ⟨hfirst.inv.sub, hfirst.inv.aligned, hfirst.settled, hkeeps, lowerKeep_first h⟩

/-- **What is dropped is not kept** when a round changes nothing. -/
theorem BetweenRounds.not_mem (hb : BetweenRounds next keys pd₀ pd) (h : Reached next keys pd₀)
    (hquiet : (Slimmer.round next keys pd).changed = false)
    (hdropped : Dropped (NextOf next) b i) (hi : next i ≠ []) : b ∉ pd i := by
  have hinv := roundInv h pd
  have hstable : ∀ {i j : Nat}, NextOf next i j → pd i ⊆ insert j (pd j) := fun {i j} hj =>
    hinv.stable hquiet i (h.nonends i (List.ne_nil_of_mem hj)) (List.ne_nil_of_mem hj) j hj
  intro hmem
  induction hdropped with
  | unreached hnot => exact hnot ((h.reach _ hi b).mp (hb.sub _ hi hmem))
  | @step i j hj hnext hne _ ih =>
    rcases Finset.mem_insert.mp (hstable hj hmem) with heq | hmem
    · exact hne heq.symm
    · exact ih (fun hend => hnext (isEnd_next.mpr hend)) hmem
  | @higher i e hj hend hne hlt =>
    have hbe := hb.lower i e hj (isEnd_next.mp hend) hlt hmem
    exact hne (Finset.mem_singleton.mp hbe).symm
  | @lowest i e hj hend hne hlow =>
    have hnone := (hb.aligned e (h.succs i e hj) (isEnd_next.mp hend)).2
      fun p hp => isEnd_next.mp (hlow p hp)
    rcases Finset.mem_insert.mp (hstable hj hmem) with heq | hmem
    · exact hne heq.symm
    · rw [hnone] at hmem
      cases hmem
  | @spared i e hj hend hne hs =>
    rcases hs.2 with ⟨p, hp, -⟩
    have hself := (hb.settled e (h.succs i e hj) (isEnd_next.mp hend) p hp).1 hs
    rcases Finset.mem_insert.mp (hstable hj hmem) with heq | hmem
    · exact hne heq.symm
    · exact hne (Finset.mem_singleton.mp (hself hmem)).symm
  | @behind i e p hj hend hne hp _ ih =>
    have hpnext : next p ≠ [] := fun hnil => hp.2.1 (isEnd_next.mpr hnil)
    rcases hb.settled e (h.succs i e hj) (isEnd_next.mp hend) p hp with ⟨hself, htaken⟩
    rcases Finset.mem_insert.mp (hstable hj hmem) with heq | hmem
    · exact hne heq.symm
    · by_cases hs : Spared (NextOf next) e
      · exact hne (Finset.mem_singleton.mp (hself hs hmem)).symm
      · rw [htaken hs] at hmem
        exact ih hpnext hmem

end

/-! ## Whole graphs -/

/-- **What the rounds end with.** A set holds what has not been dropped. -/
theorem mem_iff_not_dropped {edges : List (Nat × Nat)} {fuel : Nat} {pd : Nat → Finset Nat}
    (h : preparePostDominator fuel edges = some pd) {i : Nat} (hi : ¬ IsEnd (BBEdge edges) i)
    (b : Nat) : b ∈ pd i ↔ ¬ Dropped (BBEdge edges) b i := by
  rcases Option.bind_eq_some_iff.mp h with ⟨⟨keys, pd₀⟩, hreach, hloop⟩
  have hreached := reachLoop_reached (reachInv_readBBGraph edges) hreach
  rw [← nextOf_readBBGraph] at hi ⊢
  have hnext : (readBBGraph edges).next i ≠ [] := fun hnil => hi (isEnd_next.mpr hnil)
  rcases fixpointLoop_induction hreached (fun _ hb => hb.round hreached) hreached.betweenRounds hloop
    with ⟨hbetween, hquiet⟩
  exact ⟨fun hb hdropped => hbetween.not_mem hreached hquiet hdropped hnext hb,
    hbetween.keeps i hnext b⟩

/-- **The sets are the post-dominators** if and only if a predecessor of a block without successors
drops everything but that block. -/
theorem post_dominator_right (edges : List (Nat × Nat))
    (hexit : ∀ i, ∃ e, Relation.ReflTransGen (BBEdge edges) i e ∧ IsEnd (BBEdge edges) e) :
    (∃ n, ∀ fuel, n ≤ fuel → ∃ pd, preparePostDominator fuel edges = some pd) ∧
      ∀ fuel pd, preparePostDominator fuel edges = some pd →
        (PostDominatorRight edges pd ↔ Clean (BBEdge edges)) := by
  refine ⟨preparePostDominator_isSome edges, fun fuel pd hpd => ⟨fun hright => ?_, fun hclean => ?_⟩⟩
  · intro i e hedge hend b hb
    by_contra hnot
    have hi : ¬ IsEnd (BBEdge edges) i := fun hi => hi e hedge
    have hmem := (mem_iff_not_dropped hpd hi b).mpr hnot
    have hpath := (hright i hi b).mp hmem [e] e
      (List.isChain_cons_cons.mpr ⟨hedge, .singleton e⟩) rfl hend
    exact hb (List.mem_singleton.mp hpath)
  · intro i hi b
    unfold PostDominates
    rw [← not_avoids_iff hi, mem_iff_not_dropped hpd hi]
    exact not_congr ⟨fun hdropped => hdropped.avoids hexit hi, hclean.dropped⟩

/-! ## Two graphs -/

/-- A branch in each arm of which control can end in block 3. Blocks 2 and 3 are spared: what they
would take over is the set of block 1, which has one block. -/
theorem post_dominator_right_branch : ∃ fuel pd,
    preparePostDominator fuel [(0, 1), (0, 4), (1, 3), (4, 2), (4, 3)] = some pd ∧
      PostDominatorRight [(0, 1), (0, 4), (1, 3), (4, 2), (4, 3)] pd := by
  let edges : List (Nat × Nat) := [(0, 1), (0, 4), (1, 3), (4, 2), (4, 3)]
  have hedge : ∀ i j, BBEdge edges i j ↔ (i = 0 ∧ j = 1) ∨ (i = 0 ∧ j = 4) ∨ (i = 1 ∧ j = 3) ∨
      (i = 4 ∧ j = 2) ∨ (i = 4 ∧ j = 3) := by
    intro i j
    simp [edges, BBEdge]
  have hend : ∀ e, e = 2 ∨ e = 3 → IsEnd (BBEdge edges) e := fun e he j hj => by
    rw [hedge] at hj
    omega
  have h01 : BBEdge edges 0 1 := (hedge 0 1).mpr (by omega)
  have h04 : BBEdge edges 0 4 := (hedge 0 4).mpr (by omega)
  have h13 : BBEdge edges 1 3 := (hedge 1 3).mpr (by omega)
  have h42 : BBEdge edges 4 2 := (hedge 4 2).mpr (by omega)
  have hexit : ∀ i, ∃ e, Relation.ReflTransGen (BBEdge edges) i e ∧ IsEnd (BBEdge edges) e := by
    intro i
    by_cases hi : i = 0 ∨ i = 1 ∨ i = 4
    · rcases hi with rfl | rfl | rfl
      · exact ⟨3, .head h01 (.single h13), hend 3 (by omega)⟩
      · exact ⟨3, .single h13, hend 3 (by omega)⟩
      · exact ⟨2, .single h42, hend 2 (by omega)⟩
    · refine ⟨i, .refl, fun j hj => ?_⟩
      rw [hedge] at hj
      omega
  -- the first round leaves block 3 in the set of block 1
  have hone : ∃! x, FirstKept (BBEdge edges) 1 x := by
    refine ⟨3, firstKept_iff.mpr ⟨.single h13, fun j hj hne => ?_⟩, fun x hx => ?_⟩
    · rw [hedge] at hj
      omega
    · by_contra hne
      cases (firstKept_iff.mp hx).2 3 h13 (Ne.symm hne) with
      | ahead _ hnot | passed _ hnot => exact hnot (hend 3 (by omega))
      | taken hlt => omega
  have hbelow : ∀ e, e = 2 ∨ e = 3 → Below (BBEdge edges) 1 e := by
    refine fun e he => ⟨by omega, fun h => h 3 h13, fun q hq hqnext => ?_⟩
    by_contra hlt
    exact hqnext (hend q (by omega))
  have hspared : ∀ e, e = 2 ∨ e = 3 → Spared (BBEdge edges) e := by
    refine fun e he => ⟨⟨0, by omega, ?_⟩, 1, hbelow e he, hone⟩
    rcases he with rfl | rfl
    · exact .head h04 (.single h42)
    · exact .head h01 (.single h13)
  have hclean : Clean (BBEdge edges) := by
    intro i e hie he b hb
    have hcase : e = 2 ∨ e = 3 := by
      by_contra hne
      rw [hedge] at hie
      have heq : e = 1 ∨ e = 4 := by omega
      rcases heq with rfl | rfl
      · exact he 3 h13
      · exact he 2 h42
    exact .spared hie he (Ne.symm hb) (hspared e hcase)
  rcases post_dominator_right edges hexit with ⟨⟨n, hn⟩, hright⟩
  rcases hn n le_rfl with ⟨pd, hpd⟩
  exact ⟨n, pd, hpd, (hright n pd hpd).mpr hclean⟩

/-- Control goes from block 0 to 2 and from there to 1. Block 1 takes over the set of block 0, which
holds block 2. -/
theorem exit_polluted :
    ¬ ∀ edges : List (Nat × Nat),
      (∀ i, ∃ e, Relation.ReflTransGen (BBEdge edges) i e ∧ IsEnd (BBEdge edges) e) →
        ∀ fuel pd, preparePostDominator fuel edges = some pd → PostDominatorRight edges pd := by
  intro h
  have hedge : ∀ i j, BBEdge [(0, 2), (2, 1)] i j ↔ (i = 0 ∧ j = 2) ∨ (i = 2 ∧ j = 1) := by
    intro i j
    simp [BBEdge]
  have hend : IsEnd (BBEdge [(0, 2), (2, 1)]) 1 := fun j hj => by
    rw [hedge] at hj
    omega
  have h21 : BBEdge [(0, 2), (2, 1)] 2 1 := (hedge 2 1).mpr (by omega)
  have hexit : ∀ i, ∃ e, Relation.ReflTransGen (BBEdge [(0, 2), (2, 1)]) i e ∧
      IsEnd (BBEdge [(0, 2), (2, 1)]) e := by
    intro i
    by_cases hi : i = 0 ∨ i = 2
    · refine ⟨1, ?_, hend⟩
      rcases hi with rfl | rfl
      · exact .head ((hedge 0 2).mpr (by omega)) (.single h21)
      · exact .single h21
    · refine ⟨i, .refl, fun j hj => ?_⟩
      rw [hedge] at hj
      omega
  have hset : (preparePostDominator 10 [(0, 2), (2, 1)]).map (fun pd => pd 2) = some {1, 2} := by
    decide +kernel
  rcases Option.map_eq_some_iff.mp hset with ⟨pd, hpd, htwo⟩
  have hright := h _ hexit 10 pd hpd 2 (fun hi => hi 1 h21) 2
  rw [htwo] at hright
  have hpath := hright.mp (by decide) [1] 1 (List.isChain_cons_cons.mpr ⟨h21, .singleton 1⟩) rfl hend
  exact absurd hpath (by decide)

end Slimmer
