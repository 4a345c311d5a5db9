import Mathlib.Logic.Relation
import Mathlib.Order.Basic
import Mathlib.Data.Set.Insert
import Mathlib.Order.BooleanAlgebra.Set
import Mathlib.Data.List.Basic

/-!
# Groups of elements

A `Grouping` puts some elements of a type into groups: a partial equivalence relation, of which the
elements in groups are the domain. It grows by `adjoin`, the least grouping in which the related
elements are together, and shrinks by `drop`, which takes elements out of their groups.

* `adjoin_le` is the universal property of `adjoin`, `join` its case of one set.
* `foldl_adjoin_drop`: links that are adjoined one after the other, each followed by the end of one
  element, are adjoined all at once, if no link comes after the end of what it links.
* `replace` puts other elements in the place of some; `replace_join_drop` says when this can be done
  before other elements come and go.
* `ofLabel` is the grouping of a map to labels. `ofLabel_join` says what giving all elements of a set
  one label does.
-/

namespace Slimmer

/-- Some elements are in groups. -/
structure Grouping (α : Type*) where
  Together : α → α → Prop
  symm : ∀ {x y}, Together x y → Together y x
  trans : ∀ {x y z}, Together x y → Together y z → Together x z

namespace Grouping

variable {α ι : Type*} {G H : Grouping α} {r r' : α → α → Prop} {x y z : α} {D D' M : Set α}

theorem ext' (h : ∀ x y, G.Together x y ↔ H.Together x y) : G = H := by
  cases G
  cases H
  congr
  funext x y
  exact propext (h x y)

instance : PartialOrder (Grouping α) where
  le G H := ∀ x y, G.Together x y → H.Together x y
  le_refl _ _ _ h := h
  le_trans _ _ _ h h' x y hxy := h' x y (h x y hxy)
  le_antisymm _ _ h h' := ext' fun x y => ⟨h x y, h' x y⟩

/-- No element is in a group. -/
instance : Inhabited (Grouping α) := ⟨⟨fun _ _ => False, False.elim, fun h => h.elim⟩⟩

theorem Together.left (h : G.Together x y) : G.Together x x := G.trans h (G.symm h)

theorem Together.right (h : G.Together x y) : G.Together y y := G.trans (G.symm h) h

/-! ## Adjoining -/

/-- The least grouping in which related elements are together. -/
def adjoin (G : Grouping α) (r : α → α → Prop) : Grouping α where
  Together := Relation.TransGen fun x y => G.Together x y ∨ r x y ∨ r y x
  symm h := by
    refine Relation.TransGen.mono ?_ _ _ (Relation.TransGen.swap _ _ h)
    rintro x y (h | h | h)
    · exact Or.inl (G.symm h)
    · exact Or.inr (Or.inr h)
    · exact Or.inr (Or.inl h)
  trans h h' := Relation.TransGen.trans h h'

theorem le_adjoin : G ≤ G.adjoin r := fun _ _ h => .single (Or.inl h)

theorem adjoin_of_rel (h : r x y) : (G.adjoin r).Together x y := .single (Or.inr (Or.inl h))

/-- **The universal property.** -/
theorem adjoin_le : G.adjoin r ≤ H ↔ G ≤ H ∧ ∀ x y, r x y → H.Together x y := by
  constructor
  · intro h
    exact ⟨le_adjoin.trans h, fun x y hr => h x y (adjoin_of_rel hr)⟩
  · rintro ⟨hG, hr⟩ x y h
    have hone : ∀ x y, G.Together x y ∨ r x y ∨ r y x → H.Together x y := by
      rintro x y (h | h | h)
      · exact hG x y h
      · exact hr x y h
      · exact H.symm (hr y x h)
    induction h with
    | single h => exact hone _ _ h
    | tail _ h ih => exact H.trans ih (hone _ _ h)

/-- Two relations that follow from each other adjoin the same. -/
theorem adjoin_congr (h : ∀ x y, r x y → (G.adjoin r').Together x y)
    (h' : ∀ x y, r' x y → (G.adjoin r).Together x y) : G.adjoin r = G.adjoin r' :=
  le_antisymm (adjoin_le.mpr ⟨le_adjoin, h⟩) (adjoin_le.mpr ⟨le_adjoin, h'⟩)

theorem adjoin_adjoin : (G.adjoin r).adjoin r' = G.adjoin fun x y => r x y ∨ r' x y := by
  apply le_antisymm
  · apply adjoin_le.mpr
    refine ⟨adjoin_le.mpr ⟨le_adjoin, fun x y h => adjoin_of_rel (Or.inl h)⟩, fun x y h => ?_⟩
    exact adjoin_of_rel (Or.inr h)
  · apply adjoin_le.mpr
    refine ⟨le_adjoin.trans le_adjoin, fun x y h => ?_⟩
    rcases h with h | h
    · exact le_adjoin x y (adjoin_of_rel h)
    · exact adjoin_of_rel h

/-- Only what is linked comes into a group. -/
theorem adjoin_self (h : (G.adjoin r).Together x x) :
    G.Together x x ∨ ∃ y, r x y ∨ r y x := by
  have hstep : ∀ z, G.Together z x ∨ r z x ∨ r x z → G.Together x x ∨ ∃ y, r x y ∨ r y x := by
    rintro z (hz | hz | hz)
    · exact Or.inl hz.right
    · exact Or.inr ⟨z, Or.inr hz⟩
    · exact Or.inr ⟨z, Or.inl hz⟩
  cases h with
  | single h => exact hstep _ h
  | tail _ h => exact hstep _ h

theorem adjoin_eq_self (h : ∀ x y, r x y → G.Together x y) : G.adjoin r = G :=
  le_antisymm (adjoin_le.mpr ⟨le_rfl, h⟩) le_adjoin

/-- All elements of a set come into one group. -/
def join (G : Grouping α) (M : Set α) : Grouping α := G.adjoin fun x y => x ∈ M ∧ y ∈ M

/-! ## Dropping -/

/-- The elements of a set are in no group any more. -/
def drop (G : Grouping α) (D : Set α) : Grouping α where
  Together x y := G.Together x y ∧ x ∉ D ∧ y ∉ D
  symm h := ⟨G.symm h.1, h.2.2, h.2.1⟩
  trans h h' := ⟨G.trans h.1 h'.1, h.2.1, h'.2.2⟩

theorem drop_drop : (G.drop D).drop D' = G.drop (D ∪ D') := by
  apply ext'
  intro x y
  simp only [drop, Set.mem_union, not_or]
  rw [and_assoc, and_and_and_comm]

theorem drop_empty : G.drop ∅ = G := by
  apply ext'
  intro x y
  simp [drop]

theorem drop_of_alone (h : ∀ x ∈ D, ¬ G.Together x x) : G.drop D = G := by
  apply ext'
  intro x y
  refine and_iff_left_of_imp fun hxy => ⟨fun hx => h x hx hxy.left, fun hy => h y hy hxy.right⟩

/-- What is not linked can be dropped before or after. -/
theorem drop_adjoin (h : ∀ x y, r x y → x ∉ D ∧ y ∉ D) :
    (G.drop D).adjoin r = (G.adjoin r).drop D := by
  apply le_antisymm
  · apply adjoin_le.mpr
    exact ⟨fun x y hxy => ⟨le_adjoin x y hxy.1, hxy.2⟩, fun x y hxy => ⟨adjoin_of_rel hxy, h x y hxy⟩⟩
  · intro x y hc
    obtain ⟨hxy, hx, hy⟩ := hc
    -- a path from `x` only enters the set in a group of `G`, which it also leaves in `G`
    have hpath : (y ∉ D → ((G.drop D).adjoin r).Together x y) ∧
        (y ∈ D → ∃ w, w ∉ D ∧ (w = x ∨ ((G.drop D).adjoin r).Together x w) ∧ G.Together w y) := by
      clear hy
      induction hxy with
      | @single y hxy =>
        rcases hxy with hxy | hxy
        · exact ⟨fun hy => le_adjoin x y ⟨hxy, hx, hy⟩, fun _ => ⟨x, hx, Or.inl rfl, hxy⟩⟩
        · refine ⟨fun _ => .single (Or.inr hxy), fun hy => ?_⟩
          rcases hxy with hxy | hxy
          · exact absurd hy (h x y hxy).2
          · exact absurd hy (h y x hxy).1
      | @tail z y _ hzy ih =>
        rcases hzy with hzy | hzy
        · by_cases hz : z ∈ D
          · rcases ih.2 hz with ⟨w, hw, hxw, hwz⟩
            have hwy := G.trans hwz hzy
            refine ⟨fun hy => ?_, fun _ => ⟨w, hw, hxw, hwy⟩⟩
            rcases hxw with rfl | hxw
            · exact le_adjoin w y ⟨hwy, hw, hy⟩
            · exact trans _ hxw (le_adjoin w y ⟨hwy, hw, hy⟩)
          · have hxz := ih.1 hz
            exact ⟨fun hy => trans _ hxz (le_adjoin z y ⟨hzy, hz, hy⟩),
              fun _ => ⟨z, hz, Or.inr hxz, hzy⟩⟩
        · have hnot : z ∉ D ∧ y ∉ D := by
            rcases hzy with hzy | hzy
            · exact h z y hzy
            · exact (h y z hzy).symm
          exact ⟨fun _ => trans _ (ih.1 hnot.1) (.single (Or.inr hzy)), fun hy => absurd hy hnot.2⟩
    exact hpath.1 hy

/-- **One after the other, or all at once.** Element `x i` is dropped when its link has been
adjoined, and later links are not about it. -/
theorem foldl_adjoin_drop {l : List ι} {x : ι → α} {link : ι → α → α → Prop}
    (hl : l.Pairwise fun i j => ∀ a b, link j a b → a ≠ x i ∧ b ≠ x i) (G : Grouping α) :
    l.foldl (fun G i => (G.adjoin (link i)).drop {x i}) G =
      (G.adjoin fun a b => ∃ i ∈ l, link i a b).drop {a | ∃ i ∈ l, a = x i} := by
  induction l generalizing G with
  | nil =>
    have hdrop : {a | ∃ i ∈ ([] : List ι), a = x i} = ∅ := by
      ext a
      simp
    rw [hdrop, drop_empty, adjoin_eq_self fun a b h => by simp at h]
    rfl
  | cons i l ih =>
    rcases List.pairwise_cons.mp hl with ⟨hi, hl⟩
    have hapart : ∀ a b, (∃ j ∈ l, link j a b) → a ∉ ({x i} : Set α) ∧ b ∉ ({x i} : Set α) := by
      intro a b hc
      obtain ⟨j, hj, hlink⟩ := hc
      exact hi j hj a b hlink
    have hdrop : {a | ∃ j ∈ i :: l, a = x j} = {x i} ∪ {a | ∃ j ∈ l, a = x j} := by
      ext a
      simp
    rw [List.foldl_cons, ih hl, drop_adjoin hapart, drop_drop, adjoin_adjoin, hdrop]
    simp only [List.exists_mem_cons_iff]

/-! ## Replacing -/

theorem drop_comm : (G.drop D).drop D' = (G.drop D').drop D := by
  rw [drop_drop, drop_drop, Set.union_comm]

theorem join_adjoin : (G.join M).adjoin r = (G.adjoin r).join M := by
  unfold join
  rw [adjoin_adjoin, adjoin_adjoin]
  simp only [or_comm]

/-- Elements that are linked with others of their groups can be dropped and linked again. -/
theorem drop_adjoin_self (hr : ∀ x y, r x y → G.Together x y)
    (hD : ∀ x ∈ D, G.Together x x → ∃ y ∉ D, r x y) : (G.drop D).adjoin r = G := by
  apply le_antisymm
  · exact adjoin_le.mpr ⟨fun x y h => h.1, hr⟩
  · intro x y hxy
    have hnear : ∀ z, G.Together z z → ∃ w ∉ D, G.Together z w ∧
        (w = z ∨ ((G.drop D).adjoin r).Together z w) := by
      intro z hz
      by_cases hzD : z ∈ D
      · rcases hD z hzD hz with ⟨w, hw, hlink⟩
        exact ⟨w, hw, hr z w hlink, Or.inr (adjoin_of_rel hlink)⟩
      · exact ⟨z, hzD, hz, Or.inl rfl⟩
    rcases hnear x hxy.left with ⟨v, hv, hxv, hxv'⟩
    rcases hnear y hxy.right with ⟨w, hw, hyw, hyw'⟩
    have hvw : ((G.drop D).adjoin r).Together v w :=
      le_adjoin v w ⟨G.trans (G.symm hxv) (G.trans hxy hyw), hv, hw⟩
    have hxw : ((G.drop D).adjoin r).Together x w := by
      rcases hxv' with rfl | hxv'
      · exact hvw
      · exact trans _ hxv' hvw
    rcases hyw' with rfl | hyw'
    · exact hxw
    · exact trans _ hxw (symm _ hyw')

/-- The elements of `A` that are in groups give way to what they are linked with. -/
def replace (G : Grouping α) (A : Set α) (p : α → α → Prop) : Grouping α :=
  (G.adjoin fun x y => x ∈ A ∧ G.Together x x ∧ p x y).drop A

/-- Nothing of `A` is in a group. -/
theorem replace_of_alone {A : Set α} {p : α → α → Prop} (h : ∀ x ∈ A, ¬ G.Together x x) :
    G.replace A p = G := by
  unfold replace
  rw [adjoin_eq_self fun x y hxy => absurd hxy.2.1 (h x hxy.1), drop_of_alone h]

/-- **Replacing early.** Elements can give way before a set is joined and some elements are dropped,
and those of the set once more behind it: if what they are linked with is not dropped, and those
that come again are linked at all. -/
theorem replace_join_drop {A : Set α} {p : α → α → Prop} (hA : ∀ x ∈ A, x ∉ D)
    (hp : ∀ x ∈ A, ∀ y, p x y → y ∉ A)
    (hkept : ∀ x ∈ A, G.Together x x → ∀ y, p x y → y ∉ D)
    (hagain : ∀ x ∈ A, G.Together x x → x ∈ M → ∃ y, p x y) :
    (((G.replace A p).join M).drop D).replace A p = ((G.join M).drop D).replace A p := by
  -- the links of the elements in groups, and those of the elements that come then
  let before : α → α → Prop := fun x y => x ∈ A ∧ G.Together x x ∧ p x y
  let again : α → α → Prop := fun x y => x ∈ A ∧ x ∈ M ∧ p x y
  let both : α → α → Prop := fun x y => before x y ∧ again x y
  have hearly : (fun x y => x ∈ A ∧ (((G.replace A p).join M).drop D).Together x x ∧ p x y) =
      fun x y => again x y ∨ both x y := by
    funext x y
    refine propext ⟨fun h => Or.inl ⟨h.1, ?_, h.2.2⟩, fun h => ?_⟩
    · rcases adjoin_self h.2.1.1 with hold | ⟨z, hz | hz⟩
      · exact absurd h.1 hold.2.1
      · exact hz.1
      · exact hz.2
    · have h' : again x y := h.elim id And.right
      exact ⟨h'.1, ⟨adjoin_of_rel ⟨h'.2.1, h'.2.1⟩, hA x h'.1, hA x h'.1⟩, h'.2.2⟩
  have hlate : (fun x y => x ∈ A ∧ ((G.join M).drop D).Together x x ∧ p x y) =
      fun x y => before x y ∨ again x y := by
    funext x y
    refine propext ⟨fun h => ?_, fun h => ?_⟩
    · rcases adjoin_self h.2.1.1 with hold | ⟨z, hz | hz⟩
      · exact Or.inl ⟨h.1, hold, h.2.2⟩
      · exact Or.inr ⟨h.1, hz.1, h.2.2⟩
      · exact Or.inr ⟨h.1, hz.2, h.2.2⟩
    · rcases h with h | h
      · exact ⟨h.1, ⟨le_adjoin x x h.2.1, hA x h.1, hA x h.1⟩, h.2.2⟩
      · exact ⟨h.1, ⟨adjoin_of_rel ⟨h.2.1, h.2.1⟩, hA x h.1, hA x h.1⟩, h.2.2⟩
  have hbefore : ∀ x y, before x y → x ∉ D ∧ y ∉ D :=
    fun x y h => ⟨hA x h.1, hkept x h.1 h.2.1 y h.2.2⟩
  -- the elements that do not come again may stay
  have hsplit : G.replace A p = ((G.adjoin before).drop (A \ M)).drop (A ∩ M) := by
    rw [drop_drop, Set.sdiff_union_inter]
    rfl
  have hrelink : (((G.adjoin before).drop (A \ M)).drop (A ∩ M)).adjoin both =
      (G.adjoin before).drop (A \ M) := by
    apply drop_adjoin_self
    · intro x y h
      exact ⟨adjoin_of_rel h.1, fun hx => hx.2 h.2.2.1, fun hy => hp x h.1.1 y h.1.2.2 hy.1⟩
    · rintro x ⟨hxA, hxM⟩ ⟨hx, -⟩
      have hlive : G.Together x x := by
        rcases adjoin_self hx with hx | ⟨y, hy | hy⟩
        · exact hx
        · exact hy.2.1
        · exact absurd hxA (hp y hy.1 x hy.2.2)
      rcases hagain x hxA hlive hxM with ⟨y, hy⟩
      exact ⟨y, fun hyA => hp x hxA y hy hyA.1, ⟨hxA, hlive, hy⟩, hxA, hxM, hy⟩
  have hfree : ∀ x y, x ∈ M ∧ y ∈ M → x ∉ A \ M ∧ y ∉ A \ M :=
    fun x y h => ⟨fun hx => hx.2 h.1, fun hy => hy.2 h.2⟩
  have hagainFree : ∀ x y, again x y → x ∉ A \ M ∧ y ∉ A \ M :=
    fun x y h => ⟨fun hx => hx.2 h.2.1, fun hy => hp x h.1 y h.2.2 hy.1⟩
  have hall : A \ M ∪ A = A := Set.union_eq_self_of_subset_left Set.sdiff_subset
  calc (((G.replace A p).join M).drop D).replace A p
      = ((((G.replace A p).join M).drop D).adjoin fun x y => both x y ∨ again x y).drop A := by
        rw [replace, hearly]
        simp only [or_comm]
    _ = (((((((G.adjoin before).drop (A \ M)).drop (A ∩ M)).adjoin both).join M).drop D).adjoin
          again).drop A := by
        rw [← adjoin_adjoin, drop_adjoin fun x y h => hbefore x y h.1, join_adjoin, hsplit]
    _ = ((((((G.adjoin before).join M).drop D).drop (A \ M)).adjoin again)).drop A := by
        rw [hrelink, join, drop_adjoin hfree, drop_comm]
        rfl
    _ = ((((G.adjoin before).join M).drop D).adjoin again).drop A := by
        rw [drop_adjoin hagainFree, drop_drop, hall]
    _ = ((((G.join M).drop D).adjoin before).adjoin again).drop A := by
        rw [← join_adjoin, drop_adjoin hbefore]
    _ = ((G.join M).drop D).replace A p := by
        rw [adjoin_adjoin, replace, hlate]

/-! ## Labels -/

variable {γ : Type*} {f f' : α → Option γ} {gs : γ → Prop} {g : γ}

/-- The elements with the same label are together. -/
def ofLabel (f : α → Option γ) : Grouping α where
  Together x y := ∃ g, f x = some g ∧ f y = some g
  symm h := by
    rcases h with ⟨g, hx, hy⟩
    exact ⟨g, hy, hx⟩
  trans h h' := by
    rcases h with ⟨g, hx, hy⟩
    rcases h' with ⟨g', hy', hz⟩
    cases hy.symm.trans hy'
    exact ⟨g, hx, hz⟩

theorem ofLabel_self : (ofLabel f).Together x x ↔ (f x).isSome := by
  rw [Option.isSome_iff_exists]
  simp [ofLabel]

theorem ofLabel_drop (h : ∀ x, (x ∈ D → f' x = none) ∧ (x ∉ D → f' x = f x)) :
    ofLabel f' = (ofLabel f).drop D := by
  apply ext'
  intro x y
  constructor
  · intro hc
    obtain ⟨g, hx, hy⟩ := hc
    have hxD : x ∉ D := fun hD => nomatch ((h x).1 hD).symm.trans hx
    have hyD : y ∉ D := fun hD => nomatch ((h y).1 hD).symm.trans hy
    exact ⟨⟨g, ((h x).2 hxD).symm.trans hx, ((h y).2 hyD).symm.trans hy⟩, hxD, hyD⟩
  · intro hc
    obtain ⟨⟨g, hx, hy⟩, hxD, hyD⟩ := hc
    exact ⟨g, ((h x).2 hxD).trans hx, ((h y).2 hyD).trans hy⟩

/-- **Giving a set one label.** All labels `gs` that occur in the set become `g`, which is one of
them unless none occurs; then `g` is a new one. -/
theorem ofLabel_join {rename : γ → γ} (hocc : ∀ h, gs h ↔ ∃ x ∈ M, f x = some h)
    (hg : gs g ∨ (∀ h, ¬ gs h) ∧ ∀ x, f x ≠ some g) (hjoined : ∀ h, gs h → rename h = g)
    (hother : ∀ h, ¬ gs h → rename h = h) (hin : ∀ x ∈ M, f' x = some g)
    (hout : ∀ x ∉ M, f' x = (f x).map rename) : ofLabel f' = (ofLabel f).join M := by
  -- an element that gets the label is in the set, or together with one of the set
  have hnear : ∀ x, f' x = some g → ∃ m ∈ M, ((ofLabel f).join M).Together x m := by
    intro x hx
    by_cases hM : x ∈ M
    · exact ⟨x, hM, adjoin_of_rel ⟨hM, hM⟩⟩
    rw [hout x hM] at hx
    rcases Option.map_eq_some_iff.mp hx with ⟨h, hxh, hh⟩
    by_cases hgs : gs h
    · rcases (hocc h).mp hgs with ⟨m, hm, hmh⟩
      exact ⟨m, hm, le_adjoin x m ⟨h, hxh, hmh⟩⟩
    · rw [hother h hgs] at hh
      rw [hh] at hgs hxh
      rcases hg with hg | hg
      · exact absurd hg hgs
      · exact absurd hxh (hg.2 x)
  apply le_antisymm
  · intro x y hc
    obtain ⟨k, hx, hy⟩ := hc
    by_cases hkg : k = g
    · rw [hkg] at hx hy
      rcases hnear x hx with ⟨m, hm, hxm⟩
      rcases hnear y hy with ⟨m', hm', hym⟩
      exact trans _ hxm (trans _ (adjoin_of_rel ⟨hm, hm'⟩) (symm _ hym))
    · have hsame : ∀ x, f' x = some k → f x = some k := by
        intro x hx
        have hM : x ∉ M := fun hM => hkg (Option.some.inj (hx.symm.trans (hin x hM)))
        rw [hout x hM] at hx
        rcases Option.map_eq_some_iff.mp hx with ⟨h, hxh, hh⟩
        by_cases hgs : gs h
        · exact absurd (hh.symm.trans (hjoined h hgs)) hkg
        · rw [hother h hgs] at hh
          rw [hxh, hh]
      exact le_adjoin x y ⟨k, hsame x hx, hsame y hy⟩
  · apply adjoin_le.mpr
    refine ⟨fun x y hxy => ?_, fun x y hxy => ⟨g, hin x hxy.1, hin y hxy.2⟩⟩
    rcases hxy with ⟨h, hx, hy⟩
    refine ⟨rename h, ?_, ?_⟩
    · by_cases hM : x ∈ M
      · rw [hin x hM, hjoined h ((hocc h).mpr ⟨x, hM, hx⟩)]
      · rw [hout x hM, hx, Option.map_some]
    · by_cases hM : y ∈ M
      · rw [hin y hM, hjoined h ((hocc h).mpr ⟨y, hM, hy⟩)]
      · rw [hout y hM, hy, Option.map_some]

open Classical in
variable (gs g) in
/-- Some elements are dropped then. -/
theorem ofLabel_join_drop (rename : γ → γ) (hocc : ∀ h, gs h ↔ ∃ x ∈ M, f x = some h)
    (hg : gs g ∨ (∀ h, ¬ gs h) ∧ ∀ x, f x ≠ some g) (hjoined : ∀ h, gs h → rename h = g)
    (hother : ∀ h, ¬ gs h → rename h = h) (hdrop : ∀ x ∈ D, f' x = none)
    (hin : ∀ x ∈ M, x ∉ D → f' x = some g) (hout : ∀ x ∉ M, x ∉ D → f' x = (f x).map rename) :
    ofLabel f' = ((ofLabel f).join M).drop D := by
  let joint : α → Option γ := fun x => if x ∈ M then some g else (f x).map rename
  have hjoin : ofLabel joint = (ofLabel f).join M :=
    ofLabel_join hocc hg hjoined hother (fun x hx => if_pos hx) fun x hx => if_neg hx
  rw [← hjoin]
  apply ofLabel_drop
  intro x
  refine ⟨hdrop x, fun hD => ?_⟩
  show f' x = if x ∈ M then some g else (f x).map rename
  split_ifs with hM
  · exact hin x hM hD
  · exact hout x hM hD

end Grouping

end Slimmer
