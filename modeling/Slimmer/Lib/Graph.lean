import Mathlib.Data.List.Chain
import Mathlib.Data.Finset.Card
import Mathlib.Logic.Relation

/-!
# Finite graphs: depth-first search and avoiding paths

* `dfs` is a depth-first search over lists of successors. It marks what can be reached
  (`mem_dfs`), and it ends when it may descend as often as there are nodes (`dfs_isSome`).
* An *end* is a node without successors. `Avoids E b i` says that a path from `i` to an end does
  not come to `b` behind `i`; `not_avoids_iff` reads it as a statement about all paths.
-/

namespace Slimmer

variable {α : Type*}

/-! ## Depth-first search -/

section

variable [DecidableEq α] (next : α → List α)

/-- Mark `v` and, one after the other, its successors that are not marked yet. The first argument
bounds the depth; `none` when it is too small. -/
def dfs : Nat → α → List α → Option (List α)
  | 0, _, _ => none
  | n + 1, v, mark =>
    (next v).foldlM (fun mark w => if w ∈ mark then some mark else dfs n w mark) (v :: mark)

variable {next} {v w : α} {mark mark' : List α} {n : Nat}

/-- A search that may descend further finds the same. -/
theorem dfs_mono {n' : Nat} (hle : n ≤ n') (h : dfs next n v mark = some mark') :
    dfs next n' v mark = some mark' := by
  induction n generalizing n' v mark mark' with
  | zero => cases h
  | succ n ih =>
    obtain ⟨n', rfl⟩ : ∃ k, n' = k + 1 := ⟨n' - 1, by omega⟩
    rw [dfs] at h ⊢
    generalize v :: mark = mark₀, next v = ws at h ⊢
    induction ws generalizing mark₀ with
    | nil => exact h
    | cons w ws ihw =>
      rw [List.foldlM_cons] at h ⊢
      obtain ⟨mark₁, hw, hrest⟩ := Option.bind_eq_some_iff.mp h
      refine Option.bind_eq_some_iff.mpr ⟨mark₁, ?_, ihw mark₁ hrest⟩
      split_ifs at hw ⊢
      · exact hw
      · exact ih (Nat.le_of_succ_le_succ hle) hw

/-- What holds of a search: it keeps the marks, it marks `v`, it marks only what can be reached, and
it leaves no successor of what it marks unmarked. -/
structure Searched (next : α → List α) (v : α) (mark mark' : List α) : Prop where
  keeps : ∀ w ∈ mark, w ∈ mark'
  self : v ∈ mark'
  reach : ∀ w ∈ mark', w ∈ mark ∨ Relation.ReflTransGen (fun a b => b ∈ next a) v w
  closed : ∀ w ∈ mark', w ∈ mark ∨ ∀ x ∈ next w, x ∈ mark'

theorem searched_of_dfs (h : dfs next n v mark = some mark') : Searched next v mark mark' := by
  induction n generalizing v mark mark' with
  | zero => cases h
  | succ n ih =>
    -- the successors `l` are left, and the others have been marked
    have hfold : ∀ (l : List α) (m m' : List α), (∀ w ∈ l, w ∈ next v) →
        l.foldlM (fun mark w => if w ∈ mark then some mark else dfs next n w mark) m = some m' →
        (∀ w ∈ m, w ∈ m') ∧ (∀ w ∈ l, w ∈ m') ∧
          (∀ w ∈ m', w ∈ m ∨ Relation.ReflTransGen (fun a b => b ∈ next a) v w) ∧
            ∀ w ∈ m', w ∈ m ∨ ∀ x ∈ next w, x ∈ m' := by
      intro l
      induction l with
      | nil =>
        intro m m' _ hm
        cases hm
        exact ⟨fun _ h => h, fun _ h => (nomatch h), fun _ h => Or.inl h, fun _ h => Or.inl h⟩
      | cons x l ihl =>
        intro m m' hl hm
        rw [List.foldlM_cons] at hm
        rcases Option.bind_eq_some_iff.mp hm with ⟨m₁, hm₁, hm⟩
        rcases ihl m₁ m' (fun w hw => hl w (List.mem_cons_of_mem _ hw)) hm with
          ⟨hkeeps, hall, hreach, hclosed⟩
        split_ifs at hm₁ with hx
        · cases hm₁
          refine ⟨hkeeps, ?_, hreach, hclosed⟩
          intro w hw
          rcases List.mem_cons.mp hw with rfl | hw
          · exact hkeeps w hx
          · exact hall w hw
        · have hs := ih hm₁
          refine ⟨fun w hw => hkeeps w (hs.keeps w hw), ?_, ?_, ?_⟩
          · intro w hw
            rcases List.mem_cons.mp hw with rfl | hw
            · exact hkeeps w hs.self
            · exact hall w hw
          · intro w hw
            rcases hreach w hw with hw | hw
            · rcases hs.reach w hw with hw | hw
              · exact Or.inl hw
              · exact Or.inr (hw.head (hl x List.mem_cons_self))
            · exact Or.inr hw
          · intro w hw
            rcases hclosed w hw with hw | hw
            · rcases hs.closed w hw with hw | hw
              · exact Or.inl hw
              · exact Or.inr fun y hy => hkeeps y (hw y hy)
            · exact Or.inr hw
    rcases hfold (next v) (v :: mark) mark' (fun _ h => h) h with ⟨hkeeps, hall, hreach, hclosed⟩
    refine ⟨fun w hw => hkeeps w (List.mem_cons_of_mem _ hw), hkeeps v List.mem_cons_self, ?_, ?_⟩
    · intro w hw
      rcases hreach w hw with hw | hw
      · rcases List.mem_cons.mp hw with rfl | hw
        · exact Or.inr .refl
        · exact Or.inl hw
      · exact Or.inr hw
    · intro w hw
      rcases hclosed w hw with hw | hw
      · rcases List.mem_cons.mp hw with rfl | hw
        · exact Or.inr hall
        · exact Or.inl hw
      · exact Or.inr hw

/-- **A search that begins without marks** marks exactly what can be reached. -/
theorem mem_dfs (h : dfs next n v [] = some mark) :
    w ∈ mark ↔ Relation.ReflTransGen (fun a b => b ∈ next a) v w := by
  have hs := searched_of_dfs h
  constructor
  · intro hw
    rcases hs.reach w hw with hw | hw
    · cases hw
    · exact hw
  · intro hw
    induction hw with
    | refl => exact hs.self
    | @tail x y _ hedge ih =>
      rcases hs.closed x ih with hx | hx
      · cases hx
      · exact hx y hedge

/-- **The search ends** when it may descend as often as there are nodes without a mark. -/
theorem dfs_isSome {U : Finset α} (hU : ∀ a ∈ U, ∀ b ∈ next a, b ∈ U) (hv : v ∈ U)
    (hmark : v ∉ mark) (hn : (U \ mark.toFinset).card ≤ n) :
    ∃ mark', dfs next n v mark = some mark' := by
  induction n generalizing v mark with
  | zero =>
    have hmem : v ∈ U \ mark.toFinset := by simp [hv, hmark]
    have := Finset.card_pos.mpr ⟨v, hmem⟩
    omega
  | succ n ih =>
    have hlt : (U \ (v :: mark).toFinset).card < (U \ mark.toFinset).card := by
      apply Finset.card_lt_card
      refine ⟨fun w hw => ?_, fun hsub => ?_⟩
      · simp only [Finset.mem_sdiff, List.mem_toFinset, List.mem_cons, not_or] at hw ⊢
        exact ⟨hw.1, hw.2.2⟩
      · have := hsub (show v ∈ U \ mark.toFinset by simp [hv, hmark])
        simp at this
    have hfold : ∀ (l : List α) (m : List α), (∀ w ∈ l, w ∈ U) → (∀ w ∈ v :: mark, w ∈ m) →
        ∃ m', l.foldlM (fun mark w => if w ∈ mark then some mark else dfs next n w mark) m =
          some m' := by
      intro l
      induction l with
      | nil => exact fun m _ _ => ⟨m, rfl⟩
      | cons x l ihl =>
        intro m hl hm
        rw [List.foldlM_cons]
        by_cases hx : x ∈ m
        · rcases ihl m (fun w hw => hl w (List.mem_cons_of_mem _ hw)) hm with ⟨m', hm'⟩
          exact ⟨m', by rw [if_pos hx]; exact hm'⟩
        · have hle : (U \ m.toFinset).card ≤ (U \ (v :: mark).toFinset).card := by
            apply Finset.card_le_card
            intro w hw
            simp only [Finset.mem_sdiff, List.mem_toFinset] at hw ⊢
            exact ⟨hw.1, fun h => hw.2 (hm w h)⟩
          rcases ih (hl x List.mem_cons_self) hx (by omega) with ⟨m₁, hm₁⟩
          rcases ihl m₁ (fun w hw => hl w (List.mem_cons_of_mem _ hw))
            (fun w hw => (searched_of_dfs hm₁).keeps w (hm w hw)) with ⟨m', hm'⟩
          exact ⟨m', by rw [if_neg hx, hm₁]; exact hm'⟩
    exact hfold (next v) (v :: mark) (hU v hv) fun _ h => h

end

/-! ## Avoiding paths -/

section

variable {E : α → α → Prop} {b i : α}

/-- A node without successors. -/
def IsEnd (E : α → α → Prop) (e : α) : Prop := ∀ j, ¬ E e j

/-- Some path from `i` to an end does not come to `b` behind `i`. -/
inductive Avoids (E : α → α → Prop) (b : α) : α → Prop
  | last {i e} (h : E i e) (hend : IsEnd E e) (hne : e ≠ b) : Avoids E b i
  | step {i j} (h : E i j) (hne : j ≠ b) (ht : Avoids E b j) : Avoids E b i

/-- No path avoids `b` if and only if every path to an end comes to `b`. -/
theorem not_avoids_iff (hi : ¬ IsEnd E i) : ¬ Avoids E b i ↔
    ∀ l e, List.IsChain E (i :: l) → (i :: l).getLast? = some e → IsEnd E e → b ∈ l := by
  constructor
  · intro h l
    induction l generalizing i with
    | nil =>
      intro e _ hlast hend
      cases hlast
      exact absurd hend hi
    | cons j l ih =>
      intro e hchain hlast hend
      rcases List.isChain_cons_cons.mp hchain with ⟨hedge, hchain⟩
      by_contra hb
      rw [List.mem_cons, not_or] at hb
      by_cases hj : IsEnd E j
      · exact h (.last hedge hj (Ne.symm hb.1))
      · refine hb.2 (ih hj (fun ht => h (.step hedge (Ne.symm hb.1) ht)) e hchain ?_ hend)
        rw [List.getLast?_cons_cons] at hlast
        exact hlast
  · intro h ha
    have hpath : ∃ l e, List.IsChain E (i :: l) ∧ (i :: l).getLast? = some e ∧ IsEnd E e ∧ b ∉ l := by
      clear h hi
      induction ha with
      | @last i e hedge hend hne =>
        exact ⟨[e], e, by simpa using hedge, rfl, hend, by simpa using Ne.symm hne⟩
      | @step i j hedge hne _ ih =>
        rcases ih with ⟨l, e, hchain, hlast, hend, hb⟩
        refine ⟨j :: l, e, List.isChain_cons_cons.mpr ⟨hedge, hchain⟩, ?_, hend, ?_⟩
        · rw [List.getLast?_cons_cons]
          exact hlast
        · rw [List.mem_cons, not_or]
          exact ⟨Ne.symm hne, hb⟩
    rcases hpath with ⟨l, e, hchain, hlast, hend, hb⟩
    exact hb (h l e hchain hlast hend)

/-- A path that avoids what cannot be reached. -/
theorem avoids_of_not_reach {e : α} (h : Relation.ReflTransGen E i e) (hend : IsEnd E e)
    (hi : ¬ IsEnd E i) (hb : ¬ Relation.ReflTransGen E i b) : Avoids E b i := by
  induction h using Relation.ReflTransGen.head_induction_on with
  | refl => exact absurd hend hi
  | @head i j hedge hrest ih =>
    have hj : ¬ Relation.ReflTransGen E j b := fun h => hb (h.head hedge)
    have hne : j ≠ b := by
      rintro rfl
      exact hj .refl
    by_cases hjend : IsEnd E j
    · exact .last hedge hjend hne
    · exact .step hedge hne (ih hjend hj)

end

end Slimmer
