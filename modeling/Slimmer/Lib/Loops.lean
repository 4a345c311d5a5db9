import Mathlib.Logic.Relation
import Mathlib.Order.WellFounded

/-!
# Loops

A loop is a step function `σ → Option σ`: in a state it makes a turn, or it has ended.

* `loop` runs it for at most so many turns.
* `EndsIn` says where it ends, and `endsIn_iff_loop` that this is what `loop` finds.
* `EndsIn.invariant` is the invariant rule, `exists_endsIn` the termination rule.
* `Reaches.endsIn`: there is one way only, so a state that is reached lies on the way to the end, and
  `Reaches.turn_of_path` carries over to all turns what holds of those on the way.
-/

namespace Slimmer

variable {σ : Type*} {step : σ → Option σ} {s t u v : σ}

/-- At most `fuel` turns, the last of which finds that the loop has ended. -/
def loop (step : σ → Option σ) : Nat → σ → Option σ
  | 0, _ => none
  | fuel + 1, s =>
    match step s with
    | none => some s
    | some s' => loop step fuel s'

/-- Turns lead from one state to the other. -/
def Reaches (step : σ → Option σ) : σ → σ → Prop :=
  Relation.ReflTransGen fun s t => step s = some t

/-- The loop ends, in this state. -/
def EndsIn (step : σ → Option σ) (s t : σ) : Prop := Reaches step s t ∧ step t = none

theorem EndsIn.head (h : step s = some u) (hend : EndsIn step u t) : EndsIn step s t :=
  ⟨.head h hend.1, hend.2⟩

/-- A state that is reached lies on the way to the end. -/
theorem Reaches.endsIn (h : Reaches step s u) (hend : EndsIn step s t) : EndsIn step u t := by
  induction h with
  | refl => exact hend
  | tail _ hturn ih =>
    obtain heq | ⟨w, hw, hrest⟩ := Relation.ReflTransGen.cases_head ih.1
    · rw [heq, ih.2] at hturn
      cases hturn
    · cases hturn.symm.trans hw
      exact ⟨hrest, ih.2⟩

theorem EndsIn.unique (h : EndsIn step s t) (h' : EndsIn step s u) : t = u := by
  obtain heq | ⟨w, hw, -⟩ := Relation.ReflTransGen.cases_head (h.1.endsIn h').1
  · exact heq
  · rw [h.2] at hw
    cases hw

/-- More turns than needed do no harm. -/
theorem loop_mono {fuel n : Nat} (h : loop step fuel s = some t) (hle : fuel ≤ n) :
    loop step n s = some t := by
  induction fuel generalizing s n with
  | zero => cases h
  | succ fuel ih =>
    obtain ⟨n, rfl⟩ : ∃ m, n = m + 1 := ⟨n - 1, by omega⟩
    rw [loop] at h ⊢
    split at h
    · exact h
    · exact ih h (by omega)

theorem endsIn_iff_loop : EndsIn step s t ↔ ∃ fuel, loop step fuel s = some t := by
  constructor
  · intro ⟨h, hend⟩
    induction h using Relation.ReflTransGen.head_induction_on with
    | refl => exact ⟨1, by rw [loop, hend]⟩
    | head hturn _ ih =>
      obtain ⟨fuel, hfuel⟩ := ih
      exact ⟨fuel + 1, by rw [loop, hturn]; exact hfuel⟩
  · intro ⟨fuel, hfuel⟩
    induction fuel generalizing s with
    | zero => cases hfuel
    | succ fuel ih =>
      rw [loop] at hfuel
      split at hfuel
      · rename_i hend
        cases hfuel
        exact ⟨.refl, hend⟩
      · rename_i s' hturn
        exact (ih hfuel).head hturn

/-- **The invariant rule.** What every turn keeps holds in every state reached. -/
theorem Reaches.invariant {P : σ → Prop} (h : Reaches step s t) (hs : P s)
    (hstep : ∀ s s', P s → step s = some s' → P s') : P t := by
  induction h with
  | refl => exact hs
  | tail _ hturn ih => exact hstep _ _ ih hturn

/-- The invariant rule at the end of the loop. -/
theorem EndsIn.invariant {P : σ → Prop} (h : EndsIn step s t) (hs : P s)
    (hstep : ∀ s s', P s → step s = some s' → P s') : P t ∧ step t = none :=
  ⟨h.1.invariant hs hstep, h.2⟩

/-- **The termination rule.** A loop ends when every turn makes something smaller. -/
theorem exists_endsIn {α : Type*} {r : α → α → Prop} (hr : WellFounded r) (f : σ → α) {P : σ → Prop}
    (hstep : ∀ s s', P s → step s = some s' → P s' ∧ r (f s') (f s)) (hs : P s) :
    ∃ t, EndsIn step s t := by
  induction hm : f s using hr.induction generalizing s with
  | _ m ih =>
    cases hturn : step s with
    | none => exact ⟨s, .refl, hturn⟩
    | some s' =>
      obtain ⟨hs', hlt⟩ := hstep s s' hs hturn
      obtain ⟨t, ht⟩ := ih (f s') (hm ▸ hlt) hs' rfl
      exact ⟨t, ht.head hturn⟩

/-- A turn made anywhere is one of those on the way to the end. -/
theorem Reaches.turn_of_path {R : σ → σ → Prop} (h : Reaches step s u) (hturn : step u = some v)
    (hpath : Relation.ReflTransGen (fun a b => step a = some b ∧ R a b) s t)
    (hend : step t = none) : R u v := by
  have hrest : Relation.ReflTransGen (fun a b => step a = some b ∧ R a b) u t := by
    clear hturn
    induction h with
    | refl => exact hpath
    | tail _ hnext ih =>
      obtain heq | ⟨w, hw, hrest⟩ := Relation.ReflTransGen.cases_head ih
      · rw [heq, hend] at hnext
        cases hnext
      · cases hnext.symm.trans hw.1
        exact hrest
  obtain heq | ⟨w, hw, -⟩ := Relation.ReflTransGen.cases_head hrest
  · rw [heq, hend] at hturn
    cases hturn
  · cases hturn.symm.trans hw.1
    exact hw.2

/-- A path with conditions is a path. -/
theorem reaches_of_path {R : σ → σ → Prop}
    (h : Relation.ReflTransGen (fun a b => step a = some b ∧ R a b) s t) : Reaches step s t :=
  Relation.ReflTransGen.mono (fun _ _ h => h.1) s t h

end Slimmer
