import Mathlib.Data.Nat.Count
import Mathlib.Logic.Function.Basic

/-!
# Turns of a slot

A process that visits the slots `0 .. N - 1` of a ring one after the other, starting with slot 0,
visits slot `j % N` at its `j`-th turn. `turns N i n` is the number of visits to slot `i` in its
first `n` turns.

Two such processes are coupled by an array of semaphores, one a slot: one process waits at its
turns, the other signals at its own. `Balanced` is the invariant, and `Balanced.taken_le` and
`Balanced.taken_le_add` turn what it says about each slot into a bound between the positions of the
two processes.
-/

namespace Slimmer

/-- The number of turns `j < n` at slot `i`. -/
def turns (N i n : Nat) : Nat := Nat.count (fun j => j % N = i) n

variable {N i a b j : Nat}

@[simp] theorem turns_zero : turns N i 0 = 0 := Nat.count_zero _

theorem turns_succ (n : Nat) : turns N i (n + 1) = turns N i n + if n % N = i then 1 else 0 :=
  Nat.count_succ _ n

theorem turns_mono (h : a ≤ b) : turns N i a ≤ turns N i b := Nat.count_monotone _ h

/-- A turn `j` from `b` on and before `a` is one more turn of its slot. -/
theorem turns_lt (hb : b ≤ j) (ha : j < a) : turns N (j % N) b < turns N (j % N) a := by
  have h₁ : turns N (j % N) b ≤ turns N (j % N) j := turns_mono hb
  have h₂ : turns N (j % N) (j + 1) ≤ turns N (j % N) a := turns_mono ha
  rw [turns_succ, if_pos rfl] at h₂
  omega

/-- Two positions less than a round apart are at different slots. -/
theorem mod_ne_of_lt (hja : j < a) (haj : a < j + N) : j % N ≠ a % N := by
  intro h
  have h₁ := Nat.div_add_mod j N
  have h₂ := Nat.div_add_mod a N
  have hdiv : j / N < a / N := by
    by_contra hle
    have := Nat.mul_le_mul_left N (not_lt.mp hle)
    omega
  have := Nat.mul_le_mul_left N (Nat.succ_le_of_lt hdiv)
  rw [Nat.mul_succ] at this
  omega

/-- Within a round there is no other turn of a slot. -/
theorem turns_eq (hba : b ≤ a) (ha : a < b + N) : turns N (a % N) a = turns N (a % N) b := by
  have hnone : ∀ n, b + n ≤ a → turns N (a % N) (b + n) = turns N (a % N) b := by
    intro n
    induction n with
    | zero => exact fun _ => rfl
    | succ n ih =>
      intro hn
      have hne : (b + n) % N ≠ a % N := mod_ne_of_lt (by omega) (by omega)
      rw [← Nat.add_assoc, turns_succ, if_neg hne, Nat.add_zero, ih (by omega)]
  have := hnone (a - b) (by omega)
  rwa [Nat.add_sub_cancel' hba] at this

/-! ## Semaphores -/

/-- The semaphores of the slots are balanced between a process that has taken `taken` turns
waiting and one that has taken `given` turns signalling; each of them started at `k`. -/
def Balanced (N : Nat) (sem : Nat → Nat) (taken given k : Nat) : Prop :=
  ∀ i, sem i + turns N i taken = turns N i given + k

namespace Balanced

variable {sem : Nat → Nat} {taken given k : Nat}

/-- Signal at the turn of slot `i`. -/
theorem give (h : Balanced N sem taken given k) (hi : i = given % N) :
    Balanced N (Function.update sem i (sem i + 1)) taken (given + 1) k := by
  intro j
  have hj := h j
  by_cases hij : j = i
  · subst hij
    rw [Function.update_self, turns_succ, if_pos hi.symm]
    omega
  · rw [Function.update_of_ne hij, turns_succ, if_neg fun he => hij (he.symm.trans hi.symm)]
    omega

/-- Wait at the turn of slot `i`. -/
theorem take (h : Balanced N sem taken given k) (hpos : 0 < sem i) (hi : i = taken % N) :
    Balanced N (Function.update sem i (sem i - 1)) (taken + 1) given k := by
  intro j
  have hj := h j
  by_cases hij : j = i
  · subst hij
    rw [Function.update_self, turns_succ, if_pos hi.symm]
    omega
  · rw [Function.update_of_ne hij, turns_succ, if_neg fun he => hij (he.symm.trans hi.symm)]
    omega

/-- Semaphores that start at 0: nothing is taken that was not given. -/
theorem taken_le (h : Balanced N sem taken given 0) : taken ≤ given := by
  by_contra hlt
  have := turns_lt (N := N) (le_refl given) (not_le.mp hlt)
  have := h (given % N)
  omega

/-- Semaphores that start at 1: the taker is at most one round ahead. -/
theorem taken_le_add (h : Balanced N sem taken given 1) (hN : 0 < N) : taken ≤ given + N := by
  by_contra hle
  -- turns `taken - 1` and `taken - 1 - N` are both at one slot, and neither has been given
  obtain ⟨t, rfl⟩ : ∃ t, taken = t + N + 1 := ⟨taken - N - 1, by omega⟩
  have h₁ := turns_lt (N := N) (show given ≤ t by omega) (show t < t + N by omega)
  have h₂ := turns_lt (N := N) (le_refl (t + N)) (Nat.lt_add_one (t + N))
  rw [Nat.add_mod_right] at h₂
  have := h (t % N)
  omega

/-- Semaphores that start at 0: what was given and not taken is there. -/
theorem pos_of_lt (h : Balanced N sem taken given 0) (hlt : taken < given) :
    0 < sem (taken % N) := by
  have := turns_lt (N := N) (le_refl taken) hlt
  have := h (taken % N)
  omega

/-- Semaphores that start at 1: the taker is not blocked within a round. -/
theorem pos_of_lt_add (h : Balanced N sem taken given 1) (hlt : taken < given + N) :
    0 < sem (taken % N) := by
  have := h (taken % N)
  have : turns N (taken % N) taken ≤ turns N (taken % N) given := by
    rcases Nat.le_total taken given with hle | hle
    · exact turns_mono hle
    · exact (turns_eq hle hlt).le
  omega

end Balanced

end Slimmer
