import Mathlib.Data.List.Basic
import Mathlib.Order.Lattice

/-!
# Sorted keys

The keys of a map or the elements of a set, as a sorted list.

* `insertSorted` inserts one.
* A loop over a map that grows meanwhile goes from a key to the next larger one, which `find?` finds:
  `find_least`.
-/

namespace Slimmer

/-- Insert into a set kept as a sorted list. -/
def insertSorted (a : Nat) : List Nat → List Nat
  | [] => [a]
  | b :: l => if a < b then a :: b :: l else if a = b then b :: l else b :: insertSorted a l

theorem mem_insertSorted {a b : Nat} : ∀ {l : List Nat}, a ∈ insertSorted b l ↔ a = b ∨ a ∈ l
  | [] => by simp [insertSorted]
  | c :: l => by
    unfold insertSorted
    split_ifs with h₁ h₂
    · simp
    · subst h₂; simp
    · simp [mem_insertSorted (l := l), or_left_comm]

theorem insertSorted_pairwise {a : Nat} {l : List Nat} (h : l.Pairwise (· < ·)) :
    (insertSorted a l).Pairwise (· < ·) := by
  induction l with
  | nil => exact List.pairwise_singleton _ _
  | cons b l ih =>
    rcases List.pairwise_cons.mp h with ⟨hb, hl⟩
    unfold insertSorted
    split_ifs with hlt heq
    · refine List.pairwise_cons.mpr ⟨fun c hc => ?_, h⟩
      rcases List.mem_cons.mp hc with rfl | hc
      · exact hlt
      · exact hlt.trans (hb c hc)
    · exact h
    · refine List.pairwise_cons.mpr ⟨fun c hc => ?_, ih hl⟩
      rcases mem_insertSorted.mp hc with rfl | hc
      · omega
      · exact hb c hc

theorem mem_foldl_insertSorted {a : Nat} {mark keys : List Nat} :
    a ∈ mark.foldl (fun keys bb => insertSorted bb keys) keys ↔ a ∈ mark ∨ a ∈ keys := by
  induction mark generalizing keys with
  | nil => simp
  | cons b mark ih =>
    rw [List.foldl_cons, ih, mem_insertSorted, List.mem_cons]
    tauto

theorem foldl_insertSorted_pairwise {mark keys : List Nat} (h : keys.Pairwise (· < ·)) :
    (mark.foldl (fun keys bb => insertSorted bb keys) keys).Pairwise (· < ·) := by
  induction mark generalizing keys with
  | nil => exact h
  | cons b mark ih => exact ih (insertSorted_pairwise h)

/-- The key the loop comes to next. -/
theorem find_least {k i : Nat} {keys : List Nat} (hsorted : keys.Pairwise (· < ·))
    (h : keys.find? (k ≤ ·) = some i) : i ∈ keys ∧ k ≤ i ∧ ∀ x ∈ keys, k ≤ x → i ≤ x := by
  obtain ⟨hk, pre, post, rfl, hpre⟩ := List.find?_eq_some_iff_append.mp h
  refine ⟨by simp, by simpa using hk, fun x hx hkx => ?_⟩
  rcases List.mem_append.mp hx with hx | hx
  · have := hpre x hx
    simp [hkx] at this
  · rcases List.mem_cons.mp hx with rfl | hx
    · exact le_rfl
    · exact ((List.pairwise_cons.mp (List.pairwise_append.mp hsorted).2.1).1 x hx).le

end Slimmer
