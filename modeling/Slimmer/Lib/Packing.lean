import Mathlib.Data.List.Basic
import Mathlib.Data.List.Induction

/-!
# Packing records into blocks

Records are put one behind the other into blocks of bounded size. A record that no longer fits opens
a new block, and is never split. `pack size records` is the blocks that are full and the records in
the current one.

* `pack_flatten`: no record is lost, doubled or moved.
* `Packed.room` is the step before a record is known: the block it will lie in, given its length.
-/

namespace Slimmer

variable {α β : Type*}

/-- The blocks that are full, and the current one, each as the records in it. -/
structure Packed (α : Type*) where
  done : List (List (List α)) := []
  cur : List (List α) := []

/-- Go on to the next block unless there is room for `n` more elements. -/
def Packed.room (size n : Nat) (q : Packed α) : Packed α :=
  if size < q.cur.flatten.length + n then ⟨q.done ++ [q.cur], []⟩ else q

/-- Put a record into the block there is room in. -/
def Packed.add (size : Nat) (q : Packed α) (r : List α) : Packed α :=
  { q.room size r.length with cur := (q.room size r.length).cur ++ [r] }

/-- The records packed. -/
def Packed.records (q : Packed α) : List (List α) := q.done.flatten ++ q.cur

def pack (size : Nat) (records : List (List α)) : Packed α := records.foldl (Packed.add size) {}

section

variable {size n : Nat} {q : Packed α} {r : List α}

theorem Packed.room_of_lt (h : size < q.cur.flatten.length + n) :
    q.room size n = ⟨q.done ++ [q.cur], []⟩ := if_pos h

theorem Packed.room_of_le (h : q.cur.flatten.length + n ≤ size) : q.room size n = q :=
  if_neg (Nat.not_lt.mpr h)

/-- With room made for a record that fits a block, it fits the current one. -/
theorem Packed.room_fits (h : n ≤ size) : (q.room size n).cur.flatten.length + n ≤ size := by
  unfold Packed.room
  split_ifs with hfull
  · rw [List.flatten_nil, List.length_nil, Nat.zero_add]
    exact h
  · exact Nat.not_lt.mp hfull

@[simp] theorem Packed.records_room : (q.room size n).records = q.records := by
  unfold Packed.room
  split_ifs
  · simp [Packed.records]
  · rfl

@[simp] theorem Packed.records_add : (q.add size r).records = q.records ++ [r] := by
  have hroom : (q.room size r.length).records = q.records := Packed.records_room
  rw [← hroom]
  simp [Packed.records, Packed.add]

end

theorem pack_append (size : Nat) (rs : List (List α)) (r : List α) :
    pack size (rs ++ [r]) = (pack size rs).add size r := by
  rw [pack, List.foldl_append]
  rfl

/-- **The records packed** are the records, in order. -/
@[simp] theorem pack_records (size : Nat) (rs : List (List α)) : (pack size rs).records = rs := by
  induction rs using List.reverseRecOn with
  | nil => rfl
  | append_singleton rs r ih => rw [pack_append, Packed.records_add, ih]

/-- Groups of values of `f` are the values of groups. -/
theorem exists_groups {f : α → β} : ∀ {done : List (List β)} {cur : List β} {as : List α},
    done.flatten ++ cur = as.map f →
      ∃ (groups : List (List α)) (rest : List α), done = groups.map (List.map f) ∧
        cur = rest.map f ∧ groups.flatten ++ rest = as
  | [], cur, as, h => ⟨[], as, rfl, h, rfl⟩
  | g :: done, cur, as, h => by
    rw [List.flatten_cons, List.append_assoc] at h
    obtain ⟨as₁, as₂, rfl, hg, hrest⟩ := List.append_eq_map_iff.mp h
    obtain ⟨groups, rest, rfl, hcur, hall⟩ := exists_groups hrest.symm
    exact ⟨as₁ :: groups, rest, by rw [List.map_cons, hg], hcur,
      by rw [List.flatten_cons, List.append_assoc, hall]⟩

end Slimmer
