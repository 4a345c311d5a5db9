import Mathlib.Data.List.Basic
import Mathlib.Data.Nat.Basic
import Mathlib.Tactic.Ring
import Mathlib.Tactic.NormNum

/-!
# Bytes

* `leBytes w n` is what a `w`-byte store of `n` leaves in memory on a little-endian machine,
  `leNat` what a load of those bytes gives back.
* `writeAt` stores bytes into a buffer of fixed length, `readLE` loads a number from one.

A store inside the buffer is described by `writeAt_of_append`, a load by `readLE_append`: both
split the buffer at the offset.
-/

namespace Slimmer

/-! ## Little-endian numbers -/

/-- The lowest `w` bytes of `n`, lowest first. -/
def leBytes : Nat → Nat → List UInt8
  | 0, _ => []
  | w + 1, n => UInt8.ofNat n :: leBytes w (n / 256)

/-- The number with these bytes, lowest first. -/
def leNat : List UInt8 → Nat
  | [] => 0
  | b :: bs => b.toNat + 256 * leNat bs

@[simp] theorem length_leBytes (w n : Nat) : (leBytes w n).length = w := by
  induction w generalizing n with
  | zero => rfl
  | succ w ih => simp [leBytes, ih]

theorem leNat_leBytes (w n : Nat) : leNat (leBytes w n) = n % 256 ^ w := by
  induction w generalizing n with
  | zero => simp [leBytes, leNat, Nat.mod_one]
  | succ w ih =>
    have hb : (UInt8.ofNat n).toNat = n % 256 := by simp
    rw [leBytes, leNat, ih, hb, pow_succ', Nat.mod_mul]

theorem leNat_leBytes_of_lt {w n : Nat} (h : n < 256 ^ w) : leNat (leBytes w n) = n := by
  rw [leNat_leBytes, Nat.mod_eq_of_lt h]

/-! ## Buffers -/

section

variable {α : Type*}

/-- Overwrite the elements from `off` on. -/
def writeAt (buf : List α) (off : Nat) (xs : List α) : List α :=
  buf.take off ++ xs ++ buf.drop (off + xs.length)

theorem length_writeAt {buf xs : List α} {off : Nat} (h : off + xs.length ≤ buf.length) :
    (writeAt buf off xs).length = buf.length := by
  simp [writeAt]
  omega

/-- A store behind a known prefix. -/
theorem writeAt_of_append {pre rest xs : List α} :
    writeAt (pre ++ rest) pre.length xs = pre ++ xs ++ rest.drop xs.length := by
  simp [writeAt, List.drop_append]

/-- Two stores side by side are one. -/
theorem writeAt_writeAt {buf xs ys : List α} {off : Nat} (h : off ≤ buf.length) :
    writeAt (writeAt buf off xs) (off + xs.length) ys = writeAt buf off (xs ++ ys) := by
  have hsplit : buf = buf.take off ++ buf.drop off := (List.take_append_drop off buf).symm
  have hlen : (buf.take off).length = off := by simp [h]
  generalize hp : buf.take off = p at hsplit hlen
  generalize buf.drop off = q at hsplit
  subst hsplit
  subst hlen
  rw [writeAt_of_append, writeAt_of_append, ← List.length_append, writeAt_of_append]
  simp [List.drop_drop]

end

/-- A `w`-byte load at `off`, `none` outside the buffer. -/
def readLE (w : Nat) (buf : List UInt8) (off : Nat) : Option Nat :=
  if off + w ≤ buf.length then some (leNat ((buf.drop off).take w)) else none

/-- A load of what a store left behind a known prefix. -/
theorem readLE_append {w n : Nat} (h : n < 256 ^ w) (pre post : List UInt8) :
    readLE w (pre ++ (leBytes w n ++ post)) pre.length = some n := by
  have hlen : pre.length + w ≤ (pre ++ (leBytes w n ++ post)).length := by simp
  have htake : (leBytes w n ++ post).take w = leBytes w n := by
    rw [List.take_append_of_le_length (by simp), List.take_of_length_le (by simp)]
  rw [readLE, if_pos hlen, List.drop_left, htake, leNat_leBytes_of_lt h]

end Slimmer
