import Mathlib.Data.List.Basic

/-!
# Base64

Three bytes are four characters of six bits; what is missing at the end is filled with `=`. A decoder
stops at the first character that is not in the alphabet. `base64Decode_encode`: it gives back what
was encoded.
-/

namespace Slimmer

/-- `base64_chars`. -/
def base64Chars : List Char :=
  "ABCDEFGHIJKLMNOPQRSTUVWXYZabcdefghijklmnopqrstuvwxyz0123456789+/".toList

/-- `base64_chars[n]`. -/
def base64Char (n : Nat) : Char := base64Chars.getD n '='

/-- `is_base64`. -/
def isBase64 (c : Char) : Bool := c.isAlphanum || c = '+' || c = '/'

/-- `base64_encode`. -/
def base64Encode : List UInt8 → List Char
  | a :: b :: c :: rest =>
    base64Char (a.toNat / 4) :: base64Char (a.toNat % 4 * 16 + b.toNat / 16) ::
      base64Char (b.toNat % 16 * 4 + c.toNat / 64) :: base64Char (c.toNat % 64) ::
      base64Encode rest
  | [a, b] =>
    [base64Char (a.toNat / 4), base64Char (a.toNat % 4 * 16 + b.toNat / 16),
      base64Char (b.toNat % 16 * 4), '=']
  | [a] => [base64Char (a.toNat / 4), base64Char (a.toNat % 4 * 16), '=', '=']
  | [] => []

/-- The bytes of groups of four characters, of which the last one may be shorter. -/
def base64Bytes : List Nat → List UInt8
  | a :: b :: c :: d :: rest =>
    UInt8.ofNat (a * 4 + b / 16) :: UInt8.ofNat (b % 16 * 16 + c / 4) ::
      UInt8.ofNat (c % 4 * 64 + d) :: base64Bytes rest
  | [a, b, c] => [UInt8.ofNat (a * 4 + b / 16), UInt8.ofNat (b % 16 * 16 + c / 4)]
  | [a, b] => [UInt8.ofNat (a * 4 + b / 16)]
  | _ => []

/-- `base64_decode`. -/
def base64Decode (s : List Char) : List UInt8 :=
  base64Bytes ((s.takeWhile isBase64).map base64Chars.idxOf)

section

variable {n : Nat}

theorem base64Char_spec (h : n < 64) :
    isBase64 (base64Char n) = true ∧ base64Chars.idxOf (base64Char n) = n := by
  have hall : ∀ k : Fin 64, isBase64 (base64Char k) = true ∧
      base64Chars.idxOf (base64Char k) = k := by decide +kernel
  exact hall ⟨n, h⟩

/-- One character is decoded. -/
theorem takeWhile_base64 (h : n < 64) (s : List Char) :
    ((base64Char n :: s).takeWhile isBase64).map base64Chars.idxOf =
      n :: (s.takeWhile isBase64).map base64Chars.idxOf := by
  rw [List.takeWhile_cons_of_pos (base64Char_spec h).1, List.map_cons, (base64Char_spec h).2]

theorem takeWhile_padding (s : List Char) : ('=' :: s).takeWhile isBase64 = [] := by
  apply List.takeWhile_cons_of_neg
  decide

theorem ofNat_eq {a : UInt8} (h : n = a.toNat) : UInt8.ofNat n = a := by
  rw [h, UInt8.ofNat_toNat]

/-- **The decoder inverts the encoder.** -/
theorem base64Decode_encode (bytes : List UInt8) : base64Decode (base64Encode bytes) = bytes := by
  unfold base64Decode
  induction bytes using base64Encode.induct with
  | case1 a b c rest ih =>
    have ha := a.toNat_lt
    have hb := b.toNat_lt
    have hc := c.toNat_lt
    rw [base64Encode, takeWhile_base64 (by omega), takeWhile_base64 (by omega),
      takeWhile_base64 (by omega), takeWhile_base64 (by omega), base64Bytes, ih]
    congr 1
    · apply ofNat_eq
      omega
    congr 1
    · apply ofNat_eq
      omega
    congr 1
    · apply ofNat_eq
      omega
  | case2 a b =>
    have ha := a.toNat_lt
    have hb := b.toNat_lt
    rw [base64Encode, takeWhile_base64 (by omega), takeWhile_base64 (by omega),
      takeWhile_base64 (by omega), takeWhile_padding, List.map_nil, base64Bytes]
    congr 1
    · apply ofNat_eq
      omega
    congr 1
    · apply ofNat_eq
      omega
  | case3 a =>
    have ha := a.toNat_lt
    rw [base64Encode, takeWhile_base64 (by omega), takeWhile_base64 (by omega), takeWhile_padding,
      List.map_nil, base64Bytes]
    congr 1
    apply ofNat_eq
    omega
  | case4 => rfl

/-- The characters of an encoding. -/
theorem mem_base64Encode {bytes : List UInt8} {c : Char} (h : c ∈ base64Encode bytes) :
    isBase64 c = true ∨ c = '=' := by
  induction bytes using base64Encode.induct with
  | case1 a b d rest ih =>
    have ha := a.toNat_lt
    have hb := b.toNat_lt
    have hd := d.toNat_lt
    simp only [base64Encode, List.mem_cons] at h
    rcases h with rfl | rfl | rfl | rfl | h
    · exact Or.inl (base64Char_spec (by omega)).1
    · exact Or.inl (base64Char_spec (by omega)).1
    · exact Or.inl (base64Char_spec (by omega)).1
    · exact Or.inl (base64Char_spec (by omega)).1
    · exact ih h
  | case2 a b =>
    have ha := a.toNat_lt
    have hb := b.toNat_lt
    simp only [base64Encode, List.mem_cons, List.not_mem_nil, or_false] at h
    rcases h with rfl | rfl | rfl | rfl
    · exact Or.inl (base64Char_spec (by omega)).1
    · exact Or.inl (base64Char_spec (by omega)).1
    · exact Or.inl (base64Char_spec (by omega)).1
    · exact Or.inr rfl
  | case3 a =>
    have ha := a.toNat_lt
    simp only [base64Encode, List.mem_cons, List.not_mem_nil, or_false] at h
    rcases h with rfl | rfl | rfl | rfl
    · exact Or.inl (base64Char_spec (by omega)).1
    · exact Or.inl (base64Char_spec (by omega)).1
    · exact Or.inr rfl
    · exact Or.inr rfl
  | case4 => cases h

theorem base64Encode_ne_nil {bytes : List UInt8} (h : bytes ≠ []) : base64Encode bytes ≠ [] := by
  unfold base64Encode
  split
  · exact List.cons_ne_nil _ _
  · exact List.cons_ne_nil _ _
  · exact List.cons_ne_nil _ _
  · exact absurd rfl h

end

end Slimmer
