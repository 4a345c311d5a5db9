import Mathlib.Data.List.Basic
import Mathlib.Algebra.Group.Nat.Defs

/-!
# Words and numbers in a text

A text is read with `>>` as a C++ stream: white space is skipped, then a word ends at the next white
space and a number at the first character that is not a digit. `none` is a failed extraction.

What `Nat.toDigits` prints is read back by `readNum_decimal`, a word by `nextWord_word`; both say
where the text goes on.
-/

namespace Slimmer

/-- `isspace`. -/
def isSpace (c : Char) : Bool := c = ' ' || (9 ≤ c.toNat && c.toNat ≤ 13)

/-- The next word and the text behind it. -/
def nextWord (s : List Char) : List Char × List Char :=
  let s := s.dropWhile isSpace
  (s.takeWhile fun c => !isSpace c, s.dropWhile fun c => !isSpace c)

/-- `>>` into a string. -/
def readWord (s : List Char) : Option (List Char × List Char) :=
  if (nextWord s).1 = [] then none else some (nextWord s)

/-- The sign of a number: is it negative? -/
def readSign : List Char → Bool × List Char
  | '-' :: s => (true, s)
  | '+' :: s => (false, s)
  | s => (false, s)

/-- A number with its sign, of any size. -/
def readNum (s : List Char) : Option (Bool × Nat × List Char) :=
  let r := readSign (s.dropWhile isSpace)
  let digits := r.2.takeWhile Char.isDigit
  if digits = [] then none
  else some (r.1, Nat.ofDigitChars 10 digits 0, r.2.dropWhile Char.isDigit)

/-- `>>` into an `int`. -/
def readInt (s : List Char) : Option (Int × List Char) :=
  (readNum s).bind fun (negative, n, s) =>
    if negative then if n ≤ 2 ^ 31 then some (-n, s) else none
    else if n < 2 ^ 31 then some (n, s) else none

/-- `>>` into a `uint32_t`; a negative number wraps around. -/
def readUInt32 (s : List Char) : Option (Nat × List Char) :=
  (readNum s).bind fun (negative, n, s) =>
    if n < 2 ^ 32 then some (if negative then (2 ^ 32 - n) % 2 ^ 32 else n, s) else none

/-- `>>` into a `bool`. -/
def readBool (s : List Char) : Option (Bool × List Char) :=
  (readNum s).bind fun (negative, n, s) =>
    if n = 0 then some (false, s) else if n = 1 ∧ negative = false then some (true, s) else none

/-- A number of elements and as many elements; `while (cnt--)` does not end for a negative one. -/
def readMany {α : Type*} (read : List Char → Option (α × List Char)) :
    Nat → List Char → Option (List α × List Char)
  | 0, s => some ([], s)
  | n + 1, s => (read s).bind fun (a, s) => (readMany read n s).map fun (as, s) => (a :: as, s)

def readList {α : Type*} (read : List Char → Option (α × List Char)) (s : List Char) :
    Option (List α × List Char) :=
  (readInt s).bind fun (n, s) => if 0 ≤ n then readMany read n.toNat s else none

/-- The text starts with white space. -/
def SpaceFirst (s : List Char) : Prop := ∃ c rest, s = c :: rest ∧ isSpace c = true

section

variable {s w rest : List Char} {c : Char} {n : Nat}

theorem spaceFirst_cons (h : isSpace c = true) : SpaceFirst (c :: s) := ⟨c, s, rfl, h⟩

theorem SpaceFirst.append (h : SpaceFirst s) : SpaceFirst (s ++ rest) := by
  rcases h with ⟨c, s, rfl, hc⟩
  exact ⟨c, s ++ rest, rfl, hc⟩

/-! ## White space -/

theorem dropWhile_space (h : isSpace c = true) :
    (c :: s).dropWhile isSpace = s.dropWhile isSpace := List.dropWhile_cons_of_pos h

theorem nextWord_space (h : isSpace c = true) : nextWord (c :: s) = nextWord s := by
  unfold nextWord
  rw [dropWhile_space h]

theorem readWord_space (h : isSpace c = true) : readWord (c :: s) = readWord s := by
  unfold readWord
  rw [nextWord_space h]

theorem readNum_space (h : isSpace c = true) : readNum (c :: s) = readNum s := by
  unfold readNum
  rw [dropWhile_space h]

theorem readInt_space (h : isSpace c = true) : readInt (c :: s) = readInt s := by
  unfold readInt
  rw [readNum_space h]

theorem readUInt32_space (h : isSpace c = true) : readUInt32 (c :: s) = readUInt32 s := by
  unfold readUInt32
  rw [readNum_space h]

theorem readBool_space (h : isSpace c = true) : readBool (c :: s) = readBool s := by
  unfold readBool
  rw [readNum_space h]

/-! ## Words -/

/-- A text without white space. -/
def IsWord (w : List Char) : Prop := ∀ c ∈ w, isSpace c = false

instance (w : List Char) : Decidable (IsWord w) :=
  List.decidableBAll (fun c => isSpace c = false) w

theorem dropWhile_word (hw : IsWord w) (hne : w ≠ []) : (w ++ s).dropWhile isSpace = w ++ s := by
  cases w with
  | nil => exact absurd rfl hne
  | cons c w =>
    apply List.dropWhile_cons_of_neg
    rw [hw c List.mem_cons_self]
    decide

/-- **A word** ends where white space follows. -/
theorem nextWord_word (hw : IsWord w) (hne : w ≠ []) (hs : SpaceFirst s) :
    nextWord (w ++ s) = (w, s) := by
  rcases hs with ⟨c, rest, rfl, hc⟩
  have hall : ∀ a ∈ w, (fun c => !isSpace c) a = true := by
    intro a ha
    show (!isSpace a) = true
    rw [hw a ha]
    rfl
  simp only [nextWord, dropWhile_word hw hne]
  rw [List.takeWhile_append_of_pos hall, List.dropWhile_append_of_pos hall]
  simp [hc]

theorem readWord_word (hw : IsWord w) (hne : w ≠ []) (hs : SpaceFirst s) :
    readWord (w ++ s) = some (w, s) := by
  rw [readWord, nextWord_word hw hne hs, if_neg hne]

/-! ## Numbers -/

theorem isSpace_of_isDigit (h : c.isDigit = true) : isSpace c = false := by
  simp only [Char.isDigit, Bool.and_eq_true, decide_eq_true_eq, UInt32.le_iff_toNat_le] at h
  have hn : 48 ≤ c.toNat ∧ c.toNat ≤ 57 := h
  have hne : c ≠ ' ' := by
    intro he
    rw [he] at hn
    exact absurd hn (by decide)
  simp only [isSpace, hne, decide_false, Bool.false_or, Bool.and_eq_false_iff,
    decide_eq_false_iff_not]
  omega

theorem not_isDigit_of_isSpace (h : isSpace c = true) : c.isDigit = false := by
  by_contra hd
  rw [isSpace_of_isDigit (by simpa using hd)] at h
  cases h

theorem isDigit_toDigits (h : c ∈ Nat.toDigits 10 n) : c.isDigit = true :=
  Nat.isDigit_of_mem_toDigits (by decide) (by decide) h

theorem isWord_toDigits : IsWord (Nat.toDigits 10 n) :=
  fun _ hc => isSpace_of_isDigit (isDigit_toDigits hc)

/-- A digit is not a sign. -/
theorem readSign_digit (h : c.isDigit = true) : readSign (c :: s) = (false, c :: s) := by
  unfold readSign
  split
  · rename_i he
    rw [(List.cons.inj he).1] at h
    cases h
  · rename_i he
    rw [(List.cons.inj he).1] at h
    cases h
  · rfl

theorem takeWhile_digits (hs : SpaceFirst s) :
    (Nat.toDigits 10 n ++ s).takeWhile Char.isDigit = Nat.toDigits 10 n ∧
      (Nat.toDigits 10 n ++ s).dropWhile Char.isDigit = s := by
  rcases hs with ⟨c, rest, rfl, hc⟩
  have hall : ∀ a ∈ Nat.toDigits 10 n, a.isDigit = true := fun a ha => isDigit_toDigits ha
  rw [List.takeWhile_append_of_pos hall, List.dropWhile_append_of_pos hall]
  simp [not_isDigit_of_isSpace hc]

/-- **A number** ends where white space follows. -/
theorem readNum_decimal (hs : SpaceFirst s) :
    readNum (Nat.toDigits 10 n ++ s) = some (false, n, s) := by
  have hsign : readSign (Nat.toDigits 10 n ++ s) = (false, Nat.toDigits 10 n ++ s) := by
    cases hd : Nat.toDigits 10 n with
    | nil => exact absurd hd Nat.toDigits_ne_nil
    | cons c digits => exact readSign_digit (isDigit_toDigits (n := n) (by rw [hd]; simp))
  unfold readNum
  rw [dropWhile_word isWord_toDigits Nat.toDigits_ne_nil, hsign]
  simp only [(takeWhile_digits hs).1, (takeWhile_digits hs).2, if_neg Nat.toDigits_ne_nil,
    Nat.ofDigitChars_ten_toDigits]

theorem readInt_decimal (hs : SpaceFirst s) :
    readInt (Nat.toDigits 10 n ++ s) = if n < 2 ^ 31 then some ((n : Int), s) else none := by
  rw [readInt, readNum_decimal hs]
  rfl

theorem readUInt32_decimal (hs : SpaceFirst s) :
    readUInt32 (Nat.toDigits 10 n ++ s) = if n < 2 ^ 32 then some (n, s) else none := by
  rw [readUInt32, readNum_decimal hs]
  rfl

/-! ## Lists -/

/-- Elements that are printed with a space behind each of them. -/
theorem readMany_print {α β : Type*} {read : List Char → Option (β × List Char)}
    {print : α → List Char} {value : α → β} {ok : α → Prop} [DecidablePred ok] (as : List α)
    (rest : List Char) (hread : ∀ a ∈ as, ∀ rest, read (' ' :: (print a ++ rest)) =
      if ok a then some (value a, ' ' :: rest) else none) :
    readMany read as.length (' ' :: (as.flatMap print ++ rest)) =
      if ∀ a ∈ as, ok a then some (as.map value, ' ' :: rest) else none := by
  induction as with
  | nil => simp [readMany]
  | cons a as ih =>
    rcases List.forall_mem_cons.mp hread with ⟨hread, hrest⟩
    rw [List.length_cons, readMany, List.flatMap_cons, List.append_assoc, hread]
    by_cases ha : ok a
    · rw [if_pos ha, Option.bind_some]
      show Option.map _ (readMany read as.length (' ' :: (as.flatMap print ++ rest))) = _
      rw [ih hrest]
      by_cases has : ∀ a ∈ as, ok a
      · rw [if_pos has, if_pos (List.forall_mem_cons.mpr ⟨ha, has⟩)]
        rfl
      · rw [if_neg has, if_neg fun h => has (List.forall_mem_cons.mp h).2]
        rfl
    · rw [if_neg ha, if_neg fun h => ha (List.forall_mem_cons.mp h).1]
      rfl

/-- **A list** with its length in front. -/
theorem readList_print {α β : Type*} {read : List Char → Option (β × List Char)}
    {print : α → List Char} {value : α → β} {ok : α → Prop} [DecidablePred ok] (as : List α)
    (rest : List Char) (hread : ∀ a ∈ as, ∀ rest, read (' ' :: (print a ++ rest)) =
      if ok a then some (value a, ' ' :: rest) else none) :
    readList read (Nat.toDigits 10 as.length ++ ' ' :: (as.flatMap print ++ rest)) =
      if as.length < 2 ^ 31 ∧ ∀ a ∈ as, ok a then some (as.map value, ' ' :: rest) else none := by
  rw [readList, readInt_decimal (spaceFirst_cons (by decide))]
  by_cases hlen : as.length < 2 ^ 31
  · rw [if_pos hlen, Option.bind_some]
    simp only [Int.natCast_nonneg, if_true, Int.toNat_natCast, hlen, true_and]
    exact readMany_print as rest hread
  · rw [if_neg hlen, if_neg fun h => hlen h.1]
    rfl

end

end Slimmer
