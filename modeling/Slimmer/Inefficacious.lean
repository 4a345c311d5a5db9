import Mathlib.Data.Nat.Log
import Slimmer.Writer

/-!
# Inefficacious writes

A write that leaves memory as it is is recorded with length 0. `instrumentStoreInst`
(`lib/SlimmerTrace/SlimmerTrace.cpp`) passes the stored value as a 64-bit word, which `LLVMCastTo`
(`lib/SlimmerUtil/llvm.cpp`) makes of it, and `recordStoreEvent`
(`lib/SlimmerRuntime/SlimmerRuntime.cpp`) compares it with the eight bytes at the address, whatever
the width of the store is.

**Theorem (`inefficacious_iff`).** A store recorded with length 0 changes nothing, unless it stores a
32-bit float other than +0.0 where the eight bytes are those of the double: then it is recorded with
length 0 and does change memory. A memset or memmove is recorded with length 0 if and only if it
changes nothing.
-/

namespace Slimmer

/-! ## Stores -/

/-- Convert a 32-bit float to a double, both as their bits: sign, exponent and fraction. A NaN
becomes a quiet one. -/
def fpCast (f : Nat) : Nat :=
  let sign := f / 2 ^ 31
  let exp := f / 2 ^ 23 % 2 ^ 8
  let frac := f % 2 ^ 23
  sign * 2 ^ 63 +
    if exp = 255 then
      if frac = 0 then 2047 * 2 ^ 52
      else 2047 * 2 ^ 52 + 2 ^ 51 + frac % 2 ^ 22 * 2 ^ 29
    else if exp = 0 then
      -- zero, or a subnormal float whose leading one becomes implicit
      if frac = 0 then 0
      else (Nat.log 2 frac + 874) * 2 ^ 52 + (frac - 2 ^ Nat.log 2 frac) * 2 ^ (52 - Nat.log 2 frac)
    else (exp + 896) * 2 ^ 52 + frac * 2 ^ 29

/-- A value of at most eight bytes: the types `instrumentStoreInst` calls `recordStoreEvent` for. -/
inductive StoredValue
  | int (bits : Nat) (h : 0 < bits ∧ bits ≤ 64) (v : BitVec bits)
  | pointer (v : UInt64)
  | double (v : UInt64)
  | float (v : UInt32)

/-- `getTypeStoreSize`. -/
def StoredValue.size : StoredValue → Nat
  | .int bits _ _ => (bits + 7) / 8
  | .pointer _ | .double _ => 8
  | .float _ => 4

/-- The bits of the value. -/
def StoredValue.bits : StoredValue → Nat
  | .int _ _ v => v.toNat
  | .pointer v | .double v => v.toNat
  | .float v => v.toNat

/-- `LLVMCastTo` a 64-bit integer. -/
def StoredValue.llvmCastTo : StoredValue → UInt64
  | .int _ _ v => UInt64.ofNat v.toNat
  | .pointer v | .double v => v
  | .float v => UInt64.ofNat (fpCast v.toNat)

/-- The length that is recorded for a store. -/
def StoredValue.recordedLength (mem : UInt64 → UInt8) (addr : UInt64) (v : StoredValue) : UInt64 :=
  storeLength mem addr (UInt64.ofNat v.size) v.llvmCastTo

/-! ## What the instructions do -/

/-- Store bytes. -/
def storeBytes (mem : UInt64 → UInt8) (addr : UInt64) (bytes : List UInt8) : UInt64 → UInt8 :=
  fun a => (bytes[(a - addr).toNat]?).getD (mem a)

/-- The store of a value. -/
def StoredValue.store (mem : UInt64 → UInt8) (addr : UInt64) (v : StoredValue) : UInt64 → UInt8 :=
  storeBytes mem addr (leBytes v.size v.bits)

/-- `memset`. -/
def memset (mem : UInt64 → UInt8) (addr length : UInt64) (value : UInt8) : UInt64 → UInt8 :=
  fun a => if a - addr < length then value else mem a

/-- `memmove`: the bytes are read before any is written. -/
def memmove (mem : UInt64 → UInt8) (dest src length : UInt64) : UInt64 → UInt8 :=
  fun a => if a - dest < length then mem (src + (a - dest)) else mem a

/-- The value is no 32-bit float other than +0.0 whose double is what lies at the address. -/
def NoFloatTwin (mem : UInt64 → UInt8) (addr : UInt64) (v : StoredValue) : Prop :=
  ∀ f, v = .float f → f ≠ 0 → load64 mem addr ≠ fpCast f.toNat

/-! ## Stores of unchanged bytes -/

section

variable {mem : UInt64 → UInt8} {addr length : UInt64} {bytes : List UInt8}

theorem leBytes_leNat (bytes : List UInt8) : leBytes bytes.length (leNat bytes) = bytes := by
  induction bytes with
  | nil => rfl
  | cons b bytes ih =>
    have hb : UInt8.ofNat (b.toNat + 256 * leNat bytes) = b := by
      apply UInt8.toNat_inj.mp
      rw [UInt8.toNat_ofNat']
      have := b.toNat_lt
      omega
    have hrest : (b.toNat + 256 * leNat bytes) / 256 = leNat bytes := by
      have := b.toNat_lt
      omega
    rw [List.length_cons, leNat, leBytes, hb, hrest, ih]

theorem take_leBytes {w n : Nat} (k : Nat) (hw : w ≤ k) : (leBytes k n).take w = leBytes w n := by
  induction k generalizing w n with
  | zero =>
    obtain rfl : w = 0 := by omega
    rfl
  | succ k ih =>
    cases w with
    | zero => rfl
    | succ w => rw [leBytes, leBytes, List.take_succ_cons, ih (by omega)]

/-- The bytes at an address. -/
def bytesAt (mem : UInt64 → UInt8) (addr : UInt64) (n : Nat) : List UInt8 :=
  (List.range n).map fun i => mem (addr + UInt64.ofNat i)

theorem take_bytesAt {w n : Nat} (hw : w ≤ n) : (bytesAt mem addr n).take w = bytesAt mem addr w := by
  rw [bytesAt, ← List.map_take, List.take_range, Nat.min_eq_left hw]
  rfl

/-- A number that the eight bytes at an address make up is stored there already, at every width. -/
theorem bytesAt_of_load64 {w n : Nat} (hw : w ≤ 8) (h : load64 mem addr = n) :
    bytesAt mem addr w = leBytes w n := by
  have hall : leBytes 8 n = bytesAt mem addr 8 := by
    rw [← h]
    have hlen : (bytesAt mem addr 8).length = 8 := by simp [bytesAt]
    exact hlen ▸ leBytes_leNat (bytesAt mem addr 8)
  rw [← take_bytesAt hw, ← hall, take_leBytes 8 hw]

/-- To look at every address of a range is to look at every offset. -/
theorem forall_offset {P : UInt64 → Prop} {n : Nat} (hn : n ≤ 2 ^ 64) :
    (∀ a, (a - addr).toNat < n → P a) ↔ ∀ i < n, P (addr + UInt64.ofNat i) := by
  constructor
  · intro h i hi
    apply h
    rw [UInt64.add_comm, UInt64.add_sub_cancel, UInt64.toNat_ofNat']
    omega
  · intro h a ha
    have := h _ ha
    rwa [UInt64.ofNat_toNat, UInt64.add_comm, UInt64.sub_add_cancel] at this

/-- A store changes nothing exactly if the bytes are there. -/
theorem storeBytes_eq_iff (hlen : bytes.length ≤ 8) :
    storeBytes mem addr bytes = mem ↔ bytesAt mem addr bytes.length = bytes := by
  have hstored : storeBytes mem addr bytes = mem ↔
      ∀ a, (a - addr).toNat < bytes.length → bytes[(a - addr).toNat]? = some (mem a) := by
    constructor
    · intro h a ha
      have := congrFun h a
      rw [storeBytes, List.getElem?_eq_getElem ha, Option.getD_some] at this
      rw [List.getElem?_eq_getElem ha, this]
    · intro h
      funext a
      by_cases ha : (a - addr).toNat < bytes.length
      · rw [storeBytes, h a ha, Option.getD_some]
      · rw [storeBytes, List.getElem?_eq_none (by omega), Option.getD_none]
  rw [hstored, forall_offset (P := fun a => bytes[(a - addr).toNat]? = some (mem a)) (by omega)]
  constructor
  · intro h
    apply List.ext_getElem?
    intro i
    by_cases hi : i < bytes.length
    · have := h i hi
      rw [UInt64.add_comm, UInt64.add_sub_cancel, UInt64.toNat_ofNat',
        Nat.mod_eq_of_lt (by omega)] at this
      rw [this, UInt64.add_comm]
      simp [bytesAt, hi]
    · simp [bytesAt, hi]
  · intro h i hi
    rw [UInt64.add_comm, UInt64.add_sub_cancel, UInt64.toNat_ofNat', Nat.mod_eq_of_lt (by omega),
      UInt64.add_comm]
    conv_lhs => rw [← h]
    simp [bytesAt, hi]

end

/-! ## The conversion of floats -/

/-- The low 29 bits of a converted float are 0. -/
theorem fpCast_mod (f : Nat) : fpCast f % 2 ^ 29 = 0 := by
  apply Nat.mod_eq_zero_of_dvd
  unfold fpCast
  apply Nat.dvd_add
  · exact Dvd.dvd.mul_left (by norm_num : (2 : Nat) ^ 29 ∣ 2 ^ 63) _
  · split
    · split
      · norm_num
      · exact Nat.dvd_add (by norm_num) (Nat.dvd_mul_left _ _)
    · split
      · split
        · exact dvd_zero _
        · rename_i hfrac
          have hlog : Nat.log 2 (f % 2 ^ 23) < 23 := Nat.log_lt_of_lt_pow hfrac (by omega)
          exact Nat.dvd_add (Dvd.dvd.mul_left (by norm_num : (2 : Nat) ^ 29 ∣ 2 ^ 52) _)
            (Dvd.dvd.mul_left (pow_dvd_pow 2 (by omega)) _)
      · exact Nat.dvd_add (Dvd.dvd.mul_left (by norm_num : (2 : Nat) ^ 29 ∣ 2 ^ 52) _)
          (Nat.dvd_mul_left _ _)

/-- No float but zero makes up the low half of its double. -/
theorem eq_zero_of_fpCast_low {f : Nat} (h : fpCast f % 2 ^ 32 = f) : f = 0 := by
  -- the fraction of `f` is 0, so the whole low half of the double is
  have hfrac : f % 2 ^ 23 = 0 := by
    have := fpCast_mod f
    omega
  have hlow : fpCast f % 2 ^ 32 = 0 := by
    apply Nat.mod_eq_zero_of_dvd
    unfold fpCast
    simp only [hfrac, if_true]
    apply Nat.dvd_add
    · exact Dvd.dvd.mul_left (by norm_num : (2 : Nat) ^ 32 ∣ 2 ^ 63) _
    · split
      · norm_num
      · split
        · exact dvd_zero _
        · simpa using Dvd.dvd.mul_left (by norm_num : (2 : Nat) ^ 32 ∣ 2 ^ 52) _
  omega

theorem fpCast_lt {f : Nat} (hf : f < 2 ^ 32) : fpCast f < 2 ^ 64 := by
  have hsub : f % 2 ^ 23 ≠ 0 → (f % 2 ^ 23 - 2 ^ Nat.log 2 (f % 2 ^ 23)) *
      2 ^ (52 - Nat.log 2 (f % 2 ^ 23)) < 2 ^ 52 := by
    intro hfrac
    have hlog : Nat.log 2 (f % 2 ^ 23) < 23 := Nat.log_lt_of_lt_pow hfrac (by omega)
    have hlt := Nat.lt_pow_succ_log_self (by norm_num : 1 < 2) (f % 2 ^ 23)
    have hfrac' : f % 2 ^ 23 - 2 ^ Nat.log 2 (f % 2 ^ 23) < 2 ^ Nat.log 2 (f % 2 ^ 23) := by
      generalize Nat.log 2 (f % 2 ^ 23) = k at hlt
      rw [pow_succ] at hlt
      omega
    calc _ < 2 ^ Nat.log 2 (f % 2 ^ 23) * 2 ^ (52 - Nat.log 2 (f % 2 ^ 23)) :=
          Nat.mul_lt_mul_of_pos_right hfrac' (Nat.two_pow_pos _)
      _ = 2 ^ 52 := by rw [← pow_add, Nat.add_sub_cancel' (by omega)]
  unfold fpCast
  simp only
  split
  · split <;> omega
  · split
    · split
      · omega
      · rename_i hfrac
        have := hsub hfrac
        have hlog : Nat.log 2 (f % 2 ^ 23) < 23 := Nat.log_lt_of_lt_pow hfrac (by omega)
        omega
    · omega

theorem fpCast_ne_zero {f : Nat} (hf : f ≠ 0) : fpCast f ≠ 0 := by
  unfold fpCast
  simp only
  split
  · split <;> omega
  · split
    · split <;> omega
    · omega

/-! ## The theorem -/

section

variable {mem : UInt64 → UInt8} {addr : UInt64}

theorem StoredValue.size_le (v : StoredValue) : v.size ≤ 8 := by
  cases v with
  | int bits h v =>
    rw [StoredValue.size]
    omega
  | pointer v | double v | float v => simp [StoredValue.size]

theorem StoredValue.size_pos (v : StoredValue) : 0 < v.size := by
  cases v with
  | int bits h v =>
    rw [StoredValue.size]
    omega
  | pointer v | double v | float v => simp [StoredValue.size]

theorem StoredValue.recordedLength_eq_zero_iff (v : StoredValue) :
    v.recordedLength mem addr = 0 ↔ v.llvmCastTo ≠ 0 ∧ load64 mem addr = v.llvmCastTo.toNat := by
  have hsize : UInt64.ofNat v.size ≠ 0 := by
    intro h
    have := congrArg UInt64.toNat h
    rw [UInt64.toNat_ofNat', Nat.mod_eq_of_lt (by have := v.size_le; omega)] at this
    exact v.size_pos.ne' this
  rw [StoredValue.recordedLength, storeLength]
  split
  · simp [*]
  · simp [*]

/-- The word that is compared holds an integer, pointer or double as it is. -/
theorem StoredValue.toNat_llvmCastTo (v : StoredValue) (hv : ∀ f, v ≠ .float f) :
    v.llvmCastTo.toNat = v.bits := by
  cases v with
  | int bits h v =>
    have : v.toNat < 2 ^ 64 := v.isLt.trans_le (Nat.pow_le_pow_right (by norm_num) h.2)
    rw [StoredValue.llvmCastTo, StoredValue.bits, UInt64.toNat_ofNat', Nat.mod_eq_of_lt this]
  | pointer v | double v => rfl
  | float f => exact absurd rfl (hv f)

theorem toNat_llvmCastTo_float (f : UInt32) :
    (StoredValue.float f).llvmCastTo.toNat = fpCast f.toNat := by
  rw [StoredValue.llvmCastTo, UInt64.toNat_ofNat', Nat.mod_eq_of_lt (fpCast_lt f.toNat_lt)]

theorem StoredValue.store_eq_iff (v : StoredValue) :
    v.store mem addr = mem ↔ bytesAt mem addr v.size = leBytes v.size v.bits := by
  have hiff : storeBytes mem addr (leBytes v.size v.bits) = mem ↔ _ :=
    storeBytes_eq_iff (by rw [length_leBytes]; exact v.size_le)
  rwa [length_leBytes] at hiff

/-- A float whose double lies at the address is there itself only if it is zero. -/
theorem store_float_eq_iff {f : UInt32} (h : load64 mem addr = fpCast f.toNat) :
    (StoredValue.float f).store mem addr = mem ↔ f = 0 := by
  rw [StoredValue.store_eq_iff, StoredValue.size, bytesAt_of_load64 (by norm_num) h,
    StoredValue.bits]
  constructor
  · intro hbytes
    have hnum := congrArg leNat hbytes
    rw [leNat_leBytes, leNat_leBytes_of_lt (n := f.toNat) f.toNat_lt] at hnum
    exact UInt32.toNat_inj.mp (eq_zero_of_fpCast_low hnum)
  · rintro rfl
    rfl

/-- A store recorded with length 0 changes nothing exactly if no float meets its double. -/
theorem recordedLength_sound_iff (v : StoredValue) :
    (v.recordedLength mem addr = 0 → v.store mem addr = mem) ↔ NoFloatTwin mem addr v := by
  rw [StoredValue.recordedLength_eq_zero_iff]
  by_cases hv : ∀ f, v ≠ .float f
  · constructor
    · intro _ f hf
      exact absurd hf (hv f)
    · rintro - ⟨-, hload⟩
      rw [v.toNat_llvmCastTo hv] at hload
      exact (StoredValue.store_eq_iff v).mpr (bytesAt_of_load64 v.size_le hload)
  · push Not at hv
    obtain ⟨f, rfl⟩ := hv
    rw [toNat_llvmCastTo_float]
    constructor
    · rintro h g ⟨rfl⟩ hg hload
      have hcast : (StoredValue.float f).llvmCastTo ≠ 0 := by
        intro h0
        have := congrArg UInt64.toNat h0
        rw [toNat_llvmCastTo_float] at this
        exact fpCast_ne_zero (fun h0 => hg (UInt32.toNat_inj.mp h0)) this
      exact hg ((store_float_eq_iff hload).mp (h ⟨hcast, hload⟩))
    · rintro h ⟨-, hload⟩
      rw [store_float_eq_iff hload]
      by_contra hne
      exact h f rfl hne hload

theorem memset_eq_iff (length : UInt64) (value : UInt8) :
    memset mem addr length value = mem ↔
      ∀ i < length.toNat, mem (addr + UInt64.ofNat i) = value := by
  rw [← forall_offset (P := fun a => mem a = value) (by have := length.toNat_lt; omega)]
  constructor
  · intro h a ha
    have := congrFun h a
    rw [memset, if_pos (UInt64.lt_iff_toNat_lt.mpr ha)] at this
    exact this.symm
  · intro h
    funext a
    rw [memset]
    split
    · rename_i ha
      exact (h a (UInt64.lt_iff_toNat_lt.mp ha)).symm
    · rfl

theorem memmove_eq_iff (src length : UInt64) :
    memmove mem addr src length = mem ↔
      ∀ i < length.toNat, mem (addr + UInt64.ofNat i) = mem (src + UInt64.ofNat i) := by
  have hoff : ∀ i, addr + UInt64.ofNat i - addr = UInt64.ofNat i := by
    intro i
    rw [UInt64.add_comm, UInt64.add_sub_cancel]
  have hiff : (∀ a, (a - addr).toNat < length.toNat → mem a = mem (src + (a - addr))) ↔ _ :=
    forall_offset (by have := length.toNat_lt; omega)
  simp only [hoff] at hiff
  rw [← hiff]
  constructor
  · intro h a ha
    have := congrFun h a
    rw [memmove, if_pos (UInt64.lt_iff_toNat_lt.mpr ha)] at this
    exact this.symm
  · intro h
    funext a
    rw [memmove]
    split
    · rename_i ha
      exact (h a (UInt64.lt_iff_toNat_lt.mp ha)).symm
    · rfl

theorem memsetLength_eq_zero_iff (length : UInt64) (value : UInt8) :
    memsetLength mem addr length value = 0 ↔ memset mem addr length value = mem := by
  rw [memset_eq_iff, memsetLength]
  constructor
  · intro h i hi
    by_contra hne
    have hchanged : (List.range length.toNat).any fun i => mem (addr + UInt64.ofNat i) ≠ value :=
      List.any_eq_true.mpr ⟨i, List.mem_range.mpr hi, by simpa using hne⟩
    simp only [hchanged, if_true] at h
    rw [h] at hi
    exact absurd hi (Nat.not_lt_zero i)
  · intro h
    have hsame : (List.range length.toNat).any
        (fun i => mem (addr + UInt64.ofNat i) ≠ value) = false := by
      simpa using h
    simp only [hsame]
    rfl

theorem memmoveLength_eq_zero_iff (src length : UInt64) :
    memmoveLength mem addr src length = 0 ↔ memmove mem addr src length = mem := by
  rw [memmove_eq_iff, memmoveLength]
  constructor
  · intro h i hi
    by_contra hne
    have hdiffer : ((List.range length.toNat).all fun i =>
        mem (addr + UInt64.ofNat i) = mem (src + UInt64.ofNat i)) = false :=
      List.all_eq_false.mpr ⟨i, List.mem_range.mpr hi, by simpa using hne⟩
    simp only [hdiffer] at h
    replace h : length = 0 := h
    rw [h] at hi
    exact absurd hi (Nat.not_lt_zero i)
  · intro h
    have hsame : ((List.range length.toNat).all fun i =>
        mem (addr + UInt64.ofNat i) = mem (src + UInt64.ofNat i)) = true := by
      simpa using h
    simp only [hsame, if_true]

end

/-- At every memory and address, a store that is recorded with length 0 changes nothing if and only
if it is of no 32-bit float other than zero whose double lies there; and a memset or memmove is
recorded with length 0 if and only if it changes nothing. -/
theorem inefficacious_iff (mem : UInt64 → UInt8) (addr : UInt64) :
    (∀ v : StoredValue, (v.recordedLength mem addr = 0 → v.store mem addr = mem) ↔
      NoFloatTwin mem addr v) ∧
    (∀ length value, memsetLength mem addr length value = 0 ↔
      memset mem addr length value = mem) ∧
    (∀ src length, memmoveLength mem addr src length = 0 ↔
      memmove mem addr src length = mem) :=
  ⟨recordedLength_sound_iff, memsetLength_eq_zero_iff, memmoveLength_eq_zero_iff⟩

/-- The eight bytes of the double 1.0 at address 0. -/
def doubleOne : UInt64 → UInt8 :=
  fun a => if a = 6 then 0xf0 else if a = 7 then 0x3f else 0

/-- The float 1.0 stored over the double 1.0 is recorded as if it changed nothing, and makes the
word 0x3ff000003f800000. -/
theorem float_over_double_recorded :
    (StoredValue.float 0x3f800000).recordedLength doubleOne 0 = 0 ∧
      (StoredValue.float 0x3f800000).store doubleOne 0 ≠ doubleOne := by
  constructor
  · rfl
  · intro h
    exact absurd (congrFun h 3) (by decide)

end Slimmer
