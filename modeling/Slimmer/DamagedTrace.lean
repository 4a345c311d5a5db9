import Slimmer.TraceIter

/-!
# Reading a damaged trace

`TraceIter` (`tools/PrintBug/Util.cpp`) on any file. The counters are 64-bit words here, a length is
cut to the `int` that `LZ4_decompress_safe` takes, and a read past the end of the file finds what the
memory behind it holds.

`Prepare` stores the `int` that `LZ4_decompress_safe` returns in a `size_t` and asserts that it is not
zero, and neither `Next` nor `NextEvent` looks at how much of the block is left.

**Theorem (`reads_sound_iff`).** Every call that returns true has read bytes that the last
decompression delivered if and only if the file is `Undamaged` as far as the calls get: every block
they come to decompresses, and every record and event they read ends in the block it starts in.
-/

namespace Slimmer

/-! ## The reader -/

/-- What `LZ4_decompress_safe` does on any source: it returns a negative `int`, or how many bytes it
has stored, and it stores no more than it may. -/
structure LZ4.Safe (lz : LZ4) (size : Nat) : Prop where
  int_le : ∀ src, -2 ^ 31 ≤ (lz.decompress src size).1
  stored : ∀ src, 0 ≤ (lz.decompress src size).1 →
    (lz.decompress src size).1 = ((lz.decompress src size).2.length : Int)
  length_le : ∀ src, (lz.decompress src size).2.length ≤ size
  size_lt : size < 2 ^ 31

/-- `n` bytes of memory from `pos` on, where `data` lies and behind it `beyond`. -/
def memBytes (data : List UInt8) (beyond : Nat → UInt8) (pos n : Nat) : List UInt8 :=
  (List.range n).map fun i => (data[pos + i]?).getD (beyond (pos + i))

/-- The compressed length at `pos`. -/
def lengthAt (data : List UInt8) (beyond : Nat → UInt8) (pos : Nat) : Nat :=
  leNat (memBytes data beyond pos 8)

/-- What `LZ4_decompress_safe` makes of the block at `pos`. It is given the length as an `int`. -/
def decompressAt (lz : LZ4) (size : Nat) (data : List UInt8) (beyond : Nat → UInt8) (pos : Nat) :
    Int × List UInt8 :=
  let length := ((lengthAt data beyond pos : Int).bmod (2 ^ 32)).toNat
  lz.decompress (memBytes data beyond ((pos + 8) % 2 ^ 64) length) size

/-- Where the next block is. -/
def blockAfter (data : List UInt8) (beyond : Nat → UInt8) (pos : Nat) : Nat :=
  ((pos + 8) % 2 ^ 64 + (lengthAt data beyond pos + 8) % 2 ^ 64) % 2 ^ 64

/-- The ways out of `Prepare`. -/
inductive Prepared
  /-- the assertion fails -/
  | stopped
  /-- false -/
  | finished
  | ready (it : TraceIter)

/-- The calls of a user of the iterator. -/
inductive ReadCall
  | next (len : Nat)
  | nextEvent
  deriving DecidableEq

/-- What a call comes to: `read it n it'` is the value true after `n` bytes have been taken at the
cursor of `it`, the iterator as `Prepare` leaves it. -/
inductive CallResult
  | stopped
  | finished
  | read (it : TraceIter) (n : Nat) (it' : TraceIter)
  /-- `GetEvent` leaves its switch without a value -/
  | undefined

section

variable (lz : LZ4) (size : Nat) (beyond : Nat → UInt8)

/-- `Prepare`. -/
def TraceIter.prepareAny (it : TraceIter) : Prepared :=
  if it.decodedSize ≤ it.decodedIter then
    if it.ended = true ∨ it.data.length ≤ it.dataIter then .finished
    else
      let (ret, out) := decompressAt lz size it.data beyond it.dataIter
      -- the `int` is stored in a `size_t`
      let decodedSize := (ret % 2 ^ 64).toNat
      if 0 < decodedSize then
        .ready { it with
          decoded := writeAt it.decoded 0 out
          decodedSize := decodedSize
          decodedIter := 0
          dataIter := blockAfter it.data beyond it.dataIter }
      else .stopped
  else .ready it

/-- `Next` and `NextEvent` behind `Prepare`. -/
def TraceIter.read (it : TraceIter) : ReadCall → CallResult
  | .next len => .read it len { it with decodedIter := (it.decodedIter + len) % 2 ^ 64 }
  | .nextEvent =>
    match getEvent false it.decoded it.decodedIter {} with
    | none => .undefined
    | some (label, _, n) => .read it n { it with
        decodedIter := (it.decodedIter + n) % 2 ^ 64
        ended := it.ended || label == endEventLabel }

/-- One call. -/
def TraceIter.call (it : TraceIter) (c : ReadCall) : CallResult :=
  match it.prepareAny lz size beyond with
  | .stopped => .stopped
  | .finished => .finished
  | .ready it => it.read c

/-- What the calls come to. There is no call after one that does not return. -/
def callResults (it : TraceIter) : List ReadCall → List CallResult
  | [] => []
  | c :: cs =>
    match it.call lz size beyond c with
    | .stopped => [.stopped]
    | .undefined => [.undefined]
    | .finished => .finished :: callResults it cs
    | .read it₁ n it' => .read it₁ n it' :: callResults it' cs

/-- A call that returns true has read inside the block, and the block is what a decompression has
delivered. -/
def CallResult.Sound : CallResult → Prop
  | .stopped | .finished => True
  | .read it n _ => it.decodedIter + n ≤ it.decodedSize ∧ it.decodedSize ≤ size ∧
      ∃ src, lz.decompress src size = ((it.decodedSize : Int), it.decoded.take it.decodedSize)
  | .undefined => False

/-! ## Undamaged files -/

/-- The size of an event by its label. -/
def labelSize (label : UInt8) : Option Nat :=
  if label = endEventLabel then some 1
  else if label = placeHolderLabel then some 1
  else if label = basicBlockEventLabel then some sizeOfBasicBlockEvent
  else if label = memoryEventLabel then some sizeOfMemoryEvent
  else if label = returnEventLabel then some sizeOfReturnEvent
  else if label = argumentEventLabel then some sizeOfArgumentEvent
  else if label = memsetEventLabel then some sizeOfMemsetEvent
  else if label = memmoveEventLabel then some sizeOfMemmoveEvent
  else none

/-- How many bytes a call takes. -/
def ReadCall.width : ReadCall → List UInt8 → Option Nat
  | .next len, _ => some len
  | .nextEvent, bytes => bytes.head?.bind labelSize

/-- The call reads an `End` label. -/
def ReadCall.ends : ReadCall → List UInt8 → Bool
  | .next _, _ => false
  | .nextEvent, bytes => bytes.head? == some endEventLabel

/-- What is left of a file: the rest of a block, where the next block is, and whether an `End` label
has been read. -/
structure FileRest where
  bytes : List UInt8 := []
  pos : Nat := 0
  ended : Bool := false

/-- The rest of the file behind `n` bytes. -/
def FileRest.after (c : ReadCall) (n : Nat) (r : FileRest) : FileRest :=
  { r with bytes := r.bytes.drop n, ended := r.ended || c.ends r.bytes }

/-- Every block the calls come to decompresses, and every record and event they read ends in the block
it starts in. -/
def Undamaged (data : List UInt8) : FileRest → List ReadCall → Prop
  | _, [] => True
  | r, c :: cs =>
    -- the next call reads from these bytes
    let fits := fun r : FileRest => match c.width r.bytes with
      | none => False
      | some n => n ≤ r.bytes.length ∧ Undamaged data (r.after c n) cs
    if r.bytes ≠ [] then fits r
    else if r.ended = true ∨ data.length ≤ r.pos then True
    else
      let (ret, out) := decompressAt lz size data beyond r.pos
      0 ≤ ret ∧ (out ≠ [] → fits { r with bytes := out, pos := blockAfter data beyond r.pos })

end

/-! ## One call -/

section

variable {lz : LZ4} {size : Nat} {beyond : Nat → UInt8} {data : List UInt8} {it : TraceIter}
  {r : FileRest}

theorem getEvent_size (decoded : List UInt8) (cur : Nat) (p : FieldPtrs) :
    (getEvent false decoded cur p).map (fun e => (e.1, e.2.2)) =
      decoded[cur]?.bind fun label => (labelSize label).map fun n => (label, n) := by
  cases h : decoded[cur]? with
  | none => simp [getEvent, h]
  | some label =>
    simp only [getEvent, h, Option.bind_eq_bind, Option.bind_some, labelSize,
      apply_ite (Option.map _), Option.map_some, Option.map_none]

/-- The iterator stands at the rest `r` of the file. -/
structure StandsAt (lz : LZ4) (size : Nat) (data : List UInt8) (it : TraceIter) (r : FileRest) :
    Prop where
  data : it.data = data
  length : it.decoded.length = size
  iter_le : it.decodedIter ≤ it.decodedSize
  size_le : it.decodedSize ≤ size
  bytes : (it.decoded.take it.decodedSize).drop it.decodedIter = r.bytes
  pos : it.dataIter = r.pos
  ended : it.ended = r.ended
  delivered : it.decodedSize ≠ 0 →
    ∃ src, lz.decompress src size = ((it.decodedSize : Int), it.decoded.take it.decodedSize)

theorem StandsAt.length_bytes (h : StandsAt lz size data it r) :
    r.bytes.length = it.decodedSize - it.decodedIter := by
  have := h.size_le
  rw [← h.bytes, List.length_drop, List.length_take, h.length, Nat.min_eq_left this]

theorem StandsAt.head? (h : StandsAt lz size data it r) (hne : r.bytes ≠ []) :
    it.decoded[it.decodedIter]? = r.bytes.head? := by
  have hlen := h.length_bytes
  have hpos := List.length_pos_iff.mpr hne
  rw [← h.bytes, List.head?_drop, List.getElem?_take, if_pos (by omega)]

/-- A read is sound exactly if it stays in the block. -/
theorem StandsAt.sound_iff (h : StandsAt lz size data it r) (hne : r.bytes ≠ []) (n : Nat)
    (it' : TraceIter) :
    (CallResult.read it n it').Sound lz size ↔ n ≤ r.bytes.length := by
  have hlen := h.length_bytes
  have hle := h.iter_le
  have hpos := List.length_pos_iff.mpr hne
  refine ⟨fun hs => ?_, fun hn => ⟨by omega, h.size_le, h.delivered (by omega)⟩⟩
  have := hs.1
  omega

/-- The step of the cursor. -/
theorem StandsAt.after (h : StandsAt lz size data it r) (hsize : size < 2 ^ 31) {n : Nat}
    (hn : n ≤ r.bytes.length) (c : ReadCall) :
    StandsAt lz size data { it with
      decodedIter := (it.decodedIter + n) % 2 ^ 64
      ended := it.ended || c.ends r.bytes } (r.after c n) := by
  have hlen := h.length_bytes
  have hle := h.iter_le
  have hsz := h.size_le
  have hmod : (it.decodedIter + n) % 2 ^ 64 = it.decodedIter + n := Nat.mod_eq_of_lt (by omega)
  rw [hmod]
  refine ⟨h.data, h.length, ?_, hsz, ?_, h.pos, ?_, h.delivered⟩
  · show it.decodedIter + n ≤ it.decodedSize
    omega
  · show _ = r.bytes.drop n
    rw [← h.bytes, List.drop_drop]
  · show (it.ended || _) = (r.ended || _)
    rw [h.ended]

/-- What `Next` and `NextEvent` do with a byte left in the block. -/
theorem StandsAt.read (h : StandsAt lz size data it r) (hne : r.bytes ≠ []) (c : ReadCall) :
    it.read c = match c.width r.bytes with
      | none => .undefined
      | some n => .read it n { it with
          decodedIter := (it.decodedIter + n) % 2 ^ 64
          ended := it.ended || c.ends r.bytes } := by
  cases c with
  | next len => simp [TraceIter.read, ReadCall.width, ReadCall.ends]
  | nextEvent =>
    have hsize := getEvent_size it.decoded it.decodedIter {}
    rw [h.head? hne] at hsize
    cases hhead : r.bytes.head? with
    | none => exact absurd (List.head?_eq_none_iff.mp hhead) hne
    | some label =>
      rw [hhead, Option.bind_some] at hsize
      simp only [ReadCall.width, ReadCall.ends, hhead, Option.bind_some]
      cases hl : labelSize label with
      | none =>
        rw [hl] at hsize
        have hnone := Option.map_eq_none_iff.mp hsize
        simp only [TraceIter.read, hnone]
      | some n =>
        rw [hl] at hsize
        obtain ⟨⟨label', p, n'⟩, hget, heq⟩ := Option.map_eq_some_iff.mp hsize
        obtain ⟨rfl, rfl⟩ := Prod.mk.inj heq
        simp only [TraceIter.read, hget, Option.some_beq_some]

/-- What `Prepare` decides by. -/
theorem StandsAt.exhausted (h : StandsAt lz size data it r) (hnil : r.bytes = []) :
    it.decodedSize ≤ it.decodedIter ∧
      ((it.ended = true ∨ it.data.length ≤ it.dataIter) ↔
        (r.ended = true ∨ data.length ≤ r.pos)) := by
  have hlen := h.length_bytes
  rw [hnil, List.length_nil] at hlen
  rw [h.ended, h.data, h.pos]
  exact ⟨by omega, Iff.rfl⟩

/-- What `Prepare` makes of the next block. -/
theorem StandsAt.prepareAny (h : StandsAt lz size data it r) (hnil : r.bytes = [])
    (hmore : ¬ (r.ended = true ∨ data.length ≤ r.pos)) :
    it.prepareAny lz size beyond =
      if 0 < ((decompressAt lz size data beyond r.pos).1 % 2 ^ 64).toNat then
        .ready { it with
          decoded := writeAt it.decoded 0 (decompressAt lz size data beyond r.pos).2
          decodedSize := ((decompressAt lz size data beyond r.pos).1 % 2 ^ 64).toNat
          decodedIter := 0
          dataIter := blockAfter data beyond r.pos }
      else .stopped := by
  obtain ⟨hle, hiff⟩ := h.exhausted hnil
  rw [TraceIter.prepareAny, if_pos hle, if_neg (hiff.not.mpr hmore), h.data, h.pos]

/-- `Prepare` where the next block decompresses. -/
theorem StandsAt.prepare (hlz : lz.Safe size) (h : StandsAt lz size data it r) (hnil : r.bytes = [])
    (hmore : ¬ (r.ended = true ∨ data.length ≤ r.pos))
    (hret : 0 ≤ (decompressAt lz size data beyond r.pos).1) :
    ((decompressAt lz size data beyond r.pos).2 = [] → it.prepareAny lz size beyond = .stopped) ∧
      ((decompressAt lz size data beyond r.pos).2 ≠ [] →
        ∃ it', it.prepareAny lz size beyond = .ready it' ∧
          StandsAt lz size data it' { r with
            bytes := (decompressAt lz size data beyond r.pos).2
            pos := blockAfter data beyond r.pos }) := by
  rw [h.prepareAny hnil hmore]
  obtain ⟨src, hsrc⟩ : ∃ src, decompressAt lz size data beyond r.pos = lz.decompress src size :=
    ⟨_, rfl⟩
  rw [hsrc] at hret ⊢
  have hstored := hlz.stored src hret
  have hout := hlz.length_le src
  have hsize := hlz.size_lt
  have hcast : ((lz.decompress src size).1 % 2 ^ 64).toNat = (lz.decompress src size).2.length := by
    omega
  rw [hcast]
  refine ⟨fun hnone => by simp [hnone], fun hne => ?_⟩
  rw [if_pos (List.length_pos_iff.mpr hne)]
  have hbuf : (writeAt it.decoded 0 (lz.decompress src size).2).take
      (lz.decompress src size).2.length = (lz.decompress src size).2 := by
    simp [writeAt]
  refine ⟨_, rfl, h.data, ?_, Nat.zero_le _, hout, hbuf, rfl, h.ended, fun _ => ⟨src, ?_⟩⟩
  · exact (length_writeAt (by rw [h.length]; simpa using hout)).trans h.length
  · show _ = (_, (writeAt it.decoded 0 (lz.decompress src size).2).take
      (lz.decompress src size).2.length)
    rw [hbuf, ← hstored]

/-- `Prepare` takes the negative `int` of a failed decompression for a size. -/
theorem StandsAt.prepare_failed (hlz : lz.Safe size) (h : StandsAt lz size data it r)
    (hnil : r.bytes = []) (hmore : ¬ (r.ended = true ∨ data.length ≤ r.pos))
    (hret : (decompressAt lz size data beyond r.pos).1 < 0) :
    ∃ it', it.prepareAny lz size beyond = .ready it' ∧ size < it'.decodedSize := by
  rw [h.prepareAny hnil hmore]
  obtain ⟨src, hsrc⟩ : ∃ src, decompressAt lz size data beyond r.pos = lz.decompress src size :=
    ⟨_, rfl⟩
  rw [hsrc] at hret ⊢
  have hint := hlz.int_le src
  have hsize := hlz.size_lt
  have hbig : size < ((lz.decompress src size).1 % 2 ^ 64).toNat := by omega
  rw [if_pos (by omega)]
  exact ⟨_, rfl, hbig⟩

/-- A read from a block that failed to decompress is not sound. -/
theorem not_sound_read (hsize : size < it.decodedSize) (c : ReadCall) :
    ¬ (it.read c).Sound lz size := by
  cases c with
  | next len => exact fun h => absurd h.2.1 (by omega)
  | nextEvent =>
    simp only [TraceIter.read]
    split
    · exact fun h => h
    · exact fun h => absurd h.2.1 (by omega)

/-! ## All calls -/

/-- Behind the end of the trace no call reads anything. -/
theorem undamaged_finished (hnil : r.bytes = []) (hend : r.ended = true ∨ data.length ≤ r.pos)
    (cs : List ReadCall) : Undamaged lz size beyond data r cs := by
  cases cs with
  | nil => trivial
  | cons c cs =>
    rw [Undamaged, if_neg (not_not.mpr hnil), if_pos hend]
    trivial

/-- The first call decides, or a later one. -/
theorem forall_callResults_read {it₁ it' : TraceIter} {n : Nat} {c : ReadCall} {cs : List ReadCall}
    {P : CallResult → Prop} (h : it.call lz size beyond c = .read it₁ n it') :
    (∀ o ∈ callResults lz size beyond it (c :: cs), P o) ↔
      P (.read it₁ n it') ∧ ∀ o ∈ callResults lz size beyond it' cs, P o := by
  simp [callResults, h]

/-- With bytes left, what the call reads decides, and then the rest. -/
theorem StandsAt.fits_iff (hlz : lz.Safe size) {c : ReadCall} {cs : List ReadCall} {it₀ : TraceIter}
    (h : StandsAt lz size data it r) (hne : r.bytes ≠ [])
    (hprep : it₀.prepareAny lz size beyond = .ready it)
    (ih : ∀ {it : TraceIter} {r : FileRest}, StandsAt lz size data it r →
      ((∀ o ∈ callResults lz size beyond it cs, o.Sound lz size) ↔
        Undamaged lz size beyond data r cs)) :
    (∀ o ∈ callResults lz size beyond it₀ (c :: cs), o.Sound lz size) ↔
      match c.width r.bytes with
      | none => False
      | some n => n ≤ r.bytes.length ∧ Undamaged lz size beyond data (r.after c n) cs := by
  have hread := h.read hne c
  cases hw : c.width r.bytes with
  | none =>
    rw [hw] at hread
    simp [callResults, TraceIter.call, hprep, hread, CallResult.Sound]
  | some n =>
    rw [hw] at hread
    have hcall : it₀.call lz size beyond c = it.read c := by
      rw [TraceIter.call, hprep]
    rw [forall_callResults_read (hcall.trans hread), h.sound_iff hne]
    exact and_congr_right fun hn => ih (h.after hlz.size_lt hn c)

theorem StandsAt.sound_iff_undamaged (hlz : lz.Safe size) (cs : List ReadCall)
    (h : StandsAt lz size data it r) :
    (∀ o ∈ callResults lz size beyond it cs, o.Sound lz size) ↔
      Undamaged lz size beyond data r cs := by
  induction cs generalizing it r with
  | nil => simp [callResults, Undamaged]
  | cons c cs ih =>
    by_cases hne : r.bytes ≠ []
    · -- nothing is prepared
      have hprep : it.prepareAny lz size beyond = .ready it := by
        have hlen := h.length_bytes
        have hpos := List.length_pos_iff.mpr hne
        rw [TraceIter.prepareAny, if_neg (by omega)]
      rw [h.fits_iff hlz hne hprep ih, Undamaged, if_pos hne]
    · rw [not_not] at hne
      rw [Undamaged, if_neg (not_not.mpr hne)]
      obtain ⟨hle, hiff⟩ := h.exhausted hne
      by_cases hend : r.ended = true ∨ data.length ≤ r.pos
      · -- false, now and from now on
        have hcall : it.call lz size beyond c = .finished := by
          rw [TraceIter.call, TraceIter.prepareAny, if_pos hle, if_pos (hiff.mpr hend)]
        rw [if_pos hend]
        have hrest := (ih h).trans (iff_of_true ?_ trivial)
        · simpa [callResults, hcall, CallResult.Sound] using hrest
        · exact undamaged_finished hne hend cs
      · rw [if_neg hend]
        by_cases hret : 0 ≤ (decompressAt lz size data beyond r.pos).1
        · obtain ⟨hstop, hready⟩ := h.prepare hlz hne hend hret
          simp only [hret, true_and]
          by_cases hout : (decompressAt lz size data beyond r.pos).2 = []
          · have hcall : it.call lz size beyond c = .stopped := by
              rw [TraceIter.call, hstop hout]
            simp [callResults, hcall, CallResult.Sound, hout]
          · obtain ⟨it', hprep, h'⟩ := hready hout
            rw [h'.fits_iff hlz hout hprep ih]
            exact ⟨fun hfits _ => hfits, fun hfits => hfits hout⟩
        · obtain ⟨it', hprep, hbig⟩ :=
            h.prepare_failed hlz hne hend (not_le.mp hret)
          simp only [hret, false_and, iff_false]
          intro hall
          have hnot : ¬ (it'.read c).Sound lz size := not_sound_read hbig c
          apply hnot
          apply hall
          have hcall : it.call lz size beyond c = it'.read c := by
            rw [TraceIter.call, hprep]
          rw [callResults, hcall]
          cases it'.read c <;> simp

theorem standsAt_open (data : List UInt8) (decoded : Block size) :
    StandsAt lz size data (TraceIter.open data decoded) {} :=
  ⟨rfl, decoded.2, le_rfl, Nat.zero_le _, rfl, rfl, rfl, fun h => absurd rfl h⟩

/-- **The reads are sound exactly if the file is undamaged** as far as the calls get. -/
theorem reads_sound_iff (hlz : lz.Safe size) (data : List UInt8) (decoded : Block size)
    (calls : List ReadCall) :
    (∀ o ∈ callResults lz size beyond (TraceIter.open data decoded) calls, o.Sound lz size) ↔
      Undamaged lz size beyond data {} calls :=
  (standsAt_open data decoded).sound_iff_undamaged hlz calls

/-! ## Whole blocks -/

theorem memBytes_eq {pos n : Nat} (h : pos + n ≤ data.length) :
    memBytes data beyond pos n = (data.drop pos).take n := by
  apply List.ext_getElem?
  intro i
  by_cases hi : i < n
  · have hlt : pos + i < data.length := by omega
    simp [memBytes, hi, hlt]
  · simp [memBytes, hi]

/-- Where the blocks lie in the file and their lengths fit an `int`, nothing wraps around and nothing
behind the file is read: this is `TraceIter.prepare`. -/
theorem prepareAny_eq (hlen : it.data.length < 2 ^ 64)
    (hblock : it.dataIter < it.data.length → ∃ n, readLE 8 it.data it.dataIter = some n ∧
      n < 2 ^ 31 ∧ it.dataIter + 8 + n + 8 ≤ it.data.length) :
    it.prepareAny lz size beyond =
      match it.prepare lz size with
      | none => .stopped
      | some (false, _) => .finished
      | some (true, it') => .ready it' := by
  unfold TraceIter.prepareAny TraceIter.prepare
  split_ifs with hle hend
  · rfl
  · obtain ⟨n, hread, hn, hin⟩ := hblock (by omega)
    have hword : lengthAt it.data beyond it.dataIter = n := by
      have h8 : it.dataIter + 8 ≤ it.data.length := by omega
      rw [readLE, if_pos h8] at hread
      rw [lengthAt, memBytes_eq h8]
      exact Option.some.inj hread
    have hpos : (it.dataIter + 8) % 2 ^ 64 = it.dataIter + 8 := Nat.mod_eq_of_lt (by omega)
    have hint : ((n : Int).bmod (2 ^ 32)).toNat = n := by
      rw [Int.bmod_eq_of_le (by omega) (by omega)]
      rfl
    have hafter : blockAfter it.data beyond it.dataIter = it.dataIter + 8 + n + 8 := by
      rw [blockAfter, hword, hpos]
      omega
    have hsrc : memBytes it.data beyond (it.dataIter + 8) n = _ :=
      memBytes_eq (show it.dataIter + 8 + n ≤ it.data.length by omega)
    simp only [decompressAt, hread, hword, hpos, hint, hafter, hsrc, Option.bind_eq_bind,
      Option.bind_some]
    obtain ⟨compress, decompress⟩ := lz
    dsimp only
    by_cases hsize : 0 <
        ((decompress ((it.data.drop (it.dataIter + 8)).take n) size).1 % 2 ^ 64).toNat
    · rw [guard, if_pos hsize, if_pos hsize]
      rfl
    · rw [guard, if_neg hsize, if_neg hsize]
      rfl
  · rfl

end

theorem shortLiteralLZ4_safe : shortLiteralLZ4.Safe 256 where
  int_le src := by
    unfold shortLiteralLZ4
    dsimp only
    split <;> (try split_ifs) <;> omega
  stored src := by
    unfold shortLiteralLZ4
    dsimp only
    split <;> (try split_ifs) <;> simp
  length_le src := by
    unfold shortLiteralLZ4
    dsimp only
    split <;> (try split_ifs) <;> simp <;> omega
  size_lt := by decide

/-- A block of one byte that is no LZ4 data. The buffer still holds what it held before, and that is
decoded as an event. -/
theorem damaged_block_decoded :
    ¬ ∀ (lz : LZ4) (size : Nat) (beyond : Nat → UInt8) (data : List UInt8) (decoded : Block size)
      (calls : List ReadCall), lz.Safe size →
        ∀ o ∈ callResults lz size beyond (TraceIter.open data decoded) calls, o.Sound lz size := by
  intro h
  have hall := h shortLiteralLZ4 256 (fun _ => 0) (dump [0xFF])
    ⟨List.replicate 256 0, List.length_replicate⟩ [.nextEvent] shortLiteralLZ4_safe
  have hdamaged : ¬ Undamaged shortLiteralLZ4 256 (fun _ => 0) (dump [0xFF]) {} [.nextEvent] := by
    have hret : (decompressAt shortLiteralLZ4 256 (dump [0xFF]) (fun _ => 0) 0).1 = -1 := by decide
    have hlen : (dump [0xFF]).length = 17 := rfl
    simp [Undamaged, hret, hlen]
  exact hdamaged (((standsAt_open _ _).sound_iff_undamaged shortLiteralLZ4_safe _).mp hall)

/-- A block of a padding label and an `End` label, read to the end. -/
theorem reads_sound_two :
    (∀ o ∈ callResults shortLiteralLZ4 256 (fun _ => 0)
        (TraceIter.open (dump (shortLiteralLZ4.compress [126, 125]))
          (⟨List.replicate 256 0, List.length_replicate⟩ : Block 256))
        [.nextEvent, .nextEvent, .nextEvent], o.Sound shortLiteralLZ4 256) ↔
      Undamaged shortLiteralLZ4 256 (fun _ => 0) (dump (shortLiteralLZ4.compress [126, 125])) {}
        [.nextEvent, .nextEvent, .nextEvent] :=
  reads_sound_iff shortLiteralLZ4_safe _ _ _

end Slimmer
