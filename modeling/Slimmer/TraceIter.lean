import Slimmer.Writer

/-!
# Reading a trace back

`Dump` appends a compressed block to the file as its length, the data, and its length again.
`TraceIter` (`tools/PrintBug/Util.cpp`) decompresses block after block and steps through the events
of each.

**Theorem (`readAll_recordTrace`).** Calling `NextEvent` until it returns false on the dump of a
recorded trace yields the slots the blocks consist of, one per call, so the events are those
recorded, no event crosses the end of a block and every label read is one that was written as a
label.
-/

namespace Slimmer

/-! ## LZ4 -/

/-- The two functions of LZ4. `decompress src cap` is `LZ4_decompress_safe`: its result and the
bytes it leaves at the start of the destination. -/
structure LZ4 where
  compress : List UInt8 → List UInt8
  decompress : List UInt8 → Nat → Int × List UInt8

/-- Decompression inverts compression on blocks of `size` bytes, and lengths fit an `int`. -/
structure LZ4.Inverts (lz : LZ4) (size : Nat) : Prop where
  decompress_compress : ∀ b : List UInt8, b.length = size →
    lz.decompress (lz.compress b) size = ((size : Int), b)
  length_lt : ∀ b : List UInt8, b.length = size → (lz.compress b).length < 2 ^ 31
  size_lt : size < 2 ^ 31

/-- Decompression inverts compression on blocks of at most `size` bytes, and lengths fit an `int`. -/
structure LZ4.InvertsUpTo (lz : LZ4) (size : Nat) : Prop where
  decompress_compress : ∀ b : List UInt8, b.length ≤ size →
    lz.decompress (lz.compress b) size = ((b.length : Int), b)
  length_lt : ∀ b : List UInt8, b.length ≤ size → (lz.compress b).length < 2 ^ 31
  size_lt : size < 2 ^ 31

/-! ## The file -/

/-- `Dump`: a length, the data and the length again. -/
def dump (data : List UInt8) : List UInt8 :=
  leBytes 8 data.length ++ data ++ leBytes 8 data.length

/-- The trace file when every block is dumped in order. -/
def traceFile (lz : LZ4) (blocks : List (List UInt8)) : List UInt8 :=
  blocks.flatMap fun b => dump (lz.compress b)

/-- The three parts of a dumped block, found behind a known prefix. -/
theorem read_dump {c : List UInt8} (hc : c.length < 256 ^ 8) (pre rest : List UInt8) :
    readLE 8 (pre ++ (dump c ++ rest)) pre.length = some c.length ∧
      ((pre ++ (dump c ++ rest)).drop (pre.length + 8)).take c.length = c ∧
      pre.length + 8 + c.length + 8 = (pre ++ dump c).length := by
  have hdata : pre ++ (dump c ++ rest) =
      pre ++ (leBytes 8 c.length ++ (c ++ (leBytes 8 c.length ++ rest))) := by
    simp only [dump, List.append_assoc]
  have h8 : pre.length + 8 = (pre ++ leBytes 8 c.length).length := by simp
  refine ⟨?_, ?_, ?_⟩
  · rw [hdata]
    exact readLE_append hc _ _
  · rw [hdata, ← List.append_assoc, h8, List.drop_left, List.take_left]
  · simp only [dump, List.length_append, length_leBytes]
    omega

theorem lt_length_dump (c pre rest : List UInt8) :
    pre.length < (pre ++ (dump c ++ rest)).length := by
  simp [dump]

/-! ## `TraceIter` -/

/-- The fields of `TraceIter`. -/
structure TraceIter where
  data : List UInt8
  /-- The buffer of `COMPRESS_BLOCK_SIZE` bytes. -/
  decoded : List UInt8
  dataIter : Nat := 0
  decodedIter : Nat := 0
  decodedSize : Nat := 0
  ended : Bool := false

/-- `Prepare`: false when the trace is ended, else there are decoded bytes to read. `size` is
`COMPRESS_BLOCK_SIZE`. -/
def TraceIter.prepare (lz : LZ4) (size : Nat) (it : TraceIter) : Option (Bool × TraceIter) :=
  if it.decodedSize ≤ it.decodedIter then
    if it.ended = true ∨ it.data.length ≤ it.dataIter then some (false, it)
    else do
      let length ← readLE 8 it.data it.dataIter
      let dataIter := it.dataIter + 8
      let (ret, out) := lz.decompress ((it.data.drop dataIter).take length) size
      -- the `int` is stored in a `size_t`
      let decodedSize := (ret % 2 ^ 64).toNat
      guard (0 < decodedSize)
      some (true, { it with
        decoded := writeAt it.decoded 0 out
        decodedSize := decodedSize
        decodedIter := 0
        dataIter := dataIter + length + 8 })
  else some (true, it)

/-- `NextEvent`, with the pointers it is given and what the caller reads through them:
`some none` is the value `false`. -/
def TraceIter.nextEvent (lz : LZ4) (size : Nat) (it : TraceIter) (p : FieldPtrs) :
    Option (Option (Entry × TraceIter × FieldPtrs)) := do
  let (ok, it) ← it.prepare lz size
  if ok then
    let (label, p, n) ← getEvent false it.decoded it.decodedIter p
    let entry ← readEntry it.decoded label p
    some (some (entry, { it with
      decodedIter := it.decodedIter + n
      ended := it.ended || label == endEventLabel }, p))
  else some none

/-- `while (iter.NextEvent(...))`, at most `fuel` calls. -/
def TraceIter.readAll (lz : LZ4) (size : Nat) : Nat → TraceIter → FieldPtrs → Option (List Entry)
  | 0, _, _ => none
  | fuel + 1, it, p => do
    match ← it.nextEvent lz size p with
    | none => some []
    | some (entry, it, p) => do
      let entries ← readAll lz size fuel it p
      some (entry :: entries)

/-- What the first `n` calls of `NextEvent` return, if all of them return true. -/
def TraceIter.readFirst (lz : LZ4) (size : Nat) :
    Nat → TraceIter → FieldPtrs → Option (List Entry × TraceIter × FieldPtrs)
  | 0, it, p => some ([], it, p)
  | n + 1, it, p => do
    let (entry, it, p) ← (← it.nextEvent lz size p)
    let (entries, it, p) ← readFirst lz size n it p
    some (entry :: entries, it, p)

/-- The iterator on a new file; `decoded` is the buffer `malloc` returns. -/
def TraceIter.open (data : List UInt8) {size : Nat} (decoded : Block size) : TraceIter :=
  { data := data, decoded := decoded }

/-- `Prepare` where a dumped block that decompresses to `b` comes next. -/
theorem TraceIter.prepare_dump {lz : LZ4} {size : Nat} (it : TraceIter) {pre c b rest : List UInt8}
    (hle : it.decodedSize ≤ it.decodedIter) (hended : it.ended = false)
    (hdata : it.data = pre ++ (dump c ++ rest)) (hpre : it.dataIter = pre.length)
    (hc : c.length < 2 ^ 31) (hdec : lz.decompress c size = ((b.length : Int), b))
    (hpos : 0 < b.length) (hlt : b.length < 2 ^ 31) :
    it.prepare lz size = some (true, { it with
      decoded := writeAt it.decoded 0 b, decodedSize := b.length, decodedIter := 0,
      dataIter := (pre ++ dump c).length }) := by
  obtain ⟨hread, htake, hnext⟩ := read_dump (hc.trans (by norm_num)) pre rest
  have hmore : ¬ (it.ended = true ∨ it.data.length ≤ it.dataIter) := by
    rw [hended, hdata, hpre]
    have := lt_length_dump c pre rest
    simp only [Bool.false_eq_true, false_or]
    omega
  have hret : ((b.length : Int) % 2 ^ 64).toNat = b.length := by omega
  rw [TraceIter.prepare, if_pos hle, if_neg hmore, hdata, hpre]
  simp only [hread, Option.bind_eq_bind, Option.bind_some, htake, hdec, hret, guard, if_pos hpos,
    hnext]
  rfl

/-! ## One call -/

/-- The slot an entry was read from. -/
def Entry.slot : Entry → Slot
  | .event e => .event e
  | .mark m _ => .mark m

/-- The fields of an event slot are in range. -/
def Slot.InRange : Slot → Prop
  | .event e => e.InRange
  | .mark _ => True

@[simp] theorem Entry.event?_slot (x : Entry) : x.slot.event? = x.event? := by
  cases x <;> rfl

/-- The events of entries are those of their slots. -/
theorem filterMap_event?_slot (entries : List Entry) :
    (entries.map Entry.slot).filterMap Slot.event? = entries.filterMap Entry.event? := by
  rw [List.filterMap_map]
  exact congrArg (List.filterMap · entries) (funext fun x => x.event?_slot)

section

variable {lz : LZ4} {size : Nat}

/-- Reading a slot at the cursor. -/
theorem read_slot {decoded : List UInt8} (x : Slot) (hx : x.InRange) (pre post : List UInt8)
    (hd : decoded = pre ++ (x.encode ++ post)) (p : FieldPtrs) :
    ∃ label p' entry, getEvent false decoded pre.length p = some (label, p', x.encode.length) ∧
      readEntry decoded label p' = some entry ∧ entry.slot = x ∧
      (label = endEventLabel ↔ x = .mark .endEvent) := by
  subst hd
  cases x with
  | event e =>
    obtain ⟨p', hget, hread⟩ := readEntry_event hx pre post p
    refine ⟨e.label, p', .event e, ?_, hread, rfl, ?_⟩
    · simpa [Slot.encode] using hget
    · cases e <;> simp [Event.label]
  | mark m =>
    refine ⟨m.label, p, _, getEvent_mark m false p (by simp [Slot.encode]), readEntry_mark _ m p,
      rfl, ?_⟩
    cases m <;> simp [Mark.label]

/-! ## The whole file -/

/-- The only `End` label is in the last block. -/
def EndLast : List (List Slot) → Prop
  | [] => True
  | [_] => True
  | b :: c :: bs => NoEnd b ∧ EndLast (c :: bs)

theorem endLast_append_singleton : ∀ {bs : List (List Slot)} (b : List Slot),
    NoEnd bs.flatten → EndLast (bs ++ [b])
  | [], b, _ => trivial
  | [c], b, h => ⟨by simpa using h, trivial⟩
  | c :: d :: bs, b, h => by
    rw [List.flatten_cons, noEnd_append] at h
    exact ⟨h.1, endLast_append_singleton b h.2⟩

/-- The reader has the rest `slots` of a block to read, and the blocks `bs` of the file, behind which
it has the bytes `torn`. -/
structure ReadsAt (lz : LZ4) (size : Nat) (torn : List UInt8) (it : TraceIter) (slots : List Slot)
    (bs : List (List Slot)) : Prop where
  cursor : (slots = [] ∧ it.decodedSize ≤ it.decodedIter) ∨ ∃ pre,
    it.decoded = pre ++ slotBytes slots ∧ it.decodedIter = pre.length ∧ it.decodedSize = size
  length : it.decoded.length = size
  file : ∃ pre, it.data = pre ++ (traceFile lz (bs.map slotBytes) ++ torn) ∧ it.dataIter = pre.length
  full : ∀ b ∈ bs, (slotBytes b).length = size
  inRange : ∀ x ∈ slots ++ bs.flatten, x.InRange
  endLast : EndLast (slots :: bs)
  ended : it.ended = true → bs = []

variable {it : TraceIter} {slots : List Slot} {bs : List (List Slot)} {torn : List UInt8}

theorem Slot.encode_pos (x : Slot) : 0 < x.encode.length := by
  cases x with
  | event e => simpa [Slot.encode] using e.size_pos
  | mark m => simp [Slot.encode]

/-- With a slot left in the block there is nothing to prepare. -/
theorem ReadsAt.prepare_cons {x : Slot} (h : ReadsAt lz size torn it (x :: slots) bs) :
    it.prepare lz size = some (true, it) := by
  obtain ⟨hnil, -⟩ | ⟨pre, hd, hi, hs⟩ := h.cursor
  · cases hnil
  · have hlen := congrArg List.length hd
    have hpos := x.encode_pos
    rw [h.length, slotBytes_cons, List.length_append, List.length_append] at hlen
    rw [TraceIter.prepare, if_neg (by omega)]

/-- At the end of a block there is nothing left of it. -/
theorem ReadsAt.size_le (h : ReadsAt lz size torn it [] bs) : it.decodedSize ≤ it.decodedIter := by
  obtain ⟨-, hle⟩ | ⟨pre, hd, hi, hs⟩ := h.cursor
  · exact hle
  · have hlen := congrArg List.length hd
    rw [h.length, slotBytes_nil, List.append_nil] at hlen
    omega

/-- At the end of the last block the trace is ended. -/
theorem ReadsAt.prepare_nil (h : ReadsAt lz size [] it [] []) :
    it.prepare lz size = some (false, it) := by
  obtain ⟨pre, hfile, hpre⟩ := h.file
  have hend : it.data.length ≤ it.dataIter := by simp [hfile, hpre, traceFile]
  rw [TraceIter.prepare, if_pos h.size_le, if_pos (Or.inr hend)]

/-- At the end of a block the next one is decompressed. -/
theorem ReadsAt.prepare_next (hlz : lz.Inverts size) (hpos : 0 < size) {b : List Slot}
    (h : ReadsAt lz size torn it [] (b :: bs)) :
    ∃ it', it.prepare lz size = some (true, it') ∧ ReadsAt lz size torn it' b bs := by
  obtain ⟨pre, hfile, hpre⟩ := h.file
  have hb : (slotBytes b).length = size := h.full b List.mem_cons_self
  have hsplit : it.data = pre ++ (dump (lz.compress (slotBytes b)) ++
      (traceFile lz (bs.map slotBytes) ++ torn)) := by
    rw [hfile]
    simp [traceFile]
  have hmore : it.ended = false := by
    by_contra hended
    rw [Bool.not_eq_false] at hended
    cases h.ended hended
  have hdec : lz.decompress (lz.compress (slotBytes b)) size =
      (((slotBytes b).length : Int), slotBytes b) := by
    rw [hlz.decompress_compress _ hb, hb]
  have hout : writeAt it.decoded 0 (slotBytes b) = slotBytes b := by
    have hdrop : it.decoded.drop (0 + (slotBytes b).length) = [] := by
      rw [hb, Nat.zero_add, ← h.length, List.drop_length]
    rw [writeAt, hdrop]
    simp
  refine ⟨_, it.prepare_dump h.size_le hmore hsplit hpre (hlz.length_lt _ hb) hdec (by omega)
    (by rw [hb]; exact hlz.size_lt), ?_⟩
  refine ⟨Or.inr ⟨[], hout, rfl, hb⟩, (congrArg List.length hout).trans hb,
    ⟨pre ++ dump (lz.compress (slotBytes b)), ?_, rfl⟩, ?_, ?_, ?_, ?_⟩
  · simp [hsplit]
  · exact fun x hx => h.full x (List.mem_cons_of_mem _ hx)
  · exact h.inRange
  · cases bs with
    | nil => trivial
    | cons c bs => exact h.endLast.2
  · intro hended
    cases h.ended hended

/-- One call of `NextEvent` with a slot left in the block. -/
theorem ReadsAt.nextEvent_cons {x : Slot} (h : ReadsAt lz size torn it (x :: slots) bs)
    (p : FieldPtrs) :
    ∃ entry it' p', (∀ it₀ : TraceIter, it₀.prepare lz size = some (true, it) →
        it₀.nextEvent lz size p = some (some (entry, it', p'))) ∧
      entry.slot = x ∧ ReadsAt lz size torn it' slots bs := by
  obtain ⟨hnil, -⟩ | ⟨pre, hd, hi, hs⟩ := h.cursor
  · cases hnil
  obtain ⟨label, p', entry, hget, hread, hslot, hlabel⟩ :=
    read_slot x (h.inRange x (by simp)) pre (slotBytes slots) hd p
  refine ⟨entry, { it with
    decodedIter := it.decodedIter + x.encode.length
    ended := it.ended || label == endEventLabel }, p', fun it₀ hprep => ?_, hslot, ?_⟩
  · simp [TraceIter.nextEvent, hprep, hi, hget, hread]
  · refine ⟨Or.inr ⟨pre ++ x.encode, ?_, ?_, hs⟩, h.length, h.file, h.full, ?_, ?_, ?_⟩
    · simp [hd]
    · simp [hi]
    · exact fun y hy => h.inRange y (by simp at hy ⊢; tauto)
    · cases bs with
      | nil => trivial
      | cons c bs =>
        refine ⟨fun hmem => h.endLast.1 (List.mem_cons_of_mem _ hmem), h.endLast.2⟩
    · -- an `End` label is only read in the last block
      intro hended
      rcases Bool.or_eq_true_iff.mp hended with hended | hended
      · exact h.ended hended
      · have hx := hlabel.mp (by simpa using hended)
        cases bs with
        | nil => rfl
        | cons c bs => exact absurd (by simp [hx]) h.endLast.1

/-- The next slot is read, of the rest of a block or of the next one. -/
theorem ReadsAt.nextEvent (hlz : lz.Inverts size) (hpos : 0 < size) (p : FieldPtrs)
    (h : ReadsAt lz size torn it slots bs) {x : Slot} {rest : List Slot}
    (hnext : slots ++ bs.flatten = x :: rest) :
    ∃ entry it' p' slots' bs', it.nextEvent lz size p = some (some (entry, it', p')) ∧
      entry.slot = x ∧ slots' ++ bs'.flatten = rest ∧ ReadsAt lz size torn it' slots' bs' := by
  cases slots with
  | cons y slots =>
    obtain ⟨rfl, hrest⟩ := List.cons.inj hnext
    obtain ⟨entry, it', p', hread, hslot, h'⟩ := h.nextEvent_cons p
    exact ⟨entry, it', p', slots, bs, hread it h.prepare_cons, hslot, hrest, h'⟩
  | nil =>
    cases bs with
    | nil => cases hnext
    | cons b bs =>
      obtain ⟨it', hprep, h'⟩ := h.prepare_next hlz hpos
      cases b with
      | nil =>
        have := h.full [] List.mem_cons_self
        simp at this
        omega
      | cons y b =>
        obtain ⟨rfl, hrest⟩ := List.cons.inj hnext
        obtain ⟨entry, it'', p', hread, hslot, h''⟩ := h'.nextEvent_cons p
        exact ⟨entry, it'', p', b, bs, hread it hprep, hslot, hrest, h''⟩

/-- **The slots of the blocks come first**, one by one, whatever lies behind them. -/
theorem ReadsAt.readFirst (hlz : lz.Inverts size) (hpos : 0 < size) :
    ∀ (n : Nat) {it : TraceIter} {slots : List Slot} {bs : List (List Slot)} (p : FieldPtrs),
      ReadsAt lz size torn it slots bs → slots.length + bs.flatten.length = n →
      ∃ entries it' p', it.readFirst lz size n p = some (entries, it', p') ∧
        entries.map Entry.slot = slots ++ bs.flatten ∧ ReadsAt lz size torn it' [] []
  | 0, it, slots, bs, p, h, hn => by
    have hslots : slots = [] := List.length_eq_zero_iff.mp (by omega)
    have hflat : bs.flatten = [] := List.length_eq_zero_iff.mp (by omega)
    have hbs : bs = [] := by
      rw [List.eq_nil_iff_forall_not_mem]
      intro b hb
      have hfull := h.full b hb
      rw [List.flatten_eq_nil_iff.mp hflat b hb, slotBytes_nil, List.length_nil] at hfull
      omega
    subst hslots hbs
    exact ⟨[], it, p, rfl, rfl, h⟩
  | n + 1, it, slots, bs, p, h, hn => by
    rw [← List.length_append] at hn
    obtain ⟨x, rest, hnext⟩ := List.exists_cons_of_length_eq_add_one hn
    obtain ⟨entry, it', p', slots', bs', hread, hslot, hrest, h'⟩ := h.nextEvent hlz hpos p hnext
    have hlen : slots'.length + bs'.flatten.length = n := by
      rw [← List.length_append, hrest]
      rw [hnext, List.length_cons] at hn
      omega
    obtain ⟨entries, it'', p'', hreads, hmap, h''⟩ := ReadsAt.readFirst hlz hpos n p' h' hlen
    refine ⟨entry :: entries, it'', p'', ?_, ?_, h''⟩
    · simp [TraceIter.readFirst, hread, hreads]
    · rw [hnext, List.map_cons, hslot, hmap, hrest]

/-- Reading on behind the first entries. -/
theorem TraceIter.readAll_of_readFirst {it' : TraceIter} {p' : FieldPtrs} :
    ∀ {n fuel : Nat} {it : TraceIter} {p : FieldPtrs} {entries : List Entry},
      it.readFirst lz size n p = some (entries, it', p') →
      it'.nextEvent lz size p' = some none → n < fuel → it.readAll lz size fuel p = some entries
  | _, 0, _, _, _, _, _, hfuel => absurd hfuel (Nat.not_lt_zero _)
  | 0, fuel + 1, it, p, entries, h, hend, _ => by
    obtain ⟨rfl, rfl, rfl⟩ : entries = [] ∧ it' = it ∧ p' = p := by
      simpa [TraceIter.readFirst, eq_comm] using h
    simp [TraceIter.readAll, hend]
  | n + 1, fuel + 1, it, p, entries, h, hend, hfuel => by
    simp only [TraceIter.readFirst, Option.bind_eq_bind, Option.bind_eq_some_iff] at h
    obtain ⟨next, hnext, ⟨entry, it₁, p₁⟩, rfl, ⟨rest, it₂, p₂⟩, hrest, heq⟩ := h
    obtain ⟨rfl, rfl, rfl⟩ : entries = entry :: rest ∧ it' = it₂ ∧ p' = p₂ := by
      simpa [eq_comm] using heq
    have hread := TraceIter.readAll_of_readFirst hrest hend (by omega : n < fuel)
    simp [TraceIter.readAll, hnext, hread]

/-- **The whole loop.** The entries read are the slots of the file, one by one, and then
`NextEvent` returns false. -/
theorem ReadsAt.readAll (hlz : lz.Inverts size) (hpos : 0 < size) (fuel : Nat) (p : FieldPtrs)
    (h : ReadsAt lz size [] it slots bs) (hfuel : slots.length + bs.flatten.length < fuel) :
    ∃ entries, it.readAll lz size fuel p = some entries ∧
      entries.map Entry.slot = slots ++ bs.flatten := by
  obtain ⟨entries, it', p', hfirst, hmap, hat⟩ := ReadsAt.readFirst hlz hpos _ p h rfl
  have hend : it'.nextEvent lz size p' = some none := by
    simp [TraceIter.nextEvent, hat.prepare_nil]
  exact ⟨entries, TraceIter.readAll_of_readFirst hfirst hend hfuel, hmap⟩

/-! ## Recorded traces -/

theorem Invocation.event_inRange (v : Invocation) (tid : UInt64) : (v.event tid.toNat).InRange := by
  have h64 : ∀ x : UInt64, x.toNat < 2 ^ (8 * 8) := UInt64.toNat_lt
  have h32 : ∀ x : UInt32, x.toNat < 2 ^ (8 * 4) := UInt32.toNat_lt
  obtain ⟨thread, mem, call⟩ := v
  cases call <;> simp only [Invocation.event, Event.InRange, Event.fields, List.forall_mem_cons,
    h64, h32, true_and] <;> simp

theorem recordedEvents_inRange : ∀ (calls : List Invocation) (localTid : UInt64 → UInt64),
    ∀ e ∈ recordedEvents localTid calls, e.InRange
  | [], _, e, he => by simp [recordedEvents] at he
  | v :: calls, localTid, e, he => by
    rcases List.mem_cons.mp he with rfl | he
    · exact v.event_inRange _
    · exact recordedEvents_inRange calls _ e he

/-- The slots of a recorded trace. -/
theorem recordedSlots_inRange {slots : List Slot} {localTid : UInt64 → UInt64}
    {calls : List Invocation} (hev : slots.filterMap Slot.event? = recordedEvents localTid calls) :
    ∀ x ∈ slots, x.InRange := by
  intro x hx
  cases x with
  | mark m => trivial
  | event e =>
    have he : e ∈ recordedEvents localTid calls := by
      rw [← hev]
      exact List.mem_filterMap.mpr ⟨.event e, hx, rfl⟩
    exact recordedEvents_inRange calls _ e he

/-- **Reading back a trace gives the recorded events.** The blocks of the trace are full of whole
slots. Calling `NextEvent` on the file yields one entry for each of these slots, then false, so the
events read are the events recorded. -/
theorem readAll_recordTrace (hlz : lz.Inverts size) (hS : sizeOfMemmoveEvent ≤ size)
    (fresh : Nat → Block size) (decoded : Block size) (calls : List Invocation) :
    ∃ blocks : List (List Slot), recordTrace fresh calls = blocks.map slotBytes ∧
      (∀ b ∈ blocks, (slotBytes b).length = size) ∧
      ∀ fuel, blocks.flatten.length < fuel →
        ∃ entries, (TraceIter.open (traceFile lz (recordTrace fresh calls)) decoded).readAll
            lz size fuel {} = some entries ∧
          entries.map Entry.slot = blocks.flatten ∧
          entries.filterMap Entry.event? = recordedEvents (fun _ => 0) calls := by
  obtain ⟨done, last, hblocks, hfull, hend, hev⟩ := recordTrace_laid fresh hS calls
  have hrange := recordedSlots_inRange hev
  have hat : ReadsAt lz size [] (TraceIter.open (traceFile lz (recordTrace fresh calls)) decoded) []
      (done ++ [last]) := by
    refine ⟨Or.inl ⟨rfl, le_rfl⟩, decoded.2,
      ⟨[], by rw [hblocks, List.append_nil]; rfl, rfl⟩, hfull,
      by simpa using hrange, ?_, fun h => absurd h (by simp [TraceIter.open])⟩
    cases done with
    | nil => exact ⟨by simp [NoEnd], trivial⟩
    | cons b done => exact ⟨by simp [NoEnd], endLast_append_singleton last hend⟩
  have hpos : 0 < size := lt_of_lt_of_le (by decide) hS
  refine ⟨done ++ [last], hblocks, hfull, fun fuel hfuel => ?_⟩
  obtain ⟨entries, hread, hmap⟩ := hat.readAll hlz hpos fuel {} (by simpa using hfuel)
  have hslots : entries.map Entry.slot = (done ++ [last]).flatten := by simpa using hmap
  refine ⟨entries, hread, hslots, ?_⟩
  rw [← hev, ← hslots, filterMap_event?_slot]

end

/-- LZ4 restricted to blocks of 15 to 269 bytes and to the encoding that has only literals: the
token, the rest of the length, the bytes. -/
def literalLZ4 : LZ4 where
  compress b := 0xF0 :: UInt8.ofNat (b.length - 15) :: b
  decompress
    | 0xF0 :: n :: b, cap =>
      if b.length = 15 + n.toNat ∧ b.length ≤ cap then ((b.length : Int), b) else (-1, [])
    | _, _ => (-1, [])

theorem literalLZ4_inverts : literalLZ4.Inverts 38 where
  decompress_compress b hb := by simp [literalLZ4, hb]
  length_lt b hb := by simp [literalLZ4, hb]
  size_lt := by decide

/-- LZ4 restricted to blocks of at most 269 bytes and to the encoding that has only literals: the
token, the rest of the length where it does not fit the token, the bytes. -/
def shortLiteralLZ4 : LZ4 where
  compress b :=
    if b.length < 15 then UInt8.ofNat (16 * b.length) :: b
    else 0xF0 :: UInt8.ofNat (b.length - 15) :: b
  decompress
    | 0xF0 :: n :: b, cap =>
      if b.length = 15 + n.toNat ∧ b.length ≤ cap then ((b.length : Int), b) else (-1, [])
    | t :: b, cap =>
      if t.toNat = 16 * b.length ∧ b.length ≤ cap then ((b.length : Int), b) else (-1, [])
    | [], _ => (-1, [])

theorem shortLiteralLZ4_inverts : shortLiteralLZ4.InvertsUpTo 256 where
  decompress_compress b hb := by
    unfold shortLiteralLZ4
    simp only []
    split_ifs with hshort
    · have ht : (UInt8.ofNat (16 * b.length)).toNat = 16 * b.length := by
        rw [UInt8.toNat_ofNat']
        omega
      have hne : UInt8.ofNat (16 * b.length) ≠ 0xF0 := by
        intro heq
        have := congrArg UInt8.toNat heq
        rw [ht] at this
        simp at this
        omega
      split
      · rename_i heq
        exact absurd (List.cons.inj heq).1 hne
      · rename_i heq
        obtain ⟨rfl, rfl⟩ := List.cons.inj heq
        rw [if_pos ⟨ht, hb⟩]
      · rename_i heq
        cases heq
    · have hn : (UInt8.ofNat (b.length - 15)).toNat = b.length - 15 := by
        rw [UInt8.toNat_ofNat']
        omega
      have hdec : b.length = 15 + (UInt8.ofNat (b.length - 15)).toNat ∧ b.length ≤ 256 :=
        ⟨by omega, hb⟩
      show (if _ then _ else _) = _
      rw [if_pos hdec]
  length_lt b hb := by
    unfold shortLiteralLZ4
    simp only []
    split_ifs
    · rw [List.length_cons]
      omega
    · rw [List.length_cons, List.length_cons]
      omega
  size_lt := by decide

/-- Two events in blocks of 38 bytes, the second of which opens a new block. -/
theorem readAll_recordTrace_two :
    ∃ blocks : List (List Slot),
      recordTrace (fun _ => (⟨List.replicate 38 0, rfl⟩ : Block 38))
          [⟨7, fun _ => 0, .basicBlock 3⟩, ⟨7, fun _ => 0, .store 5 4096 8 1⟩] =
        blocks.map slotBytes ∧
      (∀ b ∈ blocks, (slotBytes b).length = 38) ∧
      ∀ fuel, blocks.flatten.length < fuel →
        ∃ entries, (TraceIter.open (traceFile literalLZ4
            (recordTrace (fun _ => (⟨List.replicate 38 0, rfl⟩ : Block 38))
              [⟨7, fun _ => 0, .basicBlock 3⟩, ⟨7, fun _ => 0, .store 5 4096 8 1⟩]))
            (⟨List.replicate 38 0, rfl⟩ : Block 38)).readAll literalLZ4 38 fuel {} = some entries ∧
          entries.map Entry.slot = blocks.flatten ∧
          entries.filterMap Entry.event? = recordedEvents (fun _ => 0)
            [⟨7, fun _ => 0, .basicBlock 3⟩, ⟨7, fun _ => 0, .store 5 4096 8 1⟩] :=
  readAll_recordTrace literalLZ4_inverts (by decide) _ _ _

end Slimmer
