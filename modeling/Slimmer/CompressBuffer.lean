import Slimmer.TraceIter

/-!
# `CompressBuffer` and `TraceIter::Next`

`CompressBuffer` (`lib/SlimmerUtil/Routines.cpp`) collects records in a buffer of `size` bytes and
dumps the buffer, compressed, when the next record does not fit and once more when it is destroyed.
`TraceIter::Next` (`tools/PrintBug/Util.cpp`) is given the length of a record and hands out that many
bytes, after decompressing a block when the last one is used up.

**Theorem (`records_read_back_iff`).** No record is split between two blocks. `Next` returns the
records one by one and then false if and only if there is a last record and it has a byte: the block
of a buffer that is still empty when it is destroyed runs into the assertion, and an empty record
behind the last byte is taken for the end of the trace.
-/

namespace Slimmer

/-! ## The writer -/

/-- The buffer with its `offset`, and what the `stream` has been written. -/
structure CompressBuffer where
  buffer : List UInt8
  offset : Nat := 0
  stream : List UInt8 := []

section

variable (lz : LZ4) (size : Nat)

/-- Compress `buffer[0, offset)` and write it to the stream. -/
def CompressBuffer.write (c : CompressBuffer) : List UInt8 :=
  c.stream ++ dump (lz.compress (c.buffer.take c.offset))

/-- `Prepare`: room for `len` bytes. -/
def CompressBuffer.prepare (c : CompressBuffer) (len : Nat) : CompressBuffer :=
  if c.offset + len > size then { c with stream := c.write lz, offset := 0 } else c

/-- `Append`. -/
def CompressBuffer.append (c : CompressBuffer) (bytes : List UInt8) : CompressBuffer :=
  let c := c.prepare lz size bytes.length
  { c with buffer := writeAt c.buffer c.offset bytes, offset := c.offset + bytes.length }

/-- The file when the records have been appended and the destructor has run. `buffer` is what
`malloc(size)` returns. -/
def compressRecords (buffer : Block size) (records : List (List UInt8)) : List UInt8 :=
  (records.foldl (CompressBuffer.append lz size) { buffer := buffer }).write lz

/-! ## The reader -/

/-- `Next`: the bytes copied out, `some none` for false. -/
def TraceIter.next (it : TraceIter) (len : Nat) : Option (Option (List UInt8 × TraceIter)) := do
  let (ok, it) ← it.prepare lz size
  if ok then
    -- `memcpy` reads inside the buffer
    guard (it.decodedIter + len ≤ it.decoded.length)
    some (some ((it.decoded.drop it.decodedIter).take len,
      { it with decodedIter := it.decodedIter + len }))
  else some none

/-- Calls of `Next` that all return true, and the iterator behind them. -/
def TraceIter.nextAll (it : TraceIter) : List Nat → Option (List (List UInt8) × TraceIter)
  | [] => some ([], it)
  | len :: lens => do
    let (bytes, it) ← (← it.next lz size len)
    let (records, it) ← it.nextAll lens
    some (bytes :: records, it)

/-! ## What is read back -/

/-- Every record lies in one of the blocks the file is the dump of. -/
def Unsplit (file : List UInt8) (records : List (List UInt8)) : Prop :=
  ∃ blocks : List (List (List UInt8)), blocks.flatten = records ∧
    file = traceFile lz (blocks.map List.flatten)

/-- The reader returns the records, and then false. -/
def ReadsBack (file : List UInt8) (decoded : Block size) (records : List (List UInt8)) : Prop :=
  ∃ it, (TraceIter.open file decoded).nextAll lz size (records.map List.length) =
      some (records, it) ∧
    ∀ len, it.next lz size len = some none

/-- There is a last record, and it is not empty. -/
def EndsFilled (records : List (List UInt8)) : Prop := ∃ r ∈ records.getLast?, r ≠ []

end

section

variable {lz : LZ4} {size : Nat} {c : CompressBuffer} {done : List (List (List UInt8))}
  {cur records : List (List UInt8)}

/-! ## The blocks written -/

/-- The records in the blocks written and in the buffer. A block is written to make room, so it has a
byte. -/
structure Collected (lz : LZ4) (size : Nat) (c : CompressBuffer) (done : List (List (List UInt8)))
    (cur : List (List UInt8)) : Prop where
  stream : c.stream = traceFile lz (done.map List.flatten)
  blocks : ∀ b ∈ done, b.flatten ≠ [] ∧ b.flatten.length ≤ size
  length : c.buffer.length = size
  written : c.buffer.take c.offset = cur.flatten
  offset_le : c.offset ≤ size

theorem Collected.init (buffer : Block size) :
    Collected lz size { buffer := buffer } [] [] where
  stream := rfl
  blocks := by simp
  length := buffer.2
  written := rfl
  offset_le := Nat.zero_le _

theorem Collected.offset (h : Collected lz size c done cur) : c.offset = cur.flatten.length := by
  rw [← h.written, List.length_take, h.length, Nat.min_eq_left h.offset_le]

/-- The stream after one more block. -/
theorem Collected.write (h : Collected lz size c done cur) :
    c.write lz = traceFile lz ((done ++ [cur]).map List.flatten) := by
  simp [CompressBuffer.write, h.stream, h.written, traceFile]

/-- A record that fits goes to the end of the buffer. -/
theorem Collected.store (h : Collected lz size c done cur) {r : List UInt8}
    (hr : c.offset + r.length ≤ size) :
    Collected lz size { c with buffer := writeAt c.buffer c.offset r, offset := c.offset + r.length }
      done (cur ++ [r]) where
  stream := h.stream
  blocks := h.blocks
  length := (length_writeAt (by rw [h.length]; exact hr)).trans h.length
  written := by
    have htake : (c.buffer.take c.offset).length = c.offset := by
      rw [List.length_take, h.length, Nat.min_eq_left h.offset_le]
    have hlen : c.offset + r.length = (c.buffer.take c.offset ++ r).length := by
      rw [List.length_append, htake]
    show (writeAt c.buffer c.offset r).take (c.offset + r.length) = _
    rw [writeAt, hlen, List.take_left, h.written, List.flatten_append, List.flatten_singleton]
  offset_le := hr

/-- The buffer is written out when it holds a byte. -/
theorem Collected.next (h : Collected lz size c done cur) (hcur : cur.flatten ≠ []) :
    Collected lz size { c with stream := c.write lz, offset := 0 } (done ++ [cur]) [] where
  stream := h.write
  blocks b hb := by
    obtain hb | hb := List.mem_append.mp hb
    · exact h.blocks b hb
    · rw [List.mem_singleton.mp hb, ← h.offset]
      exact ⟨hcur, h.offset_le⟩
  length := h.length
  written := rfl
  offset_le := Nat.zero_le _

/-- **Appending.** The record goes to the end of the buffer, which is first written out when the record
does not fit. A block that is not the first starts with a record that has a byte. -/
theorem Collected.append (h : Collected lz size c done cur)
    (hopen : done ≠ [] → cur.flatten ≠ []) {r : List UInt8} (hr : r.length ≤ size) :
    ∃ done' cur', Collected lz size (c.append lz size r) done' cur' ∧
      (done' ≠ [] → cur'.flatten ≠ []) ∧ done'.flatten ++ cur' = done.flatten ++ cur ++ [r] := by
  have hoff := h.offset
  have hle := h.offset_le
  by_cases hfit : c.offset + r.length > size
  · have hcur : cur.flatten ≠ [] := by
      intro hnil
      rw [hnil, List.length_nil] at hoff
      omega
    have hstore := (h.next hcur).store (r := r) (by simpa using hr)
    refine ⟨done ++ [cur], [r], ?_, fun _ hnil => ?_, by simp⟩
    · simpa [CompressBuffer.append, CompressBuffer.prepare, hfit] using hstore
    · have hr0 : r = [] := by simpa using hnil
      rw [hr0, List.length_nil] at hfit
      omega
  · have hstore := h.store (r := r) (by omega)
    refine ⟨done, cur ++ [r], ?_, fun hne hnil => ?_, by simp⟩
    · simpa [CompressBuffer.append, CompressBuffer.prepare, hfit] using hstore
    · rw [List.flatten_append] at hnil
      exact hopen hne (List.append_eq_nil_iff.mp hnil).1

theorem Collected.foldl (h : Collected lz size c done cur) (hopen : done ≠ [] → cur.flatten ≠ [])
    (hr : ∀ r ∈ records, r.length ≤ size) :
    ∃ done' cur', Collected lz size (records.foldl (CompressBuffer.append lz size) c) done' cur' ∧
      (done' ≠ [] → cur'.flatten ≠ []) ∧
      done'.flatten ++ cur' = done.flatten ++ cur ++ records := by
  induction records generalizing c done cur with
  | nil => exact ⟨done, cur, h, hopen, by simp⟩
  | cons r records ih =>
    obtain ⟨hr₁, hr⟩ := List.forall_mem_cons.mp hr
    obtain ⟨done₁, cur₁, h₁, hopen₁, hrec₁⟩ := h.append hopen hr₁
    obtain ⟨done', cur', h', hopen', hrec'⟩ := ih h₁ hopen₁ hr
    exact ⟨done', cur', h', hopen', by rw [hrec', hrec₁]; simp⟩

/-- **The file** is the dump of blocks of whole records. All blocks but the last have a byte, and the
last one has a byte when it is not the only one. -/
theorem compressRecords_blocks (lz : LZ4) (buffer : Block size)
    (hr : ∀ r ∈ records, r.length ≤ size) :
    ∃ done cur, compressRecords lz size buffer records =
        traceFile lz ((done ++ [cur]).map List.flatten) ∧
      (∀ b ∈ done, b.flatten ≠ [] ∧ b.flatten.length ≤ size) ∧ cur.flatten.length ≤ size ∧
      (done ≠ [] → cur.flatten ≠ []) ∧ done.flatten ++ cur = records := by
  have hinit : Collected lz size { buffer := buffer } [] [] := .init buffer
  obtain ⟨done, cur, h, hopen, hrec⟩ := hinit.foldl (by simp) hr
  exact ⟨done, cur, h.write, h.blocks, h.offset ▸ h.offset_le, hopen, by simpa using hrec⟩

/-! ## Reading the records -/

variable {it : TraceIter} {bs : List (List (List UInt8))} {r : List UInt8}

/-- The reader has the records `cur` left in the decoded block, and the blocks `bs` of the file. -/
structure RecordsAt (lz : LZ4) (size : Nat) (it : TraceIter) (cur : List (List UInt8))
    (bs : List (List (List UInt8))) : Prop where
  cursor : ∃ pre post, it.decoded = pre ++ (cur.flatten ++ post) ∧ it.decodedIter = pre.length ∧
    it.decodedSize = pre.length + cur.flatten.length
  length : it.decoded.length = size
  file : ∃ pre, it.data = pre ++ traceFile lz (bs.map List.flatten) ∧ it.dataIter = pre.length
  blocks : ∀ b ∈ bs, b.flatten ≠ [] ∧ b.flatten.length ≤ size
  ended : it.ended = false

/-- With a byte left in the block there is nothing to prepare. -/
theorem RecordsAt.prepare_here (h : RecordsAt lz size it cur bs) (hcur : cur.flatten ≠ []) :
    it.prepare lz size = some (true, it) := by
  obtain ⟨pre, post, -, hi, hs⟩ := h.cursor
  have hpos := List.length_pos_iff.mpr hcur
  rw [TraceIter.prepare, if_neg (by omega)]

/-- Where the bytes of a block are used up, its records left are empty ones, and the records of the
next block follow. -/
theorem RecordsAt.prepare_next (hlz : lz.InvertsUpTo size) {b : List (List UInt8)}
    (h : RecordsAt lz size it cur (b :: bs)) (hcur : cur.flatten = []) :
    ∃ it', it.prepare lz size = some (true, it') ∧ RecordsAt lz size it' (cur ++ b) bs := by
  obtain ⟨pre, post, -, hi, hs⟩ := h.cursor
  obtain ⟨preF, hfile, hpre⟩ := h.file
  obtain ⟨⟨hb, hblen⟩, hbs⟩ := List.forall_mem_cons.mp h.blocks
  have hsplit : it.data = preF ++ (dump (lz.compress b.flatten) ++
      traceFile lz (bs.map List.flatten)) := by
    rw [hfile]
    simp [traceFile]
  refine ⟨_, it.prepare_dump (by rw [hs, hi, hcur]; rfl) h.ended hsplit hpre
    (hlz.length_lt _ hblen) (hlz.decompress_compress _ hblen) (List.length_pos_iff.mpr hb)
    (lt_of_le_of_lt hblen hlz.size_lt), ?_⟩
  refine ⟨⟨[], it.decoded.drop b.flatten.length, ?_, rfl, ?_⟩, ?_,
    ⟨preF ++ dump (lz.compress b.flatten), ?_, rfl⟩, hbs, h.ended⟩
  · simp [writeAt, hcur]
  · simp [hcur]
  · exact (length_writeAt (by rw [h.length]; simpa using hblen)).trans h.length
  · simp [hsplit]

/-- At the end of the file there is nothing to read. -/
theorem RecordsAt.next_end (h : RecordsAt lz size it cur []) (hcur : cur.flatten = []) (len : Nat) :
    it.next lz size len = some none := by
  obtain ⟨pre, post, -, hi, hs⟩ := h.cursor
  obtain ⟨preF, hfile, hpre⟩ := h.file
  have hle : it.decodedSize ≤ it.decodedIter := by rw [hs, hi, hcur]; rfl
  have hend : it.data.length ≤ it.dataIter := by simp [hfile, hpre, traceFile]
  simp [TraceIter.next, TraceIter.prepare, hle, hend]

/-- `Next` with the length of the record at the cursor. -/
theorem RecordsAt.next_record (h : RecordsAt lz size it (r :: cur) bs) :
    ∃ it', (∀ it₀ : TraceIter, it₀.prepare lz size = some (true, it) →
        it₀.next lz size r.length = some (some (r, it'))) ∧ RecordsAt lz size it' cur bs := by
  obtain ⟨pre, post, hd, hi, hs⟩ := h.cursor
  have hsplit : it.decoded = pre ++ (r ++ (cur.flatten ++ post)) := by
    rw [hd]
    simp
  have hfit : it.decodedIter + r.length ≤ it.decoded.length := by
    rw [hi, hsplit]
    simp
  have hcopy : (it.decoded.drop it.decodedIter).take r.length = r := by
    rw [hi, hsplit, List.drop_left, List.take_left]
  refine ⟨{ it with decodedIter := it.decodedIter + r.length }, fun it₀ hprep => ?_, ?_⟩
  · simp [TraceIter.next, hprep, hfit, hcopy, guard]
  · refine ⟨⟨pre ++ r, post, ?_, ?_, ?_⟩, h.length, h.file, h.blocks, h.ended⟩
    · simp [hsplit]
    · simp [hi]
    · simp [hs, Nat.add_assoc]

/-- **One call.** While there is a byte to read, `Next` returns the next record. -/
theorem RecordsAt.next (hlz : lz.InvertsUpTo size) (h : RecordsAt lz size it cur bs)
    (hrec : cur ++ bs.flatten = r :: records) (hbyte : (cur ++ bs.flatten).flatten ≠ []) :
    ∃ it' cur' bs', it.next lz size r.length = some (some (r, it')) ∧
      RecordsAt lz size it' cur' bs' ∧ cur' ++ bs'.flatten = records := by
  by_cases hcur : cur.flatten = []
  · cases bs with
    | nil => exact absurd (by simpa using hcur) hbyte
    | cons b bs =>
      obtain ⟨it₁, hprep, h₁⟩ := h.prepare_next hlz hcur
      have hb := (h.blocks b List.mem_cons_self).1
      cases hne : cur ++ b with
      | nil => exact absurd (by simp [(List.append_eq_nil_iff.mp hne).2]) hb
      | cons r' rest =>
        rw [List.flatten_cons, ← List.append_assoc, hne, List.cons_append] at hrec
        obtain ⟨rfl, hrest⟩ := List.cons.inj hrec
        rw [hne] at h₁
        obtain ⟨it', hnext, h'⟩ := h₁.next_record
        exact ⟨it', rest, bs, hnext it hprep, h', hrest⟩
  · cases cur with
    | nil => exact absurd rfl hcur
    | cons r' cur =>
      obtain ⟨rfl, hrest⟩ := List.cons.inj hrec
      obtain ⟨it', hnext, h'⟩ := h.next_record
      exact ⟨it', cur, bs, hnext it (h.prepare_here hcur), h', hrest⟩

/-- No record is left only when nothing is left to read. -/
theorem RecordsAt.nothing_left (h : RecordsAt lz size it cur bs) (hnil : cur ++ bs.flatten = []) :
    cur = [] ∧ bs = [] := by
  obtain ⟨hcur, hbs⟩ := List.append_eq_nil_iff.mp hnil
  refine ⟨hcur, List.eq_nil_iff_forall_not_mem.mpr fun b hb => (h.blocks b hb).1 ?_⟩
  rw [List.flatten_eq_nil_iff.mp hbs b hb, List.flatten_nil]

/-- All records are returned when the last one has a byte. -/
theorem RecordsAt.nextAll (hlz : lz.InvertsUpTo size) (h : RecordsAt lz size it cur bs)
    (hrec : cur ++ bs.flatten = records) (hlast : ∀ r, records.getLast? = some r → r ≠ []) :
    ∃ it', it.nextAll lz size (records.map List.length) = some (records, it') ∧
      RecordsAt lz size it' [] [] := by
  induction records generalizing it cur bs with
  | nil =>
    obtain ⟨rfl, rfl⟩ := h.nothing_left hrec
    exact ⟨it, rfl, h⟩
  | cons r records ih =>
    have hbyte : (cur ++ bs.flatten).flatten ≠ [] := by
      intro hnil
      obtain ⟨l, hl⟩ : ∃ l, (r :: records).getLast? = some l :=
        ⟨_, List.getLast?_eq_getLast_of_ne_nil (List.cons_ne_nil r records)⟩
      rw [hrec] at hnil
      exact hlast l hl (List.flatten_eq_nil_iff.mp hnil l (List.mem_of_getLast? hl))
    obtain ⟨it', cur', bs', hnext, h', hrec'⟩ := h.next hlz hrec hbyte
    have hlast' : ∀ l, records.getLast? = some l → l ≠ [] := by
      intro l hl
      apply hlast
      rw [List.getLast?_cons, hl]
      rfl
    obtain ⟨it'', hall, h''⟩ := ih h' hrec' hlast'
    exact ⟨it'', by simp [TraceIter.nextAll, hnext, hall], h''⟩

/-- The call for an empty last record returns false. -/
theorem RecordsAt.nextAll_empty (hlz : lz.InvertsUpTo size) (h : RecordsAt lz size it cur bs)
    (hrec : cur ++ bs.flatten = records) (hlast : records.getLast? = some []) :
    it.nextAll lz size (records.map List.length) = none := by
  induction records generalizing it cur bs with
  | nil => cases hlast
  | cons r records ih =>
    by_cases hbyte : (cur ++ bs.flatten).flatten = []
    · -- the last byte has been read
      obtain ⟨hcur, hbs⟩ : cur.flatten = [] ∧ bs.flatten.flatten = [] := by simpa using hbyte
      have hbs' : bs = [] := by
        refine List.eq_nil_iff_forall_not_mem.mpr fun b hb => (h.blocks b hb).1 ?_
        rw [List.flatten_flatten] at hbs
        exact List.flatten_eq_nil_iff.mp hbs _ (List.mem_map_of_mem hb)
      subst hbs'
      simp [TraceIter.nextAll, h.next_end hcur]
    · obtain ⟨it', cur', bs', hnext, h', hrec'⟩ := h.next hlz hrec hbyte
      have hlast' : records.getLast? = some [] := by
        cases records with
        | nil =>
          rw [List.getLast?_singleton] at hlast
          rw [hrec, Option.some.inj hlast] at hbyte
          exact absurd rfl hbyte
        | cons r' records => rwa [List.getLast?_cons_cons] at hlast
      simp [TraceIter.nextAll, hnext, ih h' hrec' hlast']

/-! ## The round trip -/

/-- The block of an empty buffer runs into the assertion. -/
theorem next_empty_block (hlz : lz.InvertsUpTo size) (decoded : Block size) (len : Nat) :
    (TraceIter.open (traceFile lz [[]]) decoded).next lz size len = none := by
  have hdec : lz.decompress (lz.compress []) size = (0, []) := by
    simpa using hlz.decompress_compress [] (Nat.zero_le size)
  have hlen : (lz.compress []).length < 256 ^ 8 :=
    (hlz.length_lt [] (Nat.zero_le size)).trans (by norm_num)
  obtain ⟨hread, htake, -⟩ := read_dump hlen [] []
  have hmore := lt_length_dump (lz.compress []) [] []
  simp only [List.append_nil, List.nil_append, List.length_nil, Nat.zero_add] at hread htake hmore
  have hne : dump (lz.compress []) ≠ [] := List.length_pos_iff.mp hmore
  simp [TraceIter.next, TraceIter.prepare, TraceIter.open, traceFile, hne, hread, htake, hdec, guard]

theorem recordsAt_open (decoded : Block size)
    (hbs : ∀ b ∈ bs, b.flatten ≠ [] ∧ b.flatten.length ≤ size) :
    RecordsAt lz size (TraceIter.open (traceFile lz (bs.map List.flatten)) decoded) [] bs :=
  ⟨⟨[], decoded.1, rfl, rfl, rfl⟩, decoded.2, ⟨[], rfl, rfl⟩, hbs, rfl⟩

/-- **What has been appended is read back** if and only if the last record has a byte. No record is
split in any case. -/
theorem records_read_back_iff (hlz : lz.InvertsUpTo size) (buffer decoded : Block size)
    (hr : ∀ r ∈ records, r.length ≤ size) :
    Unsplit lz (compressRecords lz size buffer records) records ∧
      (ReadsBack lz size (compressRecords lz size buffer records) decoded records ↔
        EndsFilled records) := by
  obtain ⟨done, cur, hfile, hdone, hcurlen, hopen, hrec⟩ := compressRecords_blocks lz buffer hr
  rw [hfile]
  refine ⟨⟨done ++ [cur], by simpa using hrec, rfl⟩, ?_⟩
  by_cases hcur : cur.flatten = []
  · -- nothing has been written
    have hnil : done = [] := by
      by_contra hne
      exact hopen hne hcur
    subst hnil
    rw [List.flatten_nil, List.nil_append] at hrec
    subst hrec
    have hassert := fun len => next_empty_block hlz decoded len
    simp only [List.nil_append, List.map_cons, List.map_nil, hcur]
    refine ⟨fun ⟨it, hall, hend⟩ => ?_, fun ⟨r, hlast, hne⟩ => ?_⟩
    · cases cur with
      | nil =>
        obtain ⟨-, rfl⟩ := Prod.mk.inj (Option.some.inj hall)
        have hend := hend 0
        rw [hassert] at hend
        cases hend
      | cons r records => simp [TraceIter.nextAll, hassert] at hall
    · exact absurd (List.flatten_eq_nil_iff.mp hcur r (List.mem_of_getLast? hlast)) hne
  · have hblocks : ∀ b ∈ done ++ [cur], b.flatten ≠ [] ∧ b.flatten.length ≤ size := by
      intro b hb
      obtain hb | hb := List.mem_append.mp hb
      · exact hdone b hb
      · rw [List.mem_singleton.mp hb]
        exact ⟨hcur, hcurlen⟩
    have hat : RecordsAt lz size (TraceIter.open (traceFile lz ((done ++ [cur]).map List.flatten))
      decoded) [] (done ++ [cur]) := recordsAt_open decoded hblocks
    have hrec' : [] ++ (done ++ [cur]).flatten = records := by simpa using hrec
    refine ⟨fun ⟨it, hall, hend⟩ => ?_, fun ⟨r, hlast, hne⟩ => ?_⟩
    · cases hlast : records.getLast? with
      | none =>
        rw [List.getLast?_eq_none_iff.mp hlast] at hrec
        rw [(List.append_eq_nil_iff.mp hrec).2] at hcur
        exact absurd rfl hcur
      | some r =>
        refine ⟨r, hlast, ?_⟩
        rintro rfl
        rw [hat.nextAll_empty hlz hrec' hlast] at hall
        cases hall
    · obtain ⟨it, hall, h⟩ := hat.nextAll hlz hrec' fun l hl => by
        rw [hlast] at hl
        rwa [← Option.some.inj hl]
      exact ⟨it, hall, fun len => h.next_end rfl len⟩

end

/-- The destructor of a buffer nothing was appended to. -/
theorem empty_buffer_asserts :
    ¬ ∀ (lz : LZ4) (size : Nat) (buffer decoded : Block size) (records : List (List UInt8)),
      lz.InvertsUpTo size → (∀ r ∈ records, r.length ≤ size) →
        ReadsBack lz size (compressRecords lz size buffer records) decoded records := by
  intro h
  have hempty := h shortLiteralLZ4 256 ⟨List.replicate 256 0, List.length_replicate⟩
    ⟨List.replicate 256 0, List.length_replicate⟩ [] shortLiteralLZ4_inverts (by simp)
  obtain ⟨it, hall, hend⟩ := hempty
  obtain ⟨-, rfl⟩ := Prod.mk.inj (Option.some.inj hall)
  have hend := hend 8
  rw [show compressRecords shortLiteralLZ4 256 _ [] = traceFile shortLiteralLZ4 [[]] from rfl,
    next_empty_block shortLiteralLZ4_inverts] at hend
  cases hend

/-- Two records of eight bytes, in one block. -/
theorem records_read_back_two :
    Unsplit shortLiteralLZ4 (compressRecords shortLiteralLZ4 256
        ⟨List.replicate 256 0, List.length_replicate⟩ [leBytes 8 4096, leBytes 8 4112])
        [leBytes 8 4096, leBytes 8 4112] ∧
      (ReadsBack shortLiteralLZ4 256 (compressRecords shortLiteralLZ4 256
        ⟨List.replicate 256 0, List.length_replicate⟩ [leBytes 8 4096, leBytes 8 4112])
        ⟨List.replicate 256 0, List.length_replicate⟩ [leBytes 8 4096, leBytes 8 4112] ↔
        EndsFilled [leBytes 8 4096, leBytes 8 4112]) :=
  records_read_back_iff shortLiteralLZ4_inverts _ _ (by simp)

end Slimmer
