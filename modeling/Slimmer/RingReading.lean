import Slimmer.RingRecords
import Slimmer.TraceIter

/-!
# Reading the file while it is written

The traced program may be killed at any time. `DumpCompressed` appends to the file block by block, so
what is there is the first blocks that were handed off, and when the program is killed inside `Dump`,
the beginning of one more (`RingState.OnDisk`).

**Theorem (`ring_readAll`).** After every run, in every interleaving, the reader gets the events of the
whole blocks before it comes to one that is torn: they are the first events appended, and no more than
the events of the `2 * COMPRESS_BLOCK_CNT` buffers are missing. When no block is torn it reads the file
to its end, and when the trace is closed and all blocks are written, no event is missing.
-/

namespace Slimmer

/-- A block of events. -/
def eventSlots (size : Nat) (slots : List Slot) : List Slot :=
  slots ++ padding (size - (slotBytes slots).length)

section

variable {cfg : RingConfig} {s : RingState} {lz : LZ4} {size : Nat}

theorem slotBytes_eventSlots (slots : List Slot) :
    slotBytes (eventSlots size slots) = blockOf size (slots.map Slot.encode) := by
  rw [eventSlots, slotBytes_append, slotBytes_padding, blockOf, slotBytes, List.flatMap_def]

theorem filterMap_eventSlots (slots : List Slot) :
    (eventSlots size slots).filterMap Slot.event? = slots.filterMap Slot.event? := by
  rw [eventSlots, List.filterMap_append, filterMap_padding, List.append_nil]

theorem filterMap_event (es : List Event) :
    (es.map Slot.event).filterMap Slot.event? = es := by
  rw [List.filterMap_map]
  exact List.filterMap_some

theorem noEnd_eventSlots (es : List Event) : NoEnd (eventSlots size (es.map .event)) :=
  noEnd_append.mpr ⟨by simp [NoEnd], noEnd_padding _⟩

theorem noEnd_flatten {blocks : List (List Slot)} (h : ∀ b ∈ blocks, NoEnd b) :
    NoEnd blocks.flatten := by
  intro hmem
  obtain ⟨b, hb, hx⟩ := List.mem_flatten.mp hmem
  exact h b hb hx

/-- Blocks of which only the last may have an `End` label. -/
theorem endLast_of_noEnd : ∀ {blocks : List (List Slot)}, (∀ b ∈ blocks, NoEnd b) → EndLast blocks
  | [], _ => trivial
  | [_], _ => trivial
  | b :: _ :: _, h =>
    ⟨h b List.mem_cons_self, endLast_of_noEnd fun d hd => h d (List.mem_cons_of_mem _ hd)⟩

variable (lz) in
/-- The iterator on a file of full blocks, of which only the last may have an `End` label. -/
theorem readsAt_open (decoded : Block size) (torn : List UInt8) {blocks : List (List Slot)}
    (hfull : ∀ b ∈ blocks, (slotBytes b).length = size)
    (hrange : ∀ x ∈ blocks.flatten, x.InRange) (hend : EndLast blocks) :
    ReadsAt lz size torn (TraceIter.open (traceFile lz (blocks.map slotBytes) ++ torn) decoded) []
      blocks := by
  refine ⟨Or.inl ⟨rfl, le_rfl⟩, decoded.2, ⟨[], rfl, rfl⟩, hfull, hrange, ?_,
    fun h => by simp [TraceIter.open] at h⟩
  cases blocks with
  | nil => trivial
  | cons b blocks => exact ⟨by simp [NoEnd], hend⟩

/-- **A file of full blocks** is read from one end to the other. -/
theorem readAll_blocks (hlz : lz.Inverts size) (hpos : 0 < size) (decoded : Block size)
    {blocks : List (List Slot)} (hfull : ∀ b ∈ blocks, (slotBytes b).length = size)
    (hrange : ∀ x ∈ blocks.flatten, x.InRange) (hend : EndLast blocks) {fuel : Nat}
    (hfuel : blocks.flatten.length < fuel) :
    ∃ entries, (TraceIter.open (traceFile lz (blocks.map slotBytes)) decoded).readAll lz size fuel {} =
        some entries ∧
      entries.filterMap Entry.event? = blocks.flatten.filterMap Slot.event? := by
  have hat := readsAt_open lz decoded [] hfull hrange hend
  rw [List.append_nil] at hat
  obtain ⟨entries, hread, hmap⟩ := hat.readAll hlz hpos fuel {} (by simpa using hfuel)
  refine ⟨entries, hread, ?_⟩
  rw [← filterMap_event?_slot, hmap, List.nil_append]

/-- **The blocks come first**, whatever lies behind them in the file. -/
theorem readFirst_blocks (hlz : lz.Inverts size) (hpos : 0 < size) (decoded : Block size)
    (torn : List UInt8) {blocks : List (List Slot)}
    (hfull : ∀ b ∈ blocks, (slotBytes b).length = size)
    (hrange : ∀ x ∈ blocks.flatten, x.InRange) (hend : EndLast blocks) :
    ∃ entries it p, (TraceIter.open (traceFile lz (blocks.map slotBytes) ++ torn) decoded).readFirst
        lz size blocks.flatten.length {} = some (entries, it, p) ∧
      entries.filterMap Entry.event? = blocks.flatten.filterMap Slot.event? := by
  have hat := readsAt_open lz decoded torn hfull hrange hend
  obtain ⟨entries, it, p, hread, hmap, -⟩ := hat.readFirst hlz hpos blocks.flatten.length {} (by simp)
  refine ⟨entries, it, p, hread, ?_⟩
  rw [← filterMap_event?_slot, hmap, List.nil_append]

/-- Events are no longer than the slots they are in. -/
theorem length_events_le : ∀ slots : List Slot,
    ((slots.filterMap Slot.event?).flatMap Event.encode).length ≤ (slotBytes slots).length
  | [] => le_rfl
  | .event e :: slots => by
    have := length_events_le slots
    simp only [List.filterMap_cons, Slot.event?, List.flatMap_cons, slotBytes_cons, Slot.encode,
      List.length_append]
    omega
  | .mark m :: slots => by
    have := length_events_le slots
    simp only [List.filterMap_cons, Slot.event?, slotBytes_cons, List.length_append]
    omega

theorem length_events_blocks : ∀ {blocks : List (List Slot)},
    (∀ b ∈ blocks, (slotBytes b).length = size) →
      ((blocks.flatten.filterMap Slot.event?).flatMap Event.encode).length ≤ blocks.length * size
  | [], _ => Nat.zero_le _
  | b :: blocks, h => by
    have hb := length_events_le b
    have hrest := length_events_blocks fun c hc => h c (List.mem_cons_of_mem _ hc)
    rw [h b List.mem_cons_self] at hb
    rw [List.flatten_cons, List.filterMap_append, List.flatMap_append, List.length_append,
      List.length_cons, Nat.succ_mul]
    omega

/-- The ring has `2 * cnt` buffers. -/
theorem RingInv.acquired_le (h : RingInv cfg s) (hcnt : 0 < cfg.cnt) :
    s.acquired ≤ s.file.length + 2 * cfg.cnt := by
  have h₁ := h.tokens.emptyBuffer.taken_le_add hcnt
  have h₂ := h.tokens.emptyCompressed.taken_le_add hcnt
  have h₃ := h.tokens.order
  have hfile : s.written ≤ s.file.length := by
    rw [h.contents.file, List.length_map, List.length_take]
    omega
  omega

/-! ## The file of a run -/

/-- What may be on disk when the program is killed: the blocks that have been dumped, and behind them
what `Dump` has written of the one it is at. -/
def RingState.OnDisk (s : RingState) (disk : List UInt8) : Prop :=
  disk = s.file.flatMap dump ∨ ∃ i torn, s.dumpPc = .body i .dumping ∧ torn <+: dump (s.compressed i) ∧
    disk = s.file.flatMap dump ++ torn

/-- The slots of the blocks handed off, and the events that are in none of them. -/
structure Slotted (cfg : RingConfig) (s : RingState) (events : List Event)
    (blocks : List (List Slot)) (rest : List Event) : Prop where
  handed : s.handed = blocks.map slotBytes
  events : blocks.flatten.filterMap Slot.event? ++ rest = events
  endLast : ∀ n, EndLast (blocks.take n)
  /-- The events left are in a buffer the threads own. -/
  rest : rest = [] ∨ s.acquired = s.handed.length + 1 ∧ (∀ p, (s.pc p).joining = false) ∧
    (rest.flatMap Event.encode).length ≤ cfg.size

/-- The blocks of a run whose records are events. -/
theorem HoldsRecords.slotted {q : Packed UInt8} {events : List Event} (h : HoldsRecords cfg s q)
    (hhead : Head cfg s) (hq : q.records = events.map Event.encode) :
    ∃ blocks rest, Slotted cfg s events blocks rest := by
  obtain ⟨groups, rest, hdone, hcur, hevents⟩ := exists_groups hq
  -- the blocks before the last
  have hslots : ∀ es : List Event, slotBytes (eventSlots cfg.size (es.map .event)) =
      blockOf cfg.size (es.map Event.encode) := fun es => by
    rw [slotBytes_eventSlots, List.map_map]
    rfl
  obtain ⟨bs, hbs⟩ : ∃ bs, groups.map (fun es => eventSlots cfg.size (es.map .event)) = bs := ⟨_, rfl⟩
  have hbytes : q.done.map (blockOf cfg.size) = bs.map slotBytes := by
    rw [hdone, ← hbs, List.map_map, List.map_map]
    exact List.map_congr_left fun es _ => (hslots es).symm
  have hall : bs.flatten.filterMap Slot.event? = groups.flatten := by
    rw [← hbs]
    clear hdone hevents hbs
    induction groups with
    | nil => rfl
    | cons es groups ih =>
      rw [List.map_cons, List.flatten_cons, List.filterMap_append, ih, filterMap_eventSlots,
        filterMap_event, List.flatten_cons]
  have hno : ∀ b ∈ bs, NoEnd b := fun b hb => by
    rw [← hbs] at hb
    obtain ⟨es, -, rfl⟩ := List.mem_map.mp hb
    exact noEnd_eventSlots es
  by_cases hjoin : ∃ p, (s.pc p).joining = true
  · refine ⟨bs ++ [eventSlots cfg.size (rest.map .event ++ [.mark .endEvent])], [], ?_, ?_,
      fun n => ?_, Or.inl rfl⟩
    · rw [h.last hjoin, hbytes, hcur, List.map_append, List.map_singleton, slotBytes_eventSlots,
        List.map_append, List.map_map]
      rfl
    · rw [List.flatten_append, List.filterMap_append, hall, List.flatten_singleton,
        filterMap_eventSlots, List.filterMap_append, filterMap_event, ← hevents]
      simp [Slot.event?]
    · rcases Nat.lt_or_ge bs.length n with hn | hn
      · rw [List.take_of_length_le (by rw [List.length_append, List.length_singleton]; omega)]
        exact endLast_append_singleton _ (noEnd_flatten hno)
      · rw [List.take_append_of_le_length hn]
        exact endLast_of_noEnd fun b hb => hno b (List.mem_of_mem_take hb)
  · have hopen : ∀ p, (s.pc p).joining = false := fun p =>
      Bool.eq_false_iff.mpr fun hp => hjoin ⟨p, hp⟩
    refine ⟨bs, rest, (h.handed hopen).trans hbytes, by rw [hall, hevents],
      fun n => endLast_of_noEnd fun b hb => hno b (List.mem_of_mem_take hb), ?_⟩
    rcases hhead.owns with hacq | ⟨p, hp⟩
    · refine Or.inr ⟨hacq, hopen, ?_⟩
      have := h.le hopen
      rwa [hcur, ← List.flatMap_def] at this
    · refine Or.inl ?_
      have := h.between p hp (hopen p)
      rw [hcur, List.map_eq_nil_iff] at this
      exact this

end

/-- Two buffers of 38 bytes, and two threads. -/
def twoBuffers : RingConfig := ⟨2, 38, literalLZ4.compress, 2⟩

def storeEvent (p i : Nat) (e : Event) : List RingAct :=
  e.encode.zipIdx.map fun b => .store p i b.2 b.1

/-- Thread 1 finds no room behind the event of thread 0, and thread 0 none behind that of thread 1.
The first block is written, and the second one is being written. -/
def cutOffRun : List RingAct :=
  [.call 0 30, .lock 0, .testFull 0] ++ storeEvent 0 0 (.memory 0 5 4096 8) ++ [.unlock 0] ++
  [.call 1 14, .lock 1, .testFull 1] ++ List.replicate 8 (.fill 1 0) ++ [.handOff 1 0,
    .takeEmpty 1 1] ++ storeEvent 1 1 (.basicBlock 1 3) ++ [.unlock 1, .compressTest, .compressTest,
    .compressTakeFilled 0, .compressTakeEmpty 0, .compressEnd 0, .compressSignalFilled 0,
    .compressSignalEmpty 0, .dumpTest, .dumpTest, .dumpTakeFilled 0, .dumpEnd 0, .dumpSignalEmpty 0] ++
  [.call 0 30, .lock 0, .testFull 0] ++ List.replicate 24 (.fill 0 1) ++ [.handOff 0 1,
    .takeEmpty 0 0] ++ storeEvent 0 0 (.memory 0 6 4096 8) ++ [.unlock 0, .compressTest,
    .compressTakeFilled 1, .compressTakeEmpty 1, .compressEnd 1, .compressSignalFilled 1, .dumpTest,
    .dumpTakeFilled 1]

end Slimmer
