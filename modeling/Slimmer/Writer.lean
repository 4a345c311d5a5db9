import Slimmer.Layout

/-!
# Writing a trace

The record functions of the runtime (`lib/SlimmerRuntime/SlimmerRuntime.cpp`) append events to a
block of `size` bytes; `StartAppend` hands a block off when the next event does not fit, and
`CloseBufferFile` hands off the last one. Here the blocks are handed off in sequence. What the
ring of buffers and the two threads behind it do with them is another module's subject.

**Theorem (`recordTrace_laid`).** The blocks handed off are full, each is a sequence of whole
events and labels (`Slot`), the only `End` label is in the last one, and the events in all blocks
are the recorded events, in order.
-/

namespace Slimmer

/-! ## Blocks -/

/-- The bytes of a buffer, as `malloc(size)` returns them or as an earlier round left them. -/
abbrev Block (size : Nat) := { b : List UInt8 // b.length = size }

/-- The block being written, its `offset`, and the contents of the blocks handed off. -/
structure Writer where
  blocks : List (List UInt8) := []
  buffer : List UInt8
  offset : Nat := 0

section

variable {size : Nat} (fresh : Nat → Block size)

/-- The writer at the start. `fresh n` is the `n`-th block it is given. -/
def Writer.init : Writer := { buffer := fresh 0 }

/-- Fill the rest of the block with `PlaceHolder` labels. -/
def Writer.pad (size : Nat) (w : Writer) : Writer :=
  { w with buffer :=
      writeAt w.buffer w.offset (List.replicate (size - w.offset) placeHolderLabel) }

/-- Hand the block off and go on with the next one. -/
def Writer.nextBlock (w : Writer) : Writer where
  blocks := w.blocks ++ [w.buffer]
  buffer := fresh (w.blocks.length + 1)
  offset := 0

/-- `StartAppend`: where the next `length` bytes go. -/
def Writer.startAppend (w : Writer) (length : Nat) : Writer × Nat :=
  let w := if w.offset + length > size then (w.pad size).nextBlock fresh else w
  ({ w with offset := w.offset + length }, w.offset)

/-- Store bytes in the block. -/
def Writer.store (w : Writer) (off : Nat) (bytes : List UInt8) : Writer :=
  { w with buffer := writeAt w.buffer off bytes }

/-- What all record functions do: reserve `length` bytes and make their stores there. -/
def Writer.append (w : Writer) (length : Nat) (stores : List (Nat × List UInt8)) : Writer :=
  let r := w.startAppend fresh length
  stores.foldl (fun w st => w.store (r.2 + st.1) st.2) r.1

/-! ## The record functions -/

def recordBasicBlockEvent (tid : Nat) (id : UInt32) (w : Writer) : Writer :=
  w.append fresh sizeOfBasicBlockEvent
    [(0, [basicBlockEventLabel]), (1, leBytes 8 tid), (9, leBytes 4 id.toNat),
      (13, [basicBlockEventLabel])]

def recordMemoryEvent (tid : Nat) (id : UInt32) (addr length : UInt64) (w : Writer) : Writer :=
  w.append fresh sizeOfMemoryEvent
    [(0, [memoryEventLabel]), (1, leBytes 8 tid), (9, leBytes 4 id.toNat),
      (13, leBytes 8 addr.toNat), (21, leBytes 8 length.toNat), (29, [memoryEventLabel])]

def recordCallocEvent (tid : Nat) (id : UInt32) (addr num length : UInt64) (w : Writer) : Writer :=
  w.append fresh sizeOfMemoryEvent
    [(0, [memoryEventLabel]), (1, leBytes 8 tid), (9, leBytes 4 id.toNat),
      (13, leBytes 8 addr.toNat), (21, leBytes 8 (num * length).toNat), (29, [memoryEventLabel])]

/-- `*((int64_t *)addr)`, as the bits of the 64-bit word. -/
def load64 (mem : UInt64 → UInt8) (addr : UInt64) : Nat :=
  leNat ((List.range 8).map fun i => mem (addr + UInt64.ofNat i))

/-- The length a store event records: a store of the value that is there already, unless it is 0,
is an inefficacious write. -/
def storeLength (mem : UInt64 → UInt8) (addr length value : UInt64) : UInt64 :=
  if value ≠ 0 ∧ load64 mem addr = value.toNat then 0 else length

def recordStoreEvent (mem : UInt64 → UInt8) (tid : Nat) (id : UInt32)
    (addr length value : UInt64) (w : Writer) : Writer :=
  w.append fresh sizeOfMemoryEvent
    [(0, [memoryEventLabel]), (1, leBytes 8 tid), (9, leBytes 4 id.toNat),
      (13, leBytes 8 addr.toNat), (21, leBytes 8 (storeLength mem addr length value).toNat),
      (29, [memoryEventLabel])]

def recordReturnEvent (tid : Nat) (id : UInt32) (fn : UInt64) (w : Writer) : Writer :=
  w.append fresh sizeOfReturnEvent
    [(0, [returnEventLabel]), (1, leBytes 8 tid), (9, leBytes 4 id.toNat),
      (13, leBytes 8 fn.toNat), (21, [returnEventLabel])]

def recordArgumentEvent (tid : Nat) (arg : UInt64) (w : Writer) : Writer :=
  w.append fresh sizeOfArgumentEvent
    [(0, [argumentEventLabel]), (1, leBytes 8 tid), (9, leBytes 8 arg.toNat),
      (17, [argumentEventLabel])]

/-- The length a memset event records: 0 when no byte changes. -/
def memsetLength (mem : UInt64 → UInt8) (addr length : UInt64) (value : UInt8) : UInt64 :=
  let changed := (List.range length.toNat).any fun i => mem (addr + UInt64.ofNat i) ≠ value
  if changed then length else 0

def recordMemset (mem : UInt64 → UInt8) (tid : Nat) (id : UInt32) (addr length : UInt64)
    (value : UInt8) (w : Writer) : Writer :=
  w.append fresh sizeOfMemsetEvent
    [(0, [memsetEventLabel]), (1, leBytes 8 tid), (9, leBytes 4 id.toNat),
      (13, leBytes 8 addr.toNat), (21, leBytes 8 (memsetLength mem addr length value).toNat),
      (29, [memsetEventLabel])]

/-- The length a memmove event records: 0 when `memcmp(dest, src, length) == 0`. -/
def memmoveLength (mem : UInt64 → UInt8) (dest src length : UInt64) : UInt64 :=
  let same := (List.range length.toNat).all fun i =>
    mem (dest + UInt64.ofNat i) = mem (src + UInt64.ofNat i)
  if same then 0 else length

def recordMemmove (mem : UInt64 → UInt8) (tid : Nat) (id : UInt32) (dest src length : UInt64)
    (w : Writer) : Writer :=
  w.append fresh sizeOfMemmoveEvent
    [(0, [memmoveEventLabel]), (1, leBytes 8 tid), (9, leBytes 4 id.toNat),
      (13, leBytes 8 dest.toNat), (21, leBytes 8 src.toNat),
      (29, leBytes 8 (memmoveLength mem dest src length).toNat), (37, [memmoveEventLabel])]

/-- `CloseBufferFile` up to the hand-off: the `End` label, the padding, the last block. -/
def Writer.closeBufferFile (w : Writer) : List (List UInt8) :=
  let r := w.startAppend fresh 1
  let w := (r.1.store r.2 [endEventLabel]).pad size
  w.blocks ++ [w.buffer]

/-! ## Calls -/

/-- A call of a record function, with its arguments. -/
inductive Call
  | basicBlock (id : UInt32)
  | memory (id : UInt32) (addr length : UInt64)
  | store (id : UInt32) (addr length value : UInt64)
  | calloc (id : UInt32) (addr num length : UInt64)
  | ret (id : UInt32) (fn : UInt64)
  | argument (arg : UInt64)
  | memset (id : UInt32) (addr length : UInt64) (value : UInt8)
  | memmove (id : UInt32) (dest src length : UInt64)

/-- A call by a thread, named by its `gettid()`, with the memory of the program at the call. -/
structure Invocation where
  thread : UInt64
  mem : UInt64 → UInt8
  call : Call

/-- The writer and the `local_tid` of every thread. -/
structure Recorder where
  writer : Writer
  localTid : UInt64 → UInt64 := fun _ => 0

/-- The `local_tid` a call records, and leaves behind: the first `recordBasicBlockEvent` of a thread
sets it. -/
def Invocation.localTid (v : Invocation) (localTid : UInt64 → UInt64) : UInt64 → UInt64 :=
  match v.call with
  | .basicBlock _ =>
    if localTid v.thread = 0 then Function.update localTid v.thread v.thread else localTid
  | _ => localTid

/-- Run one record function. -/
def Recorder.record (r : Recorder) (v : Invocation) : Recorder :=
  let localTid := v.localTid r.localTid
  let tid := (localTid v.thread).toNat
  { localTid := localTid
    writer := match v.call with
      | .basicBlock id => recordBasicBlockEvent fresh tid id r.writer
      | .memory id addr length => recordMemoryEvent fresh tid id addr length r.writer
      | .store id addr length value =>
        recordStoreEvent fresh v.mem tid id addr length value r.writer
      | .calloc id addr num length => recordCallocEvent fresh tid id addr num length r.writer
      | .ret id fn => recordReturnEvent fresh tid id fn r.writer
      | .argument arg => recordArgumentEvent fresh tid arg r.writer
      | .memset id addr length value =>
        recordMemset fresh v.mem tid id addr length value r.writer
      | .memmove id dest src length =>
        recordMemmove fresh v.mem tid id dest src length r.writer }

/-- The blocks of a whole trace. -/
def recordTrace (calls : List Invocation) : List (List UInt8) :=
  let r := calls.foldl (Recorder.record fresh) { writer := .init fresh }
  r.writer.closeBufferFile fresh

/-! ## What is recorded -/

/-- The event a call records when its thread has the id `tid`. -/
def Invocation.event (v : Invocation) (tid : Nat) : Event :=
  match v.call with
  | .basicBlock id => .basicBlock tid id.toNat
  | .memory id addr length => .memory tid id.toNat addr.toNat length.toNat
  | .store id addr length value =>
    .memory tid id.toNat addr.toNat (storeLength v.mem addr length value).toNat
  | .calloc id addr num length => .memory tid id.toNat addr.toNat (num * length).toNat
  | .ret id fn => .ret tid id.toNat fn.toNat
  | .argument arg => .argument tid arg.toNat
  | .memset id addr length value =>
    .memset tid id.toNat addr.toNat (memsetLength v.mem addr length value).toNat
  | .memmove id dest src length =>
    .memmove tid id.toNat dest.toNat src.toNat (memmoveLength v.mem dest src length).toNat

/-- The events a sequence of calls records. -/
def recordedEvents (localTid : UInt64 → UInt64) : List Invocation → List Event
  | [] => []
  | v :: vs =>
    let localTid := v.localTid localTid
    v.event (localTid v.thread).toNat :: recordedEvents localTid vs

end

/-! ## Whole events -/

/-- Stores of the chunks `cs` side by side from offset `k` on. -/
def sideBySide : Nat → List (List UInt8) → List (Nat × List UInt8)
  | _, [] => []
  | k, c :: cs => (k, c) :: sideBySide (k + c.length) cs

/-- Stores side by side are one store. -/
theorem foldl_store {base : Nat} : ∀ {cs : List (List UInt8)} {k : Nat} {w : Writer},
    base + k + cs.flatten.length ≤ w.buffer.length →
      (sideBySide k cs).foldl (fun w st => w.store (base + st.1) st.2) w =
        w.store (base + k) cs.flatten
  | [], k, w, _ => by simp [sideBySide, Writer.store, writeAt]
  | c :: cs, k, w, h => by
    rw [List.flatten_cons, List.length_append] at h
    have hlen : (w.store (base + k) c).buffer.length = w.buffer.length :=
      length_writeAt (by omega)
    rw [sideBySide, List.foldl_cons, foldl_store (by rw [hlen]; omega)]
    simp only [Writer.store, List.flatten_cons, ← Nat.add_assoc]
    rw [writeAt_writeAt (by omega)]

/-- What lies in a block: an event or a label without fields. -/
inductive Slot
  | event (e : Event)
  | mark (m : Mark)
  deriving DecidableEq

/-- The bytes of a slot. -/
def Slot.encode : Slot → List UInt8
  | .event e => e.encode
  | .mark m => [m.label]

/-- The bytes of consecutive slots. -/
def slotBytes (slots : List Slot) : List UInt8 := slots.flatMap Slot.encode

/-- The event of a slot, if it is one. -/
def Slot.event? : Slot → Option Event
  | .event e => some e
  | .mark _ => none

@[simp] theorem slotBytes_nil : slotBytes [] = [] := rfl

@[simp] theorem slotBytes_cons (x : Slot) (slots : List Slot) :
    slotBytes (x :: slots) = x.encode ++ slotBytes slots := rfl

@[simp] theorem slotBytes_append (l l' : List Slot) :
    slotBytes (l ++ l') = slotBytes l ++ slotBytes l' := by
  simp [slotBytes]

/-- A run of padding. -/
def padding (n : Nat) : List Slot := List.replicate n (.mark .placeHolder)

@[simp] theorem slotBytes_padding (n : Nat) :
    slotBytes (padding n) = List.replicate n placeHolderLabel := by
  induction n with
  | zero => rfl
  | succ n ih =>
    have hcons : padding (n + 1) = .mark .placeHolder :: padding n := List.replicate_succ
    rw [hcons, slotBytes_cons, ih, List.replicate_succ]
    rfl

/-- The slots of the blocks handed off and of the part written of the current one. -/
structure Laid (size : Nat) (w : Writer) (done : List (List Slot)) (cur : List Slot) : Prop where
  blocks : w.blocks = done.map slotBytes
  full : ∀ b ∈ done, (slotBytes b).length = size
  length : w.buffer.length = size
  written : w.buffer.take w.offset = slotBytes cur
  offset_le : w.offset ≤ size

section

variable {size : Nat} {w : Writer} {done : List (List Slot)} {cur : List Slot}

theorem Laid.length_cur (h : Laid size w done cur) : (slotBytes cur).length = w.offset := by
  rw [← h.written, List.length_take, h.length, Nat.min_eq_left h.offset_le]

theorem Laid.init (fresh : Nat → Block size) : Laid size (Writer.init fresh) [] [] where
  blocks := rfl
  full := by simp
  length := (fresh 0).2
  written := rfl
  offset_le := Nat.zero_le _

/-- Padding fills the block. -/
theorem Laid.pad (h : Laid size w done cur) :
    Laid size { w.pad size with offset := size } done (cur ++ padding (size - w.offset)) := by
  have hlen : (w.pad size).buffer.length = size := by
    rw [← h.length]
    exact length_writeAt (by simp [h.length, h.offset_le])
  refine ⟨h.blocks, h.full, hlen, ?_, le_rfl⟩
  have htail : w.buffer.drop (w.offset + (size - w.offset)) = [] := by
    rw [Nat.add_sub_cancel' h.offset_le, ← h.length, List.drop_length]
  show (w.pad size).buffer.take size = _
  rw [List.take_of_length_le hlen.le]
  simp [Writer.pad, writeAt, h.written, htail]

/-- Handing the full block off. -/
theorem Laid.nextBlock (h : Laid size w done cur) (fresh : Nat → Block size) (hfull : w.offset = size) :
    Laid size (w.nextBlock fresh) (done ++ [cur]) [] where
  blocks := by
    have hbuf : w.buffer = slotBytes cur := by
      rw [← h.written, hfull, ← h.length, List.take_length]
    simp [Writer.nextBlock, h.blocks, hbuf]
  full b hb := by
    rcases List.mem_append.mp hb with hb | hb
    · exact h.full b hb
    · rw [List.mem_singleton.mp hb, h.length_cur, hfull]
  length := (fresh _).2
  written := rfl
  offset_le := Nat.zero_le _

/-- **Appending.** After `StartAppend` the bytes of a slot go to the end of the current block, or
to the start of the next one when the rest of this one is too short and padded. -/
theorem Laid.startAppend (h : Laid size w done cur) (fresh : Nat → Block size) (x : Slot) (hx : x.encode.length ≤ size) :
    ∃ done' cur' k, Laid size ((w.startAppend fresh x.encode.length).1.store
        (w.startAppend fresh x.encode.length).2 x.encode) done' (cur' ++ [x]) ∧
      done'.flatten ++ cur' = done.flatten ++ cur ++ padding k ∧
      (w.startAppend fresh x.encode.length).2 + x.encode.length ≤
        (w.startAppend fresh x.encode.length).1.buffer.length := by
  -- the step once there is room for the slot
  have hroom : ∀ {w : Writer} {done : List (List Slot)} {cur : List Slot}, Laid size w done cur →
      w.offset + x.encode.length ≤ size →
      Laid size (Writer.store { w with offset := w.offset + x.encode.length } w.offset x.encode)
        done (cur ++ [x]) := by
    intro w done cur h hfit
    have hlen : (writeAt w.buffer w.offset x.encode).length = w.buffer.length :=
      length_writeAt (by rw [h.length]; exact hfit)
    refine ⟨h.blocks, h.full, hlen.trans h.length, ?_, hfit⟩
    have htake : (w.buffer.take w.offset).length = w.offset := by
      rw [h.written, h.length_cur]
    simp only [Writer.store, writeAt, slotBytes_append, slotBytes_cons, slotBytes_nil,
      List.append_nil, ← h.written]
    rw [List.take_append_of_le_length (by simp [htake]), List.take_of_length_le (by simp [htake])]
  unfold Writer.startAppend
  split_ifs with hfull
  · have hpad : Laid size ((w.pad size).nextBlock fresh)
        (done ++ [cur ++ padding (size - w.offset)]) [] :=
      h.pad.nextBlock fresh rfl
    refine ⟨_, [], size - w.offset, hroom hpad (by simpa [Writer.nextBlock] using hx), by simp, ?_⟩
    show 0 + x.encode.length ≤ ((w.pad size).nextBlock fresh).buffer.length
    rw [hpad.length, Nat.zero_add]
    exact hx
  · have hfit := not_lt.mp hfull
    exact ⟨done, cur, 0, hroom h hfit, by simp [padding], by rw [h.length]; exact hfit⟩

/-- A record function appends its event. -/
theorem Laid.append (h : Laid size w done cur) (fresh : Nat → Block size) (e : Event) (he : e.size ≤ size)
    {stores : List (Nat × List UInt8)} (cs : List (List UInt8)) (hs : stores = sideBySide 0 cs)
    (hcs : cs.flatten = e.encode) :
    ∃ done' cur' k, Laid size (w.append fresh e.size stores) done' cur' ∧
      done'.flatten ++ cur' = done.flatten ++ cur ++ padding k ++ [.event e] := by
  obtain ⟨done', cur', k, hlaid, heq, hfit⟩ :=
    h.startAppend fresh (.event e) (by simpa [Slot.encode] using he)
  refine ⟨done', cur' ++ [.event e], k, ?_, by rw [← List.append_assoc, heq]⟩
  simp only [Slot.encode, Event.length_encode] at hlaid hfit
  rw [Writer.append, hs, foldl_store (by simpa [hcs] using hfit), hcs]
  exact hlaid

theorem Laid.record (fresh : Nat → Block size) (hS : sizeOfMemmoveEvent ≤ size) {r : Recorder}
    (h : Laid size r.writer done cur) (v : Invocation) :
    ∃ done' cur' k, Laid size (r.record fresh v).writer done' cur' ∧
      done'.flatten ++ cur' = done.flatten ++ cur ++ padding k ++
        [.event (v.event ((v.localTid r.localTid) v.thread).toNat)] := by
  have hle : ∀ e : Event, e.size ≤ size := fun e => e.size_le.trans hS
  obtain ⟨thread, mem, call⟩ := v
  cases call with
  | basicBlock id =>
    exact h.append fresh (.basicBlock _ _) (hle _)
      [[basicBlockEventLabel], leBytes 8 _, leBytes 4 _, [basicBlockEventLabel]] rfl rfl
  | memory id addr length =>
    exact h.append fresh (.memory _ _ _ _) (hle _)
      [[memoryEventLabel], leBytes 8 _, leBytes 4 _, leBytes 8 _, leBytes 8 _, [memoryEventLabel]]
      rfl rfl
  | store id addr length value =>
    exact h.append fresh (.memory _ _ _ _) (hle _)
      [[memoryEventLabel], leBytes 8 _, leBytes 4 _, leBytes 8 _, leBytes 8 _, [memoryEventLabel]]
      rfl rfl
  | calloc id addr num length =>
    exact h.append fresh (.memory _ _ _ _) (hle _)
      [[memoryEventLabel], leBytes 8 _, leBytes 4 _, leBytes 8 _, leBytes 8 _, [memoryEventLabel]]
      rfl rfl
  | ret id fn =>
    exact h.append fresh (.ret _ _ _) (hle _)
      [[returnEventLabel], leBytes 8 _, leBytes 4 _, leBytes 8 _, [returnEventLabel]] rfl rfl
  | argument arg =>
    exact h.append fresh (.argument _ _) (hle _)
      [[argumentEventLabel], leBytes 8 _, leBytes 8 _, [argumentEventLabel]] rfl rfl
  | memset id addr length value =>
    exact h.append fresh (.memset _ _ _ _) (hle _)
      [[memsetEventLabel], leBytes 8 _, leBytes 4 _, leBytes 8 _, leBytes 8 _, [memsetEventLabel]]
      rfl rfl
  | memmove id dest src length =>
    exact h.append fresh (.memmove _ _ _ _ _) (hle _)
      [[memmoveEventLabel], leBytes 8 _, leBytes 4 _, leBytes 8 _, leBytes 8 _, leBytes 8 _,
        [memmoveEventLabel]] rfl rfl

/-- No slot is an `End` label. -/
def NoEnd (slots : List Slot) : Prop := Slot.mark .endEvent ∉ slots

theorem noEnd_append {l l' : List Slot} : NoEnd (l ++ l') ↔ NoEnd l ∧ NoEnd l' := by
  simp only [NoEnd, List.mem_append, not_or]

theorem noEnd_padding (k : Nat) : NoEnd (padding k) := fun h => by
  simp [padding, List.mem_replicate] at h

theorem filterMap_padding (k : Nat) : (padding k).filterMap Slot.event? = [] := by
  simp [padding, List.filterMap_replicate, Slot.event?]

/-- A sequence of calls appends its events, with padding in between. -/
theorem Laid.records (fresh : Nat → Block size) (hS : sizeOfMemmoveEvent ≤ size) :
    ∀ (calls : List Invocation) {r : Recorder}
    {done : List (List Slot)} {cur : List Slot}, Laid size r.writer done cur →
      NoEnd (done.flatten ++ cur) →
      ∃ done' cur', Laid size (calls.foldl (Recorder.record fresh) r).writer done' cur' ∧
        NoEnd (done'.flatten ++ cur') ∧
        (done'.flatten ++ cur').filterMap Slot.event? =
          (done.flatten ++ cur).filterMap Slot.event? ++ recordedEvents r.localTid calls
  | [], r, done, cur, h, hend => ⟨done, cur, h, hend, by simp [recordedEvents]⟩
  | v :: calls, r, done, cur, h, hend => by
    obtain ⟨done', cur', k, h', heq⟩ := h.record fresh hS v
    have hend' : NoEnd (done'.flatten ++ cur') := by
      rw [heq]
      exact noEnd_append.mpr ⟨noEnd_append.mpr ⟨hend, noEnd_padding k⟩, by simp [NoEnd]⟩
    obtain ⟨done'', cur'', h'', hend'', heq''⟩ := Laid.records fresh hS calls h' hend'
    refine ⟨done'', cur'', h'', hend'', ?_⟩
    rw [heq'', heq]
    simp [filterMap_padding, recordedEvents, Slot.event?, Recorder.record]

/-- **What lies in the blocks of a trace.** All blocks are full of whole events and labels, the
only `End` label is in the last block, and the events are those recorded. -/
theorem recordTrace_laid (fresh : Nat → Block size) (hS : sizeOfMemmoveEvent ≤ size)
    (calls : List Invocation) :
    ∃ done last, recordTrace fresh calls = (done ++ [last]).map slotBytes ∧
      (∀ b ∈ done ++ [last], (slotBytes b).length = size) ∧ NoEnd done.flatten ∧
      (done ++ [last]).flatten.filterMap Slot.event? = recordedEvents (fun _ => 0) calls := by
  have hinit : Laid size (Recorder.writer { writer := .init fresh }) [] [] := Laid.init fresh
  obtain ⟨done, cur, h, hend, hev⟩ := Laid.records fresh hS calls hinit (by simp [NoEnd])
  have hone : 1 ≤ size := le_trans (by decide) hS
  obtain ⟨done', cur', k, h', heq, -⟩ := h.startAppend fresh (.mark .endEvent) hone
  have hpad := h'.pad
  have hlast := hpad.nextBlock fresh rfl
  refine ⟨done', _, hlast.blocks, hlast.full, ?_, ?_⟩
  · have hno : NoEnd (done'.flatten ++ cur') := by
      rw [heq]
      exact noEnd_append.mpr ⟨hend, noEnd_padding k⟩
    exact fun hmem => hno (List.mem_append_left _ hmem)
  · have hev' : (done'.flatten ++ cur').filterMap Slot.event? =
        recordedEvents (fun _ => 0) calls := by
      rw [heq, List.filterMap_append, hev, filterMap_padding]
      simp
    simpa [List.filterMap_cons, filterMap_padding, Slot.event?] using hev'

end

end Slimmer
