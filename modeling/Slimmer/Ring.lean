import Slimmer.Layout
import Slimmer.Lib.Runs
import Slimmer.Lib.Turns

/-!
# The ring of buffers

The runtime writes blocks into a ring of buffers. Producer threads append under a spin lock and
hand a full buffer to the thread `CompressTrace`, which compresses it into a second ring and hands
that to the thread `DumpCompressed`, which appends it to the file. Four arrays of semaphores pass
the buffers on (`CircularBuffer`, `lib/SlimmerRuntime/SlimmerRuntime.cpp`).

`ringStep` has one action for each access to shared state. An action names the buffer it works
on, and is blocked unless its thread is there. Threads interleave in any order.

`CompressTrace` and `DumpCompressed` are the same loop with different bodies, so they share the
program counter `LoopPc`. The fields `acquired`, `squeezed`, `written`, `handed` of the state
only record history.
-/

namespace Slimmer

/-! ## Threads -/

/-- Who called `StartAppend`: a record function or `CloseBufferFile`. -/
inductive Caller
  | record
  | close
  deriving DecidableEq, Repr

/-- Where a thread is in a record function or in `CloseBufferFile`. -/
inductive Pc
  | idle
  /-- At `test_and_set`. -/
  | spin (c : Caller) (length : Nat)
  /-- The lock is taken. -/
  | locked (c : Caller) (length : Nat)
  /-- In the `memset` of `StartAppend`, at offset `j`. -/
  | pad (c : Caller) (length j : Nat)
  /-- At `empty_buffer[cur_block].wait()`. -/
  | waitEmpty (c : Caller) (length : Nat)
  /-- `StartAppend` has returned; `length` bytes from `ret` on are reserved. -/
  | writing (c : Caller) (ret length : Nat)
  /-- In the `memset` of `CloseBufferFile`, at offset `j`. -/
  | padEnd (j : Nat)
  | setCompressDone
  | setDumpDone
  | signalLast
  | joinCompress
  | joinDump
  | closed
  deriving DecidableEq, Repr

/-- The thread holds `append_lock`. -/
def Pc.holds : Pc → Bool
  | .locked .. | .pad .. | .waitEmpty .. | .writing .. | .padEnd _ => true
  | _ => false

/-- The loop of `CompressTrace` and `DumpCompressed`: the test of the `while`, the test of the
`for`, its body with index `i`, the end of the thread. -/
inductive LoopPc (β : Type)
  | outerTest
  | innerTest (i : Nat)
  | body (i : Nat) (b : β)
  | finished
  deriving DecidableEq, Repr

/-- The body of `CompressTrace`. -/
inductive CompressPc
  | waitFilled
  | waitEmpty
  | compressing
  | signalFilled
  | signalEmpty
  deriving DecidableEq, Repr

/-- The body of `DumpCompressed`. -/
inductive DumpPc
  | waitFilled
  | dumping
  | signalEmpty
  deriving DecidableEq, Repr

/-- A test of the loop, with the flag `done`. -/
def LoopPc.test {β : Type} (cnt : Nat) (done : Bool) (first : β) : LoopPc β → Option (LoopPc β)
  | .outerTest => some (if done then .finished else .innerTest 0)
  | .innerTest i => some (if i < cnt ∧ done = false then .body i first else .outerTest)
  | _ => none

/-! ## The state -/

/-- `COMPRESS_BLOCK_CNT`, `COMPRESS_BLOCK_SIZE`, the LZ4 compressor, and the number of threads. -/
structure RingConfig where
  cnt : Nat
  size : Nat
  compress : List UInt8 → List UInt8
  threads : Nat

/-- The shared state and where every thread is. -/
structure RingState where
  buffer : Nat → Nat → UInt8
  /-- The first `after_compressed[i]` bytes of `compressed[i]`. -/
  compressed : Nat → List UInt8
  emptyBuffer : Nat → Nat
  filledBuffer : Nat → Nat
  emptyCompressed : Nat → Nat
  filledCompressed : Nat → Nat
  compressDone : Bool := false
  dumpDone : Bool := false
  curBlock : Nat := 0
  offset : Nat := 0
  /-- `append_lock`, with the thread that took it. -/
  lock : Option Nat := none
  pc : Nat → Pc := fun _ => .idle
  compressPc : LoopPc CompressPc := .outerTest
  dumpPc : LoopPc DumpPc := .outerTest
  /-- The thread that has called `CloseBufferFile`. -/
  closer : Option Nat := none
  /-- The blocks in the file. -/
  file : List (List UInt8) := []
  /-- The contents of the buffers at the signals of `filled_buffer`. -/
  handed : List (List UInt8) := []
  /-- How many buffers the producers have been given. -/
  acquired : Nat := 1
  /-- How often the body of `CompressTrace` has been run. -/
  squeezed : Nat := 0
  /-- How often the body of `DumpCompressed` has been run. -/
  written : Nat := 0

/-- The state `Init` leaves: all buffers but the first are empty, with any bytes in them. -/
def RingState.init (buffer : Nat → Nat → UInt8) (compressed : Nat → List UInt8) : RingState where
  buffer := buffer
  compressed := compressed
  emptyBuffer := fun i => if i ≠ 0 then 1 else 0
  filledBuffer := fun _ => 0
  emptyCompressed := fun _ => 1
  filledCompressed := fun _ => 0

/-- The `size` bytes of a buffer. -/
def RingState.content (cfg : RingConfig) (s : RingState) (i : Nat) : List UInt8 :=
  (List.range cfg.size).map (s.buffer i)

/-- Move thread `p`. -/
def RingState.goto (s : RingState) (p : Nat) (pc : Pc) : RingState :=
  { s with pc := Function.update s.pc p pc }

/-- Store a byte in a buffer. -/
def RingState.storeByte (s : RingState) (i k : Nat) (v : UInt8) : RingState :=
  { s with buffer := Function.update s.buffer i (Function.update (s.buffer i) k v) }

/-- `filled_buffer[i].signal()`, with the content that is handed off. -/
def RingState.handOff (cfg : RingConfig) (s : RingState) (i : Nat) : RingState :=
  { s with
    filledBuffer := Function.update s.filledBuffer i (s.filledBuffer i + 1)
    handed := s.handed ++ [s.content cfg i] }

/-- `++i`, and back to 0 at the end. -/
def nextSlot (cnt i : Nat) : Nat := if i + 1 = cnt then 0 else i + 1

/-! ## The actions -/

/-- Actions, with their thread and the buffer they work on. -/
inductive RingAct
  /-- A record function of thread `p` calls `StartAppend`. -/
  | call (p length : Nat)
  /-- Thread `p` calls `CloseBufferFile`. -/
  | close (p : Nat)
  /-- `test_and_set` succeeds. -/
  | lock (p : Nat)
  /-- The test `offset + length > size`. -/
  | testFull (p : Nat)
  /-- A byte of a `memset`, or its end. -/
  | fill (p i : Nat)
  /-- `filled_buffer[i].signal()`. -/
  | handOff (p i : Nat)
  /-- `empty_buffer[i].wait()`. -/
  | takeEmpty (p i : Nat)
  /-- A byte of the event, at offset `k` of the part reserved. -/
  | store (p i k : Nat) (v : UInt8)
  /-- The label `EndEventLabel`. -/
  | storeEnd (p i : Nat)
  /-- `EndAppend`. -/
  | unlock (p : Nat)
  | setCompressDone (p : Nat)
  | setDumpDone (p : Nat)
  | joinCompress (p : Nat)
  | joinDump (p : Nat)
  | compressTest
  | compressTakeFilled (i : Nat)
  | compressTakeEmpty (i : Nat)
  /-- LZ4 leaves anything in its destination before it is done. -/
  | compressScratch (i : Nat) (l : List UInt8)
  /-- LZ4 is done. -/
  | compressEnd (i : Nat)
  | compressSignalFilled (i : Nat)
  | compressSignalEmpty (i : Nat)
  | dumpTest
  | dumpTakeFilled (i : Nat)
  /-- `Dump` is done. -/
  | dumpEnd (i : Nat)
  | dumpSignalEmpty (i : Nat)
  deriving DecidableEq, Repr

/-- One step of the system. -/
def ringStep (cfg : RingConfig) (s : RingState) : RingAct → Option RingState
  | .call p length =>
    if p < cfg.threads ∧ s.closer = none ∧ s.pc p = .idle then
      some (s.goto p (.spin .record length))
    else none
  | .close p =>
    -- `CloseBufferFile` is called once, after the last append
    if p < cfg.threads ∧ s.closer = none ∧ ∀ q < cfg.threads, s.pc q = .idle then
      some { s.goto p (.spin .close 1) with closer := some p }
    else none
  | .lock p =>
    match s.pc p with
    | .spin c length =>
      if s.lock = none then some { s.goto p (.locked c length) with lock := some p } else none
    | _ => none
  | .testFull p =>
    match s.pc p with
    | .locked c length =>
      if s.offset + length > cfg.size then some (s.goto p (.pad c length s.offset))
      else some { s.goto p (.writing c s.offset length) with offset := s.offset + length }
    | _ => none
  | .fill p i =>
    if i = s.curBlock then
      match s.pc p with
      | .pad c length j =>
        if j < cfg.size then some ((s.storeByte i j placeHolderLabel).goto p (.pad c length (j + 1)))
        else none
      | .padEnd j =>
        if j < cfg.size then some ((s.storeByte i j placeHolderLabel).goto p (.padEnd (j + 1)))
        else none
      | _ => none
    else none
  | .handOff p i =>
    if i = s.curBlock then
      match s.pc p with
      | .pad c length j =>
        if j < cfg.size then none
        else some { (s.handOff cfg i).goto p (.waitEmpty c length) with
          curBlock := nextSlot cfg.cnt s.curBlock }
      | .signalLast => some ((s.handOff cfg i).goto p .joinCompress)
      | _ => none
    else none
  | .takeEmpty p i =>
    match s.pc p with
    | .waitEmpty c length =>
      if i = s.curBlock ∧ 0 < s.emptyBuffer i then
        some { s.goto p (.writing c 0 length) with
          emptyBuffer := Function.update s.emptyBuffer i (s.emptyBuffer i - 1)
          offset := length
          acquired := s.acquired + 1 }
      else none
    | _ => none
  | .store p i k v =>
    match s.pc p with
    | .writing .record ret length =>
      if i = s.curBlock ∧ k < length then some (s.storeByte i (ret + k) v) else none
    | _ => none
  | .storeEnd p i =>
    match s.pc p with
    | .writing .close ret _ =>
      if i = s.curBlock then some ((s.storeByte i ret endEventLabel).goto p (.padEnd s.offset))
      else none
    | _ => none
  | .unlock p =>
    match s.pc p with
    | .writing .record _ _ => some { s.goto p .idle with lock := none }
    | .padEnd j =>
      if j < cfg.size then none else some { s.goto p .setCompressDone with lock := none }
    | _ => none
  | .setCompressDone p =>
    match s.pc p with
    | .setCompressDone => some { s.goto p .setDumpDone with compressDone := true }
    | _ => none
  | .setDumpDone p =>
    match s.pc p with
    | .setDumpDone => some { s.goto p .signalLast with dumpDone := true }
    | _ => none
  | .joinCompress p =>
    if s.pc p = .joinCompress ∧ s.compressPc = .finished then some (s.goto p .joinDump) else none
  | .joinDump p =>
    if s.pc p = .joinDump ∧ s.dumpPc = .finished then some (s.goto p .closed) else none
  | .compressTest =>
    (s.compressPc.test cfg.cnt s.compressDone .waitFilled).map fun pc =>
      { s with compressPc := pc }
  | .compressTakeFilled i =>
    if s.compressPc = .body i .waitFilled ∧ 0 < s.filledBuffer i then
      some { s with
        compressPc := .body i .waitEmpty
        filledBuffer := Function.update s.filledBuffer i (s.filledBuffer i - 1) }
    else none
  | .compressTakeEmpty i =>
    if s.compressPc = .body i .waitEmpty ∧ 0 < s.emptyCompressed i then
      some { s with
        compressPc := .body i .compressing
        emptyCompressed := Function.update s.emptyCompressed i (s.emptyCompressed i - 1) }
    else none
  | .compressScratch i l =>
    if s.compressPc = .body i .compressing then
      some { s with compressed := Function.update s.compressed i l }
    else none
  | .compressEnd i =>
    if s.compressPc = .body i .compressing then
      some { s with
        compressPc := .body i .signalFilled
        compressed := Function.update s.compressed i (cfg.compress (s.content cfg i)) }
    else none
  | .compressSignalFilled i =>
    if s.compressPc = .body i .signalFilled then
      some { s with
        compressPc := .body i .signalEmpty
        filledCompressed := Function.update s.filledCompressed i (s.filledCompressed i + 1) }
    else none
  | .compressSignalEmpty i =>
    if s.compressPc = .body i .signalEmpty then
      some { s with
        compressPc := .innerTest (i + 1)
        emptyBuffer := Function.update s.emptyBuffer i (s.emptyBuffer i + 1)
        squeezed := s.squeezed + 1 }
    else none
  | .dumpTest =>
    (s.dumpPc.test cfg.cnt s.dumpDone .waitFilled).map fun pc => { s with dumpPc := pc }
  | .dumpTakeFilled i =>
    if s.dumpPc = .body i .waitFilled ∧ 0 < s.filledCompressed i then
      some { s with
        dumpPc := .body i .dumping
        filledCompressed := Function.update s.filledCompressed i (s.filledCompressed i - 1) }
    else none
  | .dumpEnd i =>
    if s.dumpPc = .body i .dumping then
      some { s with dumpPc := .body i .signalEmpty, file := s.file ++ [s.compressed i] }
    else none
  | .dumpSignalEmpty i =>
    if s.dumpPc = .body i .signalEmpty then
      some { s with
        dumpPc := .innerTest (i + 1)
        emptyCompressed := Function.update s.emptyCompressed i (s.emptyCompressed i + 1)
        written := s.written + 1 }
    else none

end Slimmer
