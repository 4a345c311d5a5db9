import Slimmer.TraceIter
import Slimmer.Lib.Runs
import Mathlib.Data.Finset.Insert

/-!
# The Pin tool

The Pin tool (`tools/PinTool/PinTrace.cpp`) is called back before and after the calls of functions
that are not instrumented, and at every output syscall. It counts the open calls of a thread and
records the outermost ones and the syscalls in a file (`lib/SlimmerUtil/EventBuffer.cpp`).
`ExtractImpactfulFunCall` (`tools/PrintBug/ExtractImpactfulFunCall.cpp`) reads the file and collects
the functions under which there has been a syscall.

The callbacks run under the lock of the buffer, so they come one after the other.
-/

namespace Slimmer

/-! ## Events -/

/-- What Pin calls back, with the address of the function. -/
inductive Callback
  | beforeCall (fn : UInt64)
  | afterCall (fn : UInt64)
  | syscallEntry
  deriving DecidableEq, Repr

/-- An event of the file. -/
inductive PinEvent
  | call (tid fn : UInt64)
  | ret (tid fn : UInt64)
  | syscall (tid : UInt64)
  | endEvent
  deriving DecidableEq, Repr

def callEventLabel : UInt8 := 2
def syscallEventLabel : UInt8 := 4

/-- `call_event` and `return_event`. The bytes between the fields are those of a global array that
are never written. -/
def callBytes (label : UInt8) (tid fn : UInt64) : List UInt8 :=
  label :: (leBytes 8 tid.toNat ++ (List.replicate 56 0 ++ (leBytes 8 fn.toNat ++
    (List.replicate 56 0 ++ [label]))))

def PinEvent.encode : PinEvent → List UInt8
  | .call tid fn => callBytes callEventLabel tid fn
  | .ret tid fn => callBytes returnEventLabel tid fn
  | .syscall tid =>
    syscallEventLabel :: (leBytes 8 tid.toNat ++ (List.replicate 56 0 ++ [syscallEventLabel]))
  | .endEvent => [endEventLabel]

/-- The sizes of the arrays. -/
def sizeOfCallEvent : Nat := 130
def sizeOfSyscallEvent : Nat := 66

/-! ## The recorder -/

/-- `pdepth` and the buffer. `pdepth` counts open calls, which all have a frame on the stack of the
thread. -/
structure PinState (σ : Type*) where
  pdepth : UInt64 → Int := fun _ => 0
  buffer : σ

section

variable {σ : Type*} (append : σ → PinEvent → σ)

def beforeCall (tid fn : UInt64) (s : PinState σ) : PinState σ :=
  let s := { s with pdepth := Function.update s.pdepth tid (s.pdepth tid + 1) }
  if s.pdepth tid = 1 then { s with buffer := append s.buffer (.call tid fn) } else s

def afterCall (tid fn : UInt64) (s : PinState σ) : PinState σ :=
  let s := { s with pdepth := Function.update s.pdepth tid (s.pdepth tid - 1) }
  if s.pdepth tid = 0 then { s with buffer := append s.buffer (.ret tid fn) } else s

def syscallEntry (tid : UInt64) (s : PinState σ) : PinState σ :=
  if s.pdepth tid = 0 then s else { s with buffer := append s.buffer (.syscall tid) }

/-- A callback in a thread. -/
def PinState.callback (s : PinState σ) (c : UInt64 × Callback) : PinState σ :=
  match c.2 with
  | .beforeCall fn => beforeCall append c.1 fn s
  | .afterCall fn => afterCall append c.1 fn s
  | .syscallEntry => syscallEntry append c.1 s

end

/-- `EventBuffer`: what has been written to the file, and the bytes of the buffer up to `offset`. -/
structure EventBuffer where
  stream : List UInt8 := []
  buffer : List UInt8 := []

section

variable (lz : LZ4) (size : Nat)

/-- The buffer is compressed and written. -/
def EventBuffer.flush (b : EventBuffer) : EventBuffer where
  stream := b.stream ++ dump (lz.compress b.buffer)
  buffer := []

/-- `Append`; the buffer has `size` bytes (`COMPRESS_BLOCK_SIZE`). -/
def EventBuffer.append (b : EventBuffer) (event : List UInt8) : EventBuffer :=
  let b := if b.buffer.length + event.length > size then b.flush lz else b
  { b with buffer := b.buffer ++ event }

/-- `CloseBufferFile`: the file. -/
def EventBuffer.closeBufferFile (b : EventBuffer) : List UInt8 :=
  ((b.append lz size PinEvent.endEvent.encode).flush lz).stream

/-- The file after these callbacks. -/
def pinTrace (callbacks : List (UInt64 × Callback)) : List UInt8 :=
  (callbacks.foldl (PinState.callback fun (b : EventBuffer) e => b.append lz size e.encode)
    { buffer := {} }).buffer.closeBufferFile lz size

end

/-! ## The reader -/

/-- The stacks, top first, and the functions found. How often a function has been called, which the
stacks hold as well, is not used. -/
structure PinReader where
  funStack : UInt64 → List UInt64 := fun _ => []
  impactful : Finset UInt64 := ∅
  ended : Bool := false

/-- What an event does. -/
def PinReader.read (s : PinReader) : PinEvent → PinReader
  | .call tid fn => { s with funStack := Function.update s.funStack tid (fn :: s.funStack tid) }
  | .ret tid fn =>
    -- pop what is above the function, and the function
    { s with funStack :=
        Function.update s.funStack tid ((s.funStack tid).dropWhile (· ≠ fn)).tail }
  | .syscall tid =>
    match s.funStack tid with
    | [] => s
    | fn :: _ => { s with impactful := insert fn s.impactful }
  | .endEvent => { s with ended := true }

/-- `*(uint64_t *)(&buffer[off])`. -/
def loadU64 (buffer : List UInt8) (off : Nat) : Option UInt64 :=
  (readLE 8 buffer off).map UInt64.ofNat

/-- The event at `cur`, and where the next one is. No event has any other label; `cur` stays where it
is then. -/
def PinReader.readEvent (s : PinReader) (buffer : List UInt8) (cur : Nat) :
    Option (PinReader × Nat) := do
  let label ← buffer[cur]?
  if label = endEventLabel then some (s.read .endEvent, cur + 1)
  else if label = callEventLabel then
    let tid ← loadU64 buffer (cur + 1)
    let fn ← loadU64 buffer (cur + 65)
    some (s.read (.call tid fn), cur + 130)
  else if label = returnEventLabel then
    let tid ← loadU64 buffer (cur + 1)
    let fn ← loadU64 buffer (cur + 65)
    some (s.read (.ret tid fn), cur + 130)
  else if label = syscallEventLabel then
    let tid ← loadU64 buffer (cur + 1)
    some (s.read (.syscall tid), cur + 66)
  else some (s, cur)

/-- The loop over a block of `decoded` bytes. -/
def PinReader.readBlock (buffer : List UInt8) (decoded : Nat) :
    Nat → Nat → PinReader → Option PinReader
  | 0, _, _ => none
  | fuel + 1, cur, s =>
    if s.ended = true ∨ decoded ≤ cur then some s
    else (s.readEvent buffer cur).bind fun (s, cur) => readBlock buffer decoded fuel cur s

/-- The loop over the file. `buffer` has `size` bytes; a block of `decoded` bytes has at most as many
events. -/
def PinReader.readFile (lz : LZ4) (size : Nat) (data : List UInt8) :
    Nat → Nat → List UInt8 → PinReader → Option PinReader
  | 0, _, _, _ => none
  | fuel + 1, pos, buffer, s =>
    if s.ended = true ∨ data.length ≤ pos then some s
    else do
      let length ← readLE 8 data pos
      let (ret, out) := lz.decompress ((data.drop (pos + 8)).take length) size
      let buffer := writeAt buffer 0 out
      let decoded := (ret % 2 ^ 64).toNat
      let s ← readBlock buffer decoded (decoded + 1) 0 s
      readFile lz size data fuel (pos + 8 + length + 8) buffer s

/-- `ExtractImpactfulFunCall`; `buffer` is what `malloc` returns. -/
def extractImpactfulFunCall (lz : LZ4) {size : Nat} (buffer : Block size) (data : List UInt8) :
    Option (Finset UInt64) :=
  (PinReader.readFile lz size data (data.length + 1) 0 buffer {}).map PinReader.impactful

/-! ## What the file is about -/

/-- The open calls of the threads, innermost first. Calls are well nested: a call that returns is the
innermost open one of its thread. -/
def openStep (calls : UInt64 → List UInt64) (c : UInt64 × Callback) :
    Option (UInt64 → List UInt64) :=
  match c.2 with
  | .beforeCall fn => some (Function.update calls c.1 (fn :: calls c.1))
  | .afterCall fn =>
    if (calls c.1).head? = some fn then some (Function.update calls c.1 (calls c.1).tail) else none
  | .syscallEntry => some calls

/-- The callbacks are well nested, and these calls are open behind them. -/
def OpenCalls (callbacks : List (UInt64 × Callback)) (calls : UInt64 → List UInt64) : Prop :=
  run openStep (fun _ => []) callbacks = some calls

/-- A syscall has occurred while the function was the outermost open call of the thread. -/
def Impactful (callbacks : List (UInt64 × Callback)) (fn : UInt64) : Prop :=
  ∃ pre tid post calls, callbacks = pre ++ (tid, .syscallEntry) :: post ∧ OpenCalls pre calls ∧
    (calls tid).getLast? = some fn

end Slimmer
