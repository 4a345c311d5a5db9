import Slimmer.Event
import Slimmer.Lib.Runs
import Slimmer.Lib.SortedKeys

/-!
# `MergeTrace`

The trace holds an event only where something is worth recording: at the head of a basic block,
at a memory access, at an external call. `MergeTrace` (`tools/PrintBug/MergeTrace.cpp`) turns it
into a list of `SmallestBlock`s that covers every instruction executed. It keeps a call stack
per thread, and after each event it *runs ahead*: it takes the thread up to the next
instruction that has to record an event.

`mergeStep` is one turn of the main loop, `runAhead` the inner loop, `closeThreads` the loop
behind it that closes the frames left open. They work on the decoded entries of the trace;
`none` stands for a failing assert, an index out of range or a loop that does not end.
-/

namespace Slimmer

/-- A frame of a call stack: the next instruction is `BB2Ins[bbID][curIndex]`. -/
structure StackInfo where
  bbID : Nat
  lastBBID : Int
  curIndex : Nat
  deriving DecidableEq, Repr

/-- The variables of `MergeTrace`. A call stack has its `back()` first. -/
structure MergeState where
  args : Nat → List Nat := fun _ => []
  callStack : Nat → List StackInfo := fun _ => []
  /-- The threads that have a call stack, in the order of the map. -/
  tids : List Nat := []
  isFirst : Nat → Nat × Nat := fun _ => (0, 0)
  /-- `*tid_ptr`, once it is set. -/
  tidPtr : Option Nat := none
  blockTrace : List SmallestBlock := []

/-- The constructor of `SmallestBlock`. -/
def SmallestBlock.make (type : SmallestBlockType) (tid bbID start stop : Nat)
    (first : Nat × Nat) (lastBBID : Int) (addr : List Nat) : SmallestBlock where
  type := type
  tid := tid
  bbID := bbID
  start := start
  stop := stop
  addr := addr
  isFirst := first.1
  isLast := 0
  caller := first.2
  lastBBID := lastBBID

/-- `[addr, addr + length)` with the wrap of the 64-bit sum. -/
def addrRange (addr length : Nat) : List Nat := [addr, (addr + length) % 2 ^ 64]

/-! ## Running ahead -/

/-- The types the inner loop runs through. -/
def InstType.runsThrough : InstType → Bool
  | .normalInst | .returnInst | .terminatorInst | .phiNode | .varArg => true
  | _ => false

/-- How many of the instructions `l` the thread executes without an event: those before the
first that has to record one, and that one too when it is a call of an instrumented function. -/
def scanEnd (T : Tables) : List Nat → Option Nat
  | [] => some 0
  | id :: l => do
    let i ← T.ins[id]?
    if i.type.runsThrough then (scanEnd T l).map (· + 1)
    else if i.type = .callInst ∧ i.isIntrinsic = false then some 1
    else some 0

/-- The last instruction of the block is a `ReturnInst`. -/
def endsInReturn (T : Tables) (bb : List Nat) : Option Bool := do
  let id ← bb.getLast?
  let i ← T.ins[id]?
  some (i.type = .returnInst)

/-- `last_bb`: the thread has come to the end of the last block of a function. -/
def lastBB (T : Tables) (bb : List Nat) (endIndex : Nat) : Option Bool :=
  if endIndex = bb.length then endsInReturn T bb else some false

/-- The `Caller` of a block that leaves a function, read off the frame below. -/
def callerOf (T : Tables) (info : StackInfo) : Option Nat := do
  let bb ← T.bb2Ins[info.bbID]?
  guard (0 < info.curIndex ∧ info.curIndex < bb.length)
  let id ← bb[info.curIndex - 1]?
  let i ← T.ins[id]?
  some (if i.type = .callInst then id else noId)

/-- `IsLast` and `Caller` of the block that pops the frame above `rest`. -/
def popInfo (T : Tables) (caller : Nat) : List StackInfo → Option (Nat × Nat)
  | [] => some (2, caller)
  | info :: _ => (callerOf T info).map fun c => (1, c)

/-- The inner loop of `MergeTrace`: from the call stack of a thread and its `is_first`, the new
stack, the new `is_first` and the blocks emitted. -/
def runAhead (T : Tables) (tid : Nat) :
    List StackInfo → Nat × Nat → Option (List StackInfo × (Nat × Nat) × List SmallestBlock)
  | [], first => some ([], first, [])
  | info :: rest, first => do
    let bb ← T.bb2Ins[info.bbID]?
    let n ← scanEnd T (bb.drop info.curIndex)
    let endIndex := info.curIndex + n
    let last ← lastBB T bb endIndex
    let b := SmallestBlock.make .normalBlock tid info.bbID info.curIndex endIndex first
      info.lastBBID []
    if 0 < n then
      if last then
        let (isLast, caller) ← popInfo T b.caller rest
        let (stk, first', bs) ← runAhead T tid rest (0, 0)
        some (stk, first', { b with isLast := isLast, caller := caller } :: bs)
      else some ({ info with curIndex := endIndex } :: rest, (0, 0), [b])
    else if last then none -- nothing is popped, so the loop spins
    else some (info :: rest, first, [])

/-- Run thread `tid` ahead. -/
def MergeState.advance (T : Tables) (s : MergeState) (tid : Nat) : Option MergeState := do
  let (stk, first, bs) ← runAhead T tid (s.callStack tid) (s.isFirst tid)
  some { s with
    callStack := Function.update s.callStack tid stk
    isFirst := Function.update s.isFirst tid first
    blockTrace := s.blockTrace ++ bs }

/-! ## The events -/

/-- A basic block starts: the first one of the thread, a jump within a function, or a call. -/
def MergeState.enterBlock (T : Tables) (s : MergeState) (tid id : Nat) : Option MergeState :=
  match s.callStack tid with
  | [] => some { s with
      tids := insertSorted tid s.tids
      isFirst := Function.update s.isFirst tid (2, 0)
      callStack := Function.update s.callStack tid [⟨id, -1, 0⟩] }
  | info :: rest => do
    let bb ← T.bb2Ins[info.bbID]?
    if bb.length ≤ info.curIndex then
      some { s with
        isFirst := Function.update s.isFirst tid (0, 0)
        callStack := Function.update s.callStack tid (⟨id, info.bbID, 0⟩ :: rest) }
    else
      guard (0 < info.curIndex)
      let caller ← bb[info.curIndex - 1]?
      some { s with
        isFirst := Function.update s.isFirst tid (1, caller)
        callStack := Function.update s.callStack tid (⟨id, -1, 0⟩ :: info :: rest) }

/-- An instruction that records an event: it has to be the next one of its thread. Common part
of the memory, return, memset and memmove events. -/
def MergeState.instBlock (T : Tables) (s : MergeState) (type : SmallestBlockType) (tid id : Nat)
    (addr : List Nat) : Option MergeState :=
  match s.callStack tid with
  | [] => none
  | info :: rest => do
    let bb ← T.bb2Ins[info.bbID]?
    let insID ← bb[info.curIndex]?
    guard (id = insID)
    some { s with
      callStack := Function.update s.callStack tid
        ({ info with curIndex := info.curIndex + 1 } :: rest)
      isFirst := Function.update s.isFirst tid (0, 0)
      blockTrace := s.blockTrace ++ [SmallestBlock.make type tid info.bbID info.curIndex
        (info.curIndex + 1) (s.isFirst tid) info.lastBBID addr] }

/-- The type of an external call's block. -/
def callBlockType (T : Tables) (impactful : Nat → Bool) (id addr : Nat) :
    Option SmallestBlockType :=
  if impactful addr then some .impactfulCallBlock
  else (T.ins[id]?).map fun i =>
    if isImpactfulFunction i.fn then .impactfulCallBlock else .externalCallBlock

/-- What the main loop does with an event before it runs ahead. -/
def MergeState.dispatch (T : Tables) (impactful : Nat → Bool) (s : MergeState) :
    Event → Option MergeState
  | .argument tid addr => some { s with
      args := Function.update s.args tid (insertSorted addr (s.args tid)) }
  | .basicBlock tid id => s.enterBlock T tid id
  | .memory tid id addr length =>
    if id = noId then some { s with
      blockTrace := s.blockTrace ++ [{ type := .declareBlock, addr := addrRange addr length }] }
    else s.instBlock T .memoryAccessBlock tid id (addrRange addr length)
  | .ret tid id addr => do
    let type ← callBlockType T impactful id addr
    let s' ← s.instBlock T type tid id (addr :: s.args tid)
    some { s' with args := Function.update s'.args tid [] }
  | .memset tid id addr length => s.instBlock T .memsetBlock tid id (addrRange addr length)
  | .memmove tid id addr addr2 length =>
    s.instBlock T .memmoveBlock tid id (addrRange addr length ++ addrRange addr2 length)

/-- The events after which the main loop goes on at once: an argument, and the declaration of a
global. -/
def Event.continues : Event → Bool
  | .argument _ _ => true
  | .memory tid id _ _ => id = noId && tid = 0
  | _ => false

/-- One turn of the main loop. A `PlaceHolder` or `End` label falls through to the inner loop,
with whatever thread `*tid_ptr` names. -/
def mergeStep (T : Tables) (impactful : Nat → Bool) (s : MergeState) :
    Entry → Option MergeState
  | .event e => do
    let s' ← MergeState.dispatch T impactful { s with tidPtr := some e.tid } e
    if e.continues then some s' else s'.advance T e.tid
  | .mark _ tid => do
    let tid ← tid
    MergeState.advance T { s with tidPtr := some tid } tid

/-! ## Closing the frames left open -/

/-- Pop the frames of one thread; `last` reads `call_stack[*tid_ptr].back().LastBBID`. -/
def closeThread (T : Tables) (tid : Nat) (last : StackInfo → Option Int) :
    List StackInfo → Option (List SmallestBlock)
  | [] => some []
  | info :: rest => do
    let lastBBID ← last info
    let b := SmallestBlock.make .normalBlock tid info.bbID info.curIndex info.curIndex (0, 0)
      lastBBID []
    let (isLast, caller) ← popInfo T b.caller rest
    let bs ← closeThread T tid last rest
    some ({ b with isLast := isLast, caller := caller } :: bs)

/-- The closing loop, over the threads in the order of the map. -/
def closeThreads (T : Tables) (tidPtr : Option Nat) (callStack : Nat → List StackInfo) :
    List Nat → Option (List SmallestBlock)
  | [] => some []
  | tid :: tids => do
    -- `*tid_ptr` stays the thread of the last entry, while `tid` runs over all of them
    let last := fun info : StackInfo => do
      let t ← tidPtr
      if t = tid then some info.lastBBID else (callStack t).head?.map StackInfo.lastBBID
    let bs ← closeThread T tid last (callStack tid)
    let bs' ← closeThreads T tidPtr (Function.update callStack tid []) tids
    some (bs ++ bs')

/-- `MergeTrace` on the decoded entries of a trace. -/
def mergeTrace (T : Tables) (impactful : Nat → Bool) (entries : List Entry) :
    Option (List SmallestBlock) := do
  let s ← run (mergeStep T impactful) {} entries
  let bs ← closeThreads T s.tidPtr s.callStack s.tids
  some (s.blockTrace ++ bs)

end Slimmer
