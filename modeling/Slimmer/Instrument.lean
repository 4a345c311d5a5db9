import Slimmer.InstFile
import Slimmer.Writer

/-!
# The instrumentation pass

`SlimmerTrace` (`lib/SlimmerTrace/SlimmerTrace.cpp`) numbers the basic blocks and instructions of a
module, inserts calls of the record functions, and writes what it knows of the module to three files.

An `IRModule` is what the pass reads of an LLVM module. Blocks and instructions are named by their
address (`ref`). The casts `LLVMCastTo` inserts in front of a call are left out: a call names the value
that is cast. A failing `assert` reads `none`.
-/

namespace Slimmer

/-! ## Modules -/

/-- What the pass asks of a type. -/
structure IRType where
  isPointer : Bool := false
  /-- `isSingleValueType() && !isVectorTy()`. -/
  isScalar : Bool := true
  /-- `getTypeStoreSize`. -/
  storeSize : Nat := 8
  deriving DecidableEq, Repr

/-- The classes of values the pass tells apart. -/
inductive ValueKind
  | inst (ref : Nat)
  | argument (no : Nat)
  | constant (c : UInt64)
  deriving DecidableEq

structure IRValue where
  kind : ValueKind
  type : IRType := {}
  deriving DecidableEq

/-- An integer constant. -/
def IRValue.const (n : Nat) : IRValue := { kind := .constant (UInt64.ofNat n) }

/-- The classes of instructions, with their operands. -/
inductive IROp
  | load (ptr : IRValue)
  | store (value ptr : IRValue)
  | atomicRMW (ptr value : IRValue)
  | atomicCmpXchg (ptr compare new : IRValue)
  | ret (value : Option IRValue)
  | terminator (operands : List IRValue) (successors : List Nat)
  | phi (incoming : List (Nat × IRValue))
  | call (callee : CalledFunction) (args : List IRValue) (calledValue : IRValue)
  | alloca (count : IRValue) (elementSize : Nat)
  | landingPad (operands : List IRValue)
  | other (operands : List IRValue)
  deriving DecidableEq

def IROp.operands : IROp → List IRValue
  | .load ptr => [ptr]
  | .store value ptr => [value, ptr]
  | .atomicRMW ptr value => [ptr, value]
  | .atomicCmpXchg ptr compare new => [ptr, compare, new]
  | .ret value => value.toList
  | .terminator operands _ | .landingPad operands | .other operands => operands
  | .phi incoming => incoming.map Prod.snd
  | .call _ args calledValue => args ++ [calledValue]
  | .alloca count _ => [count]

def IROp.isPhi : IROp → Bool
  | .phi _ => true
  | _ => false

def IROp.isLandingPad : IROp → Bool
  | .landingPad _ => true
  | _ => false

structure IRInst where
  ref : Nat
  type : IRType := {}
  debug : Option DebugLoc := none
  op : IROp
  deriving DecidableEq

/-- The result of an instruction. -/
def IRInst.value (i : IRInst) : IRValue := { kind := .inst i.ref, type := i.type }

structure IRBlock where
  ref : Nat
  insts : List IRInst

/-- A function without blocks is a declaration. -/
structure IRFunction where
  name : String
  blocks : List IRBlock

/-- A global; `printed` is what `print` writes of it. -/
structure IRGlobal where
  printed : String
  addr : UInt64
  storeSize : Nat

structure IRModule where
  globals : List IRGlobal
  functions : List IRFunction

def isSlimmerFunction (name : String) : Bool :=
  name ∈ ["slimmerCtor", "recordEndBB", "recordStartBB", "recordLoad", "recordStore", "recordLock",
    "recordUnlock", "recordCall", "recordReturn", "recordInit"]

def isMemset (name : String) : Bool := namePrefix name 12 == "llvm.memset.".toList

def isMemmove (name : String) : Bool :=
  namePrefix name 12 == "llvm.memcpy.".toList || namePrefix name 13 == "llvm.memmove.".toList

/-- Intrinsics other than `memset`, `memcpy` and `memmove` are not traced. -/
def notTraced (i : IRInst) : Bool :=
  match i.op with
  | .call (.intrinsic name) _ _ => !(isMemset name || isMemmove name)
  | _ => false

/-! ## Numbering -/

/-- The instructions of a block that get an id. -/
def IRBlock.traced (b : IRBlock) : List IRInst := b.insts.filter fun i => !notTraced i

/-- `getFirstInsertionPt()`: behind the phi nodes and a landing pad. -/
def IRBlock.firstInsertionPt (b : IRBlock) : Nat :=
  let phis := b.insts.takeWhile fun i => i.op.isPhi
  if (b.insts[phis.length]?).any fun i => i.op.isLandingPad then phis.length + 1 else phis.length

namespace IRModule

variable (M : IRModule)

/-- The functions that are instrumented. -/
def traced : List IRFunction :=
  M.functions.filter fun f => !f.blocks.isEmpty && !isSlimmerFunction f.name

def instrumentedFun : List String := M.traced.map IRFunction.name

/-- The basic blocks, in the order of their ids. -/
def blocks : List IRBlock := M.traced.flatMap IRFunction.blocks

/-- `bb2ID`. -/
def bbID (ref : Nat) : Option Nat := M.blocks.findIdx? fun b => b.ref = ref

/-- `ins_list`: the instructions, in the order of their ids. -/
def insts : List IRInst := M.blocks.flatMap IRBlock.traced

/-- `ins2ID`. -/
def insID (ref : Nat) : Option Nat := M.insts.findIdx? fun i => i.ref = ref

end IRModule

/-! ## The record calls -/

/-- A call of a record function. -/
inductive RecordCall
  | basicBlock (id : Nat)
  | memory (id : Nat) (addr length : IRValue)
  | store (id : Nat) (addr length value : IRValue)
  | calloc (id : Nat) (addr num length : IRValue)
  | ret (id : Nat) (fn : IRValue)
  | argument (arg : IRValue)
  | memset (id : Nat) (dest length value : IRValue)
  | memmove (id : Nat) (dest src length : IRValue)
  deriving DecidableEq

/-- The call, where `eval` gives the values of its arguments. -/
def RecordCall.call (eval : IRValue → UInt64) : RecordCall → Call
  | .basicBlock id => .basicBlock (UInt32.ofNat id)
  | .memory id addr length => .memory (UInt32.ofNat id) (eval addr) (eval length)
  | .store id addr length value =>
    .store (UInt32.ofNat id) (eval addr) (eval length) (eval value)
  | .calloc id addr num length =>
    .calloc (UInt32.ofNat id) (eval addr) (eval num) (eval length)
  | .ret id fn => .ret (UInt32.ofNat id) (eval fn)
  | .argument arg => .argument (eval arg)
  | .memset id dest length value =>
    .memset (UInt32.ofNat id) (eval dest) (eval length) (eval value).toUInt8
  | .memmove id dest src length =>
    .memmove (UInt32.ofNat id) (eval dest) (eval src) (eval length)

def mallocFunctions : List String := ["fmalloc", "xmalloc", "malloc", "_Znam", "_Znwm"]

def callocFunctions : List String := ["calloc", "fcalloc", "xcalloc"]

/-- `instrumentStoreInst` records the value of a scalar of at most 8 bytes. -/
def recordsValue (value : IRValue) : Bool := value.type.isScalar && value.type.storeSize ≤ 8

/-- What is inserted in front of the instruction with this id. -/
def recordsBefore (instrumented : List String) (id : Nat) : IROp → List RecordCall
  | .store value ptr =>
    if recordsValue value then [.store id ptr (.const value.type.storeSize) value] else []
  | .call (.intrinsic name) (dest :: src :: length :: _) _ =>
    (if isMemset name then [.memset id dest length src] else []) ++
      if isMemmove name then [.memmove id dest src length] else []
  | .call (.function name) args calledValue =>
    if name ∈ allocFunctions ∨ name ∈ instrumented then []
    else (args.filter fun a => a.type.isPointer).map .argument ++ [.ret id calledValue]
  | _ => []

/-- What is inserted behind the instruction with this id. -/
def recordsAfter (id : Nat) (i : IRInst) : List RecordCall :=
  match i.op with
  | .load ptr => [.memory id ptr (.const i.type.storeSize)]
  | .store value ptr =>
    if recordsValue value then [] else [.memory id ptr (.const value.type.storeSize)]
  | .atomicRMW ptr _ | .atomicCmpXchg ptr _ _ => [.memory id ptr (.const ptr.type.storeSize)]
  | .alloca _ elementSize => [.memory id i.value (.const elementSize)]
  | .call (.function name) args _ =>
    if name ∈ mallocFunctions then
      match args with
      | length :: _ => [.memory id i.value length]
      | [] => []
    else if name ∈ callocFunctions then
      match args with
      | num :: length :: _ => [.calloc id i.value num length]
      | _ => []
    else []
  | _ => []

/-- Instrumented code. -/
inductive Code
  | inst (i : IRInst)
  | record (r : RecordCall)
  deriving DecidableEq

namespace IRModule

variable (M : IRModule)

def before (i : IRInst) : List RecordCall :=
  (M.insID i.ref).elim [] fun id => recordsBefore M.instrumentedFun id i.op

def after (i : IRInst) : List RecordCall :=
  (M.insID i.ref).elim [] fun id => recordsAfter id i

/-- An instruction with what is inserted around it. -/
def around (i : IRInst) : List Code :=
  (M.before i).map .record ++ .inst i :: (M.after i).map .record

/-- A basic block with all its calls. -/
def instrumentBlock (b : IRBlock) : List Code :=
  (b.insts.take b.firstInsertionPt).flatMap M.around ++
    .record (.basicBlock ((M.bbID b.ref).getD 0)) :: (b.insts.drop b.firstInsertionPt).flatMap M.around

/-- The globals, each in front of the one before. -/
def declares : List RecordCall :=
  ((M.globals.filter fun g => !(namePrefix g.printed 6 == "@llvm.".toList)).map fun g =>
    .memory noId { kind := .constant g.addr } (.const g.storeSize)).reverse

/-- The entry block of `main`. -/
def mainEntry : Option Nat :=
  (M.functions.find? fun f => !f.blocks.isEmpty && f.name = "main").bind fun f =>
    f.blocks.head?.map IRBlock.ref

/-- The code of a basic block. The globals are declared where `main` begins. -/
def blockCode (b : IRBlock) : List Code :=
  (if M.mainEntry = some b.ref then M.declares.map .record else []) ++ M.instrumentBlock b

/-! ## The files -/

def operand (v : IRValue) : Operand :=
  match v.kind with
  | .inst ref => .inst (M.insID ref)
  | .argument no => .argument v.type.isPointer no
  | .constant _ => .constant

/-- The instruction an incoming value is must be traced. -/
def incomingValue (v : IRValue) : Option IncomingValue :=
  match v.kind with
  | .inst ref => (M.insID ref).map .inst
  | .argument no => some (.argument no)
  | .constant _ => some .constant

def instClass : IROp → Option InstClass
  | .load _ => some .load
  | .store _ _ => some .store
  | .atomicRMW _ _ => some .atomicRMW
  | .atomicCmpXchg _ _ _ => some .atomicCmpXchg
  | .ret value => some (.ret value.isNone [])
  | .terminator _ successors => (successors.mapM M.bbID).map .terminator
  | .phi incoming =>
    (incoming.mapM fun p => (M.bbID p.1).bind fun bb => (M.incomingValue p.2).map fun v =>
      (bb, v)).map .phi
  | .call callee _ _ => some (.call callee)
  | .alloca _ _ => some .alloca
  | .landingPad _ | .other _ => some .other

/-- The record of an instruction of block `bb`. -/
def record (bb : Nat) (i : IRInst) : Option InstRecord :=
  (M.instClass i.op).map fun cls =>
    { bb, isPointer := i.type.isPointer, debug := i.debug
      operands := i.op.operands.map M.operand, cls }

/-- The instructions with their blocks, in the order of their ids. -/
def numbered : List (Nat × IRInst) :=
  M.blocks.zipIdx.flatMap fun b => b.1.traced.map fun i => (b.2, i)

/-- The records of the file `Inst`. -/
def records : Option (List InstRecord) := M.numbered.mapM fun p => M.record p.1 p.2

end IRModule

/-- The edges of the file `BBGraph`. -/
def bbEdges (rs : List InstRecord) : List (Nat × Nat) :=
  rs.flatMap fun r => r.cls.successors.map fun succ => (r.bb, succ)

def printEdge (e : Nat × Nat) : List Char :=
  Nat.toDigits 10 e.1 ++ ' ' :: (Nat.toDigits 10 e.2 ++ ['\n'])

/-- The files the pass writes. -/
structure InfoDir where
  inst : List Char
  instrumentedFun : List Char
  bbGraph : List Char

/-- The files of `runOnModule`; a module without `main` is left alone. -/
def IRModule.infoDir (M : IRModule) : Option InfoDir :=
  M.mainEntry.bind fun _ => M.records.map fun rs =>
    { inst := instFile M.instrumentedFun rs
      instrumentedFun := M.instrumentedFun.flatMap fun name => name.toList ++ ['\n']
      bbGraph := (bbEdges rs).flatMap printEdge }

end Slimmer
