import Slimmer.Lib.Words
import Slimmer.Lib.Base64
import Slimmer.Tables
import Mathlib.Algebra.Group.Int.Defs

/-!
# The `Inst` file

The instrumentation pass writes one record for every instruction it traces (`CommonInfo` and
`runOnModule`, `lib/SlimmerTrace/SlimmerTrace.cpp`), and `LoadInstInfo` reads the records back
(`lib/SlimmerUtil/Routines.cpp`). Both know the format by themselves: the pass picks the words in a
chain of casts, the reader tells them apart in a chain of comparisons that ends with a default.

A record is read with `>>`. After a failed extraction the reader goes on with old values; this reads
`none` here, except for the id of a record, where it ends the loop, and for the name of a function,
where nothing is left to be read.
-/

namespace Slimmer

/-! ## The instructions -/

/-- An operand; an instruction that is not traced has no id. -/
inductive Operand
  | inst (id : Option Nat)
  | argument (isPointer : Bool) (no : Nat)
  | constant
  deriving DecidableEq, Repr

/-- An incoming value of a phi node. -/
inductive IncomingValue
  | inst (id : Nat)
  | argument (no : Nat)
  | constant
  deriving DecidableEq, Repr

inductive CalledFunction
  | unknown
  | intrinsic (name : String)
  | function (name : String)
  deriving DecidableEq, Repr

/-- The classes `runOnModule` tells apart, with what it prints of them. -/
inductive InstClass
  | load
  | store
  | atomicRMW
  | atomicCmpXchg
  | ret (isVoid : Bool) (successors : List Nat)
  | terminator (successors : List Nat)
  | phi (incoming : List (Nat × IncomingValue))
  | call (callee : CalledFunction)
  | alloca
  | other
  deriving DecidableEq, Repr

/-- The `dbg` metadata. -/
structure DebugLoc where
  line : Nat
  directory : List UInt8
  filename : List UInt8
  deriving DecidableEq, Repr

/-- A traced instruction; its id is its position. -/
structure InstRecord where
  bb : Nat
  isPointer : Bool := false
  debug : Option DebugLoc := none
  operands : List Operand := []
  cls : InstClass
  deriving DecidableEq, Repr

/-- The path of a file that is not absolute is relative to the directory. -/
def DebugLoc.path (l : DebugLoc) : List UInt8 :=
  if l.filename.take 1 = [47] then l.filename else l.directory ++ 47 :: l.filename

/-- The functions whose calls are written as allocations. -/
def allocFunctions : List String :=
  ["fmalloc", "xmalloc", "malloc", "_Znam", "_Znwm", "calloc", "fcalloc", "xcalloc"]

/-- The type `runOnModule` writes; `instrumented` is `instrumentedFun`. -/
def InstClass.type (instrumented : List String) : InstClass → InstType
  | .load => .loadInst
  | .store => .storeInst
  | .atomicRMW | .atomicCmpXchg => .atomicInst
  | .ret .. => .returnInst
  | .terminator _ => .terminatorInst
  | .phi _ => .phiNode
  | .call .unknown | .call (.intrinsic _) => .callInst
  | .call (.function name) =>
    if name ∈ allocFunctions then .allocaInst
    else if name ∈ instrumented then .callInst else .externalCallInst
  | .alloca => .allocaInst
  | .other => .normalInst

/-- The name behind `CallInst` and `ExternalCallInst`. -/
def InstClass.fn (instrumented : List String) : InstClass → String
  | .call .unknown => "[UNKNOWN]"
  | .call (.intrinsic name) => name
  | .call (.function name) =>
    if (InstClass.call (.function name)).type instrumented = .allocaInst then "" else name
  | _ => ""

/-- The successors of a terminator. -/
def InstClass.successors : InstClass → List Nat
  | .ret _ successors | .terminator successors => successors
  | _ => []

def InstClass.incoming : InstClass → List (Nat × IncomingValue)
  | .phi incoming => incoming
  | _ => []

/-! ## Writing -/

/-- A word for each type; nothing is written as a `VarArg`. -/
def InstType.word : InstType → List Char
  | .normalInst => "NormalInst".toList
  | .loadInst => "LoadInst".toList
  | .storeInst => "StoreInst".toList
  | .callInst => "CallInst".toList
  | .externalCallInst => "ExternalCallInst".toList
  | .returnInst => "ReturnInst".toList
  | .terminatorInst => "TerminatorInst".toList
  | .phiNode => "PhiNode".toList
  | .varArg => "VarArg".toList
  | .atomicInst => "AtomicInst".toList
  | .allocaInst => "AllocaInst".toList

/-- An operand of an untraced instruction is left out. -/
def Operand.isTraced : Operand → Bool
  | .inst none => false
  | _ => true

/-- A word and a number, with a space behind each of them. -/
def printDep (w : List Char) (n : Nat) : List Char := w ++ ' ' :: (Nat.toDigits 10 n ++ [' '])

def Operand.print : Operand → List Char
  | .inst none => []
  | .inst (some id) => printDep "Inst".toList id
  | .argument true no => printDep "PointerArg".toList no
  | .argument false no => printDep "Arg".toList no
  | .constant => printDep "Constan".toList 0

def IncomingValue.print : IncomingValue → List Char
  | .inst id => printDep "Inst".toList id
  | .argument no => printDep "Arg".toList no
  | .constant => printDep "Constant".toList 0

/-- A basic block with the value that comes from it. -/
def printIncoming (p : Nat × IncomingValue) : List Char :=
  ' ' :: (Nat.toDigits 10 p.1 ++ ' ' :: p.2.print)

def printSuccessor (bb : Nat) : List Char := Nat.toDigits 10 bb ++ [' ']

/-- `[UNKNOWN]`. -/
def unknownWord : List Char := "[UNKNOWN]".toList

/-- A word on a line of its own. -/
def printLine (w : List Char) : List Char := '\t' :: (w ++ ['\n'])

/-- A list on a line of its own, with its length in front. -/
def printList {α : Type*} (print : α → List Char) (as : List α) : List Char :=
  '\t' :: (Nat.toDigits 10 as.length ++ ' ' :: (as.flatMap print ++ ['\n']))

/-- Line and path. -/
def printDebug : Option DebugLoc → List Char
  | some l => printLine (Nat.toDigits 10 l.line) ++ printLine (base64Encode l.path)
  | none => printLine "-1".toList ++ printLine unknownWord

/-- Without `SLIMMER_PRINT_CODE` the code is only written for `ret void`. -/
def InstClass.codeWord : InstClass → List Char
  | .ret true _ => "cmV0IHZvaWQK".toList
  | _ => unknownWord

/-- `CommonInfo`. -/
def InstRecord.commonInfo (id : Nat) (r : InstRecord) : List Char :=
  Nat.toDigits 10 id ++ ['\n'] ++ printLine (Nat.toDigits 10 r.bb) ++
    printLine (Nat.toDigits 10 r.isPointer.toNat) ++ printDebug r.debug ++ printLine r.cls.codeWord ++
    printList Operand.print (r.operands.filter Operand.isTraced)

/-- What is behind the type. -/
def InstClass.printTail (instrumented : List String) (c : InstClass) : List Char :=
  match c.type instrumented with
  | .callInst | .externalCallInst => printLine (c.fn instrumented).toList
  | .returnInst | .terminatorInst => printList printSuccessor c.successors
  | .phiNode => printList printIncoming c.incoming
  | _ => []

/-- What `runOnModule` writes behind `CommonInfo`. -/
def InstClass.print (instrumented : List String) (c : InstClass) : List Char :=
  printLine (c.type instrumented).word ++ c.printTail instrumented

def InstRecord.print (instrumented : List String) (id : Nat) (r : InstRecord) : List Char :=
  r.commonInfo id ++ r.cls.print instrumented

/-- The records with the ids from `id` on. -/
def printInsts (instrumented : List String) : Nat → List InstRecord → List Char
  | _, [] => []
  | id, r :: rs => r.print instrumented id ++ printInsts instrumented (id + 1) rs

/-- The `Inst` file. -/
def instFile (instrumented : List String) (rs : List InstRecord) : List Char :=
  printInsts instrumented 0 rs

/-! ## Reading -/

/-- A record of `Ins`, with the fields the analyses do not read. -/
structure LoadedInst extends InstInfo where
  id : Nat
  bb : Nat
  loc : Int
  file : String
  deriving DecidableEq, Repr

/-- The words of the dependencies; anything else is a constant. -/
def DepType.ofWord (w : List Char) : DepType :=
  if w = "Inst".toList then .inst
  else if w = "PointerArg".toList then .pointerArg
  else if w = "Arg".toList then .arg
  else .constant

/-- The words of the types; anything else is a `VarArg`. -/
def InstType.ofWord (w : List Char) : InstType :=
  if w = "Inst".toList then .normalInst
  else if w = "LoadInst".toList then .loadInst
  else if w = "StoreInst".toList then .storeInst
  else if w = "CallInst".toList then .callInst
  else if w = "ExternalCallInst".toList then .externalCallInst
  else if w = "ReturnInst".toList then .returnInst
  else if w = "TerminatorInst".toList then .terminatorInst
  else if w = "PhiNode".toList then .phiNode
  else if w = "AtomicInst".toList then .atomicInst
  else if w = "AllocaInst".toList then .allocaInst
  else .varArg

/-- An `int` that becomes a `uint32_t`. -/
def toUInt32 (x : Int) : Nat := (x % 2 ^ 32).toNat

/-- A string of bytes. -/
def ofBytes (bytes : List UInt8) : String := String.ofList (bytes.map fun b => Char.ofNat b.toNat)

/-- `File` and `Code`. -/
def decodeWord (w : List Char) : String :=
  if w = unknownWord then String.ofList w else ofBytes (base64Decode w)

def readDep (s : List Char) : Option ((DepType × Nat) × List Char) :=
  (readWord s).bind fun (w, s) => (readInt s).map fun (x, s) => ((.ofWord w, toUInt32 x), s)

def readSuccessor (s : List Char) : Option (Nat × List Char) :=
  (readInt s).map fun (x, s) => (toUInt32 x, s)

def readIncoming (s : List Char) : Option ((Nat × DepType × Nat) × List Char) :=
  (readInt s).bind fun (a, s) => (readWord s).bind fun (w, s) => (readInt s).map fun (b, s) =>
    ((toUInt32 a, .ofWord w, toUInt32 b), s)

/-- What is behind the type. -/
structure InstTail where
  fn : String := ""
  successors : List Nat := []
  phiDependencies : List (Nat × DepType × Nat) := []

def readTail (type : InstType) (s : List Char) : Option (InstTail × List Char) :=
  match type with
  | .callInst | .externalCallInst =>
    some ({ fn := String.ofList (nextWord s).1 }, (nextWord s).2)
  | .terminatorInst | .returnInst =>
    (readList readSuccessor s).map fun (l, s) => ({ successors := l }, s)
  | .phiNode => (readList readIncoming s).map fun (l, s) => ({ phiDependencies := l }, s)
  | _ => some ({}, s)

/-- The record behind its id. -/
def readInst (id : Nat) (s : List Char) : Option (LoadedInst × List Char) :=
  (readUInt32 s).bind fun (bb, s) => (readBool s).bind fun (isPointer, s) =>
  (readInt s).bind fun (loc, s) => (readWord s).bind fun (file, s) =>
  (readWord s).bind fun (code, s) => (readList readDep s).bind fun (deps, s) =>
  (readWord s).bind fun (word, s) => (readTail (.ofWord word) s).map fun (tail, s) =>
    ({ type := .ofWord word, fn := tail.fn, isPointer, code := decodeWord code
       ssaDependencies := deps, successors := tail.successors
       phiDependencies := tail.phiDependencies, id, bb, loc, file := decodeWord file }, s)

/-- `bb2ins[bb].push_back(id)`, after `bb2ins` has been resized; `bb + 1` is a `uint32_t`. -/
def pushBB (bb2Ins : List (List Nat)) (bb id : Nat) : Option (List (List Nat)) :=
  let l := if bb2Ins.length ≤ bb then
      (bb2Ins ++ List.replicate (bb + 1 - bb2Ins.length) []).take ((bb + 1) % 2 ^ 32)
    else bb2Ins
  (l[bb]?).map fun ids => l.set bb (ids ++ [id])

/-- `while (file >> x)`; each turn reads a character at least. -/
def loadInsts : Nat → List LoadedInst × List (List Nat) → List Char →
    Option (List LoadedInst × List (List Nat))
  | 0, _, _ => none
  | fuel + 1, (info, bb2Ins), s =>
    match readInt s with
    | none => some (info, bb2Ins)
    | some (x, s) =>
      (readInst (toUInt32 x) s).bind fun (ins, s) => (pushBB bb2Ins ins.bb ins.id).bind fun bb2Ins =>
        if info.length = ins.id then loadInsts fuel (info ++ [ins], bb2Ins) s else none

/-- `LoadInstInfo`. -/
def loadInstInfo (s : List Char) : Option (List LoadedInst × List (List Nat)) :=
  loadInsts (s.length + 1) ([], []) s

end Slimmer
