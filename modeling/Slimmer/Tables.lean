import Mathlib.Algebra.Group.Nat.Defs
import Mathlib.Data.List.Basic
import Mathlib.Data.Finset.Basic

/-!
# The tables and the traces Slimmer works on

* `InstInfo` is one record of the `Inst` file, `Tables` the two vectors `Ins` and `BB2Ins`
  that `LoadInstInfo` fills from it (`include/SlimmerUtil.h`, `lib/SlimmerUtil/Routines.cpp`).
* `SmallestBlock` is a piece of a basic block that always executes as a whole, the unit of the
  block trace (`include/SlimmerTools.h`).
* `DynamicInst` names one execution of an instruction.

A C++ vector indexed out of range, a failing `assert` and a null pointer that is followed all
read `none` in the functions built on these types.
-/

namespace Slimmer

/-! ## Instructions -/

/-- What an operand is: an instruction's result, an argument or a constant. -/
inductive DepType
  | inst
  | arg
  | pointerArg
  | constant
  deriving DecidableEq, Repr

inductive InstType
  | normalInst
  | loadInst
  | storeInst
  | callInst
  | externalCallInst
  | returnInst
  | terminatorInst
  | phiNode
  | varArg
  | atomicInst
  | allocaInst
  deriving DecidableEq, Repr

/-- The fields of an instruction the analyses read. Its id is its index in `Tables.ins`. -/
structure InstInfo where
  type : InstType
  /-- The called function, or `[UNKNOWN]`, for a call. -/
  fn : String := ""
  isPointer : Bool := false
  code : String := "[UNKNOWN]"
  ssaDependencies : List (DepType × Nat) := []
  /-- The successors of a terminator. -/
  successors : List Nat := []
  /-- Incoming basic block, kind and id of the incoming value, for a phi node. -/
  phiDependencies : List (Nat × DepType × Nat) := []
  deriving DecidableEq, Repr

/-- `Ins` and `BB2Ins`. -/
structure Tables where
  ins : List InstInfo
  bb2Ins : List (List Nat)

/-- `(uint32_t) - 1`, which stands for "no instruction". -/
def noId : Nat := 2 ^ 32 - 1

/-- `name.substr(0, n)`. -/
def namePrefix (name : String) (n : Nat) : List Char := name.toList.take n

/-- The call is to an intrinsic: `Fun.substr(0, 5) == "llvm."`. -/
def InstInfo.isIntrinsic (i : InstInfo) : Bool := namePrefix i.fn 5 == "llvm.".toList

/-- `IsImpactfulFunction`: the external calls that always count as impactful. -/
def isImpactfulFunction (name : String) : Bool :=
  name ∈ ["poll", "fcntl", "fclose", "write", "getpid", "listen", "close", "fflush", "signal",
    "fstate", "exit"] || namePrefix name 8 == "pthread_".toList

/-! ## The block trace -/

inductive SmallestBlockType
  | normalBlock
  | memoryAccessBlock
  | externalCallBlock
  | impactfulCallBlock
  | memsetBlock
  | memmoveBlock
  | declareBlock
  deriving DecidableEq, Repr

/-- The instructions `BB2Ins[bbID][start..stop)`, executed by thread `tid` in one go. A
`declareBlock` only carries `addr`. -/
structure SmallestBlock where
  type : SmallestBlockType
  tid : Nat := 0
  bbID : Nat := 0
  start : Nat := 0
  stop : Nat := 0
  /-- `[Addr[0], Addr[1])` is the memory accessed, `[Addr[2], Addr[3])` the source of a
  memmove; for an external call, the function and then the pointer arguments. -/
  addr : List Nat := []
  /-- 2 for the first block of a thread, 1 for the first block of a called function. -/
  isFirst : Nat := 0
  /-- 2 for the last block of a thread, 1 for the last block of a called function. -/
  isLast : Nat := 0
  caller : Nat := 0
  lastBBID : Int := 0
  deriving DecidableEq, Repr

/-- `BB2Ins[BBID][Start..End)`, the ids of the instructions a block executes. -/
def SmallestBlock.insIDs (T : Tables) (b : SmallestBlock) : List Nat :=
  ((T.bb2Ins.getD b.bbID []).take b.stop).drop b.start

/-- `BB2Ins[BBID][Start..End)`, where the source does not read beyond the basic block. -/
def SmallestBlock.insIDs? (T : Tables) (b : SmallestBlock) : Option (List Nat) :=
  if b.stop ≤ b.start then some []
  else (T.bb2Ins[b.bbID]?).bind fun bb =>
    if b.stop ≤ bb.length then some (b.insIDs T) else none

/-- One execution of an instruction. Both passes number the executions of `id` by thread `tid`
backward: 0 is the last one, -1 the one before. -/
structure DynamicInst where
  tid : Nat
  id : Nat
  cnt : Int
  deriving DecidableEq, Repr

end Slimmer
