import Slimmer.Lib.Words
import Slimmer.MemoryDependency

/-!
# The backward pass

`ExtractUneededOperation` (`tools/PrintBug/PrintBug.cpp`) goes through the block trace from its last
block to its first one and sorts every execution of an instruction into *needed* and *unneeded*. A
needed execution is passed to `OneInstruction`, which marks what it depends on. Per thread, three
stacks follow the activations: is the function used, the basic block met last and whether it is
used, and its terminator.

When a basic block turns out to be used only after its terminator has been sorted, `OneBlock` goes
through the instructions of the block once more, assuming that the terminator is used.

`extractStep` is one turn of the main loop and `none` stands for the top of an empty stack, an index
out of range or a failing assert. `found` and `pos` record history: all calls of `OneInstruction`,
and how many blocks have been processed.
-/

namespace Slimmer

/-! ## The state -/

/-- The key of an instruction in `inst_count` and `needed`: `I(TID, ID)`. -/
def DynamicInst.key (d : DynamicInst) : Nat × Nat := (d.tid, d.id)

/-- What the pass reads besides the trace. -/
structure PassInput where
  tables : Tables
  /-- `PostDominator`. -/
  postDominator : Nat → Finset Nat
  /-- `MemDependencies`. -/
  memDependencies : DynamicInst → Finset DynamicInst

/-- A call of `OneInstruction`: from the main loop, or late, from `OneBlock`; `pos` blocks were
processed before the one at hand. -/
structure Found where
  inst : DynamicInst
  lastBBID : Int
  late : Bool
  pos : Nat
  deriving DecidableEq, Repr

/-- The maps and sets of the pass. -/
structure PassSets where
  instCount : Nat × Nat → Nat := fun _ => 0
  needed : Finset (Nat × Nat) := ∅
  memDepended : Finset DynamicInst := ∅
  unneededDI : Finset DynamicInst := ∅
  addr2Unneeded : Nat → Finset Nat := fun _ => ∅
  /-- The last call first. -/
  found : List Found := []

/-- The variables of `ExtractUneededOperation`. A stack has its top first. -/
structure PassState extends PassSets where
  pos : Nat := 0
  funUsed : Nat → List Bool := fun _ => []
  nextBBUsed : Nat → List (Nat × Bool) := fun _ => []
  terminatorStack : Nat → List (Nat × DynamicInst × Bool) := fun _ => []

/-- The name the main loop gives the next execution of `id` it meets. -/
def PassSets.name (s : PassSets) (tid id : Nat) : DynamicInst := ⟨tid, id, -s.instCount (tid, id)⟩

/-- `inst_count[key]++`. -/
def PassSets.bump (s : PassSets) (key : Nat × Nat) : PassSets :=
  { s with instCount := Function.update s.instCount key (s.instCount key + 1) }

/-- Replace the top of a stack. -/
def setTop {α : Type} (a : α) : List α → Option (List α)
  | [] => none
  | _ :: l => some (a :: l)

/-! ## `OneInstruction` and `OneBlock` -/

/-- The instructions among the SSA dependencies. -/
def InstInfo.ssaInsts (i : InstInfo) : List Nat :=
  i.ssaDependencies.filterMap fun dep => if dep.1 = .inst then some dep.2 else none

/-- The instruction that supplies a phi node when `lastBBID` was executed before: the first entry
for that basic block counts. -/
def InstInfo.phiInst (i : InstInfo) (lastBBID : Int) : Option Nat :=
  match i.phiDependencies.find? fun dep => (dep.1 : Int) = lastBBID with
  | some (_, .inst, id) => some id
  | _ => none

/-- `OneInstruction`: the new `needed` and `mem_depended`. -/
def oneInstruction (I : PassInput) (d : DynamicInst) (lastBBID : Int) (needed : Finset (Nat × Nat))
    (memDepended : Finset DynamicInst) : Option (Finset (Nat × Nat) × Finset DynamicInst) :=
  (I.tables.ins[d.id]?).map fun i =>
    (needed.erase d.key ∪ ((i.ssaInsts ++ (i.phiInst lastBBID).toList).map (d.tid, ·)).toFinset,
      memDepended.erase d ∪ I.memDependencies d)

/-- `OneBlock` finds `d` needed. The first component is `this_needed`. -/
def scanFound (I : PassInput) (b : SmallestBlock) (pos : Nat) (d : DynamicInst)
    (sc : Finset (Nat × Nat) × PassSets) : Option (Finset (Nat × Nat) × PassSets) :=
  (oneInstruction I d b.lastBBID sc.1 sc.2.memDepended).map fun r =>
    (r.1, { sc.2 with
      memDepended := r.2
      unneededDI := sc.2.unneededDI.erase d
      found := ⟨d, b.lastBBID, true, pos⟩ :: sc.2.found })

/-- `dyn_ins2`. -/
def scanName (b : SmallestBlock) (cntDiff : Int) (s : PassSets) (id : Nat) : DynamicInst :=
  ⟨b.tid, id, cntDiff - s.instCount (b.tid, id)⟩

/-- `OneBlock` comes to the instruction `id`. -/
def scanInst (I : PassInput) (b : SmallestBlock) (pos : Nat) (cntDiff : Int)
    (sc : Finset (Nat × Nat) × PassSets) (id : Nat) : Option (Finset (Nat × Nat) × PassSets) :=
  let d := scanName b cntDiff sc.2 id
  if d.key ∈ sc.1 ∨ d ∈ sc.2.memDepended then scanFound I b pos d sc else some sc

/-- `cnt_diff`. -/
def cntDiff (s : PassSets) (d : DynamicInst) (b : SmallestBlock) : Int :=
  d.cnt + s.instCount (b.tid, d.id)

/-- `OneBlock`: the terminator `d` of the execution of `nextBBID` just passed is used. -/
def oneBlock (I : PassInput) (pos : Nat) (s : PassSets) (d : DynamicInst) (b : SmallestBlock)
    (nextBBID : Nat) : Option PassSets :=
  (scanFound I b pos d (∅, s)).bind fun sc =>
    (I.tables.bb2Ins[nextBBID]?).bind fun bb =>
      (run (scanInst I b pos (cntDiff s d b)) sc bb.reverse).map fun sc =>
        { sc.2 with needed := sc.2.needed ∪ sc.1 }

/-- `OneBlock` is called unless the terminator on the stack is known to be needed. -/
def PassState.checkTerminator (I : PassInput) (s : PassState) (b : SmallestBlock)
    (nextBBID : Nat) : Option PassState :=
  match s.terminatorStack b.tid with
  | [] => none
  | (_, d, isNeeded) :: _ =>
    if isNeeded then some s
    else (oneBlock I s.pos s.toPassSets d b nextBBID).map fun sets => { s with toPassSets := sets }

/-! ## The beginning of a turn -/

/-- The last block of an activation: push on all stacks. -/
def PassState.push (s : PassState) (b : SmallestBlock) : PassState :=
  { s with
    funUsed := Function.update s.funUsed b.tid (false :: s.funUsed b.tid)
    nextBBUsed := Function.update s.nextBBUsed b.tid ((b.bbID, false) :: s.nextBBUsed b.tid)
    terminatorStack := Function.update s.terminatorStack b.tid
      ((b.bbID, ⟨0, 0, 0⟩, true) :: s.terminatorStack b.tid) }

/-- Replace the top of `terminator_stack`. -/
def PassState.setTerminator (s : PassState) (b : SmallestBlock) (d : DynamicInst)
    (isNeeded : Bool) : Option PassState :=
  (setTop (b.bbID, d, isNeeded) (s.terminatorStack b.tid)).map fun l =>
    { s with terminatorStack := Function.update s.terminatorStack b.tid l }

/-- The activations, and a basic block that is just finished: if it is used, so is its
terminator. -/
def PassState.enter (I : PassInput) (s : PassState) (b : SmallestBlock) : Option PassState :=
  if 0 < b.isLast then some (s.push b)
  else
    match s.nextBBUsed b.tid with
    | (nextBBID, true) :: _ =>
      if nextBBID ≠ b.bbID then
        (s.checkTerminator I b nextBBID).bind fun s => s.setTerminator b ⟨0, 0, 0⟩ true
      else some s
    | _ => some s

/-! ## The instructions of a block -/

/-- An execution is met: it is passed to `OneInstruction`, or `report`ed; then it is counted. -/
def PassSets.visit (I : PassInput) (pos : Nat) (b : SmallestBlock) (s : PassSets)
    (d : DynamicInst) (isNeeded : Bool) (report : PassSets → PassSets) : Option PassSets :=
  if isNeeded then
    (oneInstruction I d b.lastBBID s.needed s.memDepended).map fun r =>
      { s with
        needed := r.1
        memDepended := r.2
        found := ⟨d, b.lastBBID, false, pos⟩ :: s.found }.bump d.key
  else some ((report s).bump d.key)

/-- `fun_used.top() |= is_needed`. -/
def PassState.useFun (s : PassState) (tid : Nat) (isNeeded : Bool) : Option PassState :=
  match s.funUsed tid with
  | [] => none
  | u :: l => some { s with funUsed := Function.update s.funUsed tid ((u || isNeeded) :: l) }

/-- An execution is met, and its function is used if it is needed. Also returns `is_needed`. -/
def PassState.visit (I : PassInput) (s : PassState) (b : SmallestBlock) (d : DynamicInst)
    (isNeeded : Bool) (report : PassSets → PassSets) : Option (PassState × Bool) :=
  (s.toPassSets.visit I s.pos b d isNeeded report).bind fun sets =>
    ({ s with toPassSets := sets }.useFun b.tid isNeeded).map fun s => (s, isNeeded)

/-- `unneeded_di.insert(d)`. -/
def PassSets.report (d : DynamicInst) (s : PassSets) : PassSets :=
  { s with unneededDI := insert d s.unneededDI }

/-- An unneeded access, with its address. -/
def PassSets.reportAccess (b : SmallestBlock) (d : DynamicInst) (s : PassSets) : PassSets :=
  if b.type = .memoryAccessBlock ∧ b.addrAt 0 < b.addrAt 1 then
    { s with
      addr2Unneeded := Function.update s.addr2Unneeded (b.addrAt 0)
        (insert d.id (s.addr2Unneeded (b.addrAt 0))) }.report d
  else s.report d

/-- `IsReturnVoid`. -/
def isReturnVoid (code : String) : Bool :=
  (code.toList.dropWhile isSpace).take 8 = "ret void".toList

/-- A terminator is needed when the basic block behind it is used and may be left out. -/
def PassState.terminatorUsed (I : PassInput) (s : PassState) (b : SmallestBlock) : Option Bool :=
  match s.nextBBUsed b.tid with
  | [] => none
  | (nextBBID, used) :: _ => some (decide (nextBBID ∉ I.postDominator b.bbID) && used)

/-- Whether an instruction of a `NormalBlock` is needed; a terminator also goes on its stack. -/
def PassState.decideNormal (I : PassInput) (s : PassState) (b : SmallestBlock) (d : DynamicInst)
    (i : InstInfo) : Option (PassState × Bool) :=
  let isNeeded := decide (d.key ∈ s.needed)
  if i.type = .terminatorInst then
    (s.terminatorUsed I b).bind fun used =>
      (s.setTerminator b d (isNeeded || used)).map fun s => (s, isNeeded || used)
  else if i.type = .returnInst then
    if isReturnVoid i.code then some (s, true)
    else if b.isLast = 2 then some (s, true)
    else if b.isLast = 1 then some (s, isNeeded || decide ((d.tid, b.caller) ∈ s.needed))
    else none
  else some (s, isNeeded)

/-- A terminator with at most one successor is not reported. -/
def InstInfo.reported (i : InstInfo) : Bool :=
  ¬ (i.type = .terminatorInst ∧ i.successors.length ≤ 1)

/-- An instruction of a `NormalBlock`; `used` is `this_bb_used`. -/
def normalInst (I : PassInput) (b : SmallestBlock) (su : PassState × Bool) (id : Nat) :
    Option (PassState × Bool) :=
  let d := su.1.toPassSets.name b.tid id
  (I.tables.ins[id]?).bind fun i =>
    (su.1.decideNormal I b d i).bind fun sn =>
      (sn.1.visit I b d sn.2 fun s => if i.reported then s.report d else s).map fun sn =>
        (sn.1, su.2 || sn.2)

/-- The external calls the pass leaves out. -/
def InstInfo.skipped (i : InstInfo) : Bool := i.fn = "free" || i.fn = "va_start" || i.fn = "va_end"

/-- The pass goes on with the next block at once. -/
def SmallestBlock.skipped (T : Tables) (b : SmallestBlock) : Option Bool :=
  if b.type = .externalCallBlock then
    (b.insID? T).bind fun id => (T.ins[id]?).map InstInfo.skipped
  else some false

/-- The instructions of a block, from the last one to the first one. Also returns
`this_bb_used`. -/
def PassState.instructions (I : PassInput) (s : PassState) (b : SmallestBlock) :
    Option (PassState × Bool) :=
  match b.type with
  | .normalBlock =>
    (b.insIDs? I.tables).bind fun ids => run (normalInst I b) (s, false) ids.reverse
  | .impactfulCallBlock =>
    (b.insID? I.tables).bind fun id =>
      s.visit I b (s.toPassSets.name b.tid id) true fun s => s
  | .declareBlock => some (s, false)
  | _ =>
    (b.insID? I.tables).bind fun id =>
      let d := s.toPassSets.name b.tid id
      s.visit I b d (decide (d.key ∈ s.needed) || decide (d ∈ s.memDepended))
        (PassSets.reportAccess b d)

/-! ## The end of a turn -/

/-- Is the basic block used? -/
def PassState.mark (s : PassState) (b : SmallestBlock) (used : Bool) : Option PassState :=
  match s.nextBBUsed b.tid with
  | [] => none
  | (nextBBID, nextUsed) :: l => some { s with
      nextBBUsed := Function.update s.nextBBUsed b.tid
        ((b.bbID, if nextBBID ≠ b.bbID then used else nextUsed || used) :: l) }

/-- A function that is used needs its call. -/
def PassState.needCaller (s : PassState) (b : SmallestBlock) : Option PassState :=
  match s.funUsed b.tid with
  | [] => none
  | used :: _ =>
    if b.isFirst = 1 ∧ used ∧ b.caller ≠ noId then
      some { s with needed := insert (b.tid, b.caller) s.needed }
    else some s

/-- Pop all stacks. -/
def PassState.pop (s : PassState) (b : SmallestBlock) : Option PassState :=
  match s.funUsed b.tid, s.nextBBUsed b.tid, s.terminatorStack b.tid with
  | _ :: fs, _ :: ns, _ :: ts => some { s with
      funUsed := Function.update s.funUsed b.tid fs
      nextBBUsed := Function.update s.nextBBUsed b.tid ns
      terminatorStack := Function.update s.terminatorStack b.tid ts }
  | _, _, _ => none

/-- If the first basic block of the activation is used, its terminator is used. -/
def PassState.checkFirst (I : PassInput) (s : PassState) (b : SmallestBlock) : Option PassState :=
  match s.nextBBUsed b.tid with
  | [] => none
  | (_, used) :: _ => if used then s.checkTerminator I b b.bbID else some s

/-- The first block of an activation. -/
def PassState.leave (I : PassInput) (s : PassState) (b : SmallestBlock) : Option PassState :=
  if 0 < b.isFirst then
    (s.needCaller b).bind fun s => (s.checkFirst I b).bind fun s => s.pop b
  else some s

/-! ## The pass -/

/-- The instructions of a block that is not skipped, up to the end of the turn. -/
def PassState.body (I : PassInput) (s : PassState) (b : SmallestBlock) : Option PassState :=
  (s.instructions I b).bind fun su => su.1.mark b su.2

/-- One turn of the main loop. -/
def PassState.turn (I : PassInput) (s : PassState) (b : SmallestBlock) : Option PassState :=
  if b.type = .declareBlock then some s
  else
    (s.enter I b).bind fun s => (b.skipped I.tables).bind fun skip =>
      if skip then some s else (s.body I b).bind fun s => s.leave I b

/-- One turn, which is counted. -/
def extractStep (I : PassInput) (s : PassState) (b : SmallestBlock) : Option PassState :=
  (s.turn I b).map fun s => { s with pos := s.pos + 1 }

/-- `ExtractUneededOperation`. -/
def extractUneededOperation (I : PassInput) (trace : List SmallestBlock) :
    Option (Finset DynamicInst) :=
  (run (extractStep I) {} trace.reverse).map fun s => s.unneededDI

end Slimmer
