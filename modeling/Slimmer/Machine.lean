import Slimmer.Merge

/-!
# The traced program as a stack machine, and what `MergeTrace` makes of its events

`ThreadStep` is a step of one thread of the instrumented program over the tables: each kind of
instruction records the events its instrumentation records (`lib/SlimmerTrace/SlimmerTrace.cpp`).
`Execution` interleaves any number of threads.

**Theorem (`mergeTrace_reconstructs`).** On the events of an execution whose threads have all
run to completion, no assert of `MergeTrace` fails, and for every thread the instructions of
its blocks, in order, are the instructions it executed.

The machine and the merger are not in step: after an event the merger has already taken the
thread to its next stopping instruction. `ahead` says where that is and what is executed on the
way. The invariant `Tracks` is that the merger's stack is the machine's stack run ahead, and
that the blocks hold what the thread executed followed by what lies ahead.
-/

namespace Slimmer

/-! ## Programs -/

/-- Tables as the pass writes them: blocks are not empty and end in their only terminator or
return, ids are in range, and `(uint32_t) - 1` is not one of them. -/
structure Program extends Tables where
  block_ne : ∀ bb ∈ bb2Ins, bb ≠ []
  ids_lt : ∀ bb ∈ bb2Ins, ∀ id ∈ bb, id < ins.length
  ends : ∀ bb ∈ bb2Ins, ∀ k id i, bb[k]? = some id → ins[id]? = some i →
    (i.type = .terminatorInst ∨ i.type = .returnInst ↔ k + 1 = bb.length)
  length_le : ins.length ≤ noId

/-- The frame's next instruction is `id`, with information `i`. -/
def Tables.At (T : Tables) (info : StackInfo) (id : Nat) (i : InstInfo) : Prop :=
  ∃ bb, T.bb2Ins[info.bbID]? = some bb ∧ bb[info.curIndex]? = some id ∧ T.ins[id]? = some i

/-- The frame after its next instruction. -/
def StackInfo.next (info : StackInfo) : StackInfo := { info with curIndex := info.curIndex + 1 }

/-- The types of instruction that execute without an event and go on to the next one. -/
def InstType.isSilent : InstType → Bool
  | .normalInst | .phiNode | .varArg => true
  | _ => false

/-- The types of instruction that record one `MemoryEvent`. -/
def InstType.isAccess : InstType → Bool
  | .loadInst | .storeInst | .atomicInst | .allocaInst => true
  | _ => false

/-- A step of thread `tid` from one stack of frames to another: the events it records and the
instructions it executes. -/
inductive ThreadStep (P : Program) (tid : Nat) :
    List StackInfo → List Event → List Nat → List StackInfo → Prop
  /-- The thread enters its first function. -/
  | start (bb : Nat) (h : bb < P.bb2Ins.length) :
      ThreadStep P tid [] [.basicBlock tid bb] [] [⟨bb, -1, 0⟩]
  | silent {info rest id i} (h : P.At info id i) (ht : i.type.isSilent = true) :
      ThreadStep P tid (info :: rest) [] [id] (info.next :: rest)
  | access {info rest id i} (addr length : Nat) (h : P.At info id i)
      (ht : i.type.isAccess = true) :
      ThreadStep P tid (info :: rest) [.memory tid id addr length] [id] (info.next :: rest)
  | memset {info rest id i} (addr length : Nat) (h : P.At info id i) (ht : i.type = .callInst)
      (hi : i.isIntrinsic = true) :
      ThreadStep P tid (info :: rest) [.memset tid id addr length] [id] (info.next :: rest)
  | memmove {info rest id i} (addr addr2 length : Nat) (h : P.At info id i)
      (ht : i.type = .callInst) (hi : i.isIntrinsic = true) :
      ThreadStep P tid (info :: rest) [.memmove tid id addr addr2 length] [id]
        (info.next :: rest)
  /-- An external call records its pointer arguments one by one, then the call itself. -/
  | argument {info rest id i} (addr : Nat) (h : P.At info id i)
      (ht : i.type = .externalCallInst) :
      ThreadStep P tid (info :: rest) [.argument tid addr] [] (info :: rest)
  | external {info rest id i} (addr : Nat) (h : P.At info id i)
      (ht : i.type = .externalCallInst) :
      ThreadStep P tid (info :: rest) [.ret tid id addr] [id] (info.next :: rest)
  /-- A call of an instrumented function enters the callee's entry block. -/
  | call {info rest id i} (bb : Nat) (h : P.At info id i) (ht : i.type = .callInst)
      (hi : i.isIntrinsic = false) (hbb : bb < P.bb2Ins.length) :
      ThreadStep P tid (info :: rest) [.basicBlock tid bb] [id]
        (⟨bb, -1, 0⟩ :: info.next :: rest)
  | jump {info rest id i} (bb : Nat) (h : P.At info id i) (ht : i.type = .terminatorInst)
      (hbb : bb < P.bb2Ins.length) :
      ThreadStep P tid (info :: rest) [.basicBlock tid bb] [id]
        (⟨bb, info.bbID, 0⟩ :: rest)
  | ret {info rest id i} (h : P.At info id i) (ht : i.type = .returnInst) :
      ThreadStep P tid (info :: rest) [] [id] rest

/-- Executions of the whole program: the events recorded so far, the threads' stacks, and the
instructions each thread has executed. The threads interleave in any order, and globals may be
declared at any time. -/
inductive Execution (P : Program) : List Event → (Nat → List StackInfo) → (Nat → List Nat) → Prop
  | init : Execution P [] (fun _ => []) (fun _ => [])
  | step {es th ex tid evs ids stk} (h : Execution P es th ex)
      (hstep : ThreadStep P tid (th tid) evs ids stk) :
      Execution P (es ++ evs) (Function.update th tid stk)
        (Function.update ex tid (ex tid ++ ids))
  | declare {es th ex} (addr length : Nat) (h : Execution P es th ex) :
      Execution P (es ++ [.declare addr length]) th ex

/-! ## Where a stack runs ahead to -/

/-- The instructions a thread with this stack executes before it records its next event, and
the stack the merger then has. -/
def ahead (T : Tables) : List StackInfo → List Nat × List StackInfo
  | [] => ([], [])
  | info :: rest =>
    let bb := T.bb2Ins.getD info.bbID []
    let n := (scanEnd T (bb.drop info.curIndex)).getD 0
    if info.curIndex + n = bb.length ∧ endsInReturn T bb = some true then
      (bb.drop info.curIndex ++ (ahead T rest).1, (ahead T rest).2)
    else
      ((bb.drop info.curIndex).take n, { info with curIndex := info.curIndex + n } :: rest)

/-- The frame is inside its block. -/
def Tables.Inside (T : Tables) (info : StackInfo) : Prop :=
  ∃ bb, T.bb2Ins[info.bbID]? = some bb ∧ info.curIndex < bb.length

/-- Every frame is inside its block, and those below the top are behind a call. -/
def Tables.StackOk (T : Tables) : List StackInfo → Prop
  | [] => True
  | info :: rest => T.Inside info ∧ ∀ c ∈ rest, T.Inside c ∧ 0 < c.curIndex

namespace Program

variable (P : Program)

theorem id_ne_noId {info : StackInfo} {id : Nat} {i : InstInfo} (h : P.At info id i) :
    id ≠ noId := by
  obtain ⟨-, -, -, hi⟩ := h
  have := (List.getElem?_eq_some_iff.mp hi).1
  have := P.length_le
  omega

variable {P}

/-- An instruction that is no terminator and no return has a successor in its block. -/
theorem inside_next {info : StackInfo} {id : Nat} {i : InstInfo} (h : P.At info id i)
    (ht : ¬ (i.type = .terminatorInst ∨ i.type = .returnInst)) : P.Inside info.next := by
  obtain ⟨bb, hbb, hid, hi⟩ := h
  have hlt := (List.getElem?_eq_some_iff.mp hid).1
  have hne : info.curIndex + 1 ≠ bb.length :=
    fun he => ht ((P.ends bb (List.mem_of_getElem? hbb) _ id i hid hi).mpr he)
  exact ⟨bb, hbb, show info.curIndex + 1 < bb.length by omega⟩

theorem inside_entry {bb : Nat} (h : bb < P.bb2Ins.length) (last : Int) :
    P.Inside ⟨bb, last, 0⟩ :=
  ⟨P.bb2Ins[bb], List.getElem?_eq_getElem h,
    List.length_pos_iff.mpr (P.block_ne _ (List.getElem_mem h))⟩

theorem scanEnd_isSome {bb : List Nat} (hbb : bb ∈ P.bb2Ins) :
    ∀ l : List Nat, (∀ id ∈ l, id ∈ bb) → ∃ n ≤ l.length, scanEnd P.toTables l = some n
  | [], _ => ⟨0, le_rfl, rfl⟩
  | id :: l, hl => by
    have hid := List.getElem?_eq_getElem (P.ids_lt bb hbb id (hl id List.mem_cons_self))
    obtain ⟨n, hn, heq⟩ := scanEnd_isSome hbb l fun x hx => hl x (List.mem_cons_of_mem _ hx)
    simp only [scanEnd, hid, Option.bind_eq_bind, Option.bind_some, heq, Option.map_some]
    split_ifs
    · exact ⟨n + 1, by simpa using hn, rfl⟩
    · exact ⟨1, by simp, rfl⟩
    · exact ⟨0, by simp, rfl⟩

/-- What `scanEnd` and `endsInReturn` give at an instruction of a program. -/
theorem scan_at {info : StackInfo} {id : Nat} {i : InstInfo} (h : P.At info id i) :
    ∃ bb n, P.bb2Ins[info.bbID]? = some bb ∧ bb.drop info.curIndex = id :: bb.drop (info.curIndex + 1) ∧
      scanEnd P.toTables (bb.drop (info.curIndex + 1)) = some n ∧
      scanEnd P.toTables (bb.drop info.curIndex) =
        (if i.type.runsThrough then some (n + 1)
          else if i.type = .callInst ∧ i.isIntrinsic = false then some 1 else some 0) ∧
      (i.type = .terminatorInst ∨ i.type = .returnInst ↔ info.curIndex + 1 = bb.length) ∧
      (info.curIndex + 1 = bb.length →
        endsInReturn P.toTables bb = some (decide (i.type = .returnInst))) ∧
      info.curIndex < bb.length := by
  obtain ⟨bb, hbb, hid, hi⟩ := h
  obtain ⟨hlt, hget⟩ := List.getElem?_eq_some_iff.mp hid
  have hmem : bb ∈ P.bb2Ins := List.mem_of_getElem? hbb
  have hdrop : bb.drop info.curIndex = id :: bb.drop (info.curIndex + 1) := by
    rw [List.drop_eq_getElem_cons hlt, hget]
  obtain ⟨n, -, hn⟩ := scanEnd_isSome hmem (bb.drop (info.curIndex + 1))
    fun x hx => List.mem_of_mem_drop hx
  refine ⟨bb, n, hbb, hdrop, hn, ?_, P.ends bb hmem _ id i hid hi, fun he => ?_, hlt⟩
  · simp [hdrop, scanEnd, hi, hn]
  · have hlast : bb.getLast? = some id := by
      rw [List.getLast?_eq_getElem?, ← he, Nat.add_sub_cancel, hid]
    simp [endsInReturn, hlast, hi]

/-! ### Running ahead, one instruction at a time -/

variable {info : StackInfo} {rest : List StackInfo} {id : Nat} {i : InstInfo}

theorem ahead_silent (h : P.At info id i) (ht : i.type.isSilent = true) :
    ahead P.toTables (info :: rest) =
      (id :: (ahead P.toTables (info.next :: rest)).1,
        (ahead P.toTables (info.next :: rest)).2) := by
  obtain ⟨bb, n, hbb, hdrop, hn, hscan, -, -, -⟩ := scan_at h
  have hrun : i.type.runsThrough = true := by
    revert ht; cases i.type <;> simp [InstType.isSilent, InstType.runsThrough]
  have hsum : info.curIndex + (n + 1) = info.curIndex + 1 + n := by omega
  simp only [ahead, StackInfo.next, List.getD_eq_getElem?_getD, hbb, Option.getD_some, hn, hscan,
    hrun, if_true, hsum]
  rw [hdrop]
  split_ifs <;> simp

theorem ahead_return (h : P.At info id i) (ht : i.type = .returnInst) :
    ahead P.toTables (info :: rest) = (id :: (ahead P.toTables rest).1, (ahead P.toTables rest).2) := by
  obtain ⟨bb, n, hbb, hdrop, hn, hscan, hend, hret, -⟩ := scan_at h
  have he := hend.mp (Or.inr ht)
  have hnil : bb.drop (info.curIndex + 1) = [] := List.drop_eq_nil_of_le he.ge
  have hn0 : n = 0 := by rw [hnil] at hn; simpa [scanEnd] using hn.symm
  simp only [ahead, List.getD_eq_getElem?_getD, hbb, Option.getD_some, hscan, ht,
    InstType.runsThrough, if_true, hn0, hret he, decide_true, and_true]
  rw [if_pos he, hdrop, hnil]
  rfl

theorem ahead_jump (h : P.At info id i) (ht : i.type = .terminatorInst) :
    ahead P.toTables (info :: rest) = ([id], info.next :: rest) := by
  obtain ⟨bb, n, hbb, hdrop, hn, hscan, hend, hret, -⟩ := scan_at h
  have he := hend.mp (Or.inl ht)
  have hnil : bb.drop (info.curIndex + 1) = [] := List.drop_eq_nil_of_le he.ge
  have hn0 : n = 0 := by rw [hnil] at hn; simpa [scanEnd] using hn.symm
  simp only [ahead, List.getD_eq_getElem?_getD, hbb, Option.getD_some, hscan, ht,
    InstType.runsThrough, if_true, hn0, hret he]
  rw [if_neg (by simp), hdrop]
  rfl

theorem ahead_call (h : P.At info id i) (ht : i.type = .callInst) (hi : i.isIntrinsic = false) :
    ahead P.toTables (info :: rest) = ([id], info.next :: rest) := by
  obtain ⟨bb, n, hbb, hdrop, -, hscan, hend, -, -⟩ := scan_at h
  have hne : info.curIndex + 1 ≠ bb.length := fun he => by
    have := hend.mpr he
    simp [ht] at this
  simp only [ahead, List.getD_eq_getElem?_getD, hbb, Option.getD_some, hscan, ht,
    InstType.runsThrough, hi]
  simp [hne, hdrop, StackInfo.next]

/-- At an instruction that has to record an event the merger stands still. -/
theorem ahead_stop (h : P.At info id i) (ht : i.type.runsThrough = false)
    (hi : i.type = .callInst → i.isIntrinsic = true) :
    ahead P.toTables (info :: rest) = ([], info :: rest) := by
  obtain ⟨bb, n, hbb, -, -, hscan, -, -, hlt⟩ := scan_at h
  have hnc : ¬ (i.type = .callInst ∧ i.isIntrinsic = false) := fun hc => by
    simp [hi hc.1] at hc
  have hne : info.curIndex ≠ bb.length := by omega
  simp [ahead, List.getD_eq_getElem?_getD, hbb, hscan, ht, hnc, hne]

end Program

/-! ## The merger runs ahead -/

/-- The instructions a block trace says thread `tid` executed. -/
def executedBy (T : Tables) (bt : List SmallestBlock) (tid : Nat) : List Nat :=
  (bt.filter fun b => b.type ≠ .declareBlock ∧ b.tid = tid).flatMap (SmallestBlock.insIDs T)

@[simp] theorem executedBy_append (T : Tables) (bt bt' : List SmallestBlock) (tid : Nat) :
    executedBy T (bt ++ bt') tid = executedBy T bt tid ++ executedBy T bt' tid := by
  simp [executedBy]

theorem executedBy_of_tid (T : Tables) (bs : List SmallestBlock) (tid : Nat)
    (h : ∀ b ∈ bs, b.type ≠ .declareBlock ∧ b.tid = tid) (t : Nat) :
    executedBy T bs t = if t = tid then bs.flatMap (SmallestBlock.insIDs T) else [] := by
  unfold executedBy
  split_ifs with ht
  · subst ht
    rw [List.filter_eq_self.mpr fun b hb => by simpa using h b hb]
  · rw [List.filter_eq_nil_iff.mpr fun b hb => ?_]
    · rfl
    · have := (h b hb).2
      simp only [decide_eq_true_eq, not_and]
      exact fun _ he => ht (he ▸ this)

/-- On a well-formed stack, `runAhead` ends where `ahead` says, and its blocks hold the
instructions on the way. -/
theorem runAhead_eq (P : Program) (tid : Nat) :
    ∀ (stk : List StackInfo) (first : Nat × Nat), P.StackOk stk →
      ∃ first' bs, runAhead P.toTables tid stk first = some ((ahead P.toTables stk).2, first', bs) ∧
        bs.flatMap (SmallestBlock.insIDs P.toTables) = (ahead P.toTables stk).1 ∧
        ∀ b ∈ bs, b.type ≠ .declareBlock ∧ b.tid = tid
  | [], first, _ => ⟨first, [], rfl, rfl, by simp⟩
  | info :: rest, first, hok => by
    obtain ⟨⟨bb, hbb, hlt⟩, hrest⟩ := hok
    have hmem : bb ∈ P.bb2Ins := List.mem_of_getElem? hbb
    obtain ⟨n, hle, hn⟩ := P.scanEnd_isSome hmem (bb.drop info.curIndex)
      fun x hx => List.mem_of_mem_drop hx
    rw [List.length_drop] at hle
    obtain ⟨r, hr⟩ : ∃ r, endsInReturn P.toTables bb = some r := by
      have hlast := List.getLast?_eq_getLast_of_ne_nil (P.block_ne bb hmem)
      have hid := List.getElem?_eq_getElem (P.ids_lt bb hmem _ (List.getLast_mem (P.block_ne bb hmem)))
      simp [endsInReturn, hlast, hid]
    have hids : ∀ b : SmallestBlock, b.bbID = info.bbID → b.start = info.curIndex →
        b.stop = info.curIndex + n → b.insIDs P.toTables = (bb.drop info.curIndex).take n := by
      intro b h₁ h₂ h₃
      rw [SmallestBlock.insIDs, h₁, h₂, h₃, List.getD_eq_getElem?_getD, hbb, Option.getD_some,
        List.drop_take, Nat.add_sub_cancel_left]
    have hahead : ahead P.toTables (info :: rest) =
        if info.curIndex + n = bb.length ∧ r = true then
          (bb.drop info.curIndex ++ (ahead P.toTables rest).1, (ahead P.toTables rest).2)
        else ((bb.drop info.curIndex).take n, { info with curIndex := info.curIndex + n } :: rest) := by
      simp [ahead, List.getD_eq_getElem?_getD, hbb, hn, hr]
    by_cases hlast : info.curIndex + n = bb.length ∧ r = true
    · -- The block returns: its frame is popped and the loop goes on with the caller.
      obtain ⟨he, rfl⟩ := hlast
      have hn0 : 0 < n := by omega
      have hrestok : P.StackOk rest := by
        cases rest with
        | nil => trivial
        | cons c rest =>
          exact ⟨(hrest c List.mem_cons_self).1, fun d hd => hrest d (List.mem_cons_of_mem _ hd)⟩
      obtain ⟨first', bs, hrun, hflat, htid⟩ := runAhead_eq P tid rest (0, 0) hrestok
      obtain ⟨p, hp⟩ : ∃ p, popInfo P.toTables first.2 rest = some p := by
        cases rest with
        | nil => exact ⟨_, rfl⟩
        | cons c rest =>
          obtain ⟨⟨cbb, hcbb, hclt⟩, hpos⟩ := hrest c List.mem_cons_self
          have hclt' : c.curIndex - 1 < cbb.length := by omega
          have hid := List.getElem?_eq_getElem (P.ids_lt cbb (List.mem_of_getElem? hcbb)
            cbb[c.curIndex - 1] (List.getElem_mem hclt'))
          simp [popInfo, callerOf, hcbb, hpos, hclt, List.getElem?_eq_getElem hclt', hid]
      rw [hahead, if_pos ⟨he, rfl⟩]
      let b : SmallestBlock := { SmallestBlock.make .normalBlock tid info.bbID info.curIndex
        (info.curIndex + n) first info.lastBBID [] with isLast := p.1, caller := p.2 }
      refine ⟨first', b :: bs, ?_, ?_, ?_⟩
      · have hlastBB : lastBB P.toTables bb (info.curIndex + n) = some true := by
          rw [lastBB, if_pos he, hr]
        simp [runAhead, hbb, hn, hlastBB, hn0, SmallestBlock.make, hp, hrun, b]
      · rw [List.flatMap_cons, hflat, hids b rfl rfl rfl]
        rw [List.take_of_length_le (by rw [List.length_drop]; omega)]
      · intro b hb
        rcases List.mem_cons.mp hb with rfl | hb
        · exact ⟨by simp [b, SmallestBlock.make], rfl⟩
        · exact htid _ hb
    · rw [hahead, if_neg hlast]
      have hlastBB : lastBB P.toTables bb (info.curIndex + n) = some false := by
        unfold lastBB
        split_ifs with he
        · rw [hr]; exact congrArg some (by simpa using fun h => hlast ⟨he, h⟩)
        · rfl
      by_cases hn0 : 0 < n
      · refine ⟨(0, 0), [SmallestBlock.make .normalBlock tid info.bbID info.curIndex
            (info.curIndex + n) first info.lastBBID []], ?_, ?_, ?_⟩
        · simp [runAhead, hbb, hn, hlastBB, hn0]
        · rw [List.flatMap_singleton, hids _ rfl rfl rfl]
        · simp [SmallestBlock.make]
      · have hz : n = 0 := by omega
        subst hz
        rw [Nat.add_zero] at hlastBB
        refine ⟨first, [], ?_, by simp, by simp⟩
        simp [runAhead, hbb, hn, hlastBB]

/-- Running a thread ahead moves its stack to where `ahead` says and appends what is executed on
the way; nothing else of the call stacks or of the other threads' blocks changes. -/
theorem advance_eq (P : Program) (s : MergeState) (tid : Nat) (hok : P.StackOk (s.callStack tid)) :
    ∃ s', s.advance P.toTables tid = some s' ∧
      s'.callStack = Function.update s.callStack tid (ahead P.toTables (s.callStack tid)).2 ∧
      ∀ t, executedBy P.toTables s'.blockTrace t = executedBy P.toTables s.blockTrace t ++
        if t = tid then (ahead P.toTables (s.callStack tid)).1 else [] := by
  obtain ⟨first, bs, hrun, hflat, htid⟩ := runAhead_eq P tid _ (s.isFirst tid) hok
  refine ⟨_, by simp [MergeState.advance, hrun]; rfl, rfl, fun t => ?_⟩
  rw [executedBy_append, executedBy_of_tid _ _ _ htid, hflat]

/-! ## The merger tracks the machine -/

/-- The merger's stacks are the machine's, run ahead; its blocks hold what each thread has
executed and what it executes on the way ahead. -/
structure Tracks (P : Program) (s : MergeState) (th : Nat → List StackInfo)
    (ex : Nat → List Nat) : Prop where
  stack : ∀ tid, P.StackOk (th tid)
  callStack : ∀ tid, s.callStack tid = (ahead P.toTables (th tid)).2
  blocks : ∀ tid, executedBy P.toTables s.blockTrace tid =
    ex tid ++ (ahead P.toTables (th tid)).1

section

variable {P : Program} {s s₁ : MergeState} {th : Nat → List StackInfo} {ex : Nat → List Nat}
  {tid : Nat} {stk rest : List StackInfo} {info : StackInfo} {id : Nat} {i : InstInfo}
  {ids : List Nat} {last : Int}

/-- A step of the machine that lies within what the merger has run ahead over. -/
theorem Tracks.silent (hT : Tracks P s th ex) (hok : P.StackOk stk)
    (hahead : ahead P.toTables (th tid) =
      (ids ++ (ahead P.toTables stk).1, (ahead P.toTables stk).2)) :
    Tracks P s (Function.update th tid stk) (Function.update ex tid (ex tid ++ ids)) where
  stack t := by
    by_cases ht : t = tid
    · subst ht; simpa using hok
    · simpa [ht] using hT.stack t
  callStack t := by
    by_cases ht : t = tid
    · subst ht; simp [hT.callStack, hahead]
    · simp [ht, hT.callStack]
  blocks t := by
    by_cases ht : t = tid
    · subst ht; simp [hT.blocks, hahead]
    · simp [ht, hT.blocks]

/-- After an event the merger has the machine's stack again, and runs it ahead. -/
theorem Tracks.advance (hT : Tracks P s th ex) (new : List Nat) (hok : P.StackOk stk)
    (hcs : s₁.callStack = Function.update s.callStack tid stk)
    (hbt : ∀ t, executedBy P.toTables s₁.blockTrace t =
      executedBy P.toTables s.blockTrace t ++ if t = tid then new else [])
    (hids : (ahead P.toTables (th tid)).1 ++ new = ids) :
    ∃ s', s₁.advance P.toTables tid = some s' ∧
      Tracks P s' (Function.update th tid stk) (Function.update ex tid (ex tid ++ ids)) := by
  have hstk : s₁.callStack tid = stk := by simp [hcs]
  obtain ⟨s', hadv, hcs', hbt'⟩ := advance_eq P s₁ tid (by rwa [hstk])
  rw [hstk] at hcs' hbt'
  refine ⟨s', hadv, fun t => ?_, fun t => ?_, fun t => ?_⟩ <;> by_cases ht : t = tid
  · subst ht; simpa using hok
  · simpa [ht] using hT.stack t
  · subst ht; simp [hcs']
  · simp [hcs', hcs, ht, hT.callStack]
  · subst ht
    rw [hbt', hbt, hT.blocks, ← hids]
    simp
  · simp [hbt', hbt, hT.blocks, ht]

theorem insIDs_single {bb : List Nat} (hbb : P.bb2Ins[info.bbID]? = some bb)
    (hid : bb[info.curIndex]? = some id) (type : SmallestBlockType) (first : Nat × Nat)
    (last : Int) (addr : List Nat) :
    (SmallestBlock.make type tid info.bbID info.curIndex (info.curIndex + 1) first last addr).insIDs
      P.toTables = [id] := by
  obtain ⟨hlt, hget⟩ := List.getElem?_eq_some_iff.mp hid
  rw [SmallestBlock.insIDs, SmallestBlock.make, List.getD_eq_getElem?_getD, hbb,
    Option.getD_some, List.drop_take, Nat.add_sub_cancel_left, List.drop_eq_getElem_cons hlt, hget]
  rfl

/-- The merger takes an instruction that records one event. -/
theorem Tracks.instBlock (hT : Tracks P s th ex) (hth : th tid = info :: rest)
    (hat : P.At info id i) (hstop : ahead P.toTables (info :: rest) = ([], info :: rest))
    (ht : ¬ (i.type = .terminatorInst ∨ i.type = .returnInst))
    (type : SmallestBlockType) (hty : type ≠ .declareBlock) (addr : List Nat) :
    ∃ s₁, MergeState.instBlock P.toTables { s with tidPtr := some tid } type tid id addr =
        some s₁ ∧
      ∀ s₂ : MergeState, s₂.callStack = s₁.callStack → s₂.blockTrace = s₁.blockTrace →
        ∃ s', s₂.advance P.toTables tid = some s' ∧
          Tracks P s' (Function.update th tid (info.next :: rest))
            (Function.update ex tid (ex tid ++ [id])) := by
  have hcs : s.callStack tid = info :: rest := by rw [hT.callStack, hth, hstop]
  have hok := hT.stack tid
  rw [hth] at hok
  have ⟨bb, hbb, hid, _⟩ := hat
  refine ⟨_, by simp [MergeState.instBlock, hcs, hbb, hid]; rfl, fun s₂ h₁ h₂ => ?_⟩
  refine hT.advance [id] ⟨Program.inside_next hat ht, hok.2⟩ ?_ (fun t => ?_) ?_
  · rw [h₁]; rfl
  · have hone := executedBy_of_tid P.toTables [SmallestBlock.make type tid info.bbID
      info.curIndex (info.curIndex + 1) (s.isFirst tid) info.lastBBID addr] tid
      (by simpa [SmallestBlock.make] using hty) t
    rw [List.flatMap_singleton, insIDs_single hbb hid] at hone
    rw [h₂, executedBy_append, hone]
  · rw [hth, hstop]; rfl

/-! The three ways a basic block starts. -/

theorem enterBlock_start {T : Tables} (hcs : s.callStack tid = []) (bb : Nat) :
    ∃ s₁, s.enterBlock T tid bb = some s₁ ∧
      s₁.callStack = Function.update s.callStack tid [⟨bb, -1, 0⟩] ∧
      s₁.blockTrace = s.blockTrace := by
  simp [MergeState.enterBlock, hcs]

theorem enterBlock_jump {T : Tables} (hcs : s.callStack tid = info :: rest) {l : List Nat}
    (hl : T.bb2Ins[info.bbID]? = some l) (he : l.length ≤ info.curIndex) (bb : Nat) :
    ∃ s₁, s.enterBlock T tid bb = some s₁ ∧
      s₁.callStack = Function.update s.callStack tid (⟨bb, info.bbID, 0⟩ :: rest) ∧
      s₁.blockTrace = s.blockTrace := by
  simp [MergeState.enterBlock, hcs, hl, he]

theorem enterBlock_call {T : Tables} (hcs : s.callStack tid = info :: rest) {l : List Nat}
    (hl : T.bb2Ins[info.bbID]? = some l) (hlt : info.curIndex < l.length)
    (hpos : 0 < info.curIndex) (bb : Nat) :
    ∃ s₁, s.enterBlock T tid bb = some s₁ ∧
      s₁.callStack = Function.update s.callStack tid (⟨bb, -1, 0⟩ :: info :: rest) ∧
      s₁.blockTrace = s.blockTrace := by
  have hlt' : info.curIndex - 1 < l.length := by omega
  simp [MergeState.enterBlock, hcs, hl, hlt.not_ge, hpos, List.getElem?_eq_getElem hlt']

/-- A basic block starts where the merger has no frame, or a frame that is finished or behind a
call. -/
theorem Tracks.enterBlock (hT : Tracks P s th ex) {bb : Nat} (hbb : bb < P.bb2Ins.length)
    (hids : (ahead P.toTables (th tid)).1 = ids)
    (hrest : ∀ c ∈ rest, P.Inside c ∧ 0 < c.curIndex)
    (henter : ∃ s₁, MergeState.enterBlock P.toTables { s with tidPtr := some tid } tid bb =
        some s₁ ∧
      s₁.callStack = Function.update s.callStack tid (⟨bb, last, 0⟩ :: rest) ∧
      s₁.blockTrace = s.blockTrace) :
    ∃ s₁, MergeState.enterBlock P.toTables { s with tidPtr := some tid } tid bb = some s₁ ∧
      ∃ s', s₁.advance P.toTables tid = some s' ∧
        Tracks P s' (Function.update th tid (⟨bb, last, 0⟩ :: rest))
          (Function.update ex tid (ex tid ++ ids)) := by
  obtain ⟨s₁, h₁, hcs, hbt⟩ := henter
  refine ⟨s₁, h₁, hT.advance [] ⟨Program.inside_entry hbb last, hrest⟩ hcs (fun t => ?_)
    (by rw [hids, List.append_nil])⟩
  simp [hbt]

/-- One turn of the main loop on an event after which the thread runs ahead. -/
theorem run_event {T : Tables} {impactful : Nat → Bool} {s' : MergeState} {e : Event}
    (h₁ : MergeState.dispatch T impactful { s with tidPtr := some e.tid } e = some s₁)
    (hc : e.continues = false) (h₂ : s₁.advance T e.tid = some s') :
    run (mergeStep T impactful) s [.event e] = some s' := by
  simp [run, mergeStep, h₁, hc, h₂]

/-- **One step of the machine.** The merger accepts the events of a step and keeps track. -/
theorem Tracks.step (hT : Tracks P s th ex) (impactful : Nat → Bool) {evs : List Event}
    (hstep : ThreadStep P tid (th tid) evs ids stk) :
    ∃ s', run (mergeStep P.toTables impactful) s (evs.map .event) = some s' ∧
      Tracks P s' (Function.update th tid stk) (Function.update ex tid (ex tid ++ ids)) := by
  have hok := hT.stack tid
  have hcs := hT.callStack tid
  generalize hth : th tid = stk₀ at hstep hok hcs
  cases hstep with
  | start bb hbb =>
    have hids : (ahead P.toTables (th tid)).1 = [] := by rw [hth]; rfl
    obtain ⟨s₁, h₁, s', h₂, hT'⟩ := hT.enterBlock hbb hids (by simp)
      (enterBlock_start (s := { s with tidPtr := some tid }) hcs bb)
    exact ⟨s', run_event h₁ rfl h₂, hT'⟩
  | @silent info rest id i hat ht =>
    have hne : ¬ (i.type = .terminatorInst ∨ i.type = .returnInst) := by
      rintro (h | h) <;> simp [h, InstType.isSilent] at ht
    exact ⟨s, rfl, hT.silent ⟨Program.inside_next hat hne, hok.2⟩
      (by rw [hth, Program.ahead_silent hat ht]; rfl)⟩
  | @access info rest id i addr length hat ht =>
    have hne : ¬ (i.type = .terminatorInst ∨ i.type = .returnInst) := by
      rintro (h | h) <;> simp [h, InstType.isAccess] at ht
    have hstop : ahead P.toTables (info :: rest) = ([], info :: rest) :=
      Program.ahead_stop hat (by revert ht; cases i.type <;> simp [InstType.isAccess, InstType.runsThrough])
        (fun h => by simp [h, InstType.isAccess] at ht)
    obtain ⟨s₁, h₁, h₂⟩ := hT.instBlock hth hat hstop hne .memoryAccessBlock (by simp)
      (addrRange addr length)
    obtain ⟨s', h₃, hT'⟩ := h₂ s₁ rfl rfl
    have hid : id ≠ noId := P.id_ne_noId hat
    exact ⟨s', run_event (by rw [MergeState.dispatch, if_neg hid]; exact h₁)
      (by simp [Event.continues, hid]) h₃, hT'⟩
  | @memset info rest id i addr length hat ht hi =>
    have hstop : ahead P.toTables (info :: rest) = ([], info :: rest) :=
      Program.ahead_stop hat (by simp [ht, InstType.runsThrough]) (fun _ => hi)
    obtain ⟨s₁, h₁, h₂⟩ := hT.instBlock hth hat hstop (by simp [ht]) .memsetBlock (by simp)
      (addrRange addr length)
    obtain ⟨s', h₃, hT'⟩ := h₂ s₁ rfl rfl
    exact ⟨s', run_event h₁ rfl h₃, hT'⟩
  | @memmove info rest id i addr addr2 length hat ht hi =>
    have hstop : ahead P.toTables (info :: rest) = ([], info :: rest) :=
      Program.ahead_stop hat (by simp [ht, InstType.runsThrough]) (fun _ => hi)
    obtain ⟨s₁, h₁, h₂⟩ := hT.instBlock hth hat hstop (by simp [ht]) .memmoveBlock (by simp)
      (addrRange addr length ++ addrRange addr2 length)
    obtain ⟨s', h₃, hT'⟩ := h₂ s₁ rfl rfl
    exact ⟨s', run_event h₁ rfl h₃, hT'⟩
  | @argument info rest id i addr hat ht =>
    refine ⟨_, by simp [run, mergeStep, MergeState.dispatch, Event.continues, Event.tid]; rfl, ?_⟩
    rw [← hth, Function.update_eq_self, List.append_nil, Function.update_eq_self]
    exact ⟨hT.stack, hT.callStack, hT.blocks⟩
  | @external info rest id i addr hat ht =>
    have hstop : ahead P.toTables (info :: rest) = ([], info :: rest) :=
      Program.ahead_stop hat (by simp [ht, InstType.runsThrough]) (fun h => by simp [ht] at h)
    obtain ⟨type, hty, hcall⟩ : ∃ type, type ≠ .declareBlock ∧
        callBlockType P.toTables impactful id addr = some type := by
      obtain ⟨-, -, -, hi⟩ := hat
      unfold callBlockType
      rw [hi]
      split_ifs
      · exact ⟨_, by simp, rfl⟩
      · by_cases hf : isImpactfulFunction i.fn = true
        · exact ⟨.impactfulCallBlock, by simp, by simp [hf]⟩
        · exact ⟨.externalCallBlock, by simp, by simp [hf]⟩
    obtain ⟨s₁, h₁, h₂⟩ := hT.instBlock hth hat hstop (by simp [ht]) type hty (addr :: s.args tid)
    obtain ⟨s', h₃, hT'⟩ := h₂ { s₁ with args := Function.update s₁.args tid [] } rfl rfl
    exact ⟨s', run_event (by simp [MergeState.dispatch, hcall, Event.tid, h₁]) rfl h₃, hT'⟩
  | @call info rest id i bb hat ht hi hbb =>
    have hahead : ahead P.toTables (info :: rest) = ([id], info.next :: rest) :=
      Program.ahead_call hat ht hi
    have hin := Program.inside_next hat (by simp [ht])
    have hids : (ahead P.toTables (th tid)).1 = [id] := by rw [hth, hahead]
    have hrest : ∀ c ∈ info.next :: rest, P.Inside c ∧ 0 < c.curIndex := by
      intro c hc
      rcases List.mem_cons.mp hc with rfl | hc
      · exact ⟨hin, Nat.succ_pos _⟩
      · exact hok.2 c hc
    obtain ⟨l, hl, hlt⟩ := hin
    obtain ⟨s₁, h₁, s', h₂, hT'⟩ := hT.enterBlock hbb hids hrest
      (enterBlock_call (s := { s with tidPtr := some tid }) (by rw [hcs, hahead]) hl hlt
        (Nat.succ_pos _) bb)
    exact ⟨s', run_event h₁ rfl h₂, hT'⟩
  | @jump info rest id i bb hat ht hbb =>
    have hahead : ahead P.toTables (info :: rest) = ([id], info.next :: rest) :=
      Program.ahead_jump hat ht
    have hids : (ahead P.toTables (th tid)).1 = [id] := by rw [hth, hahead]
    obtain ⟨l, hl, hid, hi⟩ := hat
    have he := (P.ends l (List.mem_of_getElem? hl) _ id i hid hi).mp (Or.inl ht)
    have hcs' : s.callStack tid = info.next :: rest := by rw [hcs, hahead]
    obtain ⟨s₁, h₁, s', h₂, hT'⟩ := hT.enterBlock hbb hids hok.2
      (enterBlock_jump (s := { s with tidPtr := some tid }) hcs' hl he.ge bb)
    exact ⟨s', run_event h₁ rfl h₂, hT'⟩
  | @ret info rest id i hat ht =>
    have hok' : P.StackOk stk := by
      cases stk with
      | nil => trivial
      | cons c rest =>
        exact ⟨(hok.2 c List.mem_cons_self).1, fun d hd => hok.2 d (List.mem_cons_of_mem _ hd)⟩
    exact ⟨s, rfl, hT.silent hok' (by rw [hth, Program.ahead_return hat ht]; rfl)⟩

/-- The merger keeps track of a whole execution. -/
theorem Execution.tracks {es : List Event} (h : Execution P es th ex) (impactful : Nat → Bool) :
    ∃ s, run (mergeStep P.toTables impactful) {} (es.map .event) = some s ∧ Tracks P s th ex := by
  induction h with
  | init => exact ⟨{}, rfl, fun _ => trivial, fun _ => rfl, fun _ => rfl⟩
  | step _ hstep ih =>
    obtain ⟨s, hrun, hT⟩ := ih
    obtain ⟨s', hrun', hT'⟩ := hT.step impactful hstep
    exact ⟨s', by rw [List.map_append]; exact run_append_eq_some.mpr ⟨s, hrun, hrun'⟩, hT'⟩
  | declare addr length _ ih =>
    obtain ⟨s, hrun, hT⟩ := ih
    let b : SmallestBlock := { type := .declareBlock, addr := addrRange addr length }
    refine ⟨{ s with tidPtr := some 0, blockTrace := s.blockTrace ++ [b] }, ?_, hT.stack,
      hT.callStack, fun t => ?_⟩
    · rw [List.map_append]
      refine run_append_eq_some.mpr ⟨s, hrun, ?_⟩
      simp [run, mergeStep, MergeState.dispatch, Event.continues, Event.tid, Event.declare, b]
    · rw [executedBy_append, hT.blocks]
      simp [executedBy, b]

theorem closeThreads_of_empty (T : Tables) (tidPtr : Option Nat) :
    ∀ (tids : List Nat), closeThreads T tidPtr (fun _ => []) tids = some []
  | [] => rfl
  | tid :: tids => by
    simp [closeThreads, closeThread, closeThreads_of_empty T tidPtr tids]

/-- **`MergeTrace` reconstructs the execution.** When every thread has run to completion, no
assert fails and the blocks of each thread hold exactly the instructions it executed. -/
theorem mergeTrace_reconstructs (P : Program) (impactful : Nat → Bool) {es : List Event}
    {th : Nat → List StackInfo} {ex : Nat → List Nat} (h : Execution P es th ex)
    (hdone : ∀ tid, th tid = []) :
    ∃ bt, mergeTrace P.toTables impactful (es.map .event) = some bt ∧
      ∀ tid, executedBy P.toTables bt tid = ex tid := by
  obtain ⟨s, hrun, hT⟩ := h.tracks impactful
  have hcs : s.callStack = fun _ => [] := funext fun tid => by simp [hT.callStack, hdone, ahead]
  refine ⟨s.blockTrace, by simp [mergeTrace, hrun, hcs, closeThreads_of_empty], fun tid => ?_⟩
  simp [hT.blocks, hdone, ahead]

end

/-- `f` loads and calls `g`, which returns at once. -/
def callProgram : Program where
  ins := [{ type := .loadInst }, { type := .callInst, fn := "g" }, { type := .returnInst },
    { type := .returnInst }]
  bb2Ins := [[0, 1, 2], [3]]
  block_ne := by decide
  ids_lt := by decide
  ends := by
    intro bb hbb k id i hk hi
    simp only [List.mem_cons, List.not_mem_nil, or_false] at hbb
    rcases hbb with rfl | rfl
    · rcases k with _ | _ | _ | k <;> cases hk <;> (cases hi; decide)
    · rcases k with _ | k <;> cases hk; (cases hi; decide)
  length_le := by decide

theorem callProgram_execution :
    Execution callProgram [.basicBlock 7 0, .memory 7 0 4096 8, .basicBlock 7 1] (fun _ => [])
      (Function.update (fun _ => []) 7 [0, 1, 3, 2]) := by
  have h := Execution.init (P := callProgram)
  have h := h.step (show ThreadStep callProgram 7 _ _ _ _ from .start 0 (by decide))
  have h := h.step (show ThreadStep callProgram 7 _ _ [0] _ from
    .access 4096 8 ⟨_, rfl, rfl, rfl⟩ rfl)
  have h := h.step (show ThreadStep callProgram 7 _ _ [1] _ from
    .call 1 ⟨_, rfl, rfl, rfl⟩ rfl (by decide) (by decide))
  have h := h.step (show ThreadStep callProgram 7 _ _ [3] _ from .ret ⟨_, rfl, rfl, rfl⟩ rfl)
  have h := h.step (show ThreadStep callProgram 7 _ _ [2] _ from .ret ⟨_, rfl, rfl, rfl⟩ rfl)
  simpa using h

theorem mergeTrace_reconstructs_callProgram :
    ∃ bt, mergeTrace callProgram.toTables (fun _ => false)
        ([.basicBlock 7 0, .memory 7 0 4096 8, .basicBlock 7 1].map .event) = some bt ∧
      ∀ tid, executedBy callProgram.toTables bt tid =
        Function.update (fun _ => []) 7 [0, 1, 3, 2] tid :=
  mergeTrace_reconstructs callProgram (fun _ => false) callProgram_execution fun _ => rfl

end Slimmer
