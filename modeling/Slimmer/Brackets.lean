import Slimmer.Threads

/-!
# The brackets around the activations

`IsFirst` opens an activation and `IsLast` closes it, so the blocks of a thread read as a word of
`ActivationMark`s: the instructions with the brackets around each activation, which tell the
outermost activation of the thread from the others. `MarkedExecution` writes the same word while the
program runs, from the heights of its call stacks alone.

`MergeTrace` keeps `is_first` until the next block of the thread is emitted, and the loop that closes
the frames left open does not look at it.

**Theorem (`marks_balanced_iff`).** The words agree, with the activations left open closed at the
end, and nest like the call stack, if and only if no frame left open has just been entered (`Entered`) and the closing loop never
reads the top of a call stack that has no frame (`ClosesAll`).
-/

namespace Slimmer

/-! ## The words -/

/-- A letter of the word of a thread. -/
inductive ActivationMark
  | enter (outermost : Bool)
  | exec (id : Nat)
  | leave (outermost : Bool)
  deriving DecidableEq

/-- What a step that executes `ids` and leads from the stack `old` to `new` adds to the word. -/
def stepMarks (old : List StackInfo) (ids : List Nat) (new : List StackInfo) :
    List ActivationMark :=
  ids.map .exec ++
    if old.length < new.length then [.enter old.isEmpty]
    else if new.length < old.length then [.leave new.isEmpty]
    else []

/-- `Execution`, with the word of each thread. -/
inductive MarkedExecution (P : Program) :
    List Event → (Nat → List StackInfo) → (Nat → List ActivationMark) → Prop
  | init : MarkedExecution P [] (fun _ => []) (fun _ => [])
  | step {es th marks tid evs ids stk} (h : MarkedExecution P es th marks)
      (hstep : ThreadStep P tid (th tid) evs ids stk) :
      MarkedExecution P (es ++ evs) (Function.update th tid stk)
        (Function.update marks tid (marks tid ++ stepMarks (th tid) ids stk))
  | declare {es th marks} (addr length : Nat) (h : MarkedExecution P es th marks) :
      MarkedExecution P (es ++ [.declare addr length]) th marks

/-- What `ahead` adds to the word. -/
def aheadMarks (T : Tables) : List StackInfo → List ActivationMark
  | [] => []
  | info :: rest =>
    let bb := T.bb2Ins.getD info.bbID []
    let n := (scanEnd T (bb.drop info.curIndex)).getD 0
    if info.curIndex + n = bb.length ∧ endsInReturn T bb = some true then
      (bb.drop info.curIndex).map .exec ++ .leave rest.isEmpty :: aheadMarks T rest
    else ((bb.drop info.curIndex).take n).map .exec

/-- The brackets that close the activations left open. -/
def closeMarks : List StackInfo → List ActivationMark
  | [] => []
  | _ :: rest => .leave rest.isEmpty :: closeMarks rest

/-- The bracket an `IsFirst` stands for. -/
def enterMark (isFirst : Nat) : List ActivationMark :=
  if 0 < isFirst then [.enter (isFirst = 2)] else []

/-- The bracket an `IsLast` stands for. -/
def leaveMark (isLast : Nat) : List ActivationMark :=
  if 0 < isLast then [.leave (isLast = 2)] else []

def SmallestBlock.marks (T : Tables) (b : SmallestBlock) : List ActivationMark :=
  enterMark b.isFirst ++ (b.insIDs T).map .exec ++ leaveMark b.isLast

/-- The word of a thread in a block trace. -/
def marksOf (T : Tables) (bt : List SmallestBlock) (tid : Nat) : List ActivationMark :=
  (blocksOf bt tid).flatMap (SmallestBlock.marks T)

/-- Read a letter at some depth of the call stack. An activation is the outermost one when it is
entered at depth 0. -/
def readMark (depth : Nat) : ActivationMark → Option Nat
  | .enter outermost => if outermost = decide (depth = 0) then some (depth + 1) else none
  | .exec _ => if 0 < depth then some depth else none
  | .leave outermost => if 0 < depth ∧ outermost = decide (depth = 1) then some (depth - 1) else none

/-- The block trace has the words of the execution, run ahead to where the merger stands and with
the activations left open closed; the brackets of every thread nest, and `IsFirst` and `IsLast` are 2
at depth 0 only. -/
def MarksBalanced (T : Tables) (impactful : Nat → Bool) (es : List Event)
    (th : Nat → List StackInfo) (marks : Nat → List ActivationMark) : Prop :=
  ∃ bt, mergeTrace T impactful (es.map .event) = some bt ∧ ∀ tid,
    marksOf T bt tid = marks tid ++ aheadMarks T (th tid) ++ closeMarks (ahead T (th tid)).2 ∧
      run readMark 0 (marksOf T bt tid) = some 0

/-- The top frame is the entry of a function, and nothing of it has been executed. -/
def Entered : List StackInfo → Prop
  | [] => False
  | info :: _ => info.lastBBID = -1 ∧ info.curIndex = 0

/-- `stack` are the frames left open and `t` is the thread of the last event. When another thread is
closed, `t` still has a frame. -/
def ClosesAll (stack : Nat → List StackInfo) (t : Nat) : Prop :=
  ∀ tid, tid ≠ t → stack tid ≠ [] → tid < t ∧ stack t ≠ []

section

variable {P : Program} {T : Tables} {impactful : Nat → Bool} {s s' s₁ : MergeState} {tid : Nat}
  {info : StackInfo} {rest stk : List StackInfo} {id : Nat} {i : InstInfo} {es : List Event}
  {th : Nat → List StackInfo} {marks : Nat → List ActivationMark} {bs bs' : List SmallestBlock}

/-- Every execution writes its words. -/
theorem Execution.marked {ex : Nat → List Nat} (h : Execution P es th ex) :
    ∃ marks, MarkedExecution P es th marks := by
  induction h with
  | init => exact ⟨_, .init⟩
  | step _ hstep ih =>
    rcases ih with ⟨marks, hmarks⟩
    exact ⟨_, hmarks.step hstep⟩
  | declare addr length _ ih =>
    rcases ih with ⟨marks, hmarks⟩
    exact ⟨_, hmarks.declare addr length⟩

theorem MarkedExecution.execution (h : MarkedExecution P es th marks) :
    ∃ ex, Execution P es th ex := by
  induction h with
  | init => exact ⟨_, .init⟩
  | step _ hstep ih =>
    rcases ih with ⟨ex, hex⟩
    exact ⟨_, hex.step hstep⟩
  | declare addr length _ ih =>
    rcases ih with ⟨ex, hex⟩
    exact ⟨_, hex.declare addr length⟩

/-- A step within a function adds no bracket. -/
theorem stepMarks_top {info' : StackInfo} {ids : List Nat} :
    stepMarks (info :: rest) ids (info' :: rest) = ids.map .exec := by
  simp [stepMarks]

/-! ## The word ahead -/

theorem aheadMarks_silent (h : P.At info id i) (ht : i.type.isSilent = true) :
    aheadMarks P.toTables (info :: rest) =
      .exec id :: aheadMarks P.toTables (info.next :: rest) := by
  rcases Program.scan_at h with ⟨bb, n, hbb, hdrop, hn, hscan, -, -, -⟩
  have hrun : i.type.runsThrough = true := by
    revert ht
    cases i.type <;> simp [InstType.isSilent, InstType.runsThrough]
  have hsum : info.curIndex + (n + 1) = info.curIndex + 1 + n := by omega
  simp only [aheadMarks, StackInfo.next, List.getD_eq_getElem?_getD, hbb, Option.getD_some, hn,
    hscan, hrun, if_true, hsum]
  rw [hdrop]
  split_ifs
  · simp
  · simp

theorem aheadMarks_return (h : P.At info id i) (ht : i.type = .returnInst) :
    aheadMarks P.toTables (info :: rest) =
      [.exec id, .leave rest.isEmpty] ++ aheadMarks P.toTables rest := by
  rcases Program.scan_at h with ⟨bb, n, hbb, hdrop, hn, hscan, hend, hret, -⟩
  have he := hend.mp (Or.inr ht)
  have hnil : bb.drop (info.curIndex + 1) = [] := List.drop_eq_nil_of_le he.ge
  have hn0 : n = 0 := by
    rw [hnil] at hn
    exact (Option.some.inj hn).symm
  simp only [aheadMarks, List.getD_eq_getElem?_getD, hbb, Option.getD_some, hscan, ht,
    InstType.runsThrough, if_true, hn0, hret he, decide_true, and_true]
  rw [if_pos he, hdrop, hnil]
  rfl

theorem aheadMarks_jump (h : P.At info id i) (ht : i.type = .terminatorInst) :
    aheadMarks P.toTables (info :: rest) = [.exec id] := by
  rcases Program.scan_at h with ⟨bb, n, hbb, hdrop, hn, hscan, hend, hret, -⟩
  have he := hend.mp (Or.inl ht)
  have hnil : bb.drop (info.curIndex + 1) = [] := List.drop_eq_nil_of_le he.ge
  have hn0 : n = 0 := by
    rw [hnil] at hn
    exact (Option.some.inj hn).symm
  simp only [aheadMarks, List.getD_eq_getElem?_getD, hbb, Option.getD_some, hscan, ht,
    InstType.runsThrough, if_true, hn0, hret he]
  rw [if_neg (by simp), hdrop]
  rfl

theorem aheadMarks_call (h : P.At info id i) (ht : i.type = .callInst)
    (hi : i.isIntrinsic = false) : aheadMarks P.toTables (info :: rest) = [.exec id] := by
  rcases Program.scan_at h with ⟨bb, n, hbb, hdrop, -, hscan, hend, -, -⟩
  have hne : info.curIndex + 1 ≠ bb.length := by
    intro he
    have := hend.mpr he
    simp [ht] at this
  simp only [aheadMarks, List.getD_eq_getElem?_getD, hbb, Option.getD_some, hscan, ht,
    InstType.runsThrough, hi]
  simp [hne, hdrop]

theorem aheadMarks_stop (h : P.At info id i) (ht : i.type.runsThrough = false)
    (hi : i.type = .callInst → i.isIntrinsic = true) :
    aheadMarks P.toTables (info :: rest) = [] := by
  rcases Program.scan_at h with ⟨bb, n, hbb, -, -, hscan, -, -, hlt⟩
  have hnc : ¬ (i.type = .callInst ∧ i.isIntrinsic = false) := by
    intro hc
    simp [hi hc.1] at hc
  have hne : info.curIndex ≠ bb.length := by omega
  simp [aheadMarks, List.getD_eq_getElem?_getD, hbb, hscan, ht, hnc, hne]

/-! ## The word of the blocks -/

/-- The `is_first` of a thread, by its stack. -/
def firstOf : List StackInfo → Nat
  | [] => 0
  | info :: rest =>
    if info.lastBBID = -1 ∧ info.curIndex = 0 then if rest = [] then 2 else 1 else 0

theorem firstOf_of_pos (h : 0 < info.curIndex) : firstOf (info :: rest) = 0 :=
  if_neg fun hc => h.ne' hc.2

theorem firstOf_of_ne (h : info.lastBBID ≠ -1) : firstOf (info :: rest) = 0 :=
  if_neg fun hc => h hc.1

theorem firstOf_entry {bb : Nat} (hrest : rest ≠ []) : firstOf (⟨bb, -1, 0⟩ :: rest) = 1 := by
  simp [firstOf, hrest]

theorem enterMark_firstOf : enterMark (firstOf stk) = [] ↔ ¬ Entered stk := by
  cases stk with
  | nil => simp [firstOf, enterMark, Entered]
  | cons info rest =>
    simp only [firstOf, Entered]
    split_ifs with h hrest
    · simp [enterMark, h]
    · simp [enterMark, h]
    · simp [enterMark, h]

theorem marksOf_append (bs bs' : List SmallestBlock) (tid : Nat) :
    marksOf T (bs ++ bs') tid = marksOf T bs tid ++ marksOf T bs' tid := by
  unfold marksOf
  rw [blocksOf_append, List.flatMap_append]

theorem marksOf_cons {b : SmallestBlock} (htype : b.type ≠ .declareBlock) (htid : b.tid = tid) :
    marksOf T (b :: bs) tid = b.marks T ++ marksOf T bs tid := by
  have hb : blocksOf (b :: bs) tid = b :: blocksOf bs tid :=
    List.filter_cons_of_pos (by simp [htype, htid])
  unfold marksOf
  rw [hb, List.flatMap_cons]

theorem popInfo_isLast {caller : Nat} {p : Nat × Nat} (h : popInfo T caller rest = some p) :
    leaveMark p.1 = [.leave rest.isEmpty] ∧ firstOf rest = 0 := by
  cases rest with
  | nil =>
    cases h
    exact ⟨rfl, rfl⟩
  | cons c rest =>
    rcases Option.map_eq_some_iff.mp h with ⟨caller, hcaller, rfl⟩
    simp only [callerOf, Option.bind_eq_bind, Option.bind_eq_some_iff] at hcaller
    rcases hcaller with ⟨bb, -, _, hguard, -⟩
    have hpos : 0 < c.curIndex ∧ c.curIndex < bb.length := by
      by_contra hc
      simp [guard, hc] at hguard
    exact ⟨rfl, firstOf_of_pos hpos.1⟩

theorem marksOf_segment {bb : List Nat} (b : SmallestBlock) (n : Nat)
    (htype : b.type ≠ .declareBlock) (htid : b.tid = tid) (hbb : T.bb2Ins[b.bbID]? = some bb)
    (hstop : b.stop = b.start + n) :
    marksOf T (b :: bs) tid = enterMark b.isFirst ++ ((bb.drop b.start).take n).map .exec ++
      leaveMark b.isLast ++ marksOf T bs tid := by
  rw [marksOf_cons htype htid, SmallestBlock.marks, SmallestBlock.insIDs,
    List.getD_eq_getElem?_getD, hbb, Option.getD_some, hstop, List.drop_take,
    Nat.add_sub_cancel_left]

/-- The blocks emitted while a thread runs ahead carry the bracket that is waiting, and the word
ahead. -/
theorem runAhead_marks :
    ∀ {stk stk' : List StackInfo} {first first' : Nat × Nat} {bs : List SmallestBlock},
      runAhead T tid stk first = some (stk', first', bs) → first.1 = firstOf stk →
        first'.1 = firstOf stk' ∧
          marksOf T bs tid ++ enterMark first'.1 = enterMark first.1 ++ aheadMarks T stk
  | [], _, _, _, _, h, hfirst => by
    cases h
    rw [hfirst]
    exact ⟨rfl, rfl⟩
  | info :: rest, stk', first, first', bs, h, hfirst => by
    simp only [runAhead, Option.bind_eq_bind, Option.bind_eq_some_iff] at h
    rcases h with ⟨bb, hbb, n, hn, last, hlast, h⟩
    have hahead : aheadMarks T (info :: rest) = if last then
        (bb.drop info.curIndex).map .exec ++ .leave rest.isEmpty :: aheadMarks T rest
        else ((bb.drop info.curIndex).take n).map .exec := by
      have hiff : (info.curIndex + n = bb.length ∧ endsInReturn T bb = some true) ↔
          last = true := by
        unfold lastBB at hlast
        split_ifs at hlast with he
        · rw [hlast, and_iff_right he, Option.some_inj]
        · cases hlast
          simp [he]
      simp only [aheadMarks, List.getD_eq_getElem?_getD, hbb, Option.getD_some, hn]
      rw [if_congr hiff rfl rfl]
    rw [hahead]
    split_ifs at h with hn0 hl hl
    · -- the block returns, and the thread goes on with the caller
      rcases Option.bind_eq_some_iff.mp h with ⟨p, hp, h⟩
      rcases Option.bind_eq_some_iff.mp h with ⟨⟨stk'', first'', bs'⟩, hrun, h⟩
      replace h := Option.some.inj h
      simp only [Prod.mk.injEq] at h
      rcases h with ⟨rfl, rfl, rfl⟩
      rcases popInfo_isLast hp with ⟨hleave, hrest⟩
      rcases runAhead_marks hrun hrest.symm with ⟨hfirst', hword⟩
      refine ⟨hfirst', ?_⟩
      have htake : (bb.drop info.curIndex).take n = bb.drop info.curIndex := by
        unfold lastBB at hlast
        split_ifs at hlast with he
        · exact List.take_of_length_le (by rw [List.length_drop]; omega)
        · cases hlast
          cases hl
      refine (congrArg (· ++ _) (marksOf_segment _ n (by simp [SmallestBlock.make]) rfl hbb rfl)).trans ?_
      show enterMark first.1 ++ List.map _ ((bb.drop info.curIndex).take n) ++ leaveMark p.1 ++
        marksOf T bs' tid ++ enterMark first''.1 = _
      rw [List.append_assoc, hword, htake, hleave, if_pos hl]
      show enterMark first.1 ++ _ ++ [.leave rest.isEmpty] ++ ([] ++ aheadMarks T rest) = _
      simp
    · cases h
      refine ⟨?_, ?_⟩
      · exact (firstOf_of_pos (show 0 < info.curIndex + n by omega)).symm
      · refine (congrArg (· ++ _)
          (marksOf_segment _ n (by simp [SmallestBlock.make]) rfl hbb rfl)).trans ?_
        rw [if_neg hl]
        show enterMark first.1 ++ _ ++ [] ++ [] ++ [] = _
        rw [List.append_nil, List.append_nil, List.append_nil]
        rfl
    · cases h
      have hz : n = 0 := by omega
      subst hz
      refine ⟨hfirst, ?_⟩
      rw [if_neg hl]
      simp [marksOf, blocksOf]

/-! ## The words agree -/

/-- `is_first` holds the bracket that is waiting, and with it the blocks have the word of the thread
up to where the merger stands. -/
structure Marked (P : Program) (s : MergeState) (th : Nat → List StackInfo)
    (marks : Nat → List ActivationMark) : Prop where
  first : ∀ tid, (s.isFirst tid).1 = firstOf (s.callStack tid)
  word : ∀ tid, marksOf P.toTables s.blockTrace tid ++ enterMark (s.isFirst tid).1 =
    marks tid ++ aheadMarks P.toTables (th tid)

/-- The thread has the stack `stk`, and `word` is what its blocks and `is_first` say. -/
structure HasWord (T : Tables) (s : MergeState) (tid : Nat) (stk : List StackInfo)
    (word : List ActivationMark) : Prop where
  callStack : s.callStack tid = stk
  first : (s.isFirst tid).1 = firstOf stk
  word : marksOf T s.blockTrace tid ++ enterMark (s.isFirst tid).1 = word

theorem HasWord.advance {word : List ActivationMark} (h : HasWord T s tid stk word)
    (hadvance : s.advance T tid = some s') :
    (s'.isFirst tid).1 = firstOf (s'.callStack tid) ∧
      marksOf T s'.blockTrace tid ++ enterMark (s'.isFirst tid).1 = word ++ aheadMarks T stk := by
  rcases advance_eq_some hadvance with ⟨stk', first', bs, hrun, rfl⟩
  rw [h.callStack] at hrun
  rcases runAhead_marks hrun h.first with ⟨hfirst, hword⟩
  simp only [Function.update_self]
  refine ⟨hfirst, ?_⟩
  rw [marksOf_append, List.append_assoc, hword, ← List.append_assoc, h.word]

theorem instBlock_words {type : SmallestBlockType} {addr bb : List Nat}
    (hcs : s.callStack tid = info :: rest) (htype : type ≠ .declareBlock)
    (hbb : T.bb2Ins[info.bbID]? = some bb) (hid : bb[info.curIndex]? = some id)
    (h : s.instBlock T type tid id addr = some s₁) :
    HasWord T s₁ tid (info.next :: rest)
      (marksOf T s.blockTrace tid ++ enterMark (s.isFirst tid).1 ++ [.exec id]) := by
  simp only [MergeState.instBlock, hcs, hbb, hid, Option.bind_eq_bind, Option.bind_some] at h
  cases h
  refine ⟨Function.update_self .., ?_, ?_⟩
  · simp only [Function.update_self]
    exact (firstOf_of_pos (Nat.succ_pos _)).symm
  · simp only [Function.update_self]
    rcases List.getElem?_eq_some_iff.mp hid with ⟨hlt, hget⟩
    have hb : marksOf T [SmallestBlock.make type tid info.bbID info.curIndex (info.curIndex + 1)
        (s.isFirst tid) info.lastBBID addr] tid = enterMark (s.isFirst tid).1 ++
          List.map .exec ((bb.drop info.curIndex).take 1) ++ [] ++ [] :=
      marksOf_segment _ 1 htype rfl hbb rfl
    rw [marksOf_append, hb, List.drop_eq_getElem_cons hlt, hget]
    show _ ++ [] = _
    simp

theorem enterBlock_words_start {bb : Nat} (hcs : s.callStack tid = [])
    (h : s.enterBlock T tid bb = some s₁) :
    HasWord T s₁ tid [⟨bb, -1, 0⟩] (marksOf T s.blockTrace tid ++ [.enter true]) := by
  simp only [MergeState.enterBlock, hcs] at h
  cases h
  refine ⟨Function.update_self .., ?_, ?_⟩
  · simp only [Function.update_self]
    rfl
  · simp only [Function.update_self]
    rfl

theorem enterBlock_words_jump {bb : Nat} {l : List Nat} (hcs : s.callStack tid = info :: rest)
    (hl : T.bb2Ins[info.bbID]? = some l) (he : l.length ≤ info.curIndex)
    (h : s.enterBlock T tid bb = some s₁) :
    HasWord T s₁ tid (⟨bb, info.bbID, 0⟩ :: rest) (marksOf T s.blockTrace tid) := by
  simp only [MergeState.enterBlock, hcs, hl, if_pos he, Option.bind_eq_bind, Option.bind_some] at h
  cases h
  refine ⟨Function.update_self .., ?_, ?_⟩
  · simp only [Function.update_self]
    exact (firstOf_of_ne (show (info.bbID : Int) ≠ -1 by omega)).symm
  · simp only [Function.update_self]
    exact List.append_nil _

theorem enterBlock_words_call {bb : Nat} {l : List Nat} (hcs : s.callStack tid = info :: rest)
    (hl : T.bb2Ins[info.bbID]? = some l) (hlt : info.curIndex < l.length)
    (h : s.enterBlock T tid bb = some s₁) :
    HasWord T s₁ tid (⟨bb, -1, 0⟩ :: info :: rest) (marksOf T s.blockTrace tid ++ [.enter false]) := by
  simp only [MergeState.enterBlock, hcs, hl, if_neg hlt.not_ge, Option.bind_eq_bind,
    Option.bind_some, Option.bind_eq_some_iff] at h
  rcases h with ⟨_, -, caller, -, h⟩
  cases h
  refine ⟨Function.update_self .., ?_, ?_⟩
  · simp only [Function.update_self]
    exact (firstOf_entry (List.cons_ne_nil _ _)).symm
  · simp only [Function.update_self]
    rfl

/-- A step of the machine that the merger has run ahead over. -/
theorem Marked.silent {new : List ActivationMark} (hM : Marked P s th marks)
    (hahead : aheadMarks P.toTables (th tid) = new ++ aheadMarks P.toTables stk) :
    Marked P s (Function.update th tid stk) (Function.update marks tid (marks tid ++ new)) := by
  refine ⟨hM.first, fun t => ?_⟩
  by_cases ht : t = tid
  · subst ht
    rw [Function.update_self, Function.update_self, hM.word, hahead, List.append_assoc]
  · rw [Function.update_of_ne ht, Function.update_of_ne ht, hM.word]

/-- A turn of the main loop, by what the thread says before it runs ahead. -/
theorem Marked.turn {new : List ActivationMark} {e : Event} (hM : Marked P s th marks)
    (htid : e.tid = tid) (hc : e.continues = false)
    (hturn : ∀ s₁, MergeState.dispatch P.toTables impactful { s with tidPtr := some e.tid } e =
      some s₁ → HasWord P.toTables s₁ tid stk (marks tid ++ new))
    (h : run (mergeStep P.toTables impactful) s [.event e] = some s') :
    Marked P s' (Function.update th tid stk) (Function.update marks tid (marks tid ++ new)) := by
  subst htid
  rcases run_cons_eq_some.mp h with ⟨s'', h, hnil⟩
  cases hnil
  have hlocal := mergeStep_local h
  rcases Option.bind_eq_some_iff.mp h with ⟨s₁, hs₁, hadvance⟩
  rw [hc] at hadvance
  rcases (hturn s₁ hs₁).advance hadvance with ⟨hfirst, hword⟩
  constructor
  · intro t
    by_cases ht : t = e.tid
    · subst ht
      exact hfirst
    · have hview := hlocal.others t ht
      rw [view_isFirst hview, view_callStack hview]
      exact hM.first t
  · intro t
    by_cases ht : t = e.tid
    · subst ht
      rw [Function.update_self, Function.update_self, hword]
    · have hview := hlocal.others t ht
      have hblocks : blocksOf s'.blockTrace t = blocksOf s.blockTrace t :=
        congrArg ThreadView.blocks hview
      rw [Function.update_of_ne ht, Function.update_of_ne ht, view_isFirst hview, ← hM.word t]
      unfold marksOf
      rw [hblocks]

/-- The waiting bracket of a stack whose top frame has been left or has executed something. -/
theorem Marked.word_of_not_entered (hM : Marked P s th marks) (h : firstOf (s.callStack tid) = 0) :
    marksOf P.toTables s.blockTrace tid = marks tid ++ aheadMarks P.toTables (th tid) := by
  rw [← hM.word tid, hM.first tid, h]
  exact (List.append_nil _).symm

/-- **One step of the machine** keeps the words. -/
theorem Marked.step {ex : Nat → List Nat} {evs : List Event} {ids : List Nat}
    (hM : Marked P s th marks) (hT : Tracks P s th ex)
    (hstep : ThreadStep P tid (th tid) evs ids stk)
    (h : run (mergeStep P.toTables impactful) s (evs.map .event) = some s') :
    Marked P s' (Function.update th tid stk)
      (Function.update marks tid (marks tid ++ stepMarks (th tid) ids stk)) := by
  have hcs := hT.callStack tid
  have hword := hM.word tid
  -- an instruction that records one event
  have hinst : ∀ {info rest id i type addr s₁} (_ : P.At info id i) (_ : th tid = info :: rest)
      (_ : i.type.runsThrough = false) (_ : i.type = .callInst → i.isIntrinsic = true)
      (_ : type ≠ SmallestBlockType.declareBlock), MergeState.instBlock P.toTables
        { s with tidPtr := some tid } type tid id addr = some s₁ →
      HasWord P.toTables s₁ tid (info.next :: rest) (marks tid ++ [.exec id]) := by
    intro info rest id i type addr s₁ hat hth hstop hi htype hs₁
    rw [hth, Program.ahead_stop hat hstop hi] at hcs
    rw [hth, aheadMarks_stop hat hstop hi, List.append_nil] at hword
    rcases hat with ⟨bb, hbb, hid, -⟩
    rw [← hword]
    exact instBlock_words (s := { s with tidPtr := some tid }) hcs htype hbb hid hs₁
  generalize hth : th tid = stk₀ at hstep hcs hword
  cases hstep with
  | start bb hbb =>
    refine hM.turn rfl rfl (fun s₁ hs₁ => ?_) h
    have hfirst : firstOf (s.callStack tid) = 0 := by
      rw [hcs]
      rfl
    have hblocks := hM.word_of_not_entered hfirst
    rw [hth, aheadMarks, List.append_nil] at hblocks
    rw [← hblocks]
    exact enterBlock_words_start (s := { s with tidPtr := some tid }) hcs hs₁
  | @silent info rest id i hat ht =>
    cases h
    refine hM.silent ?_
    rw [hth, aheadMarks_silent hat ht, stepMarks_top]
    rfl
  | @access info rest id i addr length hat ht =>
    have hrun : i.type.runsThrough = false := by
      revert ht
      cases i.type <;> simp [InstType.isAccess, InstType.runsThrough]
    have hnc : i.type = .callInst → i.isIntrinsic = true := by
      intro hc
      simp [hc, InstType.isAccess] at ht
    have hid : id ≠ noId := P.id_ne_noId hat
    rw [stepMarks_top]
    refine hM.turn rfl (by simp [Event.continues, hid]) (fun s₁ hs₁ => ?_) h
    rw [MergeState.dispatch, if_neg hid] at hs₁
    exact hinst hat hth hrun hnc (by simp) hs₁
  | @memset info rest id i addr length hat ht hi =>
    rw [stepMarks_top]
    refine hM.turn rfl rfl (fun s₁ hs₁ => ?_) h
    exact hinst hat hth (by simp [ht, InstType.runsThrough]) (fun _ => hi) (by simp) hs₁
  | @memmove info rest id i addr addr2 length hat ht hi =>
    rw [stepMarks_top]
    refine hM.turn rfl rfl (fun s₁ hs₁ => ?_) h
    exact hinst hat hth (by simp [ht, InstType.runsThrough]) (fun _ => hi) (by simp) hs₁
  | @argument info rest id i addr hat ht =>
    rw [stepMarks_top, ← hth, Function.update_eq_self, List.map_nil, List.append_nil,
      Function.update_eq_self]
    rcases run_cons_eq_some.mp h with ⟨s'', h, hnil⟩
    cases hnil
    cases h
    exact ⟨hM.first, hM.word⟩
  | @external info rest id i addr hat ht =>
    rw [stepMarks_top]
    refine hM.turn rfl rfl (fun s₁ hs₁ => ?_) h
    simp only [MergeState.dispatch, Option.bind_eq_bind, Option.bind_eq_some_iff] at hs₁
    rcases hs₁ with ⟨type, htype, s₂, hs₂, hs₁⟩
    cases hs₁
    have hne : type ≠ .declareBlock := by
      unfold callBlockType at htype
      split_ifs at htype
      · cases htype
        simp
      · rcases Option.map_eq_some_iff.mp htype with ⟨i, -, rfl⟩
        split_ifs <;> simp
    have hhas := hinst hat hth (by simp [ht, InstType.runsThrough]) (by simp [ht]) hne hs₂
    exact ⟨hhas.callStack, hhas.first, hhas.word⟩
  | @call info rest id i bb hat ht hi hbb =>
    rw [Program.ahead_call hat ht hi] at hcs
    have hblocks := hM.word_of_not_entered (by rw [hcs]; exact firstOf_of_pos (Nat.succ_pos _))
    rw [hth, aheadMarks_call hat ht hi] at hblocks
    rcases Program.inside_next hat (by simp [ht]) with ⟨l, hl, hlt⟩
    rw [stepMarks, if_pos (by simp)]
    refine hM.turn rfl rfl (fun s₁ hs₁ => ?_) h
    rw [← List.append_assoc]
    show HasWord _ _ _ _ (marks tid ++ [.exec id] ++ [.enter false])
    rw [← hblocks]
    exact enterBlock_words_call (s := { s with tidPtr := some tid }) hcs hl hlt hs₁
  | @jump info rest id i bb hat ht hbb =>
    rw [Program.ahead_jump hat ht] at hcs
    replace hcs : s.callStack tid = info.next :: rest := hcs
    have hblocks := hM.word_of_not_entered (by rw [hcs]; exact firstOf_of_pos (Nat.succ_pos _))
    rw [hth, aheadMarks_jump hat ht] at hblocks
    rcases hat with ⟨l, hl, hid, hi⟩
    have he := (P.ends l (List.mem_of_getElem? hl) _ id i hid hi).mp (Or.inl ht)
    rw [stepMarks_top]
    refine hM.turn rfl rfl (fun s₁ hs₁ => ?_) h
    show HasWord _ _ _ _ (marks tid ++ [.exec id])
    rw [← hblocks]
    have hhas := enterBlock_words_jump (s := { s with tidPtr := some tid }) hcs hl he.ge hs₁
    exact hhas
  | @ret info rest id i hat ht =>
    cases h
    refine hM.silent ?_
    rw [hth, aheadMarks_return hat ht, stepMarks, if_neg (by simp), if_pos (by simp)]
    rfl

/-- **A whole run** keeps the words. -/
theorem MarkedExecution.marked (h : MarkedExecution P es th marks) (impactful : Nat → Bool) :
    ∃ s ex, run (mergeStep P.toTables impactful) {} (es.map .event) = some s ∧
      Tracks P s th ex ∧ Marked P s th marks := by
  induction h with
  | init =>
    exact ⟨{}, fun _ => [], rfl, ⟨fun _ => trivial, fun _ => rfl, fun _ => rfl⟩, fun _ => rfl,
      fun _ => rfl⟩
  | step _ hstep ih =>
    rcases ih with ⟨s, ex, hrun, hT, hM⟩
    rcases hT.step impactful hstep with ⟨s', hrun', hT'⟩
    refine ⟨s', _, ?_, hT', hM.step hT hstep hrun'⟩
    rw [List.map_append]
    exact run_append_eq_some.mpr ⟨s, hrun, hrun'⟩
  | declare addr length _ ih =>
    rcases ih with ⟨s, ex, hrun, hT, hM⟩
    let b : SmallestBlock := { type := .declareBlock, addr := addrRange addr length }
    have hdeclare : run (mergeStep P.toTables impactful) s [.event (.declare addr length)] =
        some { s with tidPtr := some 0, blockTrace := s.blockTrace ++ [b] } := by
      simp [run, mergeStep, MergeState.dispatch, Event.continues, Event.tid, Event.declare, b]
    have hnone : ∀ t, blocksOf (s.blockTrace ++ [b]) t = blocksOf s.blockTrace t := by
      intro t
      rw [blocksOf_append]
      exact List.append_nil _
    refine ⟨{ s with tidPtr := some 0, blockTrace := s.blockTrace ++ [b] }, ex, ?_,
      ⟨hT.stack, hT.callStack, fun t => ?_⟩, hM.first, fun t => ?_⟩
    · rw [List.map_append]
      exact run_append_eq_some.mpr ⟨s, hrun, hdeclare⟩
    · have hblocks := hT.blocks t
      unfold executedBy at hblocks ⊢
      rw [← hblocks]
      exact congrArg _ (hnone t)
    · have hword := hM.word t
      unfold marksOf at hword ⊢
      rw [← hword]
      exact congrArg (fun bs => List.flatMap _ bs ++ _) (hnone t)

/-! ## The word is balanced -/

theorem run_readMark_exec {depth : Nat} (h : 0 < depth) (ids : List Nat) :
    run readMark depth (ids.map .exec) = some depth := by
  induction ids with
  | nil => rfl
  | cons id ids ih => exact run_cons_eq_some.mpr ⟨depth, if_pos h, ih⟩

theorem readMark_leave : readMark (rest.length + 1) (.leave rest.isEmpty) = some rest.length := by
  cases rest <;> simp [readMark]

theorem run_stepMarks {old new : List StackInfo} {evs : List Event} {ids : List Nat}
    (h : ThreadStep P tid old evs ids new) :
    run readMark old.length (stepMarks old ids new) = some new.length := by
  cases h with
  | start bb hbb => rfl
  | silent | access | memset | memmove | argument | external | jump =>
    rw [stepMarks_top]
    exact run_readMark_exec (Nat.succ_pos _) _
  | @call info rest id i bb hat ht hi hbb =>
    rw [stepMarks, if_pos (by simp)]
    refine run_append_eq_some.mpr ⟨_, run_readMark_exec (Nat.succ_pos _) _, ?_⟩
    simp [run, readMark]
  | @ret info rest id i hat ht =>
    rw [stepMarks, if_neg (by simp), if_pos (by simp)]
    refine run_append_eq_some.mpr ⟨_, run_readMark_exec (Nat.succ_pos _) _, ?_⟩
    exact run_cons_eq_some.mpr ⟨_, readMark_leave, rfl⟩

/-- The depth of the word of a thread is the height of its call stack. -/
theorem MarkedExecution.depth (h : MarkedExecution P es th marks) (tid : Nat) :
    run readMark 0 (marks tid) = some (th tid).length := by
  induction h generalizing tid with
  | init => rfl
  | @step es th marks t evs ids stk _ hstep ih =>
    by_cases ht : tid = t
    · subst ht
      rw [Function.update_self, Function.update_self]
      exact run_append_eq_some.mpr ⟨_, ih tid, run_stepMarks hstep⟩
    · rw [Function.update_of_ne ht, Function.update_of_ne ht]
      exact ih tid
  | declare addr length _ ih => exact ih tid

theorem run_aheadMarks (stk : List StackInfo) :
    run readMark stk.length (aheadMarks T stk) = some (ahead T stk).2.length := by
  induction stk with
  | nil => rfl
  | cons info rest ih =>
    simp only [ahead, aheadMarks]
    split_ifs
    · refine run_append_eq_some.mpr ⟨_, run_readMark_exec (Nat.succ_pos _) _, ?_⟩
      exact run_cons_eq_some.mpr ⟨_, readMark_leave, ih⟩
    · exact run_readMark_exec (Nat.succ_pos _) _

theorem run_closeMarks (stk : List StackInfo) :
    run readMark stk.length (closeMarks stk) = some 0 := by
  induction stk with
  | nil => rfl
  | cons info rest ih => exact run_cons_eq_some.mpr ⟨_, readMark_leave, ih⟩

/-- The word of a thread ends at depth 0, run ahead and with the activations left open closed. -/
theorem MarkedExecution.depth_closed (h : MarkedExecution P es th marks) (tid : Nat) :
    run readMark 0 (marks tid ++ aheadMarks P.toTables (th tid) ++
      closeMarks (ahead P.toTables (th tid)).2) = some 0 :=
  run_append_eq_some.mpr ⟨_, run_append_eq_some.mpr ⟨_, h.depth tid, run_aheadMarks _⟩,
    run_closeMarks _⟩

/-! ## The closing loop -/

theorem closeThread_marks {last : StackInfo → Option Int}
    (h : closeThread T tid last stk = some bs) : marksOf T bs tid = closeMarks stk := by
  induction stk generalizing bs with
  | nil =>
    cases h
    rfl
  | cons info rest ih =>
    rcases closeThread_cons.mp h with ⟨l, p, bs', -, hp, hbs', rfl⟩
    have hnone : ∀ ids : List Nat, (ids.take info.curIndex).drop info.curIndex = [] := by
      intro ids
      rw [List.drop_take, Nat.sub_self, List.take_zero]
    refine (marksOf_cons (by simp [SmallestBlock.make]) rfl).trans ?_
    show [] ++ List.map _ (List.drop info.curIndex (List.take info.curIndex _)) ++ leaveMark p.1 ++
      marksOf T bs' tid = _
    rw [hnone, (popInfo_isLast hp).1, ih hbs']
    rfl

/-- A thread can be closed when there is something to read for each of its frames. -/
theorem closeThread_isSome {last : StackInfo → Option Int}
    (halone : closeAlone T tid stk = some bs) :
    (∃ bs, closeThread T tid last stk = some bs) ↔ ∀ info ∈ stk, ∃ l, last info = some l := by
  induction stk generalizing bs with
  | nil => exact ⟨fun _ _ h => (nomatch h), fun _ => ⟨[], rfl⟩⟩
  | cons info rest ih =>
    rcases closeThread_cons.mp halone with ⟨l, p, bs', -, hp, hbs', rfl⟩
    rw [List.forall_mem_cons, ← ih hbs']
    constructor
    · intro h
      rcases h with ⟨bs, hbs⟩
      rcases closeThread_cons.mp hbs with ⟨l, p', bs'', hl, -, hbs'', -⟩
      exact ⟨⟨l, hl⟩, bs'', hbs''⟩
    · intro h
      rcases h with ⟨⟨l, hl⟩, bs'', hbs''⟩
      exact ⟨_, closeThread_cons.mpr ⟨l, p, bs'', hl, hp, hbs'', rfl⟩⟩

theorem closeThreads_marks {p : Option Nat} {cs : Nat → List StackInfo} {tids : List Nat}
    (hsorted : tids.Pairwise (· < ·)) (h : closeThreads T p cs tids = some bs) :
    ∀ tid ∈ tids, marksOf T bs tid = closeMarks (cs tid) := by
  induction tids generalizing cs bs with
  | nil => exact fun _ h => (nomatch h)
  | cons v tids ih =>
    rcases List.pairwise_cons.mp hsorted with ⟨hv, hsorted⟩
    rcases closeThreads_cons.mp h with ⟨bs₁, bs₂, h₁, h₂, rfl⟩
    intro tid htid
    rw [marksOf_append]
    rcases List.mem_cons.mp htid with rfl | htid
    · have hnone := blocksOf_closeThreads h₂ fun hmem => lt_irrefl tid (hv tid hmem)
      rw [closeThread_marks h₁]
      unfold marksOf
      rw [hnone]
      exact List.append_nil _
    · have hne := (hv tid htid).ne'
      have hrest := ih hsorted h₂ tid htid
      rw [Function.update_of_ne hne] at hrest
      have hnone : blocksOf bs₁ tid = [] :=
        blocksOf_of_ne (fun b hb => Or.inr (closeThread_tid h₁ b hb).2) hne
      rw [hrest]
      unfold marksOf
      rw [hnone]
      rfl

/-- What holds when there is a frame holds for each of them. -/
theorem ne_nil_imp_iff {α : Type*} {l : List α} {p : Prop} : (l ≠ [] → p) ↔ ∀ a ∈ l, p := by
  cases l with
  | nil => simp
  | cons a l => exact ⟨fun h _ _ => h (List.cons_ne_nil a l), fun h _ => h a List.mem_cons_self⟩

/-- **The closing loop** closes all threads if and only if each of them that has frames comes before
the thread `t`, and `t` has frames itself. -/
theorem closeThreads_isSome {cs : Nat → List StackInfo} {tids : List Nat} {t : Nat}
    (hsorted : tids.Pairwise (· < ·))
    (halone : ∀ tid ∈ tids, ∃ bs, closeAlone T tid (cs tid) = some bs) :
    (∃ bs, closeThreads T (some t) cs tids = some bs) ↔
      ∀ tid ∈ tids, tid ≠ t → cs tid ≠ [] → (t ∈ tids → tid < t) ∧ cs t ≠ [] := by
  simp only [ne_nil_imp_iff]
  induction tids generalizing cs with
  | nil => exact ⟨fun _ _ h => (nomatch h), fun _ => ⟨[], rfl⟩⟩
  | cons v tids ih =>
    rcases List.pairwise_cons.mp hsorted with ⟨hv, hsorted⟩
    have ih := @ih (Function.update cs v []) hsorted fun tid htid => by
      rw [Function.update_of_ne (hv tid htid).ne']
      exact halone tid (List.mem_cons_of_mem _ htid)
    rcases halone v List.mem_cons_self with ⟨bs, hbs⟩
    rw [forall_reads_cons (R := fun top _ => top ≠ []) (fun _ h => h rfl) hv, ← ih]
    -- the thread that is closed first
    have hfirst : (∃ bs, closeThread T v (fun info => (some t).bind fun t =>
        if t = v then some info.lastBBID else (cs t).head?.map StackInfo.lastBBID) (cs v) =
          some bs) ↔ (v ≠ t → ∀ info ∈ cs v, cs t ≠ []) := by
      rw [closeThread_isSome hbs]
      by_cases htv : t = v
      · simp [htv]
      · rw [imp_iff_right (Ne.symm htv)]
        refine forall₂_congr fun info _ => ?_
        rw [Option.bind_some, if_neg htv]
        cases cs t with
        | nil => simp
        | cons top rest => simp
    rw [← hfirst]
    constructor
    · intro h
      rcases h with ⟨bs, h⟩
      rcases closeThreads_cons.mp h with ⟨bs₁, bs₂, h₁, h₂, -⟩
      exact ⟨⟨bs₁, h₁⟩, bs₂, h₂⟩
    · intro h
      rcases h with ⟨⟨bs₁, h₁⟩, bs₂, h₂⟩
      exact ⟨_, closeThreads_cons.mpr ⟨bs₁, bs₂, h₁, h₂, rfl⟩⟩

/-! ## Cut traces -/

/-- **The brackets in the block trace** are those of the execution if and only if no frame left open
has just been entered, and the closing loop always finds a top frame where it reads one. -/
theorem marks_balanced_iff (P : Program) (impactful : Nat → Bool) {es : List Event}
    {th : Nat → List StackInfo} {marks : Nat → List ActivationMark}
    (h : MarkedExecution P es th marks) :
    MarksBalanced P.toTables impactful es th marks ↔
      (∀ tid, ¬ Entered (ahead P.toTables (th tid)).2) ∧
        ∀ e ∈ es.getLast?, ClosesAll (fun tid => (ahead P.toTables (th tid)).2) e.tid := by
  rcases h.marked impactful with ⟨s, ex, hrun, hT, hM⟩
  rcases run_events hrun with ⟨-, hsettled, -, hptr⟩
  have hin := (hsettled .init).tids
  have hsorted := run_tids hrun
  have halone : ∀ tid, ∃ bs, closeAlone P.toTables tid (s.callStack tid) = some bs := by
    intro tid
    rw [hT.callStack]
    exact closeAlone_isSome (ahead_tail (hT.stack tid))
  -- what the closing loop adds
  have hclosed : ∀ {bs}, closeThreads P.toTables s.tidPtr s.callStack s.tids = some bs →
      ∀ tid, marksOf P.toTables bs tid = closeMarks (s.callStack tid) := by
    intro bs hbs tid
    by_cases hmem : tid ∈ s.tids
    · exact closeThreads_marks hsorted hbs tid hmem
    · have hnil : s.callStack tid = [] := by
        by_contra hne
        exact hmem (hin tid hne)
      unfold marksOf
      rw [hnil, blocksOf_closeThreads hbs hmem]
      rfl
  have hbalanced : MarksBalanced P.toTables impactful es th marks ↔
      (∀ tid, ¬ Entered (s.callStack tid)) ∧
        ∃ bs, closeThreads P.toTables s.tidPtr s.callStack s.tids = some bs := by
    have hword : ∀ bs, closeThreads P.toTables s.tidPtr s.callStack s.tids = some bs → ∀ tid,
        (marksOf P.toTables (s.blockTrace ++ bs) tid = marks tid ++ aheadMarks P.toTables (th tid) ++
          closeMarks (ahead P.toTables (th tid)).2 ↔ ¬ Entered (s.callStack tid)) := by
      intro bs hbs tid
      rw [marksOf_append, hclosed hbs tid, ← hM.word tid, ← hT.callStack tid, hM.first tid,
        List.append_cancel_right_eq, List.self_eq_append_right]
      exact enterMark_firstOf
    constructor
    · intro hall
      rcases hall with ⟨bt, hbt, hall⟩
      simp only [mergeTrace, hrun, Option.bind_eq_bind, Option.bind_some] at hbt
      rcases Option.bind_eq_some_iff.mp hbt with ⟨bs, hbs, hbt⟩
      cases hbt
      exact ⟨fun tid => (hword bs hbs tid).mp (hall tid).1, bs, hbs⟩
    · intro hall
      rcases hall with ⟨hall, bs, hbs⟩
      refine ⟨s.blockTrace ++ bs, ?_, fun tid => ?_⟩
      · simp only [mergeTrace, hrun, hbs, Option.bind_eq_bind, Option.bind_some]
      · have hagree := (hword bs hbs tid).mpr (hall tid)
        refine ⟨hagree, ?_⟩
        rw [hagree]
        exact h.depth_closed tid
  have hstack : (fun tid => (ahead P.toTables (th tid)).2) = s.callStack := by
    funext tid
    exact (hT.callStack tid).symm
  rw [hbalanced, hstack]
  apply and_congr
  · simp only [hT.callStack]
  · cases hlast : es.getLast? with
    | none =>
      rw [List.getLast?_eq_none_iff] at hlast
      subst hlast
      cases hrun
      exact ⟨fun _ e he => absurd he (Option.not_mem_none e), fun _ => ⟨[], rfl⟩⟩
    | some e =>
      rw [hlast] at hptr
      replace hptr : s.tidPtr = some e.tid := hptr
      rw [hptr, closeThreads_isSome hsorted fun tid _ => halone tid]
      constructor
      · intro hall e' he'
        cases he'
        intro tid ht hframes
        rcases hall tid (hin tid hframes) ht hframes with ⟨hlt, hread⟩
        exact ⟨hlt (hin e.tid hread), hread⟩
      · intro hall tid _ ht hframes
        rcases hall e rfl tid ht hframes with ⟨hlt, hread⟩
        exact ⟨fun _ => hlt, hread⟩

end

/-! ## A cut at the first load -/

/-- Thread 7 has entered `f`. -/
theorem entered_execution : MarkedExecution callProgram [.basicBlock 7 0]
    (Function.update (fun _ => []) 7 [⟨0, -1, 0⟩])
    (Function.update (fun _ => []) 7 [.enter true]) := by
  have h := MarkedExecution.init (P := callProgram)
  exact h.step (show ThreadStep callProgram 7 _ _ _ _ from .start 0 (by decide))

/-- Thread 7 has executed the load of `f`. -/
theorem loaded_execution : MarkedExecution callProgram [.basicBlock 7 0, .memory 7 0 4096 8]
    (Function.update (fun _ => []) 7 [⟨0, -1, 1⟩])
    (Function.update (fun _ => []) 7 [.enter true, .exec 0]) := by
  have h := entered_execution.step (show ThreadStep callProgram 7 _ _ [0] _ from
    .access 4096 8 ⟨_, rfl, rfl, rfl⟩ rfl)
  simpa [StackInfo.next, stepMarks] using h

/-- Behind the load the merger goes on to the call, and the activation of `f` is closed there. -/
theorem marks_balanced_iff_loaded : MarksBalanced callProgram.toTables (fun _ => false)
    [.basicBlock 7 0, .memory 7 0 4096 8] (Function.update (fun _ => []) 7 [⟨0, -1, 1⟩])
    (Function.update (fun _ => []) 7 [.enter true, .exec 0]) := by
  have hnone : ∀ tid, tid ≠ 7 → (ahead callProgram.toTables
      (Function.update (fun _ => []) 7 [⟨0, -1, 1⟩] tid)).2 = [] := by
    intro tid ht
    rw [Function.update_of_ne ht]
    rfl
  refine (marks_balanced_iff callProgram (fun _ => false) loaded_execution).mpr ⟨?_, ?_⟩
  · intro tid
    by_cases ht : tid = 7
    · subst ht
      rw [Function.update_self, show (ahead callProgram.toTables [⟨0, -1, 1⟩]).2 =
        [⟨0, -1, 2⟩] by decide +kernel]
      exact fun h => absurd h.2 (by decide)
    · rw [hnone tid ht]
      exact id
  · intro e he tid ht hframes
    cases he
    exact absurd (hnone tid ht) hframes

/-- Nothing of `f` has been executed when the trace is cut, and the block that closes it does not
open it. -/
theorem cut_not_balanced :
    ¬ ∀ (P : Program) (impactful : Nat → Bool) (es : List Event) (th : Nat → List StackInfo)
      (marks : Nat → List ActivationMark), MarkedExecution P es th marks →
        MarksBalanced P.toTables impactful es th marks := by
  intro h
  rcases h callProgram (fun _ => false) _ _ _ entered_execution with ⟨bt, hbt, hwords⟩
  have hword : (mergeTrace callProgram.toTables (fun _ => false) ([.basicBlock 7 0].map .event)).map
      (fun bt => marksOf callProgram.toTables bt 7) = some [.leave true] := by decide +kernel
  rw [hbt, Option.map_some, (hwords 7).1, Function.update_self] at hword
  exact absurd hword (by decide +kernel)

end Slimmer
