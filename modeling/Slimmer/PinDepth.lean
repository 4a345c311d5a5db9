import Slimmer.PinAgrees

/-!
# The depth counter

`ImageLoad` (`tools/PinTool/PinTrace.cpp`) inserts `BeforeCall` before the call of an external
function and `AfterCall` before the instruction behind it, where the call is expected to return. The
callbacks run each time the instruction is about to be executed, however it has been reached.

**Theorem (`pdepth_tracks_iff`).** In a run, the depth of every thread is the number of its open
external calls, and the outermost ones are recorded, if and only if an instruction behind an external
call is only reached by the return of that call.

A thread is a stack of frames. A frame in an instrumented routine stands at the instruction that is
about to be executed or, further down, at the call that is open; everything else is outside.
-/

namespace Slimmer

/-! ## Routines -/

/-- A machine instruction; a jump goes on at one of its targets, which for a conditional one are
two. -/
inductive Instruction
  | directCall (target : UInt64)
  | indirectCall
  | jump (targets : List Nat)
  | ret
  | other
  deriving DecidableEq, Repr

structure Routine where
  name : String
  ins : List Instruction
  deriving DecidableEq, Repr

/-- What `ImageLoad` knows of the functions: `Symbols`, empty where there is none, and
`instrumentedFun`. -/
structure Image where
  symbols : UInt64 → String
  instrumentedFun : List String

/-- `notTrace`. -/
def notTrace (name : String) : Bool :=
  name ∈ ["slimmerCtor", "recordInit", "recordAddLock", "recordBasicBlockEvent",
    "recordMemoryEvent", "recordStoreEvent", "recordCallEvent", "recordReturnEvent",
    "recordArgumentEvent", "recordMemset", "recordMemmove", "memcpy", "memmove‘", "memset", "sqrt",
    "powi", "sin", "cos", "pow", "exp", "exp2", "log", "log10", "log2", "fma", "fabs", "copysign",
    "floor", "ceil", "trunc", "rint", "nearbyint", "round", "memset"]

/-- The callbacks before each instruction of a routine. -/
abbrev Inserted := Nat → List Callback

/-- `INS_InsertCall`: behind those already inserted there. -/
def insertCall (inserted : Inserted) (i : Nat) (c : Callback) : Inserted :=
  Function.update inserted i (inserted i ++ [c])

section

variable (img : Image)

/-- The routine is instrumented. -/
def Image.Traced (r : Routine) : Prop :=
  ¬ (notTrace r.name = true ∨ r.name ∉ img.instrumentedFun)

instance (r : Routine) : Decidable (img.Traced r) := inferInstanceAs (Decidable (¬ _))

/-- The target of an external direct call. -/
def Image.externalCall (r : Routine) (i : Nat) : Option UInt64 :=
  match r.ins[i]? with
  | some (.directCall target) =>
    if notTrace (img.symbols target) = true ∨ img.symbols target ∈ img.instrumentedFun then none
    else some target
  | _ => none

/-- The body of the loop over the instructions. -/
def Image.instrument (r : Routine) (inserted : Inserted) (i : Nat) : Inserted :=
  match img.externalCall r i with
  | some target =>
    if i + 1 < r.ins.length then
      insertCall (insertCall inserted i (.beforeCall target)) (i + 1) (.afterCall target)
    else inserted
  | none => inserted

/-- `ImageLoad`. -/
def Image.imageLoad (r : Routine) : Inserted :=
  if notTrace r.name = true ∨ r.name ∉ img.instrumentedFun then fun _ => []
  else (List.range r.ins.length).foldl (img.instrument r) fun _ => []

/-! ## Threads -/

/-- A frame of a thread. -/
inductive CallFrame
  | code (r : { r : Routine // img.Traced r }) (pc : Nat)
  | outside

/-- What a thread does next. -/
inductive Flow
  | goto (pc : Nat)
  | enter (r : { r : Routine // img.Traced r })
  | leave
  | ret
  | syscall

/-- Where it gets: to the instruction `pc` of `r`, back from the external call `back` if it comes back
from one, or nowhere in a routine. -/
inductive Move
  | stay (frames : List (CallFrame img))
  | arrive (back : Option UInt64) (r : { r : Routine // img.Traced r }) (pc : Nat)
      (frames : List (CallFrame img))

variable {img}

/-- The instructions that can be executed next, but for calls and returns. -/
def Routine.successors (r : Routine) (pc : Nat) : List Nat :=
  match r.ins[pc]? with
  | some (.jump targets) => targets
  | some .other => [pc + 1]
  | _ => []

def Routine.isCall (r : Routine) (pc : Nat) : Bool :=
  match r.ins[pc]? with
  | some (.directCall _) | some .indirectCall => true
  | _ => false

/-- A routine is called from outside, or by a call that is not external. -/
def CanEnter : List (CallFrame img) → Prop
  | .code r pc :: _ => r.1.isCall pc = true ∧ img.externalCall r pc = none
  | _ => True

instance : (frames : List (CallFrame img)) → Decidable (CanEnter frames)
  | .code r pc :: _ =>
    inferInstanceAs (Decidable (r.1.isCall pc = true ∧ img.externalCall r pc = none))
  | .outside :: _ => inferInstanceAs (Decidable True)
  | [] => inferInstanceAs (Decidable True)

/-- A return to these frames. -/
def comeBack : List (CallFrame img) → Move img
  | .code r pc :: frames => .arrive (img.externalCall r pc) r (pc + 1) frames
  | frames => .stay frames

/-- The control flow of a thread. -/
def move : List (CallFrame img) → Flow img → Option (Move img)
  | .code r pc :: frames, .goto pc' =>
    if pc' ∈ r.1.successors pc then some (.arrive none r pc' frames) else none
  | frames, .enter r => if CanEnter frames then some (.arrive none r 0 frames) else none
  | .code r pc :: frames, .leave =>
    if r.1.isCall pc = true then some (.stay (.outside :: .code r pc :: frames)) else none
  | .code r pc :: frames, .ret => if r.1.ins[pc]? = some .ret then some (comeBack frames) else none
  | .outside :: frames, .ret => some (comeBack frames)
  | frames, .syscall => some (.stay frames)
  | _, _ => none

/-- The external call a frame stands at. -/
def CallFrame.openCall : CallFrame img → Option UInt64
  | .code r pc => img.externalCall r pc
  | .outside => none

/-- The open external calls, innermost first: those that are about to be executed, and have not
returned yet. -/
def openCalls (frames : List (CallFrame img)) : List UInt64 := frames.filterMap CallFrame.openCall

/-- The threads and the Pin tool. `log` is what should be recorded: the outermost external calls,
their returns, and the syscalls under them. -/
structure PinRun (img : Image) where
  frames : UInt64 → List (CallFrame img) := fun _ => []
  pin : PinState (List PinEvent) := { buffer := [] }
  log : List PinEvent := []

/-- A thread gets there, and the callbacks before the instruction it reaches run. -/
def PinRun.take (s : PinRun img) (tid : UInt64) : Move img → Option (PinRun img)
  | .stay frames => some { s with frames := Function.update s.frames tid frames }
  | .arrive back r pc frames =>
    if pc < r.1.ins.length then
      some {
        frames := Function.update s.frames tid (.code r pc :: frames)
        pin := (img.imageLoad r pc).foldl (fun p c => p.callback logEvent (tid, c)) s.pin
        log := s.log ++ if openCalls frames = [] then
          (back.map (.ret tid)).toList ++ ((img.externalCall r pc).map (.call tid)).toList else [] }
    else none

/-- A syscall calls back as well. -/
def PinRun.syscall (s : PinRun img) (tid : UInt64) : PinRun img :=
  { s with
    pin := s.pin.callback logEvent (tid, .syscallEntry)
    log := s.log ++ if openCalls (s.frames tid) = [] then [] else [.syscall tid] }

def PinRun.step (s : PinRun img) (a : UInt64 × Flow img) : Option (PinRun img) :=
  match a.2 with
  | .syscall => some (s.syscall a.1)
  | flow => (move (s.frames a.1) flow).bind (s.take a.1)

/-! ## The property -/

/-- The depth is the number of open external calls, and the outermost ones are recorded. -/
structure PinRun.Tracks (s : PinRun img) : Prop where
  depth : DepthOf (fun tid => openCalls (s.frames tid)) s.pin.pdepth
  log : s.pin.buffer = s.log

/-- The instruction stands behind an external call. -/
def Image.BehindCall (img : Image) (r : Routine) (pc : Nat) : Prop :=
  ∃ q, pc = q + 1 ∧ (img.externalCall r q).isSome = true

/-- An instruction behind an external call is reached by the return of that call, and there is an
instruction behind an external call, so that it can return. -/
def PinRun.StepOk (s : PinRun img) (a : UInt64 × Flow img) : Prop :=
  ∀ back r pc frames, move (s.frames a.1) a.2 = some (.arrive back r pc frames) →
    (img.BehindCall r pc → back.isSome = true) ∧
      ((img.externalCall r pc).isSome = true → pc + 1 < r.1.ins.length)

/-! ## The callbacks of an instruction -/

/-- `BeforeCall`, inserted before a call that has an instruction behind it. -/
def Image.before (img : Image) (r : Routine) (i : Nat) : List Callback :=
  if i + 1 < r.ins.length then ((img.externalCall r i).map .beforeCall).toList else []

/-- `AfterCall`, inserted behind a call. -/
def Image.after (img : Image) (r : Routine) : Nat → List Callback
  | 0 => []
  | i + 1 => if i + 1 < r.ins.length then ((img.externalCall r i).map .afterCall).toList else []

section

variable {r : Routine} {pc : Nat}

theorem after_succ (r : Routine) (i : Nat) : img.after r (i + 1) =
    if i + 1 < r.ins.length then ((img.externalCall r i).map .afterCall).toList else [] := rfl

theorem instrument_apply (r : Routine) (inserted : Inserted) (n i : Nat) :
    img.instrument r inserted n i = inserted i ++ (if i = n then img.before r n else []) ++
      if i = n + 1 then img.after r (n + 1) else [] := by
  rw [after_succ]
  unfold Image.instrument Image.before insertCall
  cases img.externalCall r n with
  | none => simp
  | some target =>
    by_cases hnext : n + 1 < r.ins.length
    · simp only [if_pos hnext, Option.map_some, Option.toList_some]
      by_cases hbehind : i = n + 1
      · have hne : i ≠ n := by omega
        rw [if_neg hne, if_pos hbehind, hbehind, Function.update_self,
          Function.update_of_ne (Nat.succ_ne_self n), List.append_nil]
      · rw [Function.update_of_ne hbehind, if_neg hbehind, List.append_nil]
        by_cases hat : i = n
        · rw [if_pos hat, hat, Function.update_self]
        · rw [if_neg hat, Function.update_of_ne hat, List.append_nil]
    · simp only [if_neg hnext, ite_self, List.append_nil]

/-- The table when the instructions before `n` have been looked at. -/
theorem foldl_instrument (r : Routine) (n : Nat) :
    (List.range n).foldl (img.instrument r) (fun _ => []) =
      fun i => (if i ≤ n then img.after r i else []) ++ if i < n then img.before r i else [] := by
  induction n with
  | zero =>
    funext i
    cases i with
    | zero => rfl
    | succ i => rfl
  | succ n ih =>
    funext i
    rw [List.range_succ, List.foldl_concat, ih, instrument_apply]
    rcases Nat.lt_trichotomy i n with hlt | rfl | hgt
    · rw [if_pos hlt.le, if_pos hlt, if_neg hlt.ne, if_neg (by omega), if_pos (by omega),
        if_pos (by omega), List.append_nil, List.append_nil]
    · rw [if_pos le_rfl, if_neg (Nat.lt_irrefl i), if_pos rfl, if_neg (by omega), if_pos (by omega),
        if_pos (by omega), List.append_nil, List.append_nil]
    · rw [if_neg (by omega), if_neg (by omega), if_neg (by omega)]
      by_cases hnext : i = n + 1
      · rw [if_pos hnext, if_pos hnext.le, if_neg (by omega), hnext]
        exact (List.append_nil _).symm
      · rw [if_neg hnext, if_neg (by omega), if_neg (by omega)]
        rfl

/-- **What `ImageLoad` inserts**: first for the call before it, then for the call it is. -/
theorem imageLoad_apply (r : { r : Routine // img.Traced r }) (hpc : pc < r.1.ins.length) :
    img.imageLoad r pc = img.after r pc ++ img.before r pc := by
  unfold Image.imageLoad
  rw [if_neg r.2, foldl_instrument]
  simp only []
  rw [if_pos hpc.le, if_pos hpc]

theorem before_eq (h : (img.externalCall r pc).isSome = true → pc + 1 < r.ins.length) :
    img.before r pc = ((img.externalCall r pc).map .beforeCall).toList := by
  unfold Image.before
  cases hext : img.externalCall r pc with
  | none => rw [Option.map_none, Option.toList_none, ite_self]
  | some target =>
    rw [hext] at h
    rw [if_pos (h rfl)]

theorem length_before_le : (img.before r pc).length ≤ (img.externalCall r pc).toList.length := by
  unfold Image.before
  cases img.externalCall r pc with
  | none => simp
  | some target =>
    rw [Option.map_some]
    split_ifs
    · exact le_rfl
    · exact Nat.zero_le _

theorem after_of_behind (hpc : pc < r.ins.length) {q : Nat} (hq : pc = q + 1) :
    img.after r pc = ((img.externalCall r q).map .afterCall).toList := by
  subst hq
  rw [after_succ, if_pos hpc]

theorem after_eq_nil (h : ¬ img.BehindCall r pc) : img.after r pc = [] := by
  cases pc with
  | zero => rfl
  | succ q =>
    have hnone : img.externalCall r q = none := by
      by_contra hsome
      exact h ⟨q, rfl, Option.isSome_iff_ne_none.mpr hsome⟩
    rw [after_succ, hnone, Option.map_none, Option.toList_none, ite_self]

end

/-! ## The depth -/

/-- What a callback adds to the depth. -/
def Callback.delta : Callback → Int
  | .beforeCall _ => 1
  | .afterCall _ => -1
  | .syscallEntry => 0

section

variable {p : PinState (List PinEvent)} {calls : UInt64 → List UInt64}

theorem pdepth_callback (p : PinState (List PinEvent)) (tid : UInt64) (c : Callback) :
    (p.callback logEvent (tid, c)).pdepth tid = p.pdepth tid + c.delta := by
  cases c with
  | beforeCall fn =>
    unfold PinState.callback beforeCall
    simp only []
    split_ifs <;> exact Function.update_self ..
  | afterCall fn =>
    unfold PinState.callback afterCall
    simp only []
    split_ifs <;> exact Function.update_self ..
  | syscallEntry =>
    unfold PinState.callback syscallEntry
    simp only []
    split_ifs <;> exact (Int.add_zero _).symm

theorem pdepth_foldl (p : PinState (List PinEvent)) (tid : UInt64) (cs : List Callback) :
    (cs.foldl (fun p c => p.callback logEvent (tid, c)) p).pdepth tid =
      p.pdepth tid + (cs.map Callback.delta).sum := by
  induction cs generalizing p with
  | nil => exact (Int.add_zero _).symm
  | cons c cs ih =>
    rw [List.foldl_cons, ih, pdepth_callback, List.map_cons, List.sum_cons, Int.add_assoc]

/-- A call returns, if there is one. -/
theorem tracks_back (tid : UInt64) (h : DepthOf calls p.pdepth) {back : Option UInt64} {rest : List UInt64}
    (hcalls : calls tid = back.toList ++ rest) :
    ∃ p', (back.map Callback.afterCall).toList.foldl (fun p c => p.callback logEvent (tid, c)) p = p' ∧
      DepthOf (Function.update calls tid rest) p'.pdepth ∧
      p'.buffer = p.buffer ++ if rest = [] then (back.map (.ret tid)).toList else [] := by
  cases back with
  | none =>
    have hsame : Function.update calls tid rest = calls := by
      rw [show rest = calls tid from hcalls.symm, Function.update_eq_self]
    refine ⟨p, rfl, ?_, ?_⟩
    · rw [hsame]
      exact h
    · rw [Option.map_none, Option.toList_none, ite_self, List.append_nil]
  | some fn =>
    have hstep : openStep calls (tid, .afterCall fn) = some (Function.update calls tid rest) := by
      unfold openStep
      simp only []
      rw [hcalls]
      exact if_pos rfl
    obtain ⟨hdepth, hbuffer⟩ := callback_logEvent h hstep
    refine ⟨_, rfl, hdepth, ?_⟩
    unfold outerEvents at hbuffer
    simp only [] at hbuffer
    rw [hcalls] at hbuffer
    exact hbuffer

/-- A call is opened, if there is one. -/
theorem tracks_call (tid : UInt64) (ext : Option UInt64) (h : DepthOf calls p.pdepth) {rest : List UInt64}
    (hcalls : calls tid = rest) :
    ∃ p', (ext.map Callback.beforeCall).toList.foldl (fun p c => p.callback logEvent (tid, c)) p = p' ∧
      DepthOf (Function.update calls tid (ext.toList ++ rest)) p'.pdepth ∧
      p'.buffer = p.buffer ++ if rest = [] then (ext.map (.call tid)).toList else [] := by
  subst hcalls
  cases ext with
  | none =>
    refine ⟨p, rfl, ?_, ?_⟩
    · rw [Option.toList_none, List.nil_append, Function.update_eq_self]
      exact h
    · rw [Option.map_none, Option.toList_none, ite_self, List.append_nil]
  | some fn =>
    have hstep : openStep calls (tid, .beforeCall fn) =
      some (Function.update calls tid (fn :: calls tid)) := rfl
    obtain ⟨hdepth, hbuffer⟩ := callback_logEvent h hstep
    exact ⟨_, rfl, hdepth, hbuffer⟩

end

/-! ## One step -/

theorem isCall_of_externalCall {r : Routine} {pc : Nat} (h : (img.externalCall r pc).isSome = true) :
    r.isCall pc = true := by
  unfold Image.externalCall at h
  unfold Routine.isCall
  split at h
  · rename_i heq
    rw [heq]
  · cases h

/-- An instruction that is no call is not external. -/
theorem externalCall_eq_none {r : Routine} {pc : Nat} (h : r.isCall pc = false) :
    img.externalCall r pc = none := by
  by_contra hsome
  have := isCall_of_externalCall (Option.isSome_iff_ne_none.mpr hsome)
  rw [h] at this
  cases this

theorem isCall_of_successors {r : Routine} {pc pc' : Nat} (h : pc' ∈ r.successors pc) :
    r.isCall pc = false := by
  unfold Routine.successors at h
  unfold Routine.isCall
  split at h
  · rename_i heq
    rw [heq]
  · rename_i heq
    rw [heq]
  · cases h

theorem openCalls_code (r : { r : Routine // img.Traced r }) (pc : Nat)
    (frames : List (CallFrame img)) :
    openCalls (.code r pc :: frames) = (img.externalCall r pc).toList ++ openCalls frames := by
  have hopen : (CallFrame.code r pc).openCall = img.externalCall r pc := rfl
  unfold openCalls
  rw [List.filterMap_cons, hopen]
  cases img.externalCall r pc <;> rfl

/-- What a move does to the open calls, and where it comes from. -/
inductive MoveCases (frames : List (CallFrame img)) : Move img → Prop
  | stay (frames' : List (CallFrame img)) (h : openCalls frames' = openCalls frames) :
    MoveCases frames (.stay frames')
  | arrive (back : Option UInt64) (r : { r : Routine // img.Traced r }) (pc : Nat)
    (frames' : List (CallFrame img)) (h : openCalls frames = back.toList ++ openCalls frames')
    (hback : ∀ fn, back = some fn → ∃ q, pc = q + 1 ∧ img.externalCall r q = some fn) :
    MoveCases frames (.arrive back r pc frames')

theorem comeBack_cases {frames frames' : List (CallFrame img)}
    (h : openCalls frames' = openCalls frames) : MoveCases frames (comeBack frames') := by
  cases frames' with
  | nil => exact .stay _ h
  | cons frame frames' =>
    cases frame with
    | outside => exact .stay _ h
    | code r pc =>
      refine .arrive _ r _ _ ?_ fun fn hfn => ⟨pc, rfl, hfn⟩
      rw [← h, openCalls_code]

theorem move_cases {frames : List (CallFrame img)} {flow : Flow img} {m : Move img}
    (h : move frames flow = some m) : MoveCases frames m := by
  unfold move at h
  split at h
  · -- a jump, or the next instruction
    split_ifs at h with hsucc
    cases h
    refine .arrive _ _ _ _ ?_ fun fn hfn => nomatch hfn
    rw [openCalls_code, externalCall_eq_none (isCall_of_successors hsucc), Option.toList_none]
  · split_ifs at h
    cases h
    exact .arrive _ _ _ _ rfl fun fn hfn => nomatch hfn
  · split_ifs at h
    cases h
    exact .stay _ rfl
  · rename_i r pc frames
    split_ifs at h with hret
    cases h
    have hcall : r.1.isCall pc = false := by
      unfold Routine.isCall
      rw [hret]
    apply comeBack_cases
    rw [openCalls_code, externalCall_eq_none hcall]
    rfl
  · cases h
    exact comeBack_cases rfl
  · cases h
    exact .stay _ rfl
  · cases h

section

variable {s s' : PinRun img} {tid : UInt64} {back : Option UInt64}
  {r : { r : Routine // img.Traced r }} {pc : Nat} {frames : List (CallFrame img)}

/-- The open calls of all threads, when one of them has moved. -/
theorem openCalls_update (s : PinRun img) (tid : UInt64) (frames : List (CallFrame img)) :
    (fun t => openCalls (Function.update s.frames tid frames t)) =
      Function.update (fun t => openCalls (s.frames t)) tid (openCalls frames) := by
  funext t
  by_cases ht : t = tid
  · rw [ht, Function.update_self, Function.update_self]
  · rw [Function.update_of_ne ht, Function.update_of_ne ht]

/-- **An instruction is reached** as it should be. -/
theorem PinRun.Tracks.arrive (h : s.Tracks) (hpc : pc < r.1.ins.length)
    (hcalls : openCalls (s.frames tid) = back.toList ++ openCalls frames)
    (hafter : img.after r pc = (back.map .afterCall).toList)
    (hbefore : img.before r pc = ((img.externalCall r pc).map .beforeCall).toList)
    (htake : s.take tid (.arrive back r pc frames) = some s') : s'.Tracks := by
  unfold PinRun.take at htake
  simp only [] at htake
  rw [if_pos hpc, imageLoad_apply r hpc, hafter, hbefore, List.foldl_append] at htake
  obtain ⟨p₁, hp₁, hdepth₁, hbuffer₁⟩ := tracks_back tid h.depth hcalls
  obtain ⟨p₂, hp₂, hdepth₂, hbuffer₂⟩ := tracks_call tid (img.externalCall r pc) hdepth₁
    (Function.update_self ..)
  rw [hp₁, hp₂] at htake
  cases htake
  constructor
  · show DepthOf (fun t => openCalls (Function.update s.frames tid (.code r pc :: frames) t)) _
    rw [openCalls_update, openCalls_code]
    rw [Function.update_idem] at hdepth₂
    exact hdepth₂
  · show p₂.buffer = s.log ++ _
    rw [hbuffer₂, hbuffer₁, h.log, List.append_assoc]
    split_ifs <;> rfl

/-- The sum of what the callbacks of an instruction add. -/
theorem pdepth_arrive (hpc : pc < r.1.ins.length)
    (htake : s.take tid (.arrive back r pc frames) = some s') :
    s'.pin.pdepth tid =
      s.pin.pdepth tid - (img.after r pc).length + (img.before r pc).length := by
  have hafter : ((img.after r pc).map Callback.delta).sum = -((img.after r pc).length : Int) := by
    cases pc with
    | zero => rfl
    | succ q =>
      rw [after_succ]
      cases img.externalCall r q <;> split_ifs <;> rfl
  have hbefore : ((img.before r pc).map Callback.delta).sum = ((img.before r pc).length : Int) := by
    unfold Image.before
    cases img.externalCall r pc <;> split_ifs <;> rfl
  unfold PinRun.take at htake
  simp only [] at htake
  rw [if_pos hpc, imageLoad_apply r hpc] at htake
  cases htake
  show (List.foldl _ s.pin _).pdepth tid = _
  rw [pdepth_foldl, List.map_append, List.sum_append, hafter, hbefore]
  omega

theorem move_syscall (frames : List (CallFrame img)) : move frames .syscall = some (.stay frames) := by
  cases frames with
  | nil => rfl
  | cons frame frames => cases frame <;> rfl

theorem PinRun.Tracks.syscall (h : s.Tracks) (tid : UInt64) : (s.syscall tid).Tracks := by
  have hstep : openStep (fun t => openCalls (s.frames t)) (tid, .syscallEntry) =
    some fun t => openCalls (s.frames t) := rfl
  obtain ⟨hdepth, hbuffer⟩ := callback_logEvent h.depth hstep
  refine ⟨hdepth, ?_⟩
  show (s.pin.callback logEvent (tid, .syscallEntry)).buffer = s.log ++ _
  rw [hbuffer, h.log]
  rfl

theorem PinRun.Tracks.stay (h : s.Tracks) (hcalls : openCalls frames = openCalls (s.frames tid))
    (htake : s.take tid (.stay frames) = some s') : s'.Tracks := by
  cases htake
  refine ⟨?_, h.log⟩
  have hself : Function.update (fun t => openCalls (s.frames t)) tid (openCalls (s.frames tid)) =
    fun t => openCalls (s.frames t) := Function.update_eq_self ..
  show DepthOf (fun t => openCalls (Function.update s.frames tid frames t)) _
  rw [openCalls_update, hcalls, hself]
  exact h.depth

/-- The callbacks of an instruction are those of the call it comes back from and of the one it is, if
the depth is right. -/
theorem arrive_ok (h : s.Tracks) (hpc : pc < r.1.ins.length)
    (hcalls : openCalls (s.frames tid) = back.toList ++ openCalls frames)
    (hback : ∀ fn, back = some fn → ∃ q, pc = q + 1 ∧ img.externalCall r q = some fn)
    (htake : s.take tid (.arrive back r pc frames) = some s') (h' : s'.Tracks) :
    (img.BehindCall r pc → back.isSome = true) ∧
      ((img.externalCall r pc).isSome = true → pc + 1 < r.1.ins.length) := by
  have hframes : s'.frames tid = .code r pc :: frames := by
    unfold PinRun.take at htake
    simp only [] at htake
    rw [if_pos hpc] at htake
    cases htake
    exact Function.update_self ..
  have hs : s.pin.pdepth tid = (openCalls (s.frames tid)).length := h.depth tid
  have hdepth : s'.pin.pdepth tid = (openCalls (s'.frames tid)).length := h'.depth tid
  rw [hframes, pdepth_arrive hpc htake, hs, hcalls, openCalls_code, List.length_append,
    List.length_append] at hdepth
  have hbefore : (img.before r pc).length ≤ (img.externalCall r pc).toList.length :=
    length_before_le
  constructor
  · rintro ⟨q, hq, hsome⟩
    by_contra hnone
    rw [Option.not_isSome_iff_eq_none] at hnone
    obtain ⟨fn, hfn⟩ := Option.isSome_iff_exists.mp hsome
    rw [after_of_behind hpc hq, hfn, hnone] at hdepth
    simp at hdepth
    omega
  · intro hsome
    by_contra hlast
    obtain ⟨fn, hfn⟩ := Option.isSome_iff_exists.mp hsome
    have hnil : img.before r pc = [] := if_neg hlast
    rw [hnil, hfn] at hdepth
    cases back with
    | none =>
      simp at hdepth
      omega
    | some fn' =>
      obtain ⟨q, hq, hq'⟩ := hback fn' rfl
      rw [after_of_behind hpc hq, hq'] at hdepth
      simp at hdepth

/-- **One step** keeps the property exactly if an instruction behind an external call is reached by
the return of the call. -/
theorem step_tracks_iff {a : UInt64 × Flow img} (h : s.Tracks) (hstep : s.step a = some s') :
    s'.Tracks ↔ s.StepOk a := by
  obtain ⟨tid, flow⟩ := a
  by_cases hsys : flow = .syscall
  · subst hsys
    cases hstep
    refine ⟨fun _ back r pc frames hmove => ?_, fun _ => h.syscall tid⟩
    rw [move_syscall] at hmove
    cases hmove
  · have hbind : (move (s.frames tid) flow).bind (s.take tid) = some s' := by
      cases flow with
      | syscall => exact absurd rfl hsys
      | _ => exact hstep
    obtain ⟨m, hmove, htake⟩ := Option.bind_eq_some_iff.mp hbind
    cases move_cases hmove with
    | stay frames hcalls =>
      refine ⟨fun _ back r pc frames' hmove' => ?_, fun _ => h.stay hcalls htake⟩
      cases hmove.symm.trans hmove'
    | arrive back r pc frames hcalls hback =>
      have hpc : pc < r.1.ins.length := by
        by_contra hout
        unfold PinRun.take at htake
        simp only [] at htake
        rw [if_neg hout] at htake
        cases htake
      constructor
      · intro h' back' r' pc' frames' hmove'
        cases hmove.symm.trans hmove'
        exact arrive_ok h hpc hcalls hback htake h'
      · intro hok
        obtain ⟨hbehind, hnext⟩ := hok back r pc frames hmove
        apply h.arrive hpc hcalls ?_ (before_eq hnext) htake
        cases back with
        | none => exact after_eq_nil fun hno => nomatch hbehind hno
        | some fn =>
          obtain ⟨q, hq, hfn⟩ := hback fn rfl
          rw [after_of_behind hpc hq, hfn]

end

/-- **The depth is the number of open external calls**, in every state of a run, if and only if every
instruction behind an external call is reached by the return of that call. -/
theorem pdepth_tracks_iff {actions : List (UInt64 × Flow img)}
    (hrun : (run PinRun.step {} actions).isSome = true) :
    (∀ pre s, pre <+: actions → run PinRun.step {} pre = some s → s.Tracks) ↔
      RunOk PinRun.step PinRun.StepOk {} actions := by
  have hinit : PinRun.Tracks ({} : PinRun img) := ⟨fun _ => rfl, rfl⟩
  obtain ⟨t, ht⟩ := Option.isSome_iff_exists.mp hrun
  exact (runOk_iff (fun s a s' h hstep => step_tracks_iff h hstep) hinit ht).symm

end

/-! ## A loop behind a call -/

def loopImage : Image where
  symbols := fun _ => ""
  instrumentedFun := ["f"]

/-- `g(); do { } while (..);`, the loop begins behind the call. -/
def loopRoutine : { r : Routine // loopImage.Traced r } :=
  ⟨{ name := "f", ins := [.directCall 4096, .other, .jump [1, 3], .ret] }, by decide⟩

/-- A turn of the loop. -/
def loopTurn : List (UInt64 × Flow loopImage) :=
  [(7, .enter loopRoutine), (7, .leave), (7, .ret), (7, .goto 2), (7, .goto 3), (7, .ret)]

theorem pdepth_tracks_iff_turn :
    (∀ pre s, pre <+: loopTurn → run PinRun.step {} pre = some s → s.Tracks) ↔
      RunOk PinRun.step PinRun.StepOk {} loopTurn :=
  pdepth_tracks_iff (by decide +kernel)

/-- When the loop is entered again, the depth is -1. -/
theorem loop_pdepth :
    ¬ ∀ (img : Image) (actions : List (UInt64 × Flow img)) (s : PinRun img),
      run PinRun.step {} actions = some s → s.Tracks := by
  intro h
  have hdepth : (run PinRun.step {} [((7 : UInt64), .enter loopRoutine), (7, .leave), (7, .ret),
      (7, .goto 2), (7, .goto 1)]).map
        (fun s => (s.pin.pdepth 7, (openCalls (s.frames 7)).length)) = some (-1, 0) := by
    decide +kernel
  obtain ⟨s, hs, hpair⟩ := Option.map_eq_some_iff.mp hdepth
  obtain ⟨hneg, hzero⟩ := Prod.mk.inj hpair
  have hcount : s.pin.pdepth 7 = (openCalls (s.frames 7)).length := (h _ _ s hs).depth 7
  rw [hneg, hzero] at hcount
  cases hcount

end Slimmer
