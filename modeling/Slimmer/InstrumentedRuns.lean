import Slimmer.Instrument
import Slimmer.Lib.Runs

/-!
# The instrumented program runs like the original one

Both are run by one machine: each thread has a stack of frames, each frame the code that is left of
its basic block, and the threads interleave in any order. What an instruction does is a parameter
(`Semantics`): any state, any result of a branch, any callee of a call through a pointer. A call of a
function that is not instrumented stays in front of its frame until it is done, and may call
instrumented functions back; a frame is left by its return only. A thread may enter any instrumented
function when it has no frame.

A record call changes nothing but the trace, but it may read the memory of the program to see whether a
write is inefficacious (`Call.Reads`), and then the program cannot go on when that memory cannot be read.

**Theorem (`instrument_transparent`).** What the instrumented program reaches, the original one reaches:
a world, with a stack and a history of executed instructions for each thread. And what the original
program reaches, the instrumented one reaches, if the record calls in front of each instruction can read
what they read (`RecordsReadable`).

From the instrumented program to the original one a record call is no step. In the other direction
the record calls in front of an instruction are run first (`Steps.flush`); those that read memory stand
right in front of their own instruction (`RecordsPlaced`).
-/

namespace Slimmer

/-! ## The machine -/

/-- What the instructions do. The frames' registers are part of the state `σ`. -/
structure Semantics (σ : Type*) where
  /-- The value of an operand that is not constant, for the top frame of a thread. -/
  eval : σ → UInt64 → IRValue → UInt64
  /-- The memory. -/
  mem : σ → UInt64 → UInt8
  /-- A read of this address does not fault. -/
  readable : σ → UInt64 → Prop
  /-- An instruction after which the next one follows. -/
  run : σ → UInt64 → IRInst → σ → Prop
  /-- A terminator goes to a basic block. -/
  branch : σ → UInt64 → IRInst → Nat → σ → Prop
  /-- A call enters a function. -/
  enter : σ → UInt64 → IRInst → String → σ → Prop
  /-- A function that is not instrumented calls a function back. -/
  callback : σ → UInt64 → IRInst → String → σ → Prop
  /-- A return. -/
  leave : σ → UInt64 → IRInst → σ → Prop
  /-- A thread without frames enters a function. -/
  spawn : σ → UInt64 → String → σ → Prop

def Semantics.value {σ : Type*} (S : Semantics σ) (w : σ) (t : UInt64) (v : IRValue) : UInt64 :=
  match v.kind with
  | .constant c => c
  | _ => S.eval w t v

/-- The code of a program: where a function begins, and its basic blocks. -/
structure CodeModule where
  entry : String → Option (List Code)
  block : Nat → Option (List Code)

/-- The next instruction is behind this one. -/
def IROp.Runs (C : CodeModule) : IROp → Prop
  | .ret _ | .terminator _ _ => False
  | .call (.function name) _ _ => C.entry name = none
  | _ => True

/-- The instruction calls the function `name`; a call through a pointer may call any. -/
def IROp.Calls (name : String) : IROp → Prop
  | .call (.function f) _ _ => f = name
  | .call .unknown _ _ => True
  | _ => False

/-- The instruction calls a function that is not instrumented; a call through a pointer may. -/
def IROp.Leaves (C : CodeModule) : IROp → Prop
  | .call (.function f) _ _ => C.entry f = none
  | .call .unknown _ _ => True
  | _ => False

/-- The record function reads the address `a` of the program. `recordMemset` stops at the first byte
that changes, `memcmp` may read all of both ranges. -/
def Call.Reads (mem : UInt64 → UInt8) (a : UInt64) : Call → Prop
  | .store _ addr _ value => value ≠ 0 ∧ ∃ i < 8, a = addr + UInt64.ofNat i
  | .memset _ addr length value => ∃ i < length.toNat, a = addr + UInt64.ofNat i ∧
      ∀ j < i, mem (addr + UInt64.ofNat j) = value
  | .memmove _ dest src length => ∃ i < length.toNat,
      a = dest + UInt64.ofNat i ∨ a = src + UInt64.ofNat i
  | _ => False

/-- The record call can read what it reads. -/
def RecordCall.Readable {σ : Type*} (S : Semantics σ) (w : σ) (t : UInt64) (r : RecordCall) : Prop :=
  ∀ a, (r.call (S.value w t)).Reads (S.mem w) a → S.readable w a

/-- A step of thread `t` from one world and stack to another, with the record calls it makes and the
instructions it executes. -/
inductive CodeStep {σ : Type*} (C : CodeModule) (S : Semantics σ) (t : UInt64) :
    σ → List (List Code) → List RecordCall → List IRInst → σ → List (List Code) → Prop
  | spawn {w w' name c} (h : C.entry name = some c) (hw : S.spawn w t name w') :
      CodeStep C S t w [] [] [] w' [c]
  | record {w r c rest} (h : r.Readable S w t) :
      CodeStep C S t w ((.record r :: c) :: rest) [r] [] w (c :: rest)
  | run {w w' i c rest} (h : i.op.Runs C) (hw : S.run w t i w') :
      CodeStep C S t w ((.inst i :: c) :: rest) [] [i] w' (c :: rest)
  | branch {w w' i operands successors b c c' rest} (h : i.op = .terminator operands successors)
      (hb : b ∈ successors) (hc : C.block b = some c') (hw : S.branch w t i b w') :
      CodeStep C S t w ((.inst i :: c) :: rest) [] [i] w' (c' :: rest)
  | enter {w w' i name c c' rest} (h : i.op.Calls name) (hc : C.entry name = some c')
      (hw : S.enter w t i name w') :
      CodeStep C S t w ((.inst i :: c) :: rest) [] [i] w' (c' :: c :: rest)
  | callback {w w' i name c c' rest} (h : i.op.Leaves C) (hc : C.entry name = some c')
      (hw : S.callback w t i name w') :
      CodeStep C S t w ((.inst i :: c) :: rest) [] [] w' (c' :: (.inst i :: c) :: rest)
  | leave {w w' i v c rest} (h : i.op = .ret v) (hw : S.leave w t i w') :
      CodeStep C S t w ((.inst i :: c) :: rest) [] [i] w' rest

/-- The world, the frames of every thread, the instructions it has executed, and the calls of the
record functions. -/
structure RunState (σ : Type*) where
  world : σ
  frames : UInt64 → List (List Code) := fun _ => []
  executed : UInt64 → List IRInst := fun _ => []
  calls : List Invocation := []

/-- The state after a step of thread `t`. -/
def RunState.moved {σ : Type*} (s : RunState σ) (S : Semantics σ) (t : UInt64)
    (rs : List RecordCall) (is : List IRInst) (w : σ) (stk : List (List Code)) : RunState σ where
  world := w
  frames := Function.update s.frames t stk
  executed := Function.update s.executed t (s.executed t ++ is)
  calls := s.calls ++ rs.map fun r => ⟨t, S.mem s.world, r.call (S.value s.world t)⟩

/-- A step of any thread; the id of a thread is not 0. -/
inductive Steps {σ : Type*} (C : CodeModule) (S : Semantics σ) : RunState σ → RunState σ → Prop
  | step {s t rs is w stk} (ht : t ≠ 0)
      (h : CodeStep C S t s.world (s.frames t) rs is w stk) : Steps C S s (s.moved S t rs is w stk)

/-- The states a program reaches from a world. -/
def RunsTo {σ : Type*} (C : CodeModule) (S : Semantics σ) (w₀ : σ) : RunState σ → Prop :=
  Relation.ReflTransGen (Steps C S) { world := w₀ }

/-! ## The two programs -/

/-- The code of a module, given that of its basic blocks. -/
def IRModule.code (M : IRModule) (blockCode : IRBlock → List Code) : CodeModule where
  entry name := (M.traced.find? fun f => f.name = name).bind fun f =>
    f.blocks.head?.map blockCode
  block ref := (M.blocks.find? fun b => b.ref = ref).map blockCode

def plainCode (b : IRBlock) : List Code := b.insts.map .inst

def IRModule.original (M : IRModule) : CodeModule := M.code plainCode

/-- A module without `main` is left alone. -/
def IRModule.instrumented (M : IRModule) : CodeModule :=
  M.code (if M.mainEntry.isSome then M.blockCode else plainCode)

/-- The instructions of a piece of code. -/
def erase (c : List Code) : List IRInst :=
  c.filterMap fun x => match x with
    | .inst i => some i
    | .record _ => none

/-- In every state the original program reaches, the record calls in front of the next instruction of a
thread can read what they read. -/
def IRModule.RecordsReadable {σ : Type*} (M : IRModule) (S : Semantics σ) (w₀ : σ) : Prop :=
  ∀ s, RunsTo M.original S w₀ s → ∀ t i c rest, s.frames t = (.inst i :: c) :: rest →
    ∀ r ∈ M.before i, r.Readable S s.world t

/-- What is not of the instrumentation. -/
structure Observation (σ : Type*) where
  world : σ
  frames : UInt64 → List (List IRInst)
  executed : UInt64 → List IRInst

def RunState.observe {σ : Type*} (s : RunState σ) : Observation σ :=
  ⟨s.world, fun t => (s.frames t).map erase, s.executed⟩

/-! ## Erasing -/

section

variable {M : IRModule}

@[simp] theorem erase_nil : erase [] = [] := rfl

@[simp] theorem erase_inst (i : IRInst) (c : List Code) : erase (.inst i :: c) = i :: erase c := rfl

@[simp] theorem erase_record (r : RecordCall) (c : List Code) : erase (.record r :: c) = erase c := rfl

@[simp] theorem erase_append (c c' : List Code) : erase (c ++ c') = erase c ++ erase c' :=
  List.filterMap_append

@[simp] theorem erase_records (rs : List RecordCall) : erase (rs.map .record) = [] := by
  induction rs with
  | nil => rfl
  | cons r rs ih => rw [List.map_cons, erase_record, ih]

@[simp] theorem erase_insts (is : List IRInst) : erase (is.map .inst) = is := by
  induction is with
  | nil => rfl
  | cons i is ih => rw [List.map_cons, erase_inst, ih]

theorem erase_around (is : List IRInst) : erase (is.flatMap M.around) = is := by
  induction is with
  | nil => rfl
  | cons i is ih => simp [IRModule.around, ih]

/-- The pass leaves the instructions of a block alone. -/
@[simp] theorem erase_blockCode (b : IRBlock) : erase (M.blockCode b) = b.insts := by
  have hdeclares : erase (if M.mainEntry = some b.ref then M.declares.map .record else []) = [] := by
    split_ifs
    · exact erase_records _
    · rfl
  rw [IRModule.blockCode, erase_append, hdeclares, IRModule.instrumentBlock, erase_append,
    erase_record, erase_around, erase_around, List.nil_append, List.take_append_drop]

/-- The plain code of a piece of instrumented code. -/
def plain (c : List Code) : List Code := (erase c).map .inst

theorem plain_code {blockCode : IRBlock → List Code} (h : ∀ b, erase (blockCode b) = b.insts) :
    (∀ name, ((M.code blockCode).entry name).map plain = M.original.entry name) ∧
      ∀ ref, ((M.code blockCode).block ref).map plain = M.original.block ref := by
  have hplain : (fun b => plain (blockCode b)) = plainCode := by
    funext b
    rw [plain, h, plainCode]
  constructor
  · intro name
    simp only [IRModule.code, IRModule.original, Option.map_bind]
    congr 1
    funext f
    simp only [Function.comp_apply, Option.map_map]
    exact congrArg (fun g => f.blocks.head?.map g) hplain
  · intro ref
    simp only [IRModule.code, IRModule.original, Option.map_map]
    exact congrArg (fun g => (M.blocks.find? fun b => b.ref = ref).map g) hplain

/-- The instrumented program without its record calls. -/
theorem plain_instrumented :
    (∀ name, (M.instrumented.entry name).map plain = M.original.entry name) ∧
      ∀ ref, (M.instrumented.block ref).map plain = M.original.block ref := by
  unfold IRModule.instrumented
  split_ifs
  · exact plain_code erase_blockCode
  · exact plain_code fun b => by rw [plainCode, erase_insts]

theorem entry_eq_none_iff (name : String) :
    M.instrumented.entry name = none ↔ M.original.entry name = none := by
  rw [← plain_instrumented.1, Option.map_eq_none_iff]

theorem runs_iff (op : IROp) : op.Runs M.instrumented ↔ op.Runs M.original := by
  cases op with
  | call callee args fn =>
    cases callee with
    | function name => exact entry_eq_none_iff name
    | _ => exact Iff.rfl
  | _ => exact Iff.rfl

theorem leaves_iff (op : IROp) : op.Leaves M.instrumented ↔ op.Leaves M.original := by
  cases op with
  | call callee args fn =>
    cases callee with
    | function name => exact entry_eq_none_iff name
    | _ => exact Iff.rfl
  | _ => exact Iff.rfl

/-! ## Where record calls stand -/

/-- The record call reads no memory of the program. -/
def RecordCall.Quiet (r : RecordCall) : Prop :=
  ∀ (mem : UInt64 → UInt8) (eval : IRValue → UInt64) (a : UInt64), ¬ (r.call eval).Reads mem a

/-- Every record call that reads memory stands in front of its own instruction. -/
def RecordsPlaced (M : IRModule) : List Code → Prop
  | [] => True
  | .inst _ :: c => RecordsPlaced M c
  | .record r :: c => (r.Quiet ∨ ∃ i l, erase c = i :: l ∧ r ∈ M.before i) ∧ RecordsPlaced M c

/-- What is recorded behind an instruction reads no memory. -/
theorem quiet_after {i : IRInst} {r : RecordCall} (hr : r ∈ M.after i) : r.Quiet := by
  obtain ⟨id, -, hr⟩ : ∃ id, M.insID i.ref = some id ∧ r ∈ recordsAfter id i := by
    unfold IRModule.after at hr
    cases hid : M.insID i.ref with
    | none => rw [hid] at hr; cases hr
    | some id => rw [hid] at hr; exact ⟨id, rfl, hr⟩
  have hmemory : (∃ addr length, r = .memory id addr length) ∨
      ∃ addr num length, r = .calloc id addr num length := by
    unfold recordsAfter at hr
    split at hr
    all_goals (try split_ifs at hr) <;> (try split at hr) <;> simp_all
  rcases hmemory with ⟨addr, length, rfl⟩ | ⟨addr, num, length, rfl⟩ <;> exact fun _ _ _ h => h

theorem placed_quiet {rs : List RecordCall} {c : List Code} (hrs : ∀ r ∈ rs, r.Quiet)
    (hc : RecordsPlaced M c) : RecordsPlaced M (rs.map .record ++ c) := by
  induction rs with
  | nil => exact hc
  | cons r rs ih =>
    exact ⟨Or.inl (hrs r List.mem_cons_self), ih fun r' hr' => hrs r' (List.mem_cons_of_mem _ hr')⟩

/-- An instruction with what is inserted around it. -/
theorem placed_around (i : IRInst) {c : List Code} (hc : RecordsPlaced M c) : RecordsPlaced M (M.around i ++ c) := by
  have hbefore : ∀ rs : List RecordCall, (∀ r ∈ rs, r ∈ M.before i) →
      RecordsPlaced M (rs.map .record ++ .inst i :: ((M.after i).map .record ++ c)) := by
    intro rs hrs
    induction rs with
    | nil =>
      show RecordsPlaced M ((M.after i).map .record ++ c)
      exact placed_quiet (fun r hr => quiet_after hr) hc
    | cons r rs ih =>
      refine ⟨Or.inr ⟨i, erase c, ?_, hrs r List.mem_cons_self⟩,
        ih fun r' hr' => hrs r' (List.mem_cons_of_mem _ hr')⟩
      simp
  have h := hbefore (M.before i) fun r hr => hr
  rw [IRModule.around, List.append_assoc, List.cons_append]
  exact h

theorem placed_arounds (is : List IRInst) {c : List Code} (hc : RecordsPlaced M c) :
    RecordsPlaced M (is.flatMap M.around ++ c) := by
  induction is with
  | nil => exact hc
  | cons i is ih =>
    rw [List.flatMap_cons, List.append_assoc]
    exact placed_around i ih

/-- The pass places its calls so. -/
theorem placed_blockCode (b : IRBlock) : RecordsPlaced M (M.blockCode b) := by
  unfold IRModule.blockCode IRModule.instrumentBlock
  have hrest := placed_arounds (M := M) (b.insts.drop b.firstInsertionPt) (c := []) trivial
  rw [List.append_nil] at hrest
  have hblock := placed_arounds (M := M) (b.insts.take b.firstInsertionPt)
    (c := .record (.basicBlock ((M.bbID b.ref).getD 0)) ::
      (b.insts.drop b.firstInsertionPt).flatMap M.around) ⟨Or.inl fun _ _ _ h => h, hrest⟩
  split_ifs
  · refine placed_quiet (fun r hr => ?_) hblock
    obtain ⟨g, -, rfl⟩ := List.mem_map.mp (List.mem_reverse.mp hr)
    exact fun _ _ _ h => h
  · exact hblock

theorem placed_plainCode (b : IRBlock) : RecordsPlaced M (plainCode b) := by
  have hinsts : ∀ is : List IRInst, RecordsPlaced M (is.map .inst) := by
    intro is
    induction is with
    | nil => trivial
    | cons i is ih => exact ih
  exact hinsts b.insts

theorem placed_instrumented {c : List Code} :
    (∀ name, M.instrumented.entry name = some c → RecordsPlaced M c) ∧
      ∀ ref, M.instrumented.block ref = some c → RecordsPlaced M c := by
  have hcode : ∀ b, RecordsPlaced M ((if M.mainEntry.isSome then M.blockCode else plainCode) b) := by
    intro b
    split_ifs
    · exact placed_blockCode b
    · exact placed_plainCode b
  constructor
  · intro name h
    obtain ⟨f, -, h⟩ := Option.bind_eq_some_iff.mp h
    obtain ⟨b, -, rfl⟩ := Option.map_eq_some_iff.mp h
    exact hcode b
  · intro ref h
    obtain ⟨b, -, rfl⟩ := Option.map_eq_some_iff.mp h
    exact hcode b

/-! ## Both directions -/

variable {σ : Type*} {S : Semantics σ} {s s' s₁ : RunState σ} {t : UInt64}

/-- The original program at the place of the instrumented one. -/
structure Plain (s s' : RunState σ) : Prop where
  world : s'.world = s.world
  frames : ∀ t, s'.frames t = (s.frames t).map plain
  executed : s'.executed = s.executed

theorem plain_plain (c : List Code) : erase (plain c) = erase c := erase_insts _

theorem Plain.observe (h : Plain s s') : s'.observe = s.observe := by
  unfold RunState.observe
  rw [h.world, h.executed]
  congr 1
  funext t
  rw [h.frames, List.map_map]
  exact List.map_congr_left fun c _ => plain_plain c

/-- A step of both, to related frames. -/
theorem Plain.moved (h : Plain s s') {rs rs' : List RecordCall} {is : List IRInst} {w : σ}
    {stk stk' : List (List Code)} (hstk : stk' = stk.map plain) :
    Plain (s.moved S t rs is w stk) (s'.moved S t rs' is w stk') := by
  refine ⟨rfl, fun u => ?_, by simp only [RunState.moved, h.executed]⟩
  simp only [RunState.moved, hstk, Function.update_apply]
  split_ifs
  · rfl
  · exact h.frames u

/-- **A record call is no step of the original program**, and any other step is its step. -/
theorem Plain.step (h : Plain s s') (hstep : Steps M.instrumented S s s₁) :
    ∃ s₁', Relation.ReflTransGen (Steps M.original S) s' s₁' ∧ Plain s₁ s₁' := by
  cases hstep with
  | @step t rs is w stk ht hstep =>
    have hstk := h.frames t
    generalize hold : s.frames t = old at hstep hstk
    -- a step of the original program from the plain stack
    have hone : ∀ {stk'}, CodeStep M.original S t s'.world (s'.frames t) [] is w stk' →
        stk' = stk.map plain → ∃ s₁', Relation.ReflTransGen (Steps M.original S) s' s₁' ∧
          Plain (s.moved S t rs is w stk) s₁' :=
      fun hs hstk' => ⟨_, .single (.step ht hs), h.moved hstk'⟩
    rw [hstk, h.world] at hone
    cases hstep with
    | spawn hc hw =>
      have hc' := congrArg (Option.map plain) hc
      rw [plain_instrumented.1] at hc'
      exact hone (.spawn hc' hw) rfl
    | @record r c rest _ =>
      refine ⟨s', .refl, ⟨h.world, fun u => ?_, ?_⟩⟩
      · simp only [RunState.moved, Function.update_apply]
        split_ifs with hu
        · rw [hu, hstk]
          rfl
        · exact h.frames u
      · rw [h.executed]
        simp [RunState.moved]
    | run hr hw => exact hone (.run ((runs_iff _).mp hr) hw) rfl
    | branch hop hb hc hw =>
      have hc' := congrArg (Option.map plain) hc
      rw [plain_instrumented.2] at hc'
      exact hone (.branch hop hb hc' hw) rfl
    | enter hcall hc hw =>
      have hc' := congrArg (Option.map plain) hc
      rw [plain_instrumented.1] at hc'
      exact hone (.enter hcall hc' hw) rfl
    | callback hleaves hc hw =>
      have hc' := congrArg (Option.map plain) hc
      rw [plain_instrumented.1] at hc'
      exact hone (.callback ((leaves_iff _).mp hleaves) hc' hw) rfl
    | leave hop hw => exact hone (.leave hop hw) rfl

/-- The code of all frames is placed. -/
def RunState.RecordsPlaced (M : IRModule) (s : RunState σ) : Prop :=
  ∀ t, ∀ c ∈ s.frames t, Slimmer.RecordsPlaced M c

theorem RunState.RecordsPlaced.moved (h : s.RecordsPlaced M) {rs : List RecordCall} {is : List IRInst} {w : σ}
    {stk : List (List Code)} (hstk : ∀ c ∈ stk, Slimmer.RecordsPlaced M c) :
    (s.moved S t rs is w stk).RecordsPlaced M := by
  intro u
  simp only [RunState.moved, Function.update_apply]
  split_ifs
  · exact hstk
  · exact h u

/-- **The record calls in front of an instruction** can be run. -/
theorem Steps.flush (ht : t ≠ 0) {i : IRInst} {l : List IRInst} {rest : List (List Code)}
    (hread : ∀ r ∈ M.before i, r.Readable S s'.world t) :
    ∀ {c : List Code} {s : RunState σ}, Plain s s' → s.RecordsPlaced M → s.frames t = c :: rest →
      erase c = i :: l →
      ∃ s₁ c', Relation.ReflTransGen (Steps M.instrumented S) s s₁ ∧ Plain s₁ s' ∧ s₁.RecordsPlaced M ∧
        s₁.frames t = (.inst i :: c') :: rest ∧ erase c' = l
  | [], s, _, _, _, hc => by cases hc
  | .inst j :: c, s, h, hp, hstk, hc => by
    obtain ⟨rfl, hl⟩ := List.cons.inj hc
    exact ⟨s, c, .refl, h, hp, hstk, hl⟩
  | .record r :: c, s, h, hp, hstk, hc => by
    have hplaced := hp t
    rw [hstk, List.forall_mem_cons] at hplaced
    have hr : r.Readable S s.world t := by
      rcases hplaced.1.1 with hquiet | ⟨j, l', hj, hbefore⟩
      · exact fun a ha => absurd ha (hquiet _ _ a)
      · -- it stands in front of `i`
        obtain ⟨rfl, -⟩ := List.cons.inj (hj.symm.trans hc)
        rw [← h.world]
        exact hread r hbefore
    have hstep : Steps M.instrumented S s (s.moved S t [r] [] s.world (c :: rest)) :=
      .step ht (by rw [hstk]; exact .record hr)
    have hmoved : Plain (s.moved S t [r] [] s.world (c :: rest)) s' := by
      refine ⟨h.world, fun u => ?_, ?_⟩
      · simp only [RunState.moved, Function.update_apply]
        split_ifs with hu
        · rw [hu, h.frames, hstk]
          rfl
        · exact h.frames u
      · rw [h.executed]
        simp [RunState.moved]
    have hp' : (s.moved S t [r] [] s.world (c :: rest)).RecordsPlaced M :=
      hp.moved (List.forall_mem_cons.mpr ⟨hplaced.1.2, hplaced.2⟩)
    have hnext : (s.moved S t [r] [] s.world (c :: rest)).frames t = c :: rest :=
      Function.update_self _ _ _
    obtain ⟨s₁, c', hrun, h₁, hp₁, hstk₁, hc'⟩ := Steps.flush ht hread hmoved hp' hnext hc
    exact ⟨s₁, c', .head hstep hrun, h₁, hp₁, hstk₁, hc'⟩

/-- Every step of the original program is one of the instrumented one, after record calls. -/
theorem Plain.step_back (h : Plain s s') (hp : s.RecordsPlaced M) {s₁' : RunState σ}
    (hread : ∀ t i c rest, s'.frames t = (.inst i :: c) :: rest →
      ∀ r ∈ M.before i, r.Readable S s'.world t)
    (hstep : Steps M.original S s' s₁') :
    ∃ s₁, Relation.ReflTransGen (Steps M.instrumented S) s s₁ ∧ Plain s₁ s₁' ∧ s₁.RecordsPlaced M := by
  cases hstep with
  | @step t rs is w stk' ht hstep =>
    have hstk := h.frames t
    have hread := hread t
    generalize hold : s'.frames t = old at hstep hstk hread
    have hworld := h.world
    -- with the record calls run, the same instruction is next
    have hnext : ∀ {i : IRInst} {c : List Code} {rest : List (List Code)},
        old = (.inst i :: c) :: rest → ∃ s₁ c' rest',
          Relation.ReflTransGen (Steps M.instrumented S) s s₁ ∧ Plain s₁ s' ∧ s₁.RecordsPlaced M ∧
            s₁.frames t = (.inst i :: c') :: rest' ∧ plain c' = c ∧ rest'.map plain = rest ∧
              ∀ d ∈ c' :: rest', Slimmer.RecordsPlaced M d := by
      intro i c rest hnext
      have hread := hread i c rest hnext
      rw [hnext] at hstk
      cases hs : s.frames t with
      | nil => rw [hs] at hstk; cases hstk
      | cons d rest' =>
        rw [hs] at hstk
        obtain ⟨hd, hrest⟩ := List.cons.inj hstk
        cases he : erase d with
        | nil => rw [plain, he] at hd; cases hd
        | cons j l =>
          rw [plain, he] at hd
          obtain ⟨hj, hl⟩ := List.cons.inj hd
          cases hj
          obtain ⟨s₁, c', hrun, h₁, hp₁, hstk₁, hc'⟩ := Steps.flush ht hread h hp hs he
          refine ⟨s₁, c', rest', hrun, h₁, hp₁, hstk₁, by rw [plain, hc', hl], hrest.symm, ?_⟩
          have hall := hp₁ t
          rw [hstk₁, List.forall_mem_cons] at hall
          exact List.forall_mem_cons.mpr ⟨hall.1, hall.2⟩
    cases hstep with
    | @spawn _ name c hc hw =>
      rw [← plain_instrumented.1, Option.map_eq_some_iff] at hc
      obtain ⟨c', hc', rfl⟩ := hc
      have hs : s.frames t = [] := List.map_eq_nil_iff.mp hstk.symm
      rw [hworld] at hw
      exact ⟨_, .single (.step ht (by rw [hs]; exact .spawn hc' hw)), h.moved rfl,
        hp.moved (List.forall_mem_singleton.mpr (placed_instrumented.1 _ hc'))⟩
    | @record r c rest _ =>
      -- the original program calls no record function
      cases hs : s.frames t with
      | nil => rw [hs] at hstk; cases hstk
      | cons d rest' =>
        rw [hs] at hstk
        have hd := (List.cons.inj hstk).1
        unfold plain at hd
        cases he : erase d with
        | nil => rw [he] at hd; cases hd
        | cons j l => rw [he] at hd; cases hd
    | run hr hw =>
      obtain ⟨s₁, c', rest', hrun, h₁, hp₁, hs, hc, hrest, hall⟩ := hnext rfl
      rw [h₁.world] at hw
      refine ⟨_, hrun.tail (.step ht (by rw [hs]; exact .run ((runs_iff _).mpr hr) hw)), h₁.moved ?_,
        hp₁.moved hall⟩
      rw [List.map_cons, hc, hrest]
    | branch hop hb hc hw =>
      obtain ⟨s₁, c', rest', hrun, h₁, hp₁, hs, -, hrest, hall⟩ := hnext rfl
      rw [← plain_instrumented.2, Option.map_eq_some_iff] at hc
      obtain ⟨d, hd, rfl⟩ := hc
      rw [h₁.world] at hw
      refine ⟨_, hrun.tail (.step ht (by rw [hs]; exact .branch hop hb hd hw)), h₁.moved ?_,
        hp₁.moved (List.forall_mem_cons.mpr ⟨placed_instrumented.2 _ hd,
          (List.forall_mem_cons.mp hall).2⟩)⟩
      rw [List.map_cons, hrest]
    | enter hcall hc hw =>
      obtain ⟨s₁, c', rest', hrun, h₁, hp₁, hs, hc', hrest, hall⟩ := hnext rfl
      rw [← plain_instrumented.1, Option.map_eq_some_iff] at hc
      obtain ⟨d, hd, rfl⟩ := hc
      rw [h₁.world] at hw
      refine ⟨_, hrun.tail (.step ht (by rw [hs]; exact .enter hcall hd hw)), h₁.moved ?_,
        hp₁.moved (List.forall_mem_cons.mpr ⟨placed_instrumented.1 _ hd, hall⟩)⟩
      rw [List.map_cons, List.map_cons, hc', hrest]
    | @callback _ i name c _ rest hleaves hc hw =>
      obtain ⟨s₁, c', rest', hrun, h₁, hp₁, hs, hc', hrest, hall⟩ := hnext rfl
      rw [← plain_instrumented.1, Option.map_eq_some_iff] at hc
      obtain ⟨d, hd, rfl⟩ := hc
      rw [h₁.world] at hw
      have hback : CodeStep M.instrumented S t s₁.world (s₁.frames t) [] [] w
          (d :: (.inst i :: c') :: rest') := by
        rw [hs]
        exact .callback ((leaves_iff _).mpr hleaves) hd hw
      obtain ⟨hplaced, hrest'⟩ := List.forall_mem_cons.mp hall
      have hframes : ∀ x ∈ d :: (.inst i :: c') :: rest', Slimmer.RecordsPlaced M x :=
        List.forall_mem_cons.mpr ⟨placed_instrumented.1 _ hd,
          List.forall_mem_cons.mpr ⟨hplaced, hrest'⟩⟩
      refine ⟨_, hrun.tail (.step ht hback), h₁.moved ?_, hp₁.moved hframes⟩
      rw [List.map_cons, List.map_cons, hrest, ← hc']
      rfl
    | leave hop hw =>
      obtain ⟨s₁, c', rest', hrun, h₁, hp₁, hs, -, hrest, hall⟩ := hnext rfl
      rw [h₁.world] at hw
      exact ⟨_, hrun.tail (.step ht (by rw [hs]; exact .leave hop hw)), h₁.moved hrest.symm,
        hp₁.moved (List.forall_mem_cons.mp hall).2⟩

/-- **The instrumented program runs like the original one.** Whatever the instructions do, and in
every interleaving: what the instrumented program reaches, the original one reaches, with the same world,
the same code left in every frame and the same instructions executed by every thread; and conversely, when
the record calls can read what they read. -/
theorem instrument_transparent (M : IRModule) (S : Semantics σ) (w₀ : σ) (o : Observation σ) :
    ((∃ s, RunsTo M.instrumented S w₀ s ∧ s.observe = o) →
      ∃ s, RunsTo M.original S w₀ s ∧ s.observe = o) ∧
    (M.RecordsReadable S w₀ → (∃ s, RunsTo M.original S w₀ s ∧ s.observe = o) →
      ∃ s, RunsTo M.instrumented S w₀ s ∧ s.observe = o) := by
  have hinit : Plain ({ world := w₀ } : RunState σ) { world := w₀ } := ⟨rfl, fun _ => rfl, rfl⟩
  constructor
  · rintro ⟨s, hrun, rfl⟩
    obtain ⟨s', hrun', h⟩ := reflTransGen_simulates (r := Steps M.instrumented S)
      (fun _ _ _ h hs => Plain.step h hs) hinit hrun
    exact ⟨s', hrun', h.observe⟩
  · rintro hread ⟨s, hrun, rfl⟩
    have hstart : RunsTo M.original S w₀ { world := w₀ } ∧
        Plain ({ world := w₀ } : RunState σ) { world := w₀ } ∧
          ({ world := w₀ } : RunState σ).RecordsPlaced M :=
      ⟨.refl, hinit, fun _ c hc => absurd hc List.not_mem_nil⟩
    obtain ⟨s', hrun', -, h, -⟩ := reflTransGen_simulates (r := Steps M.original S)
      (R := fun a b => RunsTo M.original S w₀ a ∧ Plain b a ∧ b.RecordsPlaced M)
      (fun a a₁ b h hs => by
        obtain ⟨b₁, hrun, hplain, hplaced⟩ := Plain.step_back h.2.1 h.2.2 (hread a h.1) hs
        exact ⟨b₁, hrun, h.1.tail hs, hplain, hplaced⟩) hstart hrun
    exact ⟨s', hrun', h.observe.symm⟩

end

/-! ## One thread -/

section

variable {σ : Type*} {C : CodeModule} {S : Semantics σ} {w₀ w : σ} {t : UInt64}
  {stk stk' : List (List Code)} {is is' : List IRInst} {rs : List RecordCall} {cs : List Invocation}

/-- Thread `t` has come this far, and no other thread has begun. -/
def RunsAlone (C : CodeModule) (S : Semantics σ) (w₀ : σ) (t : UInt64) (w : σ) (stk : List (List Code))
    (is : List IRInst) (cs : List Invocation) : Prop :=
  ∃ s, RunsTo C S w₀ s ∧ s.world = w ∧ s.frames = Function.update (fun _ => []) t stk ∧
    s.executed = Function.update (fun _ => []) t is ∧ s.calls = cs

theorem RunsAlone.init : RunsAlone C S w₀ t w₀ [] [] [] :=
  ⟨_, .refl, rfl, (Function.update_eq_self _ _).symm, (Function.update_eq_self _ _).symm, rfl⟩

theorem RunsAlone.step (h : RunsAlone C S w₀ t w stk is cs) (ht : t ≠ 0) (w' : σ)
    (hstep : CodeStep C S t w stk rs is' w' stk') :
    RunsAlone C S w₀ t w' stk' (is ++ is')
      (cs ++ rs.map fun r => ⟨t, S.mem w, r.call (S.value w t)⟩) := by
  obtain ⟨s, hrun, rfl, hframes, hexec, rfl⟩ := h
  have hstk : s.frames t = stk := by rw [hframes, Function.update_self]
  rw [← hstk] at hstep
  refine ⟨_, hrun.tail (.step ht hstep), rfl, ?_, ?_, rfl⟩
  · rw [RunState.moved, hframes, Function.update_idem]
  · simp [RunState.moved, hexec]

end

/-! ## A store -/

section

variable {M : IRModule} {σ : Type*} {S : Semantics σ} {s : RunState σ} {w₀ : σ} {c : List Code}

theorem original_code_mem :
    (∀ name, M.original.entry name = some c → ∃ b ∈ M.blocks, c = plainCode b) ∧
      ∀ ref, M.original.block ref = some c → ∃ b ∈ M.blocks, c = plainCode b := by
  constructor
  · intro name h
    obtain ⟨f, hf, h⟩ := Option.bind_eq_some_iff.mp h
    obtain ⟨b, hb, rfl⟩ := Option.map_eq_some_iff.mp h
    exact ⟨b, List.mem_flatMap.mpr ⟨f, List.mem_of_find?_eq_some hf, List.mem_of_mem_head? hb⟩, rfl⟩
  · intro ref h
    obtain ⟨b, hb, rfl⟩ := Option.map_eq_some_iff.mp h
    exact ⟨b, List.mem_of_find?_eq_some hb, rfl⟩

/-- What the original program has left to run is of the module. -/
theorem original_insts (hrun : RunsTo M.original S w₀ s) :
    ∀ t, ∀ c ∈ s.frames t, ∀ i, .inst i ∈ c → ∃ b ∈ M.blocks, i ∈ b.insts := by
  have hblock : ∀ {c : List Code}, (∃ b ∈ M.blocks, c = plainCode b) →
      ∀ i, .inst i ∈ c → ∃ b ∈ M.blocks, i ∈ b.insts := by
    rintro c ⟨b, hb, rfl⟩ i hi
    obtain ⟨j, hj, heq⟩ := List.mem_map.mp hi
    cases heq
    exact ⟨b, hb, hj⟩
  induction hrun with
  | refl => exact fun t c hc => absurd hc List.not_mem_nil
  | tail _ hstep ih =>
    cases hstep with
    | @step t rs is w stk ht hstep =>
      have hstk : ∀ c ∈ stk, ∀ i, .inst i ∈ c → ∃ b ∈ M.blocks, i ∈ b.insts := by
        have hold := ih t
        generalize RunState.frames _ t = old at hstep hold
        cases hstep with
        | spawn hc => exact List.forall_mem_singleton.mpr (hblock (original_code_mem.1 _ hc))
        | record | run =>
          obtain ⟨htop, hrest⟩ := List.forall_mem_cons.mp hold
          exact List.forall_mem_cons.mpr ⟨fun i hi => htop i (List.mem_cons_of_mem _ hi), hrest⟩
        | branch _ _ hc =>
          exact List.forall_mem_cons.mpr ⟨hblock (original_code_mem.2 _ hc),
            (List.forall_mem_cons.mp hold).2⟩
        | enter _ hc =>
          obtain ⟨htop, hrest⟩ := List.forall_mem_cons.mp hold
          exact List.forall_mem_cons.mpr ⟨hblock (original_code_mem.1 _ hc),
            List.forall_mem_cons.mpr ⟨fun i hi => htop i (List.mem_cons_of_mem _ hi), hrest⟩⟩
        | callback _ hc =>
          exact List.forall_mem_cons.mpr ⟨hblock (original_code_mem.1 _ hc), hold⟩
        | leave => exact (List.forall_mem_cons.mp hold).2
      intro u
      simp only [RunState.moved, Function.update_apply]
      split_ifs
      · exact hstk
      · exact ih u

end

/-- `main` stores a word and returns. -/
def storeModule : IRModule where
  globals := []
  functions := [⟨"main", [⟨10, [{ ref := 11, op := .store (.const 7) (.const 4096) },
    { ref := 12, op := .ret none }]⟩]⟩]

/-- Eight bytes can be read. -/
def storeSemantics : Semantics Unit where
  eval _ _ _ := 0
  mem _ _ := 0
  readable _ a := ∃ i < 8, a = 4096 + UInt64.ofNat i
  run _ _ i _ := ∃ value ptr, i.op = .store value ptr
  branch _ _ _ _ _ := False
  enter _ _ _ _ _ := False
  callback _ _ _ _ _ := False
  leave _ _ _ _ := True
  spawn _ _ _ _ := True

theorem storeModule_recordsReadable : storeModule.RecordsReadable storeSemantics () := by
  intro s hrun t i c rest hframes r hr a ha
  obtain ⟨b, hb, hi⟩ := original_insts hrun t _ (by rw [hframes]; exact List.mem_cons_self) i
    List.mem_cons_self
  obtain rfl := List.mem_singleton.mp (show b ∈ [_] from hb)
  have hr' : i.op = .ret none ∧ r ∈ ([] : List RecordCall) ∨
      r ∈ [RecordCall.store 0 (.const 4096) (.const 8) (.const 7)] := by
    rcases List.mem_pair.mp hi with rfl | rfl
    · exact Or.inr hr
    · exact Or.inl ⟨rfl, hr⟩
  rcases hr' with ⟨-, hr⟩ | hr
  · cases hr
  · rw [List.mem_singleton.mp hr] at ha
    exact ha.2

/-- Thread 7 runs `main` to its end. The record call in front of the store reads the word that is
there. -/
theorem instrument_transparent_store : ∃ s, RunsTo storeModule.instrumented storeSemantics () s ∧
    (∀ t, (s.frames t).map erase = []) ∧ (s.executed 7).map IRInst.ref = [11, 12] := by
  have h : RunsAlone storeModule.original storeSemantics () 7 () [] [] [] := .init
  have h := h.step (by decide) ()
    (.spawn (show storeModule.original.entry "main" = some _ from rfl) trivial)
  have h := h.step (by decide) () (.run trivial ⟨_, _, rfl⟩)
  have h := h.step (by decide) () (.leave rfl trivial)
  obtain ⟨s', hrun', -, hframes, hexec, -⟩ := h
  obtain ⟨s, hrun, ho⟩ := (instrument_transparent storeModule storeSemantics () _).2
    storeModule_recordsReadable ⟨s', hrun', rfl⟩
  refine ⟨s, hrun, fun t => ?_, ?_⟩
  · have h := congrFun (congrArg Observation.frames ho) t
    simpa [RunState.observe, hframes] using h
  · have h := congrFun (congrArg Observation.executed ho) 7
    rw [show s.executed 7 = s'.executed 7 from h, hexec]
    rfl

end Slimmer
