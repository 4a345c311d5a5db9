import Slimmer.InstrumentedRuns
import Slimmer.InstrumentedTables
import Mathlib.Data.List.Pairwise

/-!
# A step of the instrumented program, and the tables

The stack machine over the tables (`ThreadStep`) executes an instruction together with its events, the
instrumented program (`CodeStep`) before, between or after them. `Stands` relates the two: a thread is
between two instructions (`run`), in front of one with some record calls made (`before`), in front of
one whose record calls are all made (`led`: the tables are ahead), behind one whose record call is not
yet made (`lagged`), or in a basic block that is not announced yet (`entering`).

* `around_traced`: what is inserted around an instruction makes the events of its step.
* `Stands.step`: the tables keep up with every step of the instrumented program.
-/

namespace Slimmer

/-- The calls that leave the module are named, and what is called does not call back; and `main` is not
called. -/
structure Semantics.Traced {σ : Type*} (S : Semantics σ) : Prop where
  pointer : ∀ w t w' i args fn, i.op = .call .unknown args fn → ¬ S.run w t i w'
  main : ∀ w t w' i, ¬ S.enter w t i "main" w'
  callback : ∀ w t w' i name, ¬ S.callback w t i name w'

/-! ## Around an instruction -/

/-- The next instruction is the only thing that can come behind this one. -/
structure IROp.OnlyRuns (C : CodeModule) (op : IROp) : Prop where
  ret : ∀ v, op ≠ .ret v
  terminator : ∀ operands successors, op ≠ .terminator operands successors
  calls : ∀ name, op.Calls name → C.entry name = none

def RecordCall.isBasicBlock : RecordCall → Bool
  | .basicBlock _ => true
  | _ => false

/-- The record call makes the event of the instruction `id`. -/
structure RecordCall.Makes (P : Program) (info : StackInfo) (id : Nat) (r : RecordCall) : Prop where
  ne : r.isBasicBlock = false
  step : ∀ (v : Invocation) eval, v.call = r.call eval → ∀ tid rest,
    ThreadStep P tid (info :: rest) [v.event tid] [id] (info.next :: rest)

/-- What is inserted around a traced instruction, with the step of the tables it belongs to. -/
inductive Around (M : IRModule) (P : Program) (info : StackInfo) (j : IRInst) : Prop
  | silent (hb : M.before j = []) (ha : M.after j = []) (hop : j.op.OnlyRuns M.instrumented)
      (h : ∀ tid rest, ThreadStep P tid (info :: rest) [] [M.idOf j] (info.next :: rest))
  | before (args : List IRValue) (r : RecordCall) (hb : M.before j = args.map .argument ++ [r])
      (ha : M.after j = []) (hop : j.op.OnlyRuns M.instrumented)
      (hargs : args ≠ [] → ∀ tid addr rest,
        ThreadStep P tid (info :: rest) [.argument tid addr] [] (info :: rest))
      (hr : r.Makes P info (M.idOf j))
  | after (r : RecordCall) (hb : M.before j = []) (ha : M.after j = [r])
      (hop : j.op.OnlyRuns M.instrumented) (hr : r.Makes P info (M.idOf j))
  | call (hb : M.before j = []) (ha : M.after j = [])
      (hop : (∃ args fn, j.op = .call .unknown args fn) ∨
        ∃ name args fn, j.op = .call (.function name) args fn ∧ name ∈ M.instrumentedFun)
      (h : ∀ tid rest bb, bb < P.bb2Ins.length → ThreadStep P tid (info :: rest) [.basicBlock tid bb]
        [M.idOf j] (⟨bb, -1, 0⟩ :: info.next :: rest))
  | jump (hb : M.before j = []) (ha : M.after j = [])
      (hop : ∃ operands successors, j.op = .terminator operands successors)
      (h : ∀ tid rest bb, bb < P.bb2Ins.length → ThreadStep P tid (info :: rest) [.basicBlock tid bb]
        [M.idOf j] (⟨bb, info.bbID, 0⟩ :: rest))
  | ret (hb : M.before j = []) (ha : M.after j = []) (hop : ∃ v, j.op = .ret v)
      (h : ∀ tid rest, ThreadStep P tid (info :: rest) [] [M.idOf j] rest)

/-- What the tracing relies on: the tables are those of the module, no object is too many for its
type, and no instrumented function has the name of an allocation function. -/
structure IRModule.Traceable (M : IRModule) (P : Program) : Prop where
  verified : M.Verified
  main : M.mainEntry.isSome
  tables : TablesOf M P.toTables
  blocks_le : M.blocks.length ≤ 2 ^ 32
  alloc : ∀ name ∈ M.instrumentedFun, name ∉ allocFunctions

/-- The frame is behind the instructions `pre` and in front of the instructions `post`. -/
def IRModule.Behind (M : IRModule) (info : StackInfo) (pre post : List IRInst) : Prop :=
  ∃ b, M.blocks[info.bbID]? = some b ∧ b.insts = pre ++ post ∧
    info.curIndex = (pre.filter fun i => !notTraced i).length

section

variable {M : IRModule} {P : Program} {info : StackInfo} {pre post : List IRInst} {j : IRInst}

theorem IRModule.Behind.mem (h : M.Behind info pre (j :: post)) :
    ∃ b ∈ M.blocks, j ∈ b.insts := by
  obtain ⟨b, hb, hsplit, -⟩ := h
  exact ⟨b, List.mem_of_getElem? hb, by rw [hsplit]; simp⟩

theorem IRModule.Behind.next (h : M.Behind info pre (j :: post)) (ht : notTraced j = false) :
    M.Behind info.next (pre ++ [j]) post := by
  obtain ⟨b, hb, hsplit, hcur⟩ := h
  refine ⟨b, hb, by rw [hsplit, List.append_assoc]; rfl, ?_⟩
  rw [List.filter_append, List.length_append, ← hcur]
  simp [StackInfo.next, ht]

theorem IRModule.Behind.skip (h : M.Behind info pre (j :: post)) (ht : notTraced j = true) :
    M.Behind info (pre ++ [j]) post := by
  obtain ⟨b, hb, hsplit, hcur⟩ := h
  refine ⟨b, hb, by rw [hsplit, List.append_assoc]; rfl, ?_⟩
  rw [List.filter_append, List.length_append, ← hcur]
  simp [ht]

/-- The next instruction, in the tables. -/
theorem IRModule.Behind.at (hM : M.Traceable P) (h : M.Behind info pre (j :: post))
    (ht : notTraced j = false) :
    ∃ i cls, P.At info (M.idOf j) i ∧ M.idOf j < 2 ^ 32 ∧ M.insID j.ref = some (M.idOf j) ∧
      M.instClass j.op = some cls ∧ i.type = (cls.type M.instrumentedFun).read ∧
        i.fn = cls.fn M.instrumentedFun := by
  obtain ⟨b, hb, hsplit, hcur⟩ := h
  obtain ⟨id, i, cls, hins, hlt, hat, hcls, htype, hfn⟩ :=
    hM.tables.exists_at hM.verified hb hsplit ht info.lastBBID
  have hid : M.idOf j = id := by rw [IRModule.idOf, hins, Option.getD_some]
  have hle := P.length_le
  rw [hM.tables.length] at hle
  unfold noId at hle
  rw [← hcur] at hat
  exact ⟨i, cls, hid ▸ hat, by rw [hid]; omega, by rw [hid, hins], hcls, htype, hfn⟩

theorem toNat_ofNat_id {id : Nat} (h : id < 2 ^ 32) : (UInt32.ofNat id).toNat = id :=
  UInt32.toNat_ofNat_of_lt' h

/-- Nothing is inserted around an instruction that is not traced. -/
theorem around_untraced (hM : M.Verified) (hmem : ∃ b ∈ M.blocks, j ∈ b.insts)
    (ht : notTraced j = true) : M.around j = [.inst j] := by
  obtain ⟨b, hb, hj⟩ := hmem
  have hnone := hM.insID_eq_none hb hj ht
  simp [IRModule.around, IRModule.before, IRModule.after, hnone]

/-- The name of a function is instrumented if and only if the module has code for it. -/
theorem entry_eq_none {name : String} : M.instrumented.entry name = none ↔ name ∉ M.instrumentedFun := by
  rw [← Option.map_eq_none_iff (f := plain), plain_instrumented.1]
  simp only [IRModule.original, IRModule.code, Option.bind_eq_none_iff, Option.map_eq_none_iff,
    IRModule.instrumentedFun, List.mem_map, not_exists, not_and]
  constructor
  · intro h f hf hname
    obtain ⟨g, hg⟩ := Option.isSome_iff_exists.mp
      (List.find?_isSome.mpr ⟨f, hf, decide_eq_true hname⟩ :
        (M.traced.find? fun f => f.name = name).isSome = true)
    have hhead := h g hg
    have hg' := List.mem_of_find?_eq_some hg
    rw [IRModule.traced, List.mem_filter] at hg'
    rw [List.head?_eq_none_iff] at hhead
    simp [hhead] at hg'
  · intro h f hf
    exact absurd (by simpa using List.find?_some hf) (h f (List.mem_of_find?_eq_some hf))

/-! ## One kind of instruction after the other -/

variable {id : Nat} {i : InstInfo} {r : RecordCall}

theorem makes_access (hat : P.At info id i) (hacc : i.type.isAccess = true)
    (hne : r.isBasicBlock = false)
    (hev : ∀ (v : Invocation) eval, v.call = r.call eval → ∀ tid, ∃ addr length,
      v.event tid = .memory tid id addr length) : r.Makes P info id where
  ne := hne
  step v eval hv tid rest := by
    obtain ⟨addr, length, he⟩ := hev v eval hv tid
    rw [he]
    exact .access addr length hat hacc

theorem makes_memory (hat : P.At info id i) (hid : id < 2 ^ 32) (hacc : i.type.isAccess = true)
    (addr length : IRValue) : (RecordCall.memory id addr length).Makes P info id :=
  makes_access hat hacc rfl fun v eval hv tid => ⟨(eval addr).toNat, (eval length).toNat, by
    simp [Invocation.event, hv, RecordCall.call, toNat_ofNat_id hid]⟩

theorem makes_store (hat : P.At info id i) (hid : id < 2 ^ 32) (hacc : i.type.isAccess = true)
    (addr length value : IRValue) : (RecordCall.store id addr length value).Makes P info id :=
  makes_access hat hacc rfl fun v eval hv tid => ⟨(eval addr).toNat,
    (storeLength v.mem (eval addr) (eval length) (eval value)).toNat, by
      simp [Invocation.event, hv, RecordCall.call, toNat_ofNat_id hid]⟩

theorem makes_calloc (hat : P.At info id i) (hid : id < 2 ^ 32) (hacc : i.type.isAccess = true)
    (addr num length : IRValue) : (RecordCall.calloc id addr num length).Makes P info id :=
  makes_access hat hacc rfl fun v eval hv tid => ⟨(eval addr).toNat,
    (eval num * eval length).toNat, by
      simp [Invocation.event, hv, RecordCall.call, toNat_ofNat_id hid]⟩

theorem onlyRuns_of_calls {op : IROp} (hret : ∀ v, op ≠ .ret v)
    (hterm : ∀ operands successors, op ≠ .terminator operands successors)
    (hcalls : ∀ name, ¬ op.Calls name) {C : CodeModule} : op.OnlyRuns C :=
  ⟨hret, hterm, fun name h => absurd h (hcalls name)⟩

theorem namePrefix_take {name : String} {m n : Nat} (h : m ≤ n) :
    namePrefix name m = (namePrefix name n).take m := by
  rw [namePrefix, namePrefix, List.take_take, Nat.min_eq_left h]

/-- The traced intrinsics are intrinsics. -/
theorem isIntrinsic_of_traced {name : String} (h : isMemset name = true ∨ isMemmove name = true) :
    namePrefix name 5 = "llvm.".toList := by
  rcases h with h | h
  · rw [namePrefix_take (show 5 ≤ 12 by omega), beq_iff_eq.mp h]
    rfl
  · rcases Bool.or_eq_true_iff.mp h with h | h
    · rw [namePrefix_take (show 5 ≤ 12 by omega), beq_iff_eq.mp h]
      rfl
    · rw [namePrefix_take (show 5 ≤ 13 by omega), beq_iff_eq.mp h]
      rfl

theorem isMemmove_of_isMemset {name : String} (h : isMemset name = true) : isMemmove name = false := by
  have h12 : namePrefix name 12 = "llvm.memset.".toList := beq_iff_eq.mp h
  rw [isMemmove, Bool.or_eq_false_iff]
  constructor
  · rw [h12]
    decide
  · refine beq_eq_false_iff_ne.mpr fun h13 => ?_
    rw [namePrefix_take (show 12 ≤ 13 by omega), h13] at h12
    revert h12
    decide

/-- A traced intrinsic. -/
theorem around_intrinsic (hM : M.Traceable P) (h : M.Behind info pre (j :: post))
    (ht : notTraced j = false) {name : String} {args : List IRValue} {fn : IRValue}
    (hop : j.op = .call (.intrinsic name) args fn) : Around M P info j := by
  obtain ⟨i, cls, hat, hid, hins, hcls, htype, hfn⟩ := h.at hM ht
  have hbefore : M.before j = recordsBefore M.instrumentedFun (M.idOf j) j.op := by
    simp [IRModule.before, hins]
  have hafter : M.after j = recordsAfter (M.idOf j) j := by simp [IRModule.after, hins]
  rw [hop] at hcls
  cases hcls
  replace htype : i.type = .callInst := htype
  replace hfn : i.fn = name := hfn
  have hor : isMemset name = true ∨ isMemmove name = true := by
    simp only [notTraced, hop, Bool.not_eq_false', Bool.or_eq_true] at ht
    exact ht
  -- the arguments are there
  obtain ⟨b, hb, hj⟩ := h.mem
  have hargs := hM.verified.args b hb j (mem_traced.mpr ⟨hj, ht⟩)
  rw [hop] at hargs
  replace hargs : 3 ≤ args.length := hargs
  obtain ⟨dest, src, length, args', rfl⟩ :
      ∃ dest src length args', args = dest :: src :: length :: args' := by
    rcases args with _ | ⟨dest, _ | ⟨src, _ | ⟨length, args'⟩⟩⟩
    · simp at hargs
    · simp at hargs
    · simp at hargs
    · exact ⟨dest, src, length, args', rfl⟩
  have hruns : j.op.OnlyRuns M.instrumented := by
    rw [hop]
    exact onlyRuns_of_calls (by simp) (by simp) (by simp [IROp.Calls])
  have hintrinsic : i.isIntrinsic = true := by
    rw [InstInfo.isIntrinsic, hfn]
    exact beq_iff_eq.mpr (isIntrinsic_of_traced hor)
  by_cases hset : isMemset name = true
  · have hmove := isMemmove_of_isMemset hset
    refine .before [] (.memset (M.idOf j) dest length src) ?_ ?_ hruns (by simp) ⟨rfl, ?_⟩
    · rw [hbefore, hop]
      simp [recordsBefore, hset, hmove]
    · rw [hafter, recordsAfter, hop]
    · intro v eval hv tid rest
      have he : v.event tid = .memset tid (M.idOf j) (eval dest).toNat
          (memsetLength v.mem (eval dest) (eval length) (eval src).toUInt8).toNat := by
        simp [Invocation.event, hv, RecordCall.call, toNat_ofNat_id hid]
      rw [he]
      exact .memset _ _ hat htype hintrinsic
  · have hmove : isMemmove name = true := hor.resolve_left hset
    refine .before [] (.memmove (M.idOf j) dest src length) ?_ ?_ hruns (by simp) ⟨rfl, ?_⟩
    · rw [hbefore, hop]
      simp [recordsBefore, hset, hmove]
    · rw [hafter, recordsAfter, hop]
    · intro v eval hv tid rest
      have he : v.event tid = .memmove tid (M.idOf j) (eval dest).toNat (eval src).toNat
          (memmoveLength v.mem (eval dest) (eval src) (eval length)).toNat := by
        simp [Invocation.event, hv, RecordCall.call, toNat_ofNat_id hid]
      rw [he]
      exact .memmove _ _ _ hat htype hintrinsic

/-- A call of a function. -/
theorem around_function (hM : M.Traceable P) (h : M.Behind info pre (j :: post))
    (ht : notTraced j = false) {name : String} {args : List IRValue} {fn : IRValue}
    (hop : j.op = .call (.function name) args fn) : Around M P info j := by
  obtain ⟨i, cls, hat, hid, hins, hcls, htype, hfn⟩ := h.at hM ht
  have hbefore : M.before j = recordsBefore M.instrumentedFun (M.idOf j) j.op := by
    simp [IRModule.before, hins]
  have hafter : M.after j = recordsAfter (M.idOf j) j := by simp [IRModule.after, hins]
  rw [hop] at hcls
  cases hcls
  have halloc : allocFunctions = mallocFunctions ++ callocFunctions := rfl
  obtain ⟨b, hb, hj⟩ := h.mem
  have hargs := hM.verified.args b hb j (mem_traced.mpr ⟨hj, ht⟩)
  rw [hop] at hargs
  have hruns : name ∉ M.instrumentedFun → j.op.OnlyRuns M.instrumented := by
    intro hname
    rw [hop]
    refine ⟨by simp, by simp, fun f hf => ?_⟩
    obtain rfl : name = f := hf
    exact entry_eq_none.mpr hname
  by_cases hin : name ∈ allocFunctions
  · have hnot : name ∉ M.instrumentedFun := fun hn => hM.alloc name hn hin
    have hacc : i.type.isAccess = true := by
      rw [htype, InstClass.type, if_pos hin]
      rfl
    have hnil : M.before j = [] := by simp [hbefore, hop, recordsBefore, hin]
    by_cases hmalloc : name ∈ mallocFunctions
    · have hlen := hargs.1 hmalloc
      cases args with
      | nil => simp at hlen
      | cons length args' =>
        exact .after (.memory (M.idOf j) j.value length) hnil
          (by simp [hafter, recordsAfter, hop, hmalloc]) (hruns hnot) (makes_memory hat hid hacc _ _)
    · have hcalloc : name ∈ callocFunctions := by
        rw [halloc, List.mem_append] at hin
        exact hin.resolve_left hmalloc
      have hlen := hargs.2 hcalloc
      rcases args with _ | ⟨num, _ | ⟨length, args'⟩⟩
      · simp at hlen
      · simp at hlen
      · exact .after (.calloc (M.idOf j) j.value num length) hnil
          (by simp [hafter, recordsAfter, hop, hmalloc, hcalloc]) (hruns hnot)
          (makes_calloc hat hid hacc _ _ _)
  · have hnone : name ∉ mallocFunctions ∧ name ∉ callocFunctions := by
      rw [halloc, List.mem_append, not_or] at hin
      exact hin
    have hnil : M.after j = [] := by simp [hafter, recordsAfter, hop, hnone.1, hnone.2]
    by_cases hinstr : name ∈ M.instrumentedFun
    · have htype' : i.type = .callInst := by
        rw [htype, InstClass.type, if_neg hin, if_pos hinstr]
        rfl
      have hfn' : i.fn = name := by
        rw [hfn]
        simp [InstClass.fn, InstClass.type, hin, hinstr]
      have hintrinsic : i.isIntrinsic = false := by
        rw [InstInfo.isIntrinsic, hfn']
        exact beq_eq_false_iff_ne.mpr (hM.verified.names b hb j hj name args fn hop)
      exact .call (by simp [hbefore, hop, recordsBefore, hinstr]) hnil
        (.inr ⟨name, args, fn, hop, hinstr⟩) fun tid rest bb hbb => .call bb hat htype' hintrinsic hbb
    · have htype' : i.type = .externalCallInst := by
        rw [htype, InstClass.type, if_neg hin, if_neg hinstr]
        rfl
      refine .before (args.filter fun a => a.type.isPointer) (.ret (M.idOf j) fn) ?_ hnil (hruns hinstr)
        (fun _ tid addr rest => .argument addr hat htype') ⟨rfl, ?_⟩
      · simp [hbefore, hop, recordsBefore, hin, hinstr]
      · intro v eval hv tid rest
        have he : v.event tid = .ret tid (M.idOf j) (eval fn).toNat := by
          simp [Invocation.event, hv, RecordCall.call, toNat_ofNat_id hid]
        rw [he]
        exact .external _ hat htype'

theorem notTraced_of_isPhi (hop : j.op.isPhi = true ∨ j.op.isLandingPad = true) :
    notTraced j = false := by
  unfold notTraced
  cases h : j.op <;> simp_all [IROp.isPhi, IROp.isLandingPad]

/-- Nothing is inserted around a phi node or a landing pad. -/
theorem around_phi (hop : j.op.isPhi = true ∨ j.op.isLandingPad = true) : M.around j = [.inst j] := by
  have hbefore : M.before j = [] := by
    unfold IRModule.before
    cases h : j.op <;> cases M.insID j.ref <;> simp_all [IROp.isPhi, IROp.isLandingPad, recordsBefore]
  have hafter : M.after j = [] := by
    unfold IRModule.after recordsAfter
    cases h : j.op <;> cases M.insID j.ref <;> simp_all [IROp.isPhi, IROp.isLandingPad]
  rw [IRModule.around, hbefore, hafter]
  rfl

/-- A phi node or a landing pad makes no event. -/
theorem step_phi (hM : M.Traceable P) (h : M.Behind info pre (j :: post))
    (hop : j.op.isPhi = true ∨ j.op.isLandingPad = true) (tid : Nat) (rest : List StackInfo) :
    ThreadStep P tid (info :: rest) [] [M.idOf j] (info.next :: rest) := by
  obtain ⟨i, cls, hat, -, -, hcls, htype, -⟩ := h.at hM (notTraced_of_isPhi hop)
  refine .silent hat ?_
  cases hj : j.op with
  | phi incoming =>
    rw [hj] at hcls
    obtain ⟨l, -, rfl⟩ := Option.map_eq_some_iff.mp hcls
    rw [htype]
    rfl
  | landingPad operands =>
    rw [hj] at hcls
    cases hcls
    rw [htype]
    rfl
  | _ => simp [hj, IROp.isPhi, IROp.isLandingPad] at hop

/-- **What is inserted around a traced instruction**, and its step of the tables. -/
theorem around_traced (hM : M.Traceable P) (h : M.Behind info pre (j :: post))
    (ht : notTraced j = false) : Around M P info j := by
  obtain ⟨i, cls, hat, hid, hins, hcls, htype, hfn⟩ := h.at hM ht
  have hbefore : M.before j = recordsBefore M.instrumentedFun (M.idOf j) j.op := by
    simp [IRModule.before, hins]
  have hafter : M.after j = recordsAfter (M.idOf j) j := by simp [IRModule.after, hins]
  cases hop : j.op with
  | load ptr =>
    rw [hop] at hcls
    cases hcls
    exact .after (.memory (M.idOf j) ptr (.const j.type.storeSize))
      (by simp [hbefore, hop, recordsBefore]) (by simp [hafter, hop, recordsAfter])
      (onlyRuns_of_calls (by simp [hop]) (by simp [hop]) (by simp [hop, IROp.Calls]))
      (makes_memory hat hid (by rw [htype]; rfl) _ _)
  | store value ptr =>
    rw [hop] at hcls
    cases hcls
    have hacc : i.type.isAccess = true := by rw [htype]; rfl
    have hruns : j.op.OnlyRuns M.instrumented :=
      onlyRuns_of_calls (by simp [hop]) (by simp [hop]) (by simp [hop, IROp.Calls])
    by_cases hvalue : recordsValue value = true
    · exact .before [] (.store (M.idOf j) ptr (.const value.type.storeSize) value)
        (by simp [hbefore, hop, recordsBefore, hvalue]) (by simp [hafter, hop, recordsAfter, hvalue])
        hruns (by simp) (makes_store hat hid hacc _ _ _)
    · exact .after (.memory (M.idOf j) ptr (.const value.type.storeSize))
        (by simp [hbefore, hop, recordsBefore, hvalue]) (by simp [hafter, hop, recordsAfter, hvalue])
        hruns (makes_memory hat hid hacc _ _)
  | atomicRMW ptr value =>
    rw [hop] at hcls
    cases hcls
    exact .after (.memory (M.idOf j) ptr (.const ptr.type.storeSize))
      (by simp [hbefore, hop, recordsBefore]) (by simp [hafter, hop, recordsAfter])
      (onlyRuns_of_calls (by simp [hop]) (by simp [hop]) (by simp [hop, IROp.Calls]))
      (makes_memory hat hid (by rw [htype]; rfl) _ _)
  | atomicCmpXchg ptr compare new =>
    rw [hop] at hcls
    cases hcls
    exact .after (.memory (M.idOf j) ptr (.const ptr.type.storeSize))
      (by simp [hbefore, hop, recordsBefore]) (by simp [hafter, hop, recordsAfter])
      (onlyRuns_of_calls (by simp [hop]) (by simp [hop]) (by simp [hop, IROp.Calls]))
      (makes_memory hat hid (by rw [htype]; rfl) _ _)
  | alloca count elementSize =>
    rw [hop] at hcls
    cases hcls
    exact .after (.memory (M.idOf j) j.value (.const elementSize))
      (by simp [hbefore, hop, recordsBefore]) (by simp [hafter, hop, recordsAfter])
      (onlyRuns_of_calls (by simp [hop]) (by simp [hop]) (by simp [hop, IROp.Calls]))
      (makes_memory hat hid (by rw [htype]; rfl) _ _)
  | ret v =>
    rw [hop] at hcls
    cases hcls
    have htype' : i.type = .returnInst := htype
    exact .ret (by simp [hbefore, hop, recordsBefore]) (by simp [hafter, hop, recordsAfter])
      ⟨v, hop⟩ fun tid rest => .ret hat htype'
  | terminator operands successors =>
    rw [hop] at hcls
    obtain ⟨bbs, -, rfl⟩ := Option.map_eq_some_iff.mp hcls
    have htype' : i.type = .terminatorInst := htype
    exact .jump (by simp [hbefore, hop, recordsBefore]) (by simp [hafter, hop, recordsAfter])
      ⟨operands, successors, hop⟩ fun tid rest bb hbb => .jump bb hat htype' hbb
  | phi incoming =>
    exact .silent (by simp [hbefore, hop, recordsBefore]) (by simp [hafter, hop, recordsAfter])
      (onlyRuns_of_calls (by simp [hop]) (by simp [hop]) (by simp [hop, IROp.Calls]))
      (step_phi hM h (.inl (by rw [hop]; rfl)))
  | landingPad operands =>
    exact .silent (by simp [hbefore, hop, recordsBefore]) (by simp [hafter, hop, recordsAfter])
      (onlyRuns_of_calls (by simp [hop]) (by simp [hop]) (by simp [hop, IROp.Calls]))
      (step_phi hM h (.inr (by rw [hop]; rfl)))
  | other operands =>
    rw [hop] at hcls
    cases hcls
    exact .silent (by simp [hbefore, hop, recordsBefore]) (by simp [hafter, hop, recordsAfter])
      (onlyRuns_of_calls (by simp [hop]) (by simp [hop]) (by simp [hop, IROp.Calls]))
      fun tid rest => .silent hat (by rw [htype]; rfl)
  | call callee args fn =>
    cases callee with
    | intrinsic name => exact around_intrinsic hM h ht hop
    | function name => exact around_function hM h ht hop
    | unknown =>
      rw [hop] at hcls
      cases hcls
      have htype' : i.type = .callInst := htype
      have hintrinsic : i.isIntrinsic = false := by
        rw [InstInfo.isIntrinsic, hfn]
        show (namePrefix "[UNKNOWN]" 5 == "llvm.".toList) = false
        decide
      exact .call (by simp [hbefore, hop, recordsBefore]) (by simp [hafter, hop, recordsAfter])
        (.inl ⟨args, fn, hop⟩) fun tid rest bb hbb => .call bb hat htype' hintrinsic hbb

end

/-! ## Where a thread stands -/

/-- A frame that waits for the one above it. -/
def Waits (M : IRModule) (c : List Code) (info : StackInfo) : Prop :=
  ∃ pre post, M.Behind info pre post ∧ c = post.flatMap M.around

/-- A global's declaration. -/
def RecordCall.IsDeclare (r : RecordCall) : Prop := ∃ addr length, r = .memory noId addr length

/-- The frames of a thread beside those of the tables; `lag` is what the thread has executed and the
tables have not, `lead` what the tables have executed and the thread has not. -/
inductive Stands (M : IRModule) (P : Program) (tid : Nat) :
    List (List Code) → List StackInfo → List Nat → List Nat → Prop
  | idle : Stands M P tid [] [] [] []
  | run {info pre post rest infos} (h : M.Behind info pre post)
      (hrest : List.Forall₂ (Waits M) rest infos) :
      Stands M P tid (post.flatMap M.around :: rest) (info :: infos) [] []
  | before {info pre j post rest infos args r} (h : M.Behind info pre (j :: post))
      (ht : notTraced j = false) (ha : M.after j = []) (hop : j.op.OnlyRuns M.instrumented)
      (hargs : args ≠ [] → ∀ tid addr rest,
        ThreadStep P tid (info :: rest) [.argument tid addr] [] (info :: rest))
      (hr : r.Makes P info (M.idOf j)) (hrest : List.Forall₂ (Waits M) rest infos) :
      Stands M P tid (((args.map RecordCall.argument ++ [r]).map Code.record ++
        .inst j :: post.flatMap M.around) :: rest) (info :: infos) [] []
  | led {info pre j post rest infos} (h : M.Behind info (pre ++ [j]) post)
      (hid : M.insID j.ref = some (M.idOf j)) (hop : j.op.OnlyRuns M.instrumented)
      (hrest : List.Forall₂ (Waits M) rest infos) :
      Stands M P tid ((.inst j :: post.flatMap M.around) :: rest) (info :: infos) [] [M.idOf j]
  | lagged {info pre j post rest infos r} (h : M.Behind info pre (j :: post))
      (ht : notTraced j = false) (hr : r.Makes P info (M.idOf j))
      (hrest : List.Forall₂ (Waits M) rest infos) :
      Stands M P tid ((.record r :: post.flatMap M.around) :: rest) (info :: infos) [M.idOf j] []
  | entering {n last b pre phis post ds rest infos₀ infos ids} (hb : M.blocks[n]? = some b)
      (hsplit : b.insts = pre ++ phis ++ post)
      (hphis : ∀ i ∈ pre ++ phis, i.op.isPhi = true ∨ i.op.isLandingPad = true)
      (hds : ∀ r ∈ ds, r.IsDeclare) (hidle : ds ≠ [] → infos₀ = [])
      (h : ThreadStep P tid infos₀ [.basicBlock tid n] ids (⟨n, last, 0⟩ :: infos))
      (hrest : List.Forall₂ (Waits M) rest infos) :
      Stands M P tid ((ds.map Code.record ++ (phis.flatMap M.around ++
        .record (.basicBlock n) :: post.flatMap M.around)) :: rest) infos₀
        (ids ++ pre.map M.idOf) []

/-- Steps of one thread of the tables. -/
inductive ThreadSteps (P : Program) (tid : Nat) :
    List StackInfo → List Event → List Nat → List StackInfo → Prop
  | refl {infos} : ThreadSteps P tid infos [] [] infos
  | tail {infos infos₁ infos₂ es es' ids ids'} (h : ThreadSteps P tid infos es ids infos₁)
      (hstep : ThreadStep P tid infos₁ es' ids' infos₂) :
      ThreadSteps P tid infos (es ++ es') (ids ++ ids') infos₂

/-- What the tables do on the record calls of a step. -/
inductive Made (P : Program) (tid : Nat) :
    List StackInfo → List RecordCall → List Nat → List StackInfo → Prop
  | quiet {infos} : Made P tid infos [] [] infos
  | silent {info rest ids infos} (h : ThreadStep P tid (info :: rest) [] ids infos) :
      Made P tid (info :: rest) [] ids infos
  | event {infos r ids infos'} (hr : infos ≠ [] ∨ r.isBasicBlock = true)
      (h : ∀ (v : Invocation) eval, v.call = r.call eval →
        ThreadSteps P tid infos [v.event tid] ids infos') :
      Made P tid infos [r] ids infos'
  | declare {r} (hr : r.IsDeclare) : Made P tid [] [r] [] []

section

variable {M : IRModule} {P : Program} {σ : Type*} {S : Semantics σ} {C : CodeModule} {t : UInt64}
  {tid n : Nat} {w w' : σ} {b : IRBlock} {i j : IRInst} {c : List Code} {r : RecordCall}
  {frames frames' rest : List (List Code)} {rs : List RecordCall} {is : List IRInst}
  {infos₀ infos : List StackInfo} {ids lag lead : List Nat} {name : String}

/-! ## Entering a basic block -/

/-- Phi nodes and a landing pad stand in front of the insertion point. -/
theorem mem_take_firstInsertionPt (h : i ∈ b.insts.take b.firstInsertionPt) :
    i.op.isPhi = true ∨ i.op.isLandingPad = true := by
  have htake : b.insts.take (b.insts.takeWhile fun i => i.op.isPhi).length =
      b.insts.takeWhile fun i => i.op.isPhi :=
    (List.prefix_iff_eq_take.mp (List.takeWhile_prefix _)).symm
  have hphi : ∀ i ∈ b.insts.takeWhile fun i => i.op.isPhi, i.op.isPhi = true :=
    List.all_eq_true.mp (List.all_takeWhile)
  unfold IRBlock.firstInsertionPt at h
  dsimp only at h
  split_ifs at h with hpad
  · obtain ⟨k, hk, hpad⟩ := (Option.any_eq_true _ _).mp hpad
    rw [List.take_add_one, hk, htake, Option.toList_some, List.mem_append, List.mem_singleton] at h
    rcases h with h | rfl
    · exact .inl (hphi i h)
    · exact .inr hpad
  · rw [htake] at h
    exact .inl (hphi i h)

theorem mainEntry_eq {ref : Nat} (h : M.mainEntry = some ref) :
    ∃ f ∈ M.traced, f.name = "main" ∧ ∃ e, f.blocks.head? = some e ∧ e.ref = ref := by
  obtain ⟨f, hf, h⟩ := Option.bind_eq_some_iff.mp h
  obtain ⟨e, he, href⟩ := Option.map_eq_some_iff.mp h
  have hp := List.find?_some hf
  simp only [Bool.and_eq_true, decide_eq_true_eq] at hp
  refine ⟨f, List.mem_filter.mpr ⟨List.mem_of_find?_eq_some hf, ?_⟩, hp.2, e, he, href⟩
  rw [hp.1, hp.2]
  decide

/-- Only `main` begins with the block in which the globals are declared. -/
theorem name_of_mainEntry (hM : M.Verified) {f : IRFunction} (hf : f ∈ M.traced)
    (hb : f.blocks.head? = some b) (h : M.mainEntry = some b.ref) : f.name = "main" := by
  obtain ⟨g, hg, hname, e, he, href⟩ := mainEntry_eq h
  have hnodup := hM.blocks_nodup
  rw [IRModule.blocks, List.map_flatMap, List.nodup_flatMap] at hnodup
  by_contra hne
  have hfg : f ≠ g := fun hfg => hne (hfg ▸ hname)
  have : Std.Symm (Function.onFun List.Disjoint fun f : IRFunction => f.blocks.map IRBlock.ref) :=
    ⟨fun _ _ h => h.symm⟩
  have hdisjoint := hnodup.2.forall hf hg hfg
  refine hdisjoint (List.mem_map_of_mem (List.mem_of_mem_head? hb)) ?_
  rw [← href]
  exact List.mem_map_of_mem (List.mem_of_mem_head? he)

theorem instrumented_entry (hmain : M.mainEntry.isSome) (h : M.instrumented.entry name = some c) :
    ∃ (n : Nat) (b : IRBlock) (f : IRFunction), M.blocks[n]? = some b ∧ c = M.blockCode b ∧ f ∈ M.traced ∧ f.name = name ∧
      f.blocks.head? = some b := by
  obtain ⟨f, hf, h⟩ := Option.bind_eq_some_iff.mp h
  obtain ⟨b, hb, hc⟩ := Option.map_eq_some_iff.mp h
  have hmem : b ∈ M.blocks := List.mem_flatMap.mpr
    ⟨f, List.mem_of_find?_eq_some hf, List.mem_of_mem_head? hb⟩
  obtain ⟨n, hn⟩ := List.mem_iff_getElem?.mp hmem
  rw [if_pos hmain] at hc
  exact ⟨n, b, f, hn, hc.symm, List.mem_of_find?_eq_some hf, by simpa using List.find?_some hf, hb⟩

theorem instrumented_block (hmain : M.mainEntry.isSome) {ref : Nat}
    (h : M.instrumented.block ref = some c) :
    ∃ (n : Nat) (b : IRBlock), M.blocks[n]? = some b ∧ c = M.blockCode b ∧ b.ref = ref := by
  obtain ⟨b, hb, hc⟩ := Option.map_eq_some_iff.mp h
  obtain ⟨n, hn⟩ := List.mem_iff_getElem?.mp (List.mem_of_find?_eq_some hb)
  rw [if_pos hmain] at hc
  exact ⟨n, b, hn, hc.symm, by simpa using List.find?_some hb⟩

/-- A thread at the beginning of a basic block. -/
theorem stands_blockCode (hM : M.Verified) (hb : M.blocks[n]? = some b) {last : Int}
    (hidle : M.mainEntry = some b.ref → infos₀ = [])
    (h : ThreadStep P tid infos₀ [.basicBlock tid n] ids (⟨n, last, 0⟩ :: infos))
    (hrest : List.Forall₂ (Waits M) rest infos) :
    Stands M P tid (M.blockCode b :: rest) infos₀ ids [] := by
  generalize hds : (if M.mainEntry = some b.ref then M.declares else []) = ds
  have hdeclares : ∀ r ∈ ds, r.IsDeclare := by
    intro r hr
    rw [← hds] at hr
    split_ifs at hr
    · obtain ⟨g, -, hg⟩ := List.mem_map.mp (List.mem_reverse.mp hr)
      exact ⟨_, _, hg.symm⟩
    · cases hr
  have hnone : ds ≠ [] → infos₀ = [] := by
    intro hne
    rw [← hds] at hne
    split_ifs at hne with hmain
    · exact hidle hmain
    · exact absurd rfl hne
  have hS := Stands.entering hb
    (show b.insts = [] ++ b.insts.take b.firstInsertionPt ++ b.insts.drop b.firstInsertionPt by
      rw [List.nil_append, List.take_append_drop])
    (fun i hi => mem_take_firstInsertionPt (by simpa using hi)) hdeclares hnone h hrest
  rw [List.map_nil, List.append_nil] at hS
  have hcode : M.blockCode b = ds.map Code.record ++
      ((b.insts.take b.firstInsertionPt).flatMap M.around ++
        .record (.basicBlock n) :: (b.insts.drop b.firstInsertionPt).flatMap M.around) := by
    rw [IRModule.blockCode, IRModule.instrumentBlock, hM.bbID_of_getElem? hb, Option.getD_some, ← hds]
    split_ifs <;> rfl
  rw [hcode]
  exact hS

/-! ## One step -/

theorem CodeStep.of_onlyRuns (hS : S.Traced) (hop : j.op.OnlyRuns C)
    (h : CodeStep C S t w ((.inst j :: c) :: rest) rs is w' frames') :
    rs = [] ∧ is = [j] ∧ frames' = c :: rest := by
  cases h with
  | callback _ _ hw => exact absurd hw (hS.callback _ _ _ _ _)
  | run => exact ⟨rfl, rfl, rfl⟩
  | branch h => exact absurd h (hop.terminator _ _)
  | enter h hc =>
    rw [hop.calls _ h] at hc
    cases hc
  | leave h => exact absurd h (hop.ret _)

theorem CodeStep.of_record (h : CodeStep C S t w ((.record r :: c) :: rest) rs is w' frames') :
    rs = [r] ∧ is = [] ∧ frames' = c :: rest := by
  cases h with
  | record => exact ⟨rfl, rfl, rfl⟩

theorem onlyRuns_of_isPhi (hop : j.op.isPhi = true ∨ j.op.isLandingPad = true) : j.op.OnlyRuns C := by
  refine onlyRuns_of_calls (fun v h => ?_) (fun operands successors h => ?_) fun name h => ?_
  · simp [h, IROp.isPhi, IROp.isLandingPad] at hop
  · simp [h, IROp.isPhi, IROp.isLandingPad] at hop
  · cases hj : j.op <;> simp_all [IROp.isPhi, IROp.isLandingPad, IROp.Calls]

theorem onlyRuns_of_notTraced (ht : notTraced j = true) : j.op.OnlyRuns C := by
  unfold notTraced at ht
  refine onlyRuns_of_calls (fun v h => ?_) (fun operands successors h => ?_) fun name h => ?_
  · simp [h] at ht
  · simp [h] at ht
  · cases hj : j.op with
    | call callee args fn =>
      rw [hj] at ht h
      cases callee <;> simp_all [IROp.Calls]
    | _ => simp [hj] at ht

/-- The phi nodes of a basic block, behind its event. -/
theorem threadSteps_phis (hM : M.Traceable P) (hb : M.blocks[n]? = some b) {last : Int} :
    ∀ {pre post : List IRInst}, b.insts = pre ++ post →
      (∀ i ∈ pre, i.op.isPhi = true ∨ i.op.isLandingPad = true) → ∀ {e : Event},
        ThreadStep P tid infos₀ [e] ids (⟨n, last, 0⟩ :: infos) →
          ∃ info, ThreadSteps P tid infos₀ [e] (ids ++ pre.map M.idOf) (info :: infos) ∧
            info.bbID = n ∧ M.Behind info pre post := by
  intro pre
  induction pre using List.reverseRecOn with
  | nil =>
    intro post hsplit _ e h
    have hsteps : ThreadSteps P tid infos₀ ([] ++ [e]) ([] ++ ids) _ := .tail .refl h
    exact ⟨_, by simpa using hsteps, rfl, b, hb, hsplit, rfl⟩
  | append_singleton pre i ih =>
    intro post hsplit hphis e h
    rw [List.append_assoc] at hsplit
    obtain ⟨info, hsteps, hn, hbehind⟩ := ih hsplit
      (fun k hk => hphis k (List.mem_append_left _ hk)) h
    have hi := hphis i (List.mem_append_right _ List.mem_cons_self)
    refine ⟨info.next, ?_, hn, hbehind.next (notTraced_of_isPhi hi)⟩
    have := hsteps.tail (step_phi hM hbehind hi tid infos)
    rw [List.map_append, ← List.append_assoc]
    exact this

/-- The ids of the traced ones among the instructions. -/
def IRModule.idsOf (M : IRModule) (is : List IRInst) : List Nat := is.filterMap fun i => M.insID i.ref

@[simp] theorem idsOf_append (is is' : List IRInst) : M.idsOf (is ++ is') = M.idsOf is ++ M.idsOf is' :=
  List.filterMap_append

@[simp] theorem idsOf_nil : M.idsOf [] = [] := rfl

theorem idsOf_single (h : M.insID j.ref = some (M.idOf j)) : M.idsOf [j] = [M.idOf j] := by
  simp [IRModule.idsOf, h]

/-- The thread `tid` goes on to `frames'` by the record calls `rs` and the instructions `is`, and the
tables keep up. -/
def KeepsUp (M : IRModule) (P : Program) (tid : Nat) (infos : List StackInfo) (lag lead : List Nat)
    (rs : List RecordCall) (is : List IRInst) (frames' : List (List Code)) : Prop :=
  ∃ ids infos' lag' lead', Made P tid infos rs ids infos' ∧ Stands M P tid frames' infos' lag' lead' ∧
    ∀ ex done : List Nat, ex ++ lead = done ++ lag →
      ex ++ M.idsOf is ++ lead' = done ++ ids ++ lag'

/-- The record calls in front of an instruction. -/
theorem keepsUp_before {info : StackInfo} {pre post : List IRInst} {args : List IRValue}
    (hM : M.Traceable P) (h : M.Behind info pre (j :: post)) (ht : notTraced j = false)
    (ha : M.after j = []) (hop : j.op.OnlyRuns M.instrumented)
    (hargs : args ≠ [] → ∀ tid addr rest,
      ThreadStep P tid (info :: rest) [.argument tid addr] [] (info :: rest))
    (hr : r.Makes P info (M.idOf j)) (hrest : List.Forall₂ (Waits M) rest infos)
    (hstep : CodeStep C S t w (((args.map RecordCall.argument ++ [r]).map Code.record ++
      .inst j :: post.flatMap M.around) :: rest) rs is w' frames') :
    KeepsUp M P tid (info :: infos) [] [] rs is frames' := by
  obtain ⟨-, -, -, -, hins, -⟩ := h.at hM ht
  cases args with
  | nil =>
    obtain ⟨rfl, rfl, rfl⟩ := hstep.of_record
    refine ⟨[M.idOf j], info.next :: infos, [], [M.idOf j], .event (.inl (by simp)) ?_,
      .led (h.next ht) hins hop hrest, ?_⟩
    · intro v eval hv
      exact .tail .refl (hr.step v eval hv tid infos)
    · intro ex done he
      simpa using he
  | cons a args =>
    obtain ⟨rfl, rfl, rfl⟩ := hstep.of_record
    refine ⟨[], info :: infos, [], [], .event (.inl (by simp)) ?_,
      .before h ht ha hop (fun _ => hargs (by simp)) hr hrest, ?_⟩
    · intro v eval hv
      have he : v.event tid = .argument tid (eval a).toNat := by
        simp [Invocation.event, hv, RecordCall.call]
      rw [he]
      exact .tail .refl (hargs (by simp) tid _ infos)
    · intro ex done he
      simpa using he

theorem TablesOf.lt_length (hT : TablesOf M P.toTables) (hb : M.blocks[n]? = some b) :
    n < P.bb2Ins.length := by
  rw [hT.blocks]
  exact (List.getElem?_eq_some_iff.mp hb).1

/-- A call of an instrumented function. -/
theorem keepsUp_call {info : StackInfo} {pre post : List IRInst} (hM : M.Traceable P)
    (hS : S.Traced) (h : M.Behind info pre (j :: post))
    (ht : notTraced j = false)
    (hop : (∃ args fn, j.op = .call .unknown args fn) ∨
      ∃ name args fn, j.op = .call (.function name) args fn ∧ name ∈ M.instrumentedFun)
    (hcall : ∀ bb, bb < P.bb2Ins.length → ThreadStep P tid (info :: infos) [.basicBlock tid bb]
      [M.idOf j] (⟨bb, -1, 0⟩ :: info.next :: infos))
    (hrest : List.Forall₂ (Waits M) rest infos)
    (hstep : CodeStep M.instrumented S t w ((.inst j :: post.flatMap M.around) :: rest) rs is w' frames') :
    KeepsUp M P tid (info :: infos) [] [] rs is frames' := by
  obtain ⟨-, -, -, -, hins, -⟩ := h.at hM ht
  cases hstep with
  | run hr hw =>
    rcases hop with ⟨args, fn, hop⟩ | ⟨name, args, fn, hop, hname⟩
    · exact absurd hw (hS.pointer _ _ _ j args fn hop)
    · rw [hop] at hr
      exact absurd hname (entry_eq_none.mp hr)
  | branch hj =>
    rcases hop with ⟨args, fn, hop⟩ | ⟨name, args, fn, hop, -⟩ <;> cases hj.symm.trans hop
  | leave hj =>
    rcases hop with ⟨args, fn, hop⟩ | ⟨name, args, fn, hop, -⟩ <;> cases hj.symm.trans hop
  | callback _ _ hw => exact absurd hw (hS.callback _ _ _ _ _)
  | enter hj hc hw =>
    obtain ⟨n, b, f, hb, rfl, hf, hname, hhead⟩ := instrumented_entry hM.main hc
    refine ⟨[], info :: infos, [M.idOf j], [], .quiet, stands_blockCode hM.verified hb (fun he => ?_)
      (hcall n (hM.tables.lt_length hb)) (.cons ⟨_, _, h.next ht, rfl⟩ hrest), fun ex done he => ?_⟩
    · rw [← hname, name_of_mainEntry hM.verified hf hhead he] at hw
      exact absurd hw (hS.main _ _ _ j)
    · rw [idsOf_single hins]
      simpa using he

/-- A terminator that goes to a basic block. -/
theorem keepsUp_jump {info : StackInfo} {pre post : List IRInst} (hM : M.Traceable P)
    (h : M.Behind info pre (j :: post)) (ht : notTraced j = false)
    (hop : ∃ operands successors, j.op = .terminator operands successors)
    (hjump : ∀ bb, bb < P.bb2Ins.length → ThreadStep P tid (info :: infos) [.basicBlock tid bb]
      [M.idOf j] (⟨bb, info.bbID, 0⟩ :: infos))
    (hrest : List.Forall₂ (Waits M) rest infos)
    (hstep : CodeStep M.instrumented S t w ((.inst j :: post.flatMap M.around) :: rest) rs is w' frames') :
    KeepsUp M P tid (info :: infos) [] [] rs is frames' := by
  obtain ⟨-, -, -, -, hins, -⟩ := h.at hM ht
  obtain ⟨operands, successors, hop⟩ := hop
  cases hstep with
  | run hr hw =>
    rw [hop] at hr
    exact hr.elim
  | leave hj => cases hj.symm.trans hop
  | enter hj =>
    rw [hop] at hj
    exact hj.elim
  | callback hj =>
    rw [hop] at hj
    exact hj.elim
  | branch hj hmem hc hw =>
    obtain ⟨n, b, hb, rfl, href⟩ := instrumented_block hM.main hc
    refine ⟨[], info :: infos, [M.idOf j], [], .quiet, stands_blockCode hM.verified hb (fun he => ?_)
      (hjump n (hM.tables.lt_length hb)) hrest, fun ex done he => ?_⟩
    · obtain ⟨f, hf, -, e, hhead, he⟩ := mainEntry_eq he
      obtain ⟨b', hb', hj'⟩ := h.mem
      rw [← href, ← he] at hmem
      exact absurd hmem (hM.verified.entries f hf e hhead b' hb' j hj' _ _ hj)
    · rw [idsOf_single hins]
      simpa using he

/-- A return. -/
theorem keepsUp_ret {info : StackInfo} {pre post : List IRInst} (hM : M.Traceable P)
    (h : M.Behind info pre (j :: post)) (ht : notTraced j = false) (hop : ∃ v, j.op = .ret v)
    (hret : ThreadStep P tid (info :: infos) [] [M.idOf j] infos)
    (hrest : List.Forall₂ (Waits M) rest infos)
    (hstep : CodeStep M.instrumented S t w ((.inst j :: post.flatMap M.around) :: rest) rs is w' frames') :
    KeepsUp M P tid (info :: infos) [] [] rs is frames' := by
  obtain ⟨-, -, -, -, hins, -⟩ := h.at hM ht
  obtain ⟨v, hop⟩ := hop
  cases hstep with
  | run hr hw =>
    rw [hop] at hr
    exact hr.elim
  | branch hj => cases hj.symm.trans hop
  | enter hj =>
    rw [hop] at hj
    exact hj.elim
  | callback hj =>
    rw [hop] at hj
    exact hj.elim
  | leave hj hw =>
    refine ⟨[M.idOf j], infos, [], [], .silent hret, ?_, fun ex done he => ?_⟩
    · cases hrest with
      | nil => exact .idle
      | cons hwaits hrest =>
        obtain ⟨pre', post', hbehind, rfl⟩ := hwaits
        exact .run hbehind hrest
    · rw [idsOf_single hins]
      simpa using he

/-- A thread between two instructions. -/
theorem keepsUp_run {info : StackInfo} {pre post : List IRInst} (hM : M.Traceable P)
    (hS : S.Traced) (h : M.Behind info pre post)
    (hrest : List.Forall₂ (Waits M) rest infos)
    (hstep : CodeStep M.instrumented S t w (post.flatMap M.around :: rest) rs is w' frames') :
    KeepsUp M P tid (info :: infos) [] [] rs is frames' := by
  cases post with
  | nil =>
    rw [List.flatMap_nil] at hstep
    cases hstep
  | cons j post =>
    rw [List.flatMap_cons] at hstep
    by_cases ht : notTraced j = true
    · -- an untraced instruction has no id
      obtain ⟨b, hb, hj⟩ := h.mem
      rw [around_untraced hM.verified h.mem ht, List.singleton_append] at hstep
      obtain ⟨rfl, rfl, rfl⟩ := hstep.of_onlyRuns hS (onlyRuns_of_notTraced ht)
      refine ⟨[], info :: infos, [], [], .quiet, .run (h.skip ht) hrest, fun ex done he => ?_⟩
      have hnone := hM.verified.insID_eq_none hb hj ht
      simpa [IRModule.idsOf, hnone] using he
    · rw [Bool.not_eq_true] at ht
      obtain ⟨-, -, -, -, hins, -⟩ := h.at hM ht
      cases around_traced hM h ht with
      | silent hb ha hop hsilent =>
        rw [IRModule.around, hb, ha] at hstep
        obtain ⟨rfl, rfl, rfl⟩ := hstep.of_onlyRuns hS hop
        refine ⟨[M.idOf j], info.next :: infos, [], [], .silent (hsilent tid infos),
          .run (h.next ht) hrest, fun ex done he => ?_⟩
        rw [idsOf_single hins]
        simpa using he
      | before args r hb ha hop hargs hr =>
        rw [IRModule.around, hb, ha, List.append_assoc] at hstep
        exact keepsUp_before hM h ht ha hop hargs hr hrest hstep
      | after r hb ha hop hr =>
        rw [IRModule.around, hb, ha] at hstep
        obtain ⟨rfl, rfl, rfl⟩ := hstep.of_onlyRuns hS hop
        refine ⟨[], info :: infos, [M.idOf j], [], .quiet, .lagged h ht hr hrest, fun ex done he => ?_⟩
        rw [idsOf_single hins]
        simpa using he
      | call hb ha hop hcall =>
        rw [IRModule.around, hb, ha] at hstep
        exact keepsUp_call hM hS h ht hop (hcall tid infos) hrest hstep
      | jump hb ha hop hjump =>
        rw [IRModule.around, hb, ha] at hstep
        exact keepsUp_jump hM h ht hop (hjump tid infos) hrest hstep
      | ret hb ha hop hret =>
        rw [IRModule.around, hb, ha] at hstep
        exact keepsUp_ret hM h ht hop (hret tid infos) hrest hstep

/-- A thread in a basic block that is not announced yet. -/
theorem keepsUp_entering {last : Int} {pre phis post : List IRInst} {ds : List RecordCall}
    (hM : M.Traceable P) (hS : S.Traced) (hb : M.blocks[n]? = some b) (hsplit : b.insts = pre ++ phis ++ post)
    (hphis : ∀ i ∈ pre ++ phis, i.op.isPhi = true ∨ i.op.isLandingPad = true)
    (hds : ∀ r ∈ ds, r.IsDeclare) (hidle : ds ≠ [] → infos₀ = [])
    (h : ThreadStep P tid infos₀ [.basicBlock tid n] ids (⟨n, last, 0⟩ :: infos))
    (hrest : List.Forall₂ (Waits M) rest infos)
    (hstep : CodeStep C S t w ((ds.map Code.record ++ (phis.flatMap M.around ++
      .record (.basicBlock n) :: post.flatMap M.around)) :: rest) rs is w' frames') :
    KeepsUp M P tid infos₀ (ids ++ pre.map M.idOf) [] rs is frames' := by
  cases ds with
  | cons r ds =>
    obtain ⟨rfl, rfl, rfl⟩ := hstep.of_record
    obtain rfl := hidle (by simp)
    refine ⟨[], [], _, [], .declare (hds r List.mem_cons_self), .entering hb hsplit hphis
      (fun r hr => hds r (List.mem_cons_of_mem _ hr)) (fun _ => rfl) h hrest, fun ex done he => ?_⟩
    simpa using he
  | nil =>
    rw [List.map_nil, List.nil_append] at hstep
    cases phis with
    | cons i phis =>
      have hi := hphis i (List.mem_append_right _ List.mem_cons_self)
      rw [List.flatMap_cons, around_phi hi] at hstep
      obtain ⟨rfl, rfl, rfl⟩ := hstep.of_onlyRuns hS (onlyRuns_of_isPhi hi)
      have hphis' : ∀ k ∈ (pre ++ [i]) ++ phis, k.op.isPhi = true ∨ k.op.isLandingPad = true := by
        simpa using hphis
      have hsplit' : b.insts = (pre ++ [i]) ++ phis ++ post := by simpa using hsplit
      have hnone : ∀ r ∈ ([] : List RecordCall), r.IsDeclare := by simp
      have hS := Stands.entering hb hsplit' hphis' hnone (by simp) h hrest
      refine ⟨[], infos₀, _, [], .quiet, hS, fun ex done he => ?_⟩
      have hmem : i ∈ b.traced :=
        mem_traced.mpr ⟨by rw [hsplit']; simp, notTraced_of_isPhi hi⟩
      obtain ⟨id, -, hins, hid⟩ := hM.verified.exists_id (List.mem_of_getElem? hb) hmem
      rw [idsOf_single (by rw [hins, hid]), List.append_nil, List.append_nil, List.map_append]
      rw [List.append_nil] at he
      rw [he]
      simp
    | nil =>
      obtain ⟨rfl, rfl, rfl⟩ := hstep.of_record
      rw [List.append_nil] at hsplit hphis
      have hlt : n < 2 ^ 32 :=
        Nat.lt_of_lt_of_le (List.getElem?_eq_some_iff.mp hb).1 hM.blocks_le
      obtain ⟨info, hsteps, -, hbehind⟩ := threadSteps_phis hM hb hsplit hphis h
      refine ⟨ids ++ pre.map M.idOf, info :: infos, [], [], .event (.inr rfl) ?_,
        .run hbehind hrest, fun ex done he => ?_⟩
      · intro v eval hv
        have he : v.event tid = .basicBlock tid n := by
          simp [Invocation.event, hv, RecordCall.call, toNat_ofNat_id hlt]
        rw [he]
        exact hsteps
      · simpa using he

/-- **One step.** The tables keep up with every step of the instrumented program. -/
theorem Stands.step (hM : M.Traceable P)
    (hS : S.Traced) (h : Stands M P tid frames infos lag lead)
    (hstep : CodeStep M.instrumented S t w frames rs is w' frames') :
    KeepsUp M P tid infos lag lead rs is frames' := by
  cases h with
  | idle =>
    cases hstep with
    | spawn hc hw =>
      obtain ⟨n, b, f, hb, rfl, -⟩ := instrumented_entry hM.main hc
      exact ⟨[], [], [], [], .quiet, stands_blockCode hM.verified hb (fun _ => rfl)
        (.start n (hM.tables.lt_length hb)) .nil, fun ex done he => by simpa using he⟩
  | run hbehind hrest => exact keepsUp_run hM hS hbehind hrest hstep
  | before hbehind ht ha hop hargs hr hrest =>
    exact keepsUp_before hM hbehind ht ha hop hargs hr hrest hstep
  | led hbehind hins hop hrest =>
    obtain ⟨rfl, rfl, rfl⟩ := hstep.of_onlyRuns hS hop
    refine ⟨[], _, [], [], .quiet, .run hbehind hrest, fun ex done he => ?_⟩
    rw [idsOf_single hins]
    simpa using he
  | lagged hbehind ht hr hrest =>
    obtain ⟨rfl, rfl, rfl⟩ := hstep.of_record
    refine ⟨_, _, [], [], .event (.inl (by simp)) (fun v eval hv =>
      .tail .refl (hr.step v eval hv tid _)), .run (hbehind.next ht) hrest, fun ex done he => ?_⟩
    simpa using he
  | entering hb hsplit hphis hds hidle hpending hrest =>
    exact keepsUp_entering hM hS hb hsplit hphis hds hidle hpending hrest hstep

end

end Slimmer
