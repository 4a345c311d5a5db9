import Slimmer.InstrumentedSteps

/-!
# What `MergeTrace` makes of the trace of an instrumented program

An instrumented program (`InstrumentedRuns`) calls the record functions; `MergeTrace` reads the events
they record, with the tables it loads from the file of the pass (`InstrumentedTables`).

**Theorem (`instrumented_merges`).** In every run of the instrumented program, in any interleaving, no
assert of `MergeTrace` fails on the events; and when all threads have run to completion, the blocks of
each thread hold the ids of exactly the traced instructions the thread executed.

The run is followed by three machines: the runtime with its `local_tid`s, the stack machine over the
tables, which stands where `Stands` says, and the merger, which `Tracks` the stack machine.

A call through a pointer is written as the call of an instrumented function, so it must not leave the
module; what is called outside must not call back, because the return of the call is recorded before the
call; and `main`, whose first block declares the globals, must not be called (`Semantics.Traced`).
-/

namespace Slimmer

/-- The records of the module can be read: the numbers are in range, and no name has a space. -/
def IRModule.Readable (M : IRModule) : Prop :=
  ∀ rs, M.records = some rs →
    InRange M.instrumentedFun rs ∧ ∀ r ∈ rs, IsWord (r.cls.fn M.instrumentedFun).toList

/-! ## The thread ids -/

/-- The `local_tid`s after some calls. -/
def tidsAfter (localTid : UInt64 → UInt64) (calls : List Invocation) : UInt64 → UInt64 :=
  calls.foldl (fun lt v => v.localTid lt) localTid

section

variable {localTid : UInt64 → UInt64} {t u : UInt64} {v : Invocation}

theorem recordedEvents_append (calls calls' : List Invocation) :
    recordedEvents localTid (calls ++ calls') =
      recordedEvents localTid calls ++ recordedEvents (tidsAfter localTid calls) calls' := by
  induction calls generalizing localTid with
  | nil => rfl
  | cons v calls ih =>
    rw [List.cons_append, recordedEvents, ih, recordedEvents, List.cons_append]
    rfl

theorem tidsAfter_append (calls calls' : List Invocation) :
    tidsAfter localTid (calls ++ calls') = tidsAfter (tidsAfter localTid calls) calls' :=
  List.foldl_append

/-- A call leaves the ids of the other threads alone. -/
theorem localTid_of_ne (hne : u ≠ v.thread) : v.localTid localTid u = localTid u := by
  unfold Invocation.localTid
  cases v.call with
  | basicBlock id =>
    dsimp only
    split_ifs
    · exact Function.update_of_ne hne _ _
    · rfl
  | _ => rfl

/-- A thread that has its id keeps it. -/
theorem localTid_of_set (hne : v.thread ≠ 0) (h : localTid v.thread = v.thread) :
    v.localTid localTid = localTid := by
  unfold Invocation.localTid
  cases v.call with
  | basicBlock id =>
    dsimp only
    rw [if_neg (by rwa [h])]
  | _ => rfl

/-- The first basic block gives a thread its id. -/
theorem localTid_of_basicBlock {id : UInt32} (hcall : v.call = .basicBlock id)
    (h : localTid v.thread = v.thread ∨ localTid v.thread = 0) :
    v.localTid localTid v.thread = v.thread := by
  unfold Invocation.localTid
  rw [hcall]
  dsimp only
  split_ifs with hzero
  · exact Function.update_self _ _ _
  · exact h.resolve_right hzero

end

/-! ## The merger -/

section

variable {P : Program} {m : MergeState} {th : Nat → List StackInfo} {ex : Nat → List Nat} {tid : Nat}
  {t : UInt64} {stk : List StackInfo} {ids : List Nat} {impactful : Nat → Bool}
  {localTid : UInt64 → UInt64}

theorem Tracks.steps (hT : Tracks P m th ex) (impactful : Nat → Bool) {es : List Event}
    (h : ThreadSteps P tid (th tid) es ids stk) :
    ∃ m', run (mergeStep P.toTables impactful) m (es.map .event) = some m' ∧
      Tracks P m' (Function.update th tid stk) (Function.update ex tid (ex tid ++ ids)) := by
  generalize hstk : th tid = start at h
  induction h with
  | refl =>
    refine ⟨m, rfl, ?_⟩
    rw [← hstk, List.append_nil, Function.update_eq_self, Function.update_eq_self]
    exact hT
  | @tail mid _ _ _ _ _ _ hstep ih =>
    obtain ⟨m₁, hrun, hT₁⟩ := ih
    have hmid : Function.update th tid mid tid = mid := Function.update_self _ _ _
    obtain ⟨m₂, hrun', hT₂⟩ := hT₁.step impactful (by rw [hmid]; exact hstep)
    refine ⟨m₂, ?_, ?_⟩
    · rw [List.map_append]
      exact run_append_eq_some.mpr ⟨m₁, hrun, hrun'⟩
    · rw [Function.update_idem, Function.update_idem, Function.update_self, List.append_assoc] at hT₂
      exact hT₂

/-- A global is declared by a thread that has no id yet or no frame. -/
theorem Tracks.declare (hT : Tracks P m th ex) (impactful : Nat → Bool)
    (hidle : tid = 0 ∨ th tid = []) (addr length : Nat) :
    ∃ m', run (mergeStep P.toTables impactful) m [.event (.memory tid noId addr length)] = some m' ∧
      Tracks P m' th ex := by
  let b : SmallestBlock := { type := .declareBlock, addr := addrRange addr length }
  have hblocks : ∀ t, executedBy P.toTables (m.blockTrace ++ [b]) t =
      executedBy P.toTables m.blockTrace t := by
    intro t
    rw [executedBy_append]
    simp [executedBy, b]
  by_cases hzero : tid = 0
  · refine ⟨{ m with tidPtr := some tid, blockTrace := m.blockTrace ++ [b] }, ?_, hT.stack,
      hT.callStack, fun t => ?_⟩
    · simp [run, mergeStep, MergeState.dispatch, Event.continues, Event.tid, hzero, b]
    · rw [hblocks, hT.blocks]
  · -- the merger runs the thread ahead, which has no frame
    have hth : th tid = [] := hidle.resolve_left hzero
    have hcs : m.callStack tid = [] := by rw [hT.callStack, hth]; rfl
    let m₁ : MergeState := { m with tidPtr := some tid, blockTrace := m.blockTrace ++ [b] }
    have hcs₁ : m₁.callStack = Function.update m.callStack tid [] := by
      rw [← hcs, Function.update_eq_self]
    have hbt₁ : ∀ t, executedBy P.toTables m₁.blockTrace t =
        executedBy P.toTables m.blockTrace t ++ if t = tid then [] else [] := by
      intro t
      rw [ite_self, List.append_nil]
      exact hblocks t
    have hids : (ahead P.toTables (th tid)).1 ++ [] = [] := by rw [hth]; rfl
    obtain ⟨m', hadv, hT'⟩ := hT.advance [] (show P.StackOk [] from trivial) hcs₁ hbt₁ hids
    rw [List.append_nil, Function.update_eq_self, ← hth, Function.update_eq_self] at hT'
    exact ⟨m', run_event (by simp [MergeState.dispatch, m₁, b, Event.tid]) (by simp [Event.continues, hzero])
      hadv, hT'⟩

/-- What the tables do on the record calls of a step, the merger does too. -/
theorem Tracks.made (hT : Tracks P m th ex) (impactful : Nat → Bool) {rs : List RecordCall}
    (h : Made P t.toNat (th t.toNat) rs ids stk) (ht : t ≠ 0)
    (hlt : localTid t = t ∨ localTid t = 0 ∧ th t.toNat = []) (mem : UInt64 → UInt8)
    (eval : IRValue → UInt64) {calls : List Invocation}
    (hcalls : calls = rs.map fun r => ⟨t, mem, r.call eval⟩) :
    (∃ m', run (mergeStep P.toTables impactful) m ((recordedEvents localTid calls).map .event) =
        some m' ∧
      Tracks P m' (Function.update th t.toNat stk)
        (Function.update ex t.toNat (ex t.toNat ++ ids))) ∧
      (tidsAfter localTid calls t = t ∨ tidsAfter localTid calls t = 0 ∧ stk = []) ∧
      ∀ u, u ≠ t → tidsAfter localTid calls u = localTid u := by
  generalize hth : th t.toNat = infos at h hlt
  cases h with
  | quiet =>
    subst hcalls
    refine ⟨⟨m, rfl, ?_⟩, hlt, fun u _ => rfl⟩
    rw [← hth, List.append_nil, Function.update_eq_self, Function.update_eq_self]
    exact hT
  | silent hstep =>
    subst hcalls
    obtain ⟨m', hrun, hT'⟩ := hT.step impactful (by rw [hth]; exact hstep)
    refine ⟨⟨m', hrun, hT'⟩, .inl ?_, fun u _ => rfl⟩
    exact hlt.resolve_right fun hlt => by simp at hlt
  | @event _ r _ _ hr hsteps =>
    have hcalls' : calls = [⟨t, mem, r.call eval⟩] := hcalls
    subst hcalls'
    have hself : Invocation.localTid ⟨t, mem, r.call eval⟩ localTid t = t := by
      rcases hr with hne | hblock
      · have hset := hlt.resolve_right fun hlt => hne hlt.2
        rw [localTid_of_set (v := ⟨t, mem, r.call eval⟩) ht hset, hset]
      · cases r with
        | basicBlock bb =>
          exact localTid_of_basicBlock (v := ⟨t, mem, RecordCall.call eval (.basicBlock bb)⟩) rfl
            (hlt.imp id And.left)
        | _ => cases hblock
    have hevents : recordedEvents localTid [⟨t, mem, r.call eval⟩] =
        [Invocation.event ⟨t, mem, r.call eval⟩ t.toNat] := by
      rw [recordedEvents, hself]
      rfl
    rw [hevents]
    obtain ⟨m', hrun, hT'⟩ := hT.steps impactful
      (by rw [hth]; exact hsteps ⟨t, mem, r.call eval⟩ eval rfl)
    exact ⟨⟨m', hrun, hT'⟩, .inl hself, fun u hu => localTid_of_ne hu⟩
  | declare hr =>
    obtain ⟨addr, length, rfl⟩ := hr
    have hcalls' : calls = [⟨t, mem, .memory (UInt32.ofNat noId) (eval addr) (eval length)⟩] := hcalls
    subst hcalls'
    have hid : (UInt32.ofNat noId).toNat = noId := toNat_ofNat_id (by decide)
    have hevents : recordedEvents localTid
        [⟨t, mem, .memory (UInt32.ofNat noId) (eval addr) (eval length)⟩] =
          [.memory (localTid t).toNat noId (eval addr).toNat (eval length).toNat] := by
      simp [recordedEvents, Invocation.localTid, Invocation.event, hid]
    rw [hevents]
    have hidle : (localTid t).toNat = 0 ∨ th (localTid t).toNat = [] := by
      rcases hlt with hlt | ⟨hlt, -⟩
      · right
        rw [hlt, hth]
      · left
        rw [hlt]
        rfl
    obtain ⟨m', hrun, hT'⟩ := hT.declare impactful hidle (eval addr).toNat (eval length).toNat
    refine ⟨⟨m', hrun, ?_⟩, ?_, fun u _ => rfl⟩
    · rw [List.append_nil, ← hth, Function.update_eq_self, Function.update_eq_self]
      exact hT'
    · exact hlt.imp id fun hlt => ⟨hlt.1, rfl⟩

end

/-! ## The run -/

/-- The merger has read the events of the run so far. -/
structure MergedSoFar {σ : Type*} (M : IRModule) (P : Program) (impactful : Nat → Bool) (s : RunState σ)
    (m : MergeState) (th : Nat → List StackInfo) (ex : Nat → List Nat) : Prop where
  merged : run (mergeStep P.toTables impactful) {}
    ((recordedEvents (fun _ => 0) s.calls).map .event) = some m
  tracks : Tracks P m th ex
  stands : ∀ t : UInt64, ∃ lag lead, Stands M P t.toNat (s.frames t) (th t.toNat) lag lead ∧
    M.idsOf (s.executed t) ++ lead = ex t.toNat ++ lag
  localTid : ∀ t : UInt64, tidsAfter (fun _ => 0) s.calls t = t ∨
    tidsAfter (fun _ => 0) s.calls t = 0 ∧ th t.toNat = []
  others : ∀ n, (∀ t : UInt64, t.toNat ≠ n) → th n = [] ∧ ex n = []

section

variable {M : IRModule} {P : Program} {σ : Type*} {S : Semantics σ} {s s' : RunState σ}
  {m : MergeState} {th : Nat → List StackInfo} {ex : Nat → List Nat} {impactful : Nat → Bool}

theorem MergedSoFar.init (w₀ : σ) : MergedSoFar M P impactful { world := w₀ } {} (fun _ => []) fun _ => [] where
  merged := rfl
  tracks := ⟨fun _ => trivial, fun _ => rfl, fun _ => rfl⟩
  stands _ := ⟨[], [], .idle, rfl⟩
  localTid _ := .inr ⟨rfl, rfl⟩
  others _ _ := ⟨rfl, rfl⟩

theorem MergedSoFar.step (hM : M.Traceable P) (hS : S.Traced) (h : MergedSoFar M P impactful s m th ex)
    (hstep : Steps M.instrumented S s s') :
    ∃ m' th' ex', MergedSoFar M P impactful s' m' th' ex' := by
  cases hstep with
  | @step t rs is w stk ht hstep =>
    obtain ⟨lag, lead, hstands, hcount⟩ := h.stands t
    obtain ⟨ids, infos', lag', lead', hmade, hstands', hcount'⟩ := hstands.step hM hS hstep
    obtain ⟨⟨m', hrun, hT'⟩, hself, hothers⟩ := h.tracks.made impactful hmade ht (h.localTid t)
      (S.mem s.world) (S.value s.world t) rfl
    refine ⟨m', _, _, ?_, hT', fun u => ?_, fun u => ?_, fun n hn => ?_⟩
    · rw [RunState.moved, recordedEvents_append, List.map_append]
      exact run_append_eq_some.mpr ⟨m, h.merged, hrun⟩
    · by_cases hu : u = t
      · subst hu
        refine ⟨lag', lead', ?_, ?_⟩
        · simpa [RunState.moved] using hstands'
        · simpa [RunState.moved] using hcount' _ _ hcount
      · have hu' : u.toNat ≠ t.toNat := fun he => hu (UInt64.toNat_inj.mp he)
        simpa [RunState.moved, hu, hu'] using h.stands u
    · rw [RunState.moved, tidsAfter_append]
      by_cases hu : u = t
      · subst hu
        simpa using hself
      · have hu' : u.toNat ≠ t.toNat := fun he => hu (UInt64.toNat_inj.mp he)
        rw [hothers u hu, Function.update_of_ne hu']
        exact h.localTid u
    · rw [Function.update_of_ne (hn t).symm, Function.update_of_ne (hn t).symm]
      exact h.others n hn

theorem MergedSoFar.run (hM : M.Traceable P) (hS : S.Traced) (impactful : Nat → Bool) {w₀ : σ}
    (hrun : RunsTo M.instrumented S w₀ s) : ∃ m th ex, MergedSoFar M P impactful s m th ex := by
  induction hrun with
  | refl => exact ⟨{}, _, _, MergedSoFar.init w₀⟩
  | tail _ hstep ih =>
    obtain ⟨m, th, ex, h⟩ := ih
    exact h.step hM hS hstep

/-- The merger has nothing left to close when all threads have run to completion. -/
theorem MergedSoFar.done (h : MergedSoFar M P impactful s m th ex) (hdone : ∀ t, s.frames t = []) :
    mergeTrace P.toTables impactful ((recordedEvents (fun _ => 0) s.calls).map .event) =
        some m.blockTrace ∧
      (∀ t : UInt64, executedBy P.toTables m.blockTrace t.toNat = M.idsOf (s.executed t)) ∧
      ∀ n, (∀ t : UInt64, t.toNat ≠ n) → executedBy P.toTables m.blockTrace n = [] := by
  have hthread : ∀ t : UInt64, th t.toNat = [] ∧ M.idsOf (s.executed t) = ex t.toNat := by
    intro t
    obtain ⟨lag, lead, hstands, hcount⟩ := h.stands t
    rw [hdone] at hstands
    generalize hth : th t.toNat = infos at hstands
    cases hstands
    exact ⟨rfl, by simpa using hcount⟩
  have hall : ∀ n, th n = [] := by
    intro n
    by_cases hn : ∃ t : UInt64, t.toNat = n
    · obtain ⟨t, rfl⟩ := hn
      exact (hthread t).1
    · exact (h.others n fun t ht => hn ⟨t, ht⟩).1
  have hcs : m.callStack = fun _ => [] :=
    funext fun n => by rw [h.tracks.callStack, hall]; rfl
  refine ⟨?_, fun t => ?_, fun n hn => ?_⟩
  · simp [mergeTrace, h.merged, hcs, closeThreads_of_empty]
  · rw [h.tracks.blocks, hall, (hthread t).2]
    simp [ahead]
  · rw [h.tracks.blocks, hall, (h.others n hn).2]
    simp [ahead]

/-! ## The whole way -/

/-- The numbers of a module that can be read. -/
theorem IRModule.Readable.lengths (hM : M.Verified) (hread : M.Readable) {rs : List InstRecord}
    (hrs : M.records = some rs) : M.insts.length ≤ noId ∧ M.blocks.length ≤ 2 ^ 32 := by
  have hin := (hread rs hrs).1
  constructor
  · by_contra hlt
    have hlast : noId < rs.length := by rw [length_records hrs]; exact not_le.mp hlt
    have := (hin noId _ (List.getElem?_eq_getElem hlast)).1.id_lt
    unfold noId at this
    omega
  · by_contra hlt
    have hb := List.getElem?_eq_getElem (not_le.mp hlt)
    obtain ⟨body, last, htraced, -⟩ := hM.traced_eq (List.mem_of_getElem? hb)
    have hmem : 2 ^ 32 ∈ M.numbered.map Prod.fst := by
      refine List.mem_map.mpr ⟨(2 ^ 32, last), List.mem_flatMap.mpr ⟨(_, 2 ^ 32),
        List.mem_zipIdx_iff_getElem?.mpr hb, List.mem_map.mpr ⟨last, ?_, rfl⟩⟩, rfl⟩
      rw [htraced]
      simp
    rw [← map_bb_records hrs] at hmem
    obtain ⟨r, hr, hbb⟩ := List.mem_map.mp hmem
    obtain ⟨id, hid⟩ := List.mem_iff_getElem?.mp hr
    have := (hin id r hid).1.bb_lt
    omega

/-- The tables of a module that can be read are those of a program. -/
theorem IRModule.Readable.traceable (hread : M.Readable) (hM : M.Verified) {d : InfoDir}
    (hd : M.infoDir = some d) (halloc : ∀ name ∈ M.instrumentedFun, name ∉ allocFunctions) :
    ∃ P : Program, d.tables = some P.toTables ∧ M.Traceable P := by
  obtain ⟨entry, hmain, hd⟩ := Option.bind_eq_some_iff.mp hd
  obtain ⟨rs, hrs, rfl⟩ := Option.map_eq_some_iff.mp hd
  obtain ⟨hin, hw⟩ := hread rs hrs
  obtain ⟨l, hload, hT⟩ := tablesOf_loaded hM hrs hw hin
  obtain ⟨hins, hblocks⟩ := hread.lengths hM hrs
  refine ⟨hT.program hM hins, ?_, hM, by rw [hmain]; rfl, hT, hblocks, halloc⟩
  rw [InfoDir.tables, hload]
  rfl

/-- **`MergeTrace` reads the trace of an instrumented program.** In every run, in any interleaving of
the threads, it accepts the events recorded so far; and when all threads have run to completion, the
blocks of each thread hold the ids of the traced instructions it executed. -/
theorem instrumented_merges (hM : M.Verified) {d : InfoDir} (hd : M.infoDir = some d)
    (hread : M.Readable) (halloc : ∀ name ∈ M.instrumentedFun, name ∉ allocFunctions)
    (hS : S.Traced) (impactful : Nat → Bool) {w₀ : σ} (hrun : RunsTo M.instrumented S w₀ s) :
    ∃ T, d.tables = some T ∧
      (∃ m, Slimmer.run (mergeStep T impactful) {}
        ((recordedEvents (fun _ => 0) s.calls).map .event) = some m) ∧
      ((∀ t, s.frames t = []) →
        ∃ bt, mergeTrace T impactful ((recordedEvents (fun _ => 0) s.calls).map .event) = some bt ∧
          ∀ t : UInt64, executedBy T bt t.toNat = M.idsOf (s.executed t)) := by
  obtain ⟨P, hT, htraceable⟩ := hread.traceable hM hd halloc
  obtain ⟨m, th, ex, h⟩ := MergedSoFar.run htraceable hS impactful hrun
  refine ⟨P.toTables, hT, ⟨m, h.merged⟩, fun hdone => ?_⟩
  obtain ⟨hmerge, hexec, -⟩ := h.done hdone
  exact ⟨m.blockTrace, hmerge, hexec⟩

end

/-! `main` loads from an address, calls `g` and returns; `g` returns at once. -/

def callModule : IRModule where
  globals := []
  functions := [⟨"g", [⟨20, [{ ref := 21, op := .ret none }]⟩]⟩,
    ⟨"main", [⟨10, [{ ref := 11, op := .load (.const 4096) },
      { ref := 12, op := .call (.function "g") [] (.const 64) }, { ref := 13, op := .ret none }]⟩]⟩]

/-- Every load and every call but that of `main` succeeds. -/
def callSemantics : Semantics Unit where
  eval _ _ _ := 0
  mem _ _ := 0
  readable _ _ := False
  run _ _ i _ := ∃ ptr, i.op = .load ptr
  branch _ _ _ _ _ := False
  enter _ _ _ name _ := name ≠ "main"
  callback _ _ _ _ _ := False
  leave _ _ _ _ := True
  spawn _ _ _ _ := True

theorem callModule_ops : ∀ b ∈ callModule.blocks, ∀ i ∈ b.insts, i.op = .ret none ∨
    i.op = .load (.const 4096) ∨ i.op = .call (.function "g") [] (.const 64) := by
  decide

theorem callModule_verified : callModule.Verified where
  insts_nodup := by decide
  blocks_nodup := by decide
  ends b hb := by
    have hblocks : b ∈ [_, _] := hb
    rw [List.mem_cons, List.mem_singleton] at hblocks
    rcases hblocks with rfl | rfl
    · exact ⟨[], _, rfl, rfl, by decide⟩
    · exact ⟨[_, _], _, rfl, rfl, by decide⟩
  entries f hf e he b hb i hi operands successors hop := by
    rcases callModule_ops b hb i hi with h | h | h <;> cases h.symm.trans hop
  names b hb i hi name args fn hop := by
    rcases callModule_ops b hb i hi with h | h | h <;> cases h.symm.trans hop
    decide
  args b hb i hi := by
    rcases callModule_ops b hb i (mem_traced.mp hi).1 with h | h | h <;> rw [h]
    · trivial
    · trivial
    · exact ⟨by decide, by decide⟩

theorem callModule_readable : callModule.Readable := by
  intro rs hrs
  have hrs' : callModule.records = some [{ bb := 0, cls := .ret true [] },
      { bb := 1, operands := [.constant], cls := .load },
      { bb := 1, operands := [.constant], cls := .call (.function "g") },
      { bb := 1, cls := .ret true [] }] := by decide
  obtain rfl := Option.some.inj (hrs.symm.trans hrs')
  refine ⟨fun i r hr => ?_, by decide⟩
  rcases i with _ | _ | _ | _ | i <;> cases hr
  · exact ⟨⟨by decide, by decide, ⟨by decide, by simp, by decide⟩, ⟨fits_nil, fits_nil⟩⟩, fun _ h => by
      rcases h with h | h <;> cases h⟩
  · exact ⟨⟨by decide, by decide, ⟨by decide, by simp, by decide⟩, ⟨fits_nil, fits_nil⟩⟩, fun _ h => by
      rcases h with h | h <;> cases h⟩
  · exact ⟨⟨by decide, by decide, ⟨by decide, by simp, by decide⟩, ⟨fits_nil, fits_nil⟩⟩, fun _ _ => by
      decide⟩
  · exact ⟨⟨by decide, by decide, ⟨by decide, by simp, by decide⟩, ⟨fits_nil, fits_nil⟩⟩, fun _ h => by
      rcases h with h | h <;> cases h⟩

theorem callSemantics_traced : callSemantics.Traced where
  pointer := by
    rintro w t w' i args fn hop ⟨ptr, hload⟩
    cases hload.symm.trans hop
  main _ _ _ _ h := h rfl
  callback _ _ _ _ _ h := h

/-- What thread 7 records in the run of `callModule`. -/
def callCalls : List Invocation :=
  [⟨7, fun _ => 0, .basicBlock 1⟩, ⟨7, fun _ => 0, .memory 1 4096 8⟩, ⟨7, fun _ => 0, .basicBlock 0⟩]

theorem callModule_run : ∃ s, RunsTo callModule.instrumented callSemantics () s ∧
    (∀ t, s.frames t = []) ∧ callModule.idsOf (s.executed 7) = [1, 2, 0, 3] ∧ s.calls = callCalls := by
  have ht : (7 : UInt64) ≠ 0 := by decide
  have h : RunsAlone callModule.instrumented callSemantics () 7 () [] [] [] := .init
  have h := h.step ht () (.spawn (show callModule.instrumented.entry "main" = some _ from rfl) trivial)
  have h := h.step ht () (.record fun _ => False.elim)
  have h := h.step ht () (.run trivial ⟨_, rfl⟩)
  have h := h.step ht () (.record fun _ => False.elim)
  have h := h.step ht () (.enter rfl (show callModule.instrumented.entry "g" = some _ from rfl)
    (show "g" ≠ "main" by decide))
  have h := h.step ht () (.record fun _ => False.elim)
  have h := h.step ht () (.leave rfl trivial)
  have h := h.step ht () (.leave rfl trivial)
  obtain ⟨s, hrun, -, hframes, hexec, hcalls⟩ := h
  refine ⟨s, hrun, fun t => ?_, ?_, hcalls⟩
  · rw [hframes, Function.update_eq_self]
  · rw [hexec]
    decide

/-- The trace of `callModule`. -/
theorem instrumented_merges_call : ∃ s T bt, RunsTo callModule.instrumented callSemantics () s ∧
    (callModule.infoDir.bind InfoDir.tables) = some T ∧
    mergeTrace T (fun _ => false) ((recordedEvents (fun _ => 0) s.calls).map .event) = some bt ∧
      executedBy T bt 7 = [1, 2, 0, 3] := by
  obtain ⟨s, hrun, hdone, hids, -⟩ := callModule_run
  obtain ⟨d, hd⟩ : ∃ d, callModule.infoDir = some d := ⟨_, rfl⟩
  obtain ⟨T, hT, -, hmerge⟩ := instrumented_merges callModule_verified hd callModule_readable
    (by decide) callSemantics_traced (fun _ => false) hrun
  obtain ⟨bt, hbt, hexec⟩ := hmerge hdone
  exact ⟨s, T, bt, hrun, by rw [hd]; exact hT, hbt, (hexec 7).trans hids⟩

end Slimmer
