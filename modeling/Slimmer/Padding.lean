import Slimmer.Machine

/-!
# When padding is invisible to `MergeTrace`

The writer fills the rest of a block with `PlaceHolder` labels and ends the trace with an `End`
label. `GetEvent` leaves `tid_ptr` alone for both, and `MergeTrace` runs the thread it names
ahead once more. Running ahead is not idempotent: behind the call of an instrumented function
the thread has to wait for the callee's first basic block, but the second run takes it past the
call.

**Theorem (`mergeTrace_padded_iff`).** A padded trace gives the block trace of the events alone
exactly when every label is read while the thread it names is at rest (`AtRest`), and, should the
last label be the first of a block and `*tid_ptr` name no thread any more, no frame is left open.

At a label that is not at rest the merger emits a block that resumes the caller behind its call.
In the trace without padding the thread's next block cannot be that one: it lies in a new frame,
or belongs to an instruction with an event, or is an empty closing block (`Resumes`).
-/

namespace Slimmer

variable {T : Tables} {impactful : Nat → Bool}

/-! ## Padded traces -/

/-- The entries `xs` are the events `es` with labels in between. A label names the thread of the
entry before it, or, behind the end of a block, a thread of no event. -/
inductive Padded (foreign : Nat → Prop) : Option Nat → List Event → List Entry → Prop
  | nil {t} : Padded foreign t [] []
  | event {t e es xs} (h : Padded foreign (some e.tid) es xs) :
      Padded foreign t (e :: es) (.event e :: xs)
  | mark {t es xs} (m : Mark) (h : Padded foreign t es xs) :
      Padded foreign t es (.mark m t :: xs)
  | markFresh {t t' es xs} (m : Mark) (ht : foreign t') (h : Padded foreign (some t') es xs) :
      Padded foreign (some t) es (.mark m (some t') :: xs)

/-- A thread of no event of `es`. -/
def Foreign (es : List Event) (t : Nat) : Prop := ∀ e ∈ es, e.tid ≠ t

/-- A thread is at rest when its next instruction records an event, or its block is finished. -/
def AtRest (T : Tables) : List StackInfo → Prop
  | [] => True
  | info :: _ => ∃ bb, T.bb2Ins[info.bbID]? = some bb ∧
      scanEnd T (bb.drop info.curIndex) = some 0

instance (T : Tables) (stk : List StackInfo) : Decidable (AtRest T stk) :=
  match stk with
  | [] => .isTrue trivial
  | info :: _ => match h : T.bb2Ins[info.bbID]? with
    | none => .isFalse (by simp [AtRest, h])
    | some bb => decidable_of_iff (scanEnd T (bb.drop info.curIndex) = some 0) (by simp [AtRest, h])

/-- The condition on a label: it names a thread, and that thread is at rest. -/
def LabelOk (T : Tables) (s : MergeState) : Entry → Prop
  | .event _ => True
  | .mark _ t => ∃ tid, t = some tid ∧ AtRest T (s.callStack tid)

/-- The condition on the end of the trace: the closing loop sees the thread of the last event, or
has nothing to close. -/
def ClosingOk (es : List Event) (s : MergeState) : Prop :=
  s.tidPtr = es.getLast?.map Event.tid ∨ ∀ tid, s.callStack tid = []

/-! ## What running ahead emits -/

/-- `b` goes on from the middle of a basic block without an event. -/
def Resumes (b : SmallestBlock) : Prop :=
  b.type = .normalBlock ∧ 0 < b.start ∧ b.start < b.stop

/-- The frame is where running ahead leaves one: at rest or behind an instruction, and not at the
end of a function. -/
def Stopped (T : Tables) (info : StackInfo) : Prop :=
  ∃ bb, T.bb2Ins[info.bbID]? = some bb ∧ lastBB T bb info.curIndex = some false ∧
    (scanEnd T (bb.drop info.curIndex) = some 0 ∨ 0 < info.curIndex)

/-- Inversion of a turn of the inner loop: nothing to run through, a stop within the function, or
a return to the caller. -/
theorem runAhead_cons_eq_some {tid : Nat} {info : StackInfo} {rest stk : List StackInfo}
    {first first' : Nat × Nat} {bs : List SmallestBlock}
    (h : runAhead T tid (info :: rest) first = some (stk, first', bs)) :
    ∃ bb n, T.bb2Ins[info.bbID]? = some bb ∧ scanEnd T (bb.drop info.curIndex) = some n ∧
      ((n = 0 ∧ lastBB T bb info.curIndex = some false ∧ stk = info :: rest ∧ first' = first ∧
          bs = []) ∨
        (0 < n ∧ lastBB T bb (info.curIndex + n) = some false ∧
          stk = { info with curIndex := info.curIndex + n } :: rest ∧
          bs = [SmallestBlock.make .normalBlock tid info.bbID info.curIndex (info.curIndex + n)
            first info.lastBBID []]) ∨
        (0 < n ∧ ∃ (p : Nat × Nat) (bs' : List SmallestBlock),
          runAhead T tid rest (0, 0) = some (stk, first', bs') ∧
          bs = { SmallestBlock.make .normalBlock tid info.bbID info.curIndex (info.curIndex + n)
            first info.lastBBID [] with isLast := p.1, caller := p.2 } :: bs')) := by
  simp only [runAhead, Option.bind_eq_bind, Option.bind_eq_some_iff] at h
  obtain ⟨bb, hbb, n, hn, last, hlast, h⟩ := h
  refine ⟨bb, n, hbb, hn, ?_⟩
  split_ifs at h with hn0 hl hl
  · obtain ⟨p, -, h⟩ := Option.bind_eq_some_iff.mp h
    obtain ⟨⟨stk', first'', bs'⟩, hrun, h⟩ := Option.bind_eq_some_iff.mp h
    cases h
    exact Or.inr (Or.inr ⟨hn0, p, bs', hrun, rfl⟩)
  · cases h
    exact Or.inr (Or.inl ⟨hn0, by simpa [hl] using hlast, rfl, rfl⟩)
  · cases h
    have hz : n = 0 := by omega
    subst hz
    exact Or.inl ⟨rfl, by simpa [hl] using hlast, rfl, rfl, rfl⟩

/-- Running ahead leaves a stopped frame on top. -/
theorem stopped_of_runAhead {tid : Nat} :
    ∀ {stk stk' : List StackInfo} {first first' : Nat × Nat} {bs : List SmallestBlock},
      runAhead T tid stk first = some (stk', first', bs) →
      ∀ info ∈ stk'.head?, Stopped T info
  | [], _, _, _, _, h => by cases h; simp
  | info :: rest, _, _, _, _, h => by
    obtain ⟨bb, n, hbb, hn, ⟨rfl, hl, rfl, -, -⟩ | ⟨hn0, hl, rfl, -⟩ | ⟨-, p, bs', hrun, -⟩⟩ :=
      runAhead_cons_eq_some h
    · simpa using ⟨bb, hbb, hl, Or.inl hn⟩
    · simpa using ⟨bb, hbb, hl, Or.inr (show 0 < info.curIndex + n by omega)⟩
    · exact stopped_of_runAhead hrun

/-- At the start of a block, what running ahead emits first starts there too. -/
theorem runAhead_entry_blocks {tid : Nat} {info : StackInfo} {rest stk : List StackInfo}
    {first first' : Nat × Nat} {bs : List SmallestBlock} (hstart : info.curIndex = 0)
    (h : runAhead T tid (info :: rest) first = some (stk, first', bs)) :
    ∀ b ∈ bs.head?, b.start = 0 := by
  obtain ⟨bb, n, -, -, ⟨-, -, -, -, rfl⟩ | ⟨-, -, -, rfl⟩ | ⟨-, p, bs', -, rfl⟩⟩ :=
    runAhead_cons_eq_some h <;>
  simp [SmallestBlock.make, hstart]

/-- A thread at rest stays where it is. -/
theorem runAhead_of_atRest {stk : List StackInfo} (hrest : AtRest T stk)
    (hstop : ∀ info ∈ stk.head?, Stopped T info) (tid : Nat) (first : Nat × Nat) :
    runAhead T tid stk first = some (stk, first, []) := by
  cases stk with
  | nil => rfl
  | cons info rest =>
    obtain ⟨bb, hbb, hn⟩ := hrest
    obtain ⟨bb', hbb', hl, -⟩ := hstop info rfl
    cases hbb.symm.trans hbb'
    simp [runAhead, hbb, hn, hl]

/-- A thread that is not at rest goes on from the middle of its basic block. -/
theorem runAhead_of_not_atRest {tid : Nat} {stk stk' : List StackInfo} {first first' : Nat × Nat}
    {bs : List SmallestBlock} (hrest : ¬ AtRest T stk)
    (hstop : ∀ info ∈ stk.head?, Stopped T info)
    (h : runAhead T tid stk first = some (stk', first', bs)) :
    ∃ b bs', bs = b :: bs' ∧ Resumes b := by
  cases stk with
  | nil => exact absurd trivial hrest
  | cons info rest =>
    obtain ⟨bb, hbb, -, hpos⟩ := hstop info rfl
    obtain ⟨bb', n, hbb', hn, hcase⟩ := runAhead_cons_eq_some h
    cases hbb.symm.trans hbb'
    have hpos : 0 < info.curIndex := hpos.resolve_left fun h0 => hrest ⟨bb, hbb, h0⟩
    rcases hcase with ⟨rfl, -⟩ | ⟨hn0, -, -, rfl⟩ | ⟨hn0, p, bs', -, rfl⟩
    · exact absurd ⟨bb, hbb, hn⟩ hrest
    · exact ⟨_, [], rfl, rfl, hpos, by simp only [SmallestBlock.make]; omega⟩
    · exact ⟨_, bs', rfl, rfl, hpos, by simp only [SmallestBlock.make]; omega⟩

/-! ## What a turn of the main loop does -/

section

variable {s s' : MergeState} {tid : Nat}

theorem advance_eq_some (h : s.advance T tid = some s') :
    ∃ stk first bs, runAhead T tid (s.callStack tid) (s.isFirst tid) = some (stk, first, bs) ∧
      s' = { s with
        callStack := Function.update s.callStack tid stk
        isFirst := Function.update s.isFirst tid first
        blockTrace := s.blockTrace ++ bs } := by
  obtain ⟨⟨stk, first, bs⟩, hrun, h⟩ := Option.bind_eq_some_iff.mp h
  cases h
  exact ⟨stk, first, bs, hrun, rfl⟩

theorem instBlock_eq_some {type : SmallestBlockType} {id : Nat} {addr : List Nat}
    (h : s.instBlock T type tid id addr = some s') :
    ∃ info rest b, s.callStack tid = info :: rest ∧ b.type = type ∧
      s'.callStack = Function.update s.callStack tid (info.next :: rest) ∧
      s'.blockTrace = s.blockTrace ++ [b] ∧ s'.tids = s.tids ∧ s'.tidPtr = s.tidPtr := by
  unfold MergeState.instBlock at h
  split at h
  · cases h
  · rename_i info rest hcs
    simp only [Option.bind_eq_bind, Option.bind_eq_some_iff] at h
    obtain ⟨bb, -, insID, -, -, -, h⟩ := h
    cases h
    exact ⟨info, rest, _, hcs, rfl, rfl, rfl, rfl, rfl⟩

theorem enterBlock_eq_some {id : Nat} (h : s.enterBlock T tid id = some s') :
    ∃ last rest, s'.callStack = Function.update s.callStack tid (⟨id, last, 0⟩ :: rest) ∧
      s'.blockTrace = s.blockTrace ∧ s'.tidPtr = s.tidPtr ∧ (∀ t ∈ s.tids, t ∈ s'.tids) ∧
      (s.callStack tid = [] → tid ∈ s'.tids) := by
  unfold MergeState.enterBlock at h
  split at h
  · rename_i hcs
    cases h
    exact ⟨-1, [], rfl, rfl, rfl, fun t ht => mem_insertSorted.mpr (Or.inr ht),
      fun _ => mem_insertSorted.mpr (Or.inl rfl)⟩
  · rename_i info rest hcs
    obtain ⟨bb, -, h⟩ := Option.bind_eq_some_iff.mp h
    split_ifs at h
    · cases h
      exact ⟨_, _, rfl, rfl, rfl, fun t ht => ht, by simp [hcs]⟩
    · simp only [Option.bind_eq_bind, Option.bind_eq_some_iff] at h
      obtain ⟨-, -, caller, -, h⟩ := h
      cases h
      exact ⟨_, _, rfl, rfl, rfl, fun t ht => ht, by simp [hcs]⟩

/-- What the main loop does with an event before it runs ahead: the other threads' stacks are
kept, and at most one block is emitted, which is no `NormalBlock`. If none is, the loop goes on at
once, or the top frame is at the start of a block. -/
structure Dispatched (s s' : MergeState) (e : Event) : Prop where
  others : ∀ t, t ≠ e.tid → s'.callStack t = s.callStack t
  tids : (∀ t, s.callStack t ≠ [] → t ∈ s.tids) → ∀ t, s'.callStack t ≠ [] → t ∈ s'.tids
  tidPtr : s'.tidPtr = s.tidPtr
  continues : e.continues = true → s'.callStack = s.callStack
  blocks : (s'.blockTrace = s.blockTrace ∧ (e.continues = true ∨
      ∃ info rest, s'.callStack e.tid = info :: rest ∧ info.curIndex = 0)) ∨
    ∃ b, s'.blockTrace = s.blockTrace ++ [b] ∧ b.type ≠ .normalBlock

theorem dispatched_of_instBlock {type : SmallestBlockType} {id : Nat} {addr : List Nat}
    {e : Event} (he : e.continues = false) (hty : type ≠ .normalBlock)
    (h : s.instBlock T type e.tid id addr = some s') : Dispatched s s' e := by
  obtain ⟨info, rest, b, hcs, hb, hcs', hbt, htids, hptr⟩ := instBlock_eq_some h
  refine ⟨fun t ht => by simp [hcs', ht], fun hin t ht => ?_, hptr, by simp [he],
    Or.inr ⟨b, hbt, hb ▸ hty⟩⟩
  rw [htids]
  by_cases htt : t = e.tid
  · subst htt; exact hin _ (by simp [hcs])
  · exact hin t (by simpa [hcs', htt] using ht)

theorem dispatched_of_enterBlock {id : Nat} (h : s.enterBlock T tid id = some s') :
    Dispatched s s' (.basicBlock tid id) := by
  obtain ⟨last, rest, hcs', hbt, hptr, htids, hnew⟩ := enterBlock_eq_some h
  refine ⟨fun t ht => by simp [hcs', show t ≠ tid from ht], fun hin t ht => ?_, hptr,
    by simp [Event.continues],
    Or.inl ⟨hbt, Or.inr ⟨⟨id, last, 0⟩, rest, by simp [hcs', Event.tid], rfl⟩⟩⟩
  by_cases htt : t = tid
  · subst htt
    by_cases hcs : s.callStack t = []
    · exact hnew hcs
    · exact htids t (hin t hcs)
  · exact htids t (hin t (by simpa [hcs', htt] using ht))

theorem callBlockType_ne {impactful : Nat → Bool} {id addr : Nat} {type : SmallestBlockType}
    (h : callBlockType T impactful id addr = some type) : type ≠ .normalBlock := by
  unfold callBlockType at h
  split_ifs at h
  · cases h; simp
  · obtain ⟨i, -, rfl⟩ := Option.map_eq_some_iff.mp h
    split_ifs <;> simp

theorem dispatch_eq_some {e : Event} (h : s.dispatch T impactful e = some s') :
    Dispatched s s' e := by
  cases e with
  | argument tid addr =>
    cases h
    exact ⟨fun _ _ => rfl, fun hin => hin, rfl, fun _ => rfl, Or.inl ⟨rfl, Or.inl rfl⟩⟩
  | basicBlock tid id => exact dispatched_of_enterBlock h
  | memory tid id addr length =>
    simp only [MergeState.dispatch] at h
    split_ifs at h with hid
    · cases h
      exact ⟨fun _ _ => rfl, fun hin => hin, rfl, fun _ => rfl, Or.inr ⟨_, rfl, by simp⟩⟩
    · exact dispatched_of_instBlock (by simp [Event.continues, hid]) (by simp) h
  | ret tid id addr =>
    simp only [MergeState.dispatch, Option.bind_eq_bind, Option.bind_eq_some_iff] at h
    obtain ⟨type, hty, s₁, hs₁, h⟩ := h
    cases h
    have hd : Dispatched s s₁ (.ret tid id addr) :=
      dispatched_of_instBlock rfl (callBlockType_ne hty) hs₁
    exact ⟨hd.others, hd.tids, hd.tidPtr, hd.continues, hd.blocks⟩
  | memset tid id addr length => exact dispatched_of_instBlock rfl (by simp) h
  | memmove tid id addr addr2 length => exact dispatched_of_instBlock rfl (by simp) h

/-- Between two entries the top frame of every thread is stopped, and the threads with frames are
in the map. -/
structure Settled (T : Tables) (s : MergeState) : Prop where
  stopped : ∀ tid, ∀ info ∈ (s.callStack tid).head?, Stopped T info
  tids : ∀ tid, s.callStack tid ≠ [] → tid ∈ s.tids

theorem Settled.init : Settled T {} where
  stopped _ _ h := nomatch h
  tids _ h := absurd rfl h

/-- What a turn of the main loop does with an event: it keeps `Settled`, it keeps the other
threads' stacks, and the first block it emits does not resume. -/
structure EventStep (T : Tables) (s s' : MergeState) (tid : Nat) : Prop where
  settled : Settled T s → Settled T s'
  others : ∀ t, t ≠ tid → s'.callStack t = s.callStack t
  tidPtr : s'.tidPtr = some tid
  blocks : ∃ bs, s'.blockTrace = s.blockTrace ++ bs ∧ ∀ b ∈ bs.head?, ¬ Resumes b

theorem mergeStep_event {e : Event} (h : mergeStep T impactful s (.event e) = some s') :
    EventStep T s s' e.tid := by
  obtain ⟨s₁, hs₁, h⟩ := Option.bind_eq_some_iff.mp h
  have hd := dispatch_eq_some hs₁
  split_ifs at h with hc
  · cases h
    have hcs : s'.callStack = s.callStack := hd.continues hc
    refine ⟨fun hS => ⟨by rw [hcs]; exact hS.stopped, hd.tids hS.tids⟩, hd.others, hd.tidPtr, ?_⟩
    obtain ⟨hbt, -⟩ | ⟨b, hbt, hty⟩ := hd.blocks
    · exact ⟨[], by simpa using hbt, by simp⟩
    · exact ⟨[b], hbt, by simpa [Resumes] using fun h => absurd h hty⟩
  · obtain ⟨stk, first, bs, hrun, rfl⟩ := advance_eq_some h
    refine ⟨fun hS => ⟨fun t info hinfo => ?_, fun t ht => ?_⟩, fun t ht => ?_, hd.tidPtr, ?_⟩
    · by_cases htt : t = e.tid
      · subst htt
        exact stopped_of_runAhead hrun info (by simpa using hinfo)
      · exact hS.stopped t info (by simpa [htt, hd.others t htt] using hinfo)
    · by_cases htt : t = e.tid
      · subst htt
        refine hd.tids hS.tids _ fun hnil => ?_
        rw [hnil] at hrun
        cases hrun
        simp at ht
      · exact hd.tids hS.tids t (by simpa [htt] using ht)
    · simpa [ht] using hd.others t ht
    · obtain ⟨hbt, h0⟩ | ⟨b, hbt, hty⟩ := hd.blocks
      · obtain ⟨info, rest, hcs, hstart⟩ := h0.resolve_left hc
        rw [hcs] at hrun
        refine ⟨bs, by simp [hbt], fun b hb hres => ?_⟩
        exact hres.2.1.ne' (runAhead_entry_blocks hstart hrun b hb)
      · exact ⟨b :: bs, by simp [hbt], by simpa [Resumes] using fun h => absurd h hty⟩

/-- A turn of the main loop on a label. -/
theorem mergeStep_mark {m : Mark} {t : Option Nat}
    (h : mergeStep T impactful s (.mark m t) = some s') :
    ∃ tid stk first bs, t = some tid ∧
      runAhead T tid (s.callStack tid) (s.isFirst tid) = some (stk, first, bs) ∧
      s'.blockTrace = s.blockTrace ++ bs := by
  obtain ⟨tid, rfl, h⟩ := Option.bind_eq_some_iff.mp h
  obtain ⟨stk, first, bs, hrun, rfl⟩ := advance_eq_some h
  exact ⟨tid, stk, first, bs, rfl, hrun, rfl⟩

/-- A label that names a thread at rest only sets `tid_ptr`. -/
theorem mergeStep_mark_of_atRest (impactful : Nat → Bool) (hS : Settled T s) (m : Mark)
    {tid : Nat} (hrest : AtRest T (s.callStack tid)) (p : Option Nat) :
    mergeStep T impactful { s with tidPtr := p } (.mark m (some tid)) =
      some { s with tidPtr := some tid } := by
  have hrun := runAhead_of_atRest hrest (hS.stopped tid) tid (s.isFirst tid)
  simp [mergeStep, MergeState.advance, hrun]

end

/-! ## Whole traces -/

section

variable {s s' u u' : MergeState} {es : List Event} {xs : List Entry}

/-- What a run over events does, read off its steps. -/
theorem run_events : ∀ {es : List Event} {s s' : MergeState},
    run (mergeStep T impactful) s (es.map .event) = some s' →
      (∃ bs, s'.blockTrace = s.blockTrace ++ bs ∧ ∀ b ∈ bs.head?, ¬ Resumes b) ∧
      (Settled T s → Settled T s') ∧
      (∀ t, Foreign es t → s'.callStack t = s.callStack t) ∧
      s'.tidPtr = es.getLast?.elim s.tidPtr fun e => some e.tid
  | [], s, s', h => by
    cases h
    exact ⟨⟨[], by simp, by simp⟩, fun hS => hS, fun _ _ => rfl, rfl⟩
  | e :: es, s, s', h => by
    obtain ⟨s₁, h₁, h₂⟩ := run_cons_eq_some.mp h
    have hstep := mergeStep_event h₁
    obtain ⟨⟨bs', hbt', hbs'⟩, hset, hcs, hptr⟩ := run_events h₂
    obtain ⟨bs, hbt, hbs⟩ := hstep.blocks
    refine ⟨⟨bs ++ bs', by rw [hbt', hbt, List.append_assoc], ?_⟩, fun hS => hset (hstep.settled hS),
      fun t ht => ?_, ?_⟩
    · cases bs with
      | nil => exact hbs'
      | cons b bs => exact hbs
    · rw [hcs t fun e he => ht e (List.mem_cons_of_mem _ he),
        hstep.others t (ht e List.mem_cons_self).symm]
    · rw [hptr, hstep.tidPtr, List.getLast?_cons]
      cases es.getLast? <;> rfl

/-- A run over any entries only appends to the blocks. -/
theorem run_blocks : ∀ {xs : List Entry} {s s' : MergeState},
    run (mergeStep T impactful) s xs = some s' → ∃ bs, s'.blockTrace = s.blockTrace ++ bs
  | [], s, s', h => by cases h; exact ⟨[], by simp⟩
  | x :: xs, s, s', h => by
    obtain ⟨s₁, h₁, h₂⟩ := run_cons_eq_some.mp h
    obtain ⟨bs', hbt'⟩ := run_blocks h₂
    obtain ⟨bs, hbt⟩ : ∃ bs, s₁.blockTrace = s.blockTrace ++ bs := by
      cases x with
      | event e =>
        obtain ⟨bs, hbt, -⟩ := (mergeStep_event h₁).blocks
        exact ⟨bs, hbt⟩
      | mark m t =>
        obtain ⟨-, -, -, bs, -, -, hbt⟩ := mergeStep_mark h₁
        exact ⟨bs, hbt⟩
    exact ⟨bs ++ bs', by rw [hbt', hbt, List.append_assoc]⟩

/-- Labels that are all read at rest leave the run over the events as it is, but for the thread
`tid_ptr` names at the end: it is that of the last event, or one of no event. -/
theorem run_of_labelOk {foreign : Nat → Prop} {p : Option Nat} (hpad : Padded foreign p es xs) :
    ∀ {u u' : MergeState}, Settled T u →
      run (mergeStep T impactful) u (es.map .event) = some u' →
      RunOk (mergeStep T impactful) (LabelOk T) { u with tidPtr := p } xs →
      ∃ q, run (mergeStep T impactful) { u with tidPtr := p } xs = some { u' with tidPtr := q } ∧
        ((q = es.getLast?.elim p fun e => some e.tid) ∨ ∃ t, q = some t ∧ foreign t) := by
  induction hpad with
  | @nil p =>
    intro u u' _ hu _
    cases hu
    exact ⟨p, rfl, Or.inl rfl⟩
  | @event p e es xs _ ih =>
    intro u u' hS hu hok
    obtain ⟨u₁, h₁, h₂⟩ := run_cons_eq_some.mp hu
    have hstep := mergeStep_event h₁
    -- the event sets `tid_ptr`, so the two runs meet
    have hmeet : { u₁ with tidPtr := some e.tid } = u₁ := by rw [← hstep.tidPtr]
    have hp : mergeStep T impactful { u with tidPtr := p } (.event e) = some u₁ := h₁
    obtain ⟨q, hq, hqt⟩ := ih (hstep.settled hS) h₂ (by rw [hmeet]; exact hok.tail hp)
    rw [hmeet] at hq
    refine ⟨q, run_cons_eq_some.mpr ⟨u₁, hp, hq⟩, hqt.imp_left fun h => ?_⟩
    rw [h, List.getLast?_cons]
    cases es.getLast? <;> rfl
  | @mark p es xs m _ ih =>
    intro u u' hS hu hok
    obtain ⟨tid, rfl, hrest⟩ := hok.head
    have hm := mergeStep_mark_of_atRest impactful hS m hrest (some tid)
    obtain ⟨q, hq, hqt⟩ := ih hS hu (hok.tail hm)
    exact ⟨q, run_cons_eq_some.mpr ⟨_, hm, hq⟩, hqt⟩
  | @markFresh t t' es xs m ht' _ ih =>
    intro u u' hS hu hok
    obtain ⟨tid, htid, hrest⟩ := hok.head
    cases htid
    have hm := mergeStep_mark_of_atRest impactful hS m hrest (some t)
    obtain ⟨q, hq, hqt⟩ := ih hS hu (hok.tail hm)
    refine ⟨q, run_cons_eq_some.mpr ⟨_, hm, hq⟩, ?_⟩
    rcases hqt with h | h
    · cases hl : es.getLast? with
      | none => exact Or.inr ⟨t', by simpa [hl] using h, ht'⟩
      | some e => exact Or.inl (by simpa [hl] using h)
    · exact Or.inr h

/-- A label that is not read at rest shows in the blocks: the run over the events alone goes on
with a block that does not resume. -/
theorem atRest_of_blocks {m : Mark} {tid : Nat} {p : Option Nat} {s₁ : MergeState}
    {c l : List SmallestBlock} (hS : Settled T u)
    (hu : run (mergeStep T impactful) u (es.map .event) = some u')
    (hm : mergeStep T impactful { u with tidPtr := p } (.mark m (some tid)) = some s₁)
    (hrun : run (mergeStep T impactful) s₁ xs = some s')
    (heq : s'.blockTrace ++ l = u'.blockTrace ++ c) (hc : ∀ b ∈ c.head?, ¬ Resumes b) :
    AtRest T (u.callStack tid) := by
  by_contra hrest
  obtain ⟨t, stk, first, bs, ht, hahead, hbt₁⟩ := mergeStep_mark hm
  cases ht
  obtain ⟨b, bs', rfl, hb⟩ := runAhead_of_not_atRest hrest (hS.stopped tid) hahead
  obtain ⟨bs₂, hbt₂⟩ := run_blocks hrun
  obtain ⟨⟨bs₃, hbt₃, hbs₃⟩, -⟩ := run_events hu
  have hnext : b :: (bs' ++ bs₂ ++ l) = bs₃ ++ c := by
    rw [hbt₂, hbt₁, hbt₃] at heq
    simpa using heq
  cases bs₃ with
  | nil => exact hc b (by rw [List.nil_append] at hnext; rw [← hnext]; rfl) hb
  | cons b' bs₃ =>
    obtain ⟨rfl, -⟩ := List.cons.inj hnext
    exact hbs₃ b rfl hb

/-- If the blocks of the padded run and those of the run over the events can be completed to the
same block trace, every label is read at rest. -/
theorem labelOk_of_blocks {foreign : Nat → Prop} {p : Option Nat} (hpad : Padded foreign p es xs) :
    ∀ {u u' s' : MergeState} {c l : List SmallestBlock}, Settled T u →
      run (mergeStep T impactful) u (es.map .event) = some u' →
      run (mergeStep T impactful) { u with tidPtr := p } xs = some s' →
      s'.blockTrace ++ l = u'.blockTrace ++ c → (∀ b ∈ c.head?, ¬ Resumes b) →
      RunOk (mergeStep T impactful) (LabelOk T) { u with tidPtr := p } xs := by
  induction hpad with
  | nil => exact fun _ _ _ _ _ => RunOk.nil _
  | @event p e es xs _ ih =>
    intro u u' s' c l hS hu hs heq hc
    obtain ⟨u₁, h₁, h₂⟩ := run_cons_eq_some.mp hu
    obtain ⟨u₁', h₁', hrun⟩ := run_cons_eq_some.mp hs
    have hp : mergeStep T impactful { u with tidPtr := p } (.event e) = some u₁ := h₁
    cases hp.symm.trans h₁'
    have hstep := mergeStep_event h₁
    have hmeet : { u₁ with tidPtr := some e.tid } = u₁ := by rw [← hstep.tidPtr]
    have hok := ih (hstep.settled hS) h₂ (by rw [hmeet]; exact hrun) heq hc
    rw [hmeet] at hok
    refine RunOk.cons trivial fun u₂ hu₂ => ?_
    cases hp.symm.trans hu₂
    exact hok
  | @mark p es xs m _ ih =>
    intro u u' s' c l hS hu hs heq hc
    obtain ⟨s₁, h₁, hrun⟩ := run_cons_eq_some.mp hs
    obtain ⟨tid, -, -, -, rfl, -⟩ := mergeStep_mark h₁
    have hrest := atRest_of_blocks hS hu h₁ hrun heq hc
    have hm := mergeStep_mark_of_atRest impactful hS m hrest (some tid)
    cases hm.symm.trans h₁
    refine RunOk.cons ⟨tid, rfl, hrest⟩ fun s₂ hs₂ => ?_
    cases hm.symm.trans hs₂
    exact ih hS hu hrun heq hc
  | @markFresh t t' es xs m _ _ ih =>
    intro u u' s' c l hS hu hs heq hc
    obtain ⟨s₁, h₁, hrun⟩ := run_cons_eq_some.mp hs
    have hrest := atRest_of_blocks hS hu h₁ hrun heq hc
    have hm := mergeStep_mark_of_atRest impactful hS m hrest (some t)
    cases hm.symm.trans h₁
    refine RunOk.cons ⟨t', rfl, hrest⟩ fun s₂ hs₂ => ?_
    cases hm.symm.trans hs₂
    exact ih hS hu hrun heq hc

/-! ## Closing -/

theorem closeThread_blocks {tid : Nat} {last : StackInfo → Option Int} :
    ∀ {stk : List StackInfo} {bs : List SmallestBlock},
      closeThread T tid last stk = some bs → ∀ b ∈ bs, ¬ Resumes b
  | [], _, h => by cases h; simp
  | info :: rest, _, h => by
    simp only [closeThread, Option.bind_eq_bind, Option.bind_eq_some_iff] at h
    obtain ⟨lastBBID, -, p, -, bs, hbs, h⟩ := h
    cases h
    intro b hb
    rcases List.mem_cons.mp hb with rfl | hb
    · exact fun hres => absurd hres.2.2 (lt_irrefl _)
    · exact closeThread_blocks hbs b hb

theorem closeThreads_blocks {p : Option Nat} :
    ∀ {tids : List Nat} {cs : Nat → List StackInfo} {bs : List SmallestBlock},
      closeThreads T p cs tids = some bs → ∀ b ∈ bs, ¬ Resumes b
  | [], _, _, h => by cases h; simp
  | tid :: tids, cs, _, h => by
    simp only [closeThreads, Option.bind_eq_bind, Option.bind_eq_some_iff] at h
    obtain ⟨bs, hbs, bs', hbs', h⟩ := h
    cases h
    intro b hb
    rcases List.mem_append.mp hb with hb | hb
    · exact closeThread_blocks hbs b hb
    · exact closeThreads_blocks hbs' b hb

/-- With `*tid_ptr` a thread without frames, the closing loop only ends well if it finds no
frame. -/
theorem closeThreads_foreign {t : Nat} :
    ∀ {tids : List Nat} {cs : Nat → List StackInfo} {bs : List SmallestBlock}, cs t = [] →
      closeThreads T (some t) cs tids = some bs → ∀ tid ∈ tids, cs tid = []
  | [], _, _, _, _ => by simp
  | tid :: tids, cs, _, ht, h => by
    simp only [closeThreads, Option.bind_eq_bind, Option.bind_eq_some_iff] at h
    obtain ⟨bs, hbs, bs', hbs', -⟩ := h
    have htid : cs tid = [] := by
      cases hcs : cs tid with
      | nil => rfl
      | cons info rest =>
        have hne : t ≠ tid := by
          rintro rfl
          simp [ht] at hcs
        rw [hcs] at hbs
        simp [closeThread, hne, ht] at hbs
    have hupd : Function.update cs tid [] = cs := by rw [← htid, Function.update_eq_self]
    rw [hupd] at hbs'
    intro t' ht'
    rcases List.mem_cons.mp ht' with rfl | ht'
    · exact htid
    · exact closeThreads_foreign ht hbs' t' ht'

/-- **When padding is invisible.** On a trace whose events alone give the block trace `bt`, the
padded trace gives `bt` too if and only if every label is read while the thread it names is at
rest, and the closing loop sees the thread of the last event or has nothing to close. -/
theorem mergeTrace_padded_iff (T : Tables) (impactful : Nat → Bool) {es : List Event}
    {xs : List Entry} {bt : List SmallestBlock} (hpad : Padded (Foreign es) none es xs)
    (hbt : mergeTrace T impactful (es.map .event) = some bt) :
    mergeTrace T impactful xs = some bt ↔
      RunOk (mergeStep T impactful) (LabelOk T) {} xs ∧
        ∀ s, run (mergeStep T impactful) {} xs = some s → ClosingOk es s := by
  have hS : Settled T {} := ⟨by simp, by simp⟩
  obtain ⟨u, hu, c, hc, rfl⟩ : ∃ u, run (mergeStep T impactful) {} (es.map .event) = some u ∧
      ∃ c, closeThreads T u.tidPtr u.callStack u.tids = some c ∧ u.blockTrace ++ c = bt := by
    simpa [mergeTrace, Option.bind_eq_some_iff] using hbt
  obtain ⟨-, hset, hcs, hptr⟩ := run_events hu
  have hok_run := run_of_labelOk hpad hS hu
  constructor
  · intro h
    obtain ⟨s, hs, l, hl, heq⟩ : ∃ s, run (mergeStep T impactful) {} xs = some s ∧
        ∃ l, closeThreads T s.tidPtr s.callStack s.tids = some l ∧
          s.blockTrace ++ l = u.blockTrace ++ c := by
      simpa [mergeTrace, Option.bind_eq_some_iff] using h
    have hcb : ∀ b ∈ c.head?, ¬ Resumes b :=
      fun b hb => closeThreads_blocks hc b (List.mem_of_mem_head? hb)
    have hok := labelOk_of_blocks hpad hS hu hs heq hcb
    refine ⟨hok, fun s' hs' => ?_⟩
    obtain ⟨q, hq, hqt⟩ := hok_run hok
    cases hq.symm.trans hs'
    cases hq.symm.trans hs
    rcases hqt with rfl | ⟨t, rfl, ht⟩
    · exact Or.inl (by cases es.getLast? <;> rfl)
    · refine Or.inr fun tid => ?_
      by_contra hne
      exact hne (closeThreads_foreign (hcs t ht) hl tid ((hset hS).tids tid hne))
  · rintro ⟨hok, hclose⟩
    obtain ⟨q, hq, -⟩ := hok_run hok
    have hlast : u.tidPtr = es.getLast?.map Event.tid := by
      rw [hptr]
      cases es.getLast? <;> rfl
    rcases hclose _ hq with hq' | hempty
    · have hqu : q = u.tidPtr := hq'.trans hlast.symm
      subst hqu
      simp [mergeTrace, hq, hc]
    · have hnil : u.callStack = fun _ => [] := funext hempty
      have hcnil : c = [] := by
        rw [hnil, closeThreads_of_empty] at hc
        exact (Option.some.inj hc).symm
      simp [mergeTrace, hq, hnil, closeThreads_of_empty, hcnil]

end

/-! The label between a call and the callee's first event. -/

/-- `f` calls `g` and goes on with one more instruction. -/
def paddingTables : Tables where
  ins := [{ type := .callInst, fn := "g" }, { type := .normalInst }, { type := .returnInst },
    { type := .returnInst }]
  bb2Ins := [[0, 1, 2], [3]]

/-- The condition at a trace whose only label is behind the last event. -/
theorem mergeTrace_padded_iff_end :
    ∃ bt, mergeTrace paddingTables (fun _ => false)
        ([.basicBlock 7 0, .basicBlock 7 1].map .event) = some bt ∧
      (mergeTrace paddingTables (fun _ => false)
          [.event (.basicBlock 7 0), .event (.basicBlock 7 1), .mark .endEvent (some 7)] =
            some bt ↔
        RunOk (mergeStep paddingTables fun _ => false) (LabelOk paddingTables) {}
            [.event (.basicBlock 7 0), .event (.basicBlock 7 1), .mark .endEvent (some 7)] ∧
          ∀ s, run (mergeStep paddingTables fun _ => false) {}
              [.event (.basicBlock 7 0), .event (.basicBlock 7 1), .mark .endEvent (some 7)] =
                some s →
            ClosingOk [.basicBlock 7 0, .basicBlock 7 1] s) :=
  ⟨_, rfl, mergeTrace_padded_iff paddingTables (fun _ => false)
    (.event (.event (.mark _ .nil))) rfl⟩

/-- The label at the end of a block that is full after the call of `g` makes the merger run past
the call: `f` returns before `g` starts. -/
theorem mergeTrace_padding_visible :
    Padded (Foreign [.basicBlock 7 0, .basicBlock 7 1]) none [.basicBlock 7 0, .basicBlock 7 1]
        [.event (.basicBlock 7 0), .mark .placeHolder (some 7), .event (.basicBlock 7 1)] ∧
      ∃ bt, mergeTrace paddingTables (fun _ => false)
          ([.basicBlock 7 0, .basicBlock 7 1].map .event) = some bt ∧
        mergeTrace paddingTables (fun _ => false)
          [.event (.basicBlock 7 0), .mark .placeHolder (some 7), .event (.basicBlock 7 1)] ≠
            some bt := by
  refine ⟨.event (.mark _ (.event .nil)), _, rfl, ?_⟩
  decide

end Slimmer
