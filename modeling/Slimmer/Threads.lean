import Slimmer.Padding

/-!
# The threads of a merged trace

The main loop of `MergeTrace` treats each thread by itself: what it does with an event depends on the
`ThreadView` of the event's thread and changes no other view (`mergeStep_local`). So a run over the
events of all threads is, for every thread, the run over the events of that thread alone.

The loop that closes the frames left open writes `call_stack[*tid_ptr].back().LastBBID` into the
blocks of all threads, where `*tid_ptr` is the thread of the last event.

**Theorem (`threads_independent_iff`).** The threads do not interfere if and only if the other
threads that are left open come before the thread of the last event, which is left open too, and all
their frames have the `LastBBID` of its top frame (`ClosesAlike`).
-/

namespace Slimmer

/-- The blocks of a thread; a declaration belongs to none. -/
def blocksOf (bt : List SmallestBlock) (tid : Nat) : List SmallestBlock :=
  bt.filter fun b => b.type ≠ .declareBlock ∧ b.tid = tid

/-- The blocks of all threads. -/
def executedBlocks (bt : List SmallestBlock) : List SmallestBlock :=
  bt.filter fun b => b.type ≠ .declareBlock

/-- What `MergeTrace` makes of a thread in the trace `es` is what it makes of its events alone. -/
def ThreadsIndependent (T : Tables) (impactful : Nat → Bool) (es : List Event) : Prop :=
  ∃ bt, mergeTrace T impactful (es.map .event) = some bt ∧ ∀ tid, ∃ bt',
    mergeTrace T impactful ((es.filter fun e => e.tid = tid).map .event) = some bt' ∧
      blocksOf bt tid = executedBlocks bt'

/-- `stack` are the frames left open and `t` is the thread of the last event. The other threads left
open come before `t`, and their frames have the `LastBBID` of its top frame. -/
def ClosesAlike (stack : Nat → List StackInfo) (t : Nat) : Prop :=
  ∀ tid, tid ≠ t → ∀ info ∈ stack tid,
    tid < t ∧ (stack t).head?.map StackInfo.lastBBID = some info.lastBBID

/-- What the main loop keeps for a thread. -/
structure ThreadView where
  args : List Nat
  callStack : List StackInfo
  isFirst : Nat × Nat
  blocks : List SmallestBlock

def MergeState.view (s : MergeState) (tid : Nat) : ThreadView :=
  ⟨s.args tid, s.callStack tid, s.isFirst tid, blocksOf s.blockTrace tid⟩

section

variable {T : Tables} {impactful : Nat → Bool} {s s' s₁ u : MergeState} {tid t : Nat}
  {bs bs' : List SmallestBlock}

/-! ## The main loop -/

theorem blocksOf_append (bs bs' : List SmallestBlock) (tid : Nat) :
    blocksOf (bs ++ bs') tid = blocksOf bs tid ++ blocksOf bs' tid := List.filter_append ..

theorem blocksOf_of_ne (h : ∀ b ∈ bs, b.type = .declareBlock ∨ b.tid = tid) (hne : t ≠ tid) :
    blocksOf bs t = [] := by
  apply List.filter_eq_nil_iff.mpr
  intro b hb
  rcases h b hb with htype | htid
  · simp [htype]
  · simp [htid, hne.symm]

/-- The operation `f` changes the view of one thread only, by what it finds there. -/
structure LocalStep (f : MergeState → Option MergeState) (tid : Nat) (s s' : MergeState) : Prop where
  others : ∀ t, t ≠ tid → s'.view t = s.view t
  same : ∀ u, u.view tid = s.view tid → ∃ u', f u = some u' ∧ u'.view tid = s'.view tid

theorem LocalStep.comp {f g : MergeState → Option MergeState} (hf : LocalStep f tid s s₁)
    (hg : LocalStep g tid s₁ s') : LocalStep (fun s => (f s).bind g) tid s s' := by
  refine ⟨fun t ht => (hg.others t ht).trans (hf.others t ht), fun u hu => ?_⟩
  rcases hf.same u hu with ⟨u₁, hu₁, hview⟩
  rcases hg.same u₁ hview with ⟨u', hu', hview'⟩
  exact ⟨u', by rw [hu₁]; exact hu', hview'⟩

/-- An operation that writes what it finds in the view back into it, and appends blocks. -/
theorem LocalStep.of_writes {f : MergeState → Option MergeState} (args : List Nat)
    (stk : List StackInfo) (first : Nat × Nat) (bs : List SmallestBlock)
    (hbs : ∀ b ∈ bs, b.type = .declareBlock ∨ b.tid = tid)
    (hf : ∀ u, u.view tid = s.view tid → ∃ u', f u = some u' ∧
      u'.args = Function.update u.args tid args ∧
      u'.callStack = Function.update u.callStack tid stk ∧
      u'.isFirst = Function.update u.isFirst tid first ∧ u'.blockTrace = u.blockTrace ++ bs)
    (hs : f s = some s') : LocalStep f tid s s' := by
  rcases hf s rfl with ⟨v, hv, hargs, hstk, hfirst, hbt⟩
  cases hs.symm.trans hv
  constructor
  · intro t ht
    unfold MergeState.view
    rw [hargs, hstk, hfirst, hbt, blocksOf_append, blocksOf_of_ne hbs ht, List.append_nil,
      Function.update_of_ne ht, Function.update_of_ne ht, Function.update_of_ne ht]
  · intro u hu
    rcases hf u hu with ⟨u', hu', hargs', hstk', hfirst', hbt'⟩
    refine ⟨u', hu', ?_⟩
    have hblocks : blocksOf u.blockTrace tid = blocksOf s.blockTrace tid :=
      congrArg ThreadView.blocks hu
    unfold MergeState.view
    rw [hargs, hstk, hfirst, hbt, hargs', hstk', hfirst', hbt', blocksOf_append, blocksOf_append,
      hblocks]
    simp only [Function.update_self]

theorem view_callStack (h : u.view tid = s.view tid) : u.callStack tid = s.callStack tid :=
  congrArg ThreadView.callStack h

theorem view_isFirst (h : u.view tid = s.view tid) : u.isFirst tid = s.isFirst tid :=
  congrArg ThreadView.isFirst h

theorem view_args (h : u.view tid = s.view tid) : u.args tid = s.args tid :=
  congrArg ThreadView.args h

theorem runAhead_tid :
    ∀ {stk stk' : List StackInfo} {first first' : Nat × Nat} {bs : List SmallestBlock},
      runAhead T tid stk first = some (stk', first', bs) → ∀ b ∈ bs, b.tid = tid
  | [], _, _, _, _, h => by
    cases h
    simp
  | info :: rest, _, _, _, _, h => by
    rcases runAhead_cons_eq_some h with
      ⟨bb, n, -, -, ⟨-, -, -, -, rfl⟩ | ⟨-, -, -, rfl⟩ | ⟨-, p, bs', hrun, rfl⟩⟩
    · simp
    · simp [SmallestBlock.make]
    · intro b hb
      rcases List.mem_cons.mp hb with rfl | hb
      · rfl
      · exact runAhead_tid hrun b hb

theorem advance_local (h : s.advance T tid = some s') :
    LocalStep (fun s => s.advance T tid) tid s s' := by
  rcases advance_eq_some h with ⟨stk, first, bs, hrun, -⟩
  refine .of_writes (s.args tid) stk first bs (fun b hb => Or.inr (runAhead_tid hrun b hb))
    (fun u hu => ?_) h
  rw [← view_callStack hu, ← view_isFirst hu] at hrun
  rw [← view_args hu, Function.update_eq_self]
  have hadvance : u.advance T tid = some { u with
      callStack := Function.update u.callStack tid stk
      isFirst := Function.update u.isFirst tid first
      blockTrace := u.blockTrace ++ bs } := by
    simp only [MergeState.advance, hrun]
    rfl
  exact ⟨_, hadvance, rfl, rfl, rfl, rfl⟩

theorem instBlock_local {type : SmallestBlockType} {id : Nat} {addr : List Nat}
    (h : s.instBlock T type tid id addr = some s') :
    LocalStep (fun s => s.instBlock T type tid id addr) tid s s' := by
  have hs := h
  unfold MergeState.instBlock at hs
  split at hs
  · cases hs
  · rename_i info rest hcs
    simp only [Option.bind_eq_bind, Option.bind_eq_some_iff] at hs
    rcases hs with ⟨bb, hbb, insID, hins, _, hguard, -⟩
    refine .of_writes (s.args tid) (info.next :: rest) (0, 0) [SmallestBlock.make type tid info.bbID
      info.curIndex (info.curIndex + 1) (s.isFirst tid) info.lastBBID addr] ?_ (fun u hu => ?_) h
    · intro b hb
      rw [List.mem_singleton.mp hb]
      exact Or.inr rfl
    · rw [← view_callStack hu] at hcs
      rw [← view_args hu, ← view_isFirst hu, Function.update_eq_self]
      have hblock : u.instBlock T type tid id addr = some { u with
          callStack := Function.update u.callStack tid (info.next :: rest)
          isFirst := Function.update u.isFirst tid (0, 0)
          blockTrace := u.blockTrace ++ [SmallestBlock.make type tid info.bbID info.curIndex
            (info.curIndex + 1) (u.isFirst tid) info.lastBBID addr] } := by
        simp only [MergeState.instBlock, hcs, hbb, hins, hguard, Option.bind_eq_bind,
          Option.bind_some]
        rfl
      exact ⟨_, hblock, rfl, rfl, rfl, rfl⟩

theorem enterBlock_local {id : Nat} (h : s.enterBlock T tid id = some s') :
    LocalStep (fun s => s.enterBlock T tid id) tid s s' := by
  have hs := h
  unfold MergeState.enterBlock at hs
  split at hs
  · rename_i hcs
    refine .of_writes (s.args tid) [⟨id, -1, 0⟩] (2, 0) [] (by simp) (fun u hu => ?_) h
    rw [← view_callStack hu] at hcs
    rw [← view_args hu, Function.update_eq_self]
    have henter : u.enterBlock T tid id = some { u with
        tids := insertSorted tid u.tids
        isFirst := Function.update u.isFirst tid (2, 0)
        callStack := Function.update u.callStack tid [⟨id, -1, 0⟩] } := by
      simp only [MergeState.enterBlock, hcs]
    exact ⟨_, henter, rfl, rfl, rfl, (List.append_nil _).symm⟩
  · rename_i info rest hcs
    rcases Option.bind_eq_some_iff.mp hs with ⟨bb, hbb, hs⟩
    by_cases hlen : bb.length ≤ info.curIndex
    · refine .of_writes (s.args tid) (⟨id, info.bbID, 0⟩ :: rest) (0, 0) [] (by simp)
        (fun u hu => ?_) h
      rw [← view_callStack hu] at hcs
      rw [← view_args hu, Function.update_eq_self]
      have henter : u.enterBlock T tid id = some { u with
          isFirst := Function.update u.isFirst tid (0, 0)
          callStack := Function.update u.callStack tid (⟨id, info.bbID, 0⟩ :: rest) } := by
        simp only [MergeState.enterBlock, hcs, hbb, Option.bind_eq_bind, Option.bind_some,
          if_pos hlen]
      exact ⟨_, henter, rfl, rfl, rfl, (List.append_nil _).symm⟩
    · rw [if_neg hlen] at hs
      simp only [Option.bind_eq_bind, Option.bind_eq_some_iff] at hs
      rcases hs with ⟨_, hguard, caller, hcaller, -⟩
      refine .of_writes (s.args tid) (⟨id, -1, 0⟩ :: info :: rest) (1, caller) [] (by simp)
        (fun u hu => ?_) h
      rw [← view_callStack hu] at hcs
      rw [← view_args hu, Function.update_eq_self]
      have henter : u.enterBlock T tid id = some { u with
          isFirst := Function.update u.isFirst tid (1, caller)
          callStack := Function.update u.callStack tid (⟨id, -1, 0⟩ :: info :: rest) } := by
        simp only [MergeState.enterBlock, hcs, hbb, Option.bind_eq_bind, Option.bind_some,
          if_neg hlen, hguard, hcaller]
      exact ⟨_, henter, rfl, rfl, rfl, (List.append_nil _).symm⟩

theorem dispatch_local {e : Event} (h : s.dispatch T impactful e = some s') :
    LocalStep (fun s => s.dispatch T impactful e) e.tid s s' := by
  cases e with
  | argument tid addr =>
    show LocalStep _ tid s s'
    refine .of_writes (insertSorted addr (s.args tid)) (s.callStack tid) (s.isFirst tid) [] (by simp)
      (fun u hu => ?_) h
    rw [← view_args hu, ← view_callStack hu, ← view_isFirst hu]
    have hdispatch : u.dispatch T impactful (.argument tid addr) = some { u with
        args := Function.update u.args tid (insertSorted addr (u.args tid)) } := rfl
    exact ⟨_, hdispatch, rfl, (Function.update_eq_self _ _).symm,
      (Function.update_eq_self _ _).symm, (List.append_nil _).symm⟩
  | basicBlock tid id => exact enterBlock_local h
  | memory tid id addr length =>
    simp only [MergeState.dispatch] at h ⊢
    show LocalStep _ tid s s'
    by_cases hid : id = noId
    · simp only [if_pos hid] at h ⊢
      refine .of_writes (s.args tid) (s.callStack tid) (s.isFirst tid)
        [{ type := .declareBlock, addr := addrRange addr length }] ?_ (fun u hu => ?_) h
      · intro b hb
        rw [List.mem_singleton.mp hb]
        exact Or.inl rfl
      · rw [← view_args hu, ← view_callStack hu, ← view_isFirst hu]
        exact ⟨_, rfl, (Function.update_eq_self _ _).symm, (Function.update_eq_self _ _).symm,
          (Function.update_eq_self _ _).symm, rfl⟩
    · simp only [if_neg hid] at h ⊢
      exact instBlock_local h
  | ret tid id addr =>
    simp only [MergeState.dispatch, Option.bind_eq_bind, Option.bind_eq_some_iff] at h
    rcases h with ⟨type, htype, s₁, hs₁, hs'⟩
    have hblock : LocalStep (fun u => u.instBlock T type tid id (addr :: u.args tid)) tid s s₁ := by
      refine ⟨(instBlock_local hs₁).others, fun u hu => ?_⟩
      rw [view_args hu]
      exact (instBlock_local hs₁).same u hu
    have hclear : LocalStep (fun u => some { u with args := Function.update u.args tid [] }) tid s₁
        s' := by
      refine .of_writes [] (s₁.callStack tid) (s₁.isFirst tid) [] (by simp) (fun u hu => ?_) hs'
      rw [← view_callStack hu, ← view_isFirst hu]
      exact ⟨_, rfl, rfl, (Function.update_eq_self _ _).symm, (Function.update_eq_self _ _).symm,
        (List.append_nil _).symm⟩
    have hboth := hblock.comp hclear
    refine ⟨hboth.others, fun u hu => ?_⟩
    rcases hboth.same u hu with ⟨u', hu', hview⟩
    exact ⟨u', by simp only [MergeState.dispatch, htype, Option.bind_eq_bind, Option.bind_some];
                  exact hu', hview⟩
  | memset tid id addr length => exact instBlock_local h
  | memmove tid id addr addr2 length => exact instBlock_local h

/-- **A turn of the main loop** concerns the thread of its event only. -/
theorem mergeStep_local {e : Event} (h : mergeStep T impactful s (.event e) = some s') :
    LocalStep (fun s => mergeStep T impactful s (.event e)) e.tid s s' := by
  rcases Option.bind_eq_some_iff.mp h with ⟨s₁, hs₁, h⟩
  have hptr : LocalStep (fun u => some { u with tidPtr := some e.tid }) e.tid s
      { s with tidPtr := some e.tid } :=
    ⟨fun _ _ => rfl, fun u hu => ⟨_, rfl, hu⟩⟩
  have hdispatch := hptr.comp (dispatch_local hs₁)
  by_cases hc : e.continues
  · rw [if_pos hc] at h
    cases h
    refine ⟨hdispatch.others, fun u hu => ?_⟩
    rcases hdispatch.same u hu with ⟨u', hu', hview⟩
    refine ⟨u', ?_, hview⟩
    replace hu' : MergeState.dispatch T impactful { u with tidPtr := some e.tid } e = some u' := hu'
    simp only [mergeStep, hu', Option.bind_eq_bind, Option.bind_some, if_pos hc]
  · rw [if_neg hc] at h
    have hboth := hdispatch.comp (advance_local h)
    refine ⟨hboth.others, fun u hu => ?_⟩
    rcases hboth.same u hu with ⟨u', hu', hview⟩
    refine ⟨u', ?_, hview⟩
    simp only [mergeStep, if_neg hc]
    exact hu'

/-- **The run over a thread's events alone** gives the thread the view it has in the whole run, and
no other thread a view. -/
theorem run_alone {es : List Event} (h : run (mergeStep T impactful) {} (es.map .event) = some s)
    (tid : Nat) : ∃ u, run (mergeStep T impactful) {}
      ((es.filter fun e => e.tid = tid).map .event) = some u ∧ u.view tid = s.view tid ∧
        ∀ t, t ≠ tid → u.view t = ({} : MergeState).view t := by
  induction es using List.reverseRecOn generalizing s with
  | nil =>
    cases h
    exact ⟨{}, rfl, rfl, fun _ _ => rfl⟩
  | append_singleton es e ih =>
    rw [List.map_append] at h
    rcases run_concat_eq_some.mp h with ⟨s₁, h₁, hstep⟩
    rcases ih h₁ with ⟨u₁, hu₁, hview, hothers⟩
    have hlocal := mergeStep_local hstep
    rw [List.filter_append]
    by_cases he : e.tid = tid
    · subst he
      rcases hlocal.same u₁ hview with ⟨u, hu, hview'⟩
      refine ⟨u, ?_, hview', fun t ht => ?_⟩
      · rw [List.filter_cons_of_pos (by simp), List.filter_nil, List.map_append]
        exact run_concat_eq_some.mpr ⟨u₁, hu₁, hu⟩
      · exact ((mergeStep_local hu).others t ht).trans (hothers t ht)
    · refine ⟨u₁, ?_, hview.trans (hlocal.others tid (Ne.symm he)).symm, hothers⟩
      rw [List.filter_cons_of_neg (by simpa using he), List.filter_nil, List.append_nil]
      exact hu₁

theorem enterBlock_tids {id : Nat} (h : s.enterBlock T tid id = some s') :
    s'.tids = s.tids ∨ s'.tids = insertSorted tid s.tids := by
  unfold MergeState.enterBlock at h
  split at h
  · cases h
    exact Or.inr rfl
  · rcases Option.bind_eq_some_iff.mp h with ⟨bb, -, h⟩
    split_ifs at h
    · cases h
      exact Or.inl rfl
    · simp only [Option.bind_eq_bind, Option.bind_eq_some_iff] at h
      rcases h with ⟨-, -, caller, -, h⟩
      cases h
      exact Or.inl rfl

theorem instBlock_tids {type : SmallestBlockType} {id : Nat} {addr : List Nat}
    (h : s.instBlock T type tid id addr = some s') : s'.tids = s.tids := by
  rcases instBlock_eq_some h with ⟨-, -, -, -, -, -, -, htids, -⟩
  exact htids

theorem dispatch_tids {e : Event} (h : s.dispatch T impactful e = some s') :
    s'.tids = s.tids ∨ s'.tids = insertSorted e.tid s.tids := by
  cases e with
  | argument tid addr =>
    cases h
    exact Or.inl rfl
  | basicBlock tid id => exact enterBlock_tids h
  | memory tid id addr length =>
    simp only [MergeState.dispatch] at h
    split_ifs at h
    · cases h
      exact Or.inl rfl
    · exact Or.inl (instBlock_tids h)
  | ret tid id addr =>
    simp only [MergeState.dispatch, Option.bind_eq_bind, Option.bind_eq_some_iff] at h
    rcases h with ⟨type, -, s₁, hs₁, h⟩
    cases h
    have htids := instBlock_tids hs₁
    exact Or.inl htids
  | memset tid id addr length => exact Or.inl (instBlock_tids h)
  | memmove tid id addr addr2 length => exact Or.inl (instBlock_tids h)

theorem mergeStep_tids {e : Event} (h : mergeStep T impactful s (.event e) = some s') :
    s'.tids = s.tids ∨ s'.tids = insertSorted e.tid s.tids := by
  rcases Option.bind_eq_some_iff.mp h with ⟨s₁, hs₁, h⟩
  have hdispatch := dispatch_tids hs₁
  split_ifs at h
  · cases h
    exact hdispatch
  · rcases advance_eq_some h with ⟨stk, first, bs, -, rfl⟩
    exact hdispatch

/-- The threads with a call stack are kept in order. -/
theorem run_tids {es : List Event} (h : run (mergeStep T impactful) {} (es.map .event) = some s) :
    s.tids.Pairwise (· < ·) := by
  induction es using List.reverseRecOn generalizing s with
  | nil =>
    cases h
    exact List.Pairwise.nil
  | append_singleton es e ih =>
    rw [List.map_append] at h
    rcases run_concat_eq_some.mp h with ⟨s₁, h₁, hstep⟩
    rcases mergeStep_tids hstep with htids | htids
    · rw [htids]
      exact ih h₁
    · rw [htids]
      exact insertSorted_pairwise (ih h₁)

/-! ## The closing loop -/

/-- The blocks that close the frames of a thread, each with the frame's own `LastBBID`. -/
def closeAlone (T : Tables) (tid : Nat) (stk : List StackInfo) : Option (List SmallestBlock) :=
  closeThread T tid (fun info => some info.lastBBID) stk

theorem closeThread_cons {last : StackInfo → Option Int} {info : StackInfo}
    {rest : List StackInfo} :
    closeThread T tid last (info :: rest) = some bs ↔ ∃ l p bs', last info = some l ∧
      popInfo T 0 rest = some p ∧ closeThread T tid last rest = some bs' ∧
      bs = { SmallestBlock.make .normalBlock tid info.bbID info.curIndex info.curIndex (0, 0) l []
        with isLast := p.1, caller := p.2 } :: bs' := by
  simp only [closeThread, Option.bind_eq_bind, Option.bind_eq_some_iff]
  constructor
  · rintro ⟨l, hl, p, hp, bs', hbs', h⟩
    cases h
    exact ⟨l, p, bs', hl, hp, hbs', rfl⟩
  · rintro ⟨l, p, bs', hl, hp, hbs', rfl⟩
    exact ⟨l, hl, p, hp, bs', hbs', rfl⟩

theorem closeThread_tid {last : StackInfo → Option Int} {stk : List StackInfo}
    (h : closeThread T tid last stk = some bs) : ∀ b ∈ bs, b.type = .normalBlock ∧ b.tid = tid := by
  induction stk generalizing bs with
  | nil =>
    cases h
    simp
  | cons info rest ih =>
    rcases closeThread_cons.mp h with ⟨l, p, bs', -, -, hbs', rfl⟩
    intro b hb
    rcases List.mem_cons.mp hb with rfl | hb
    · exact ⟨rfl, rfl⟩
    · exact ih hbs' b hb

theorem blocksOf_closeThread {last : StackInfo → Option Int} {stk : List StackInfo}
    (h : closeThread T tid last stk = some bs) : blocksOf bs tid = bs := by
  apply List.filter_eq_self.mpr
  intro b hb
  rcases closeThread_tid h b hb with ⟨htype, htid⟩
  simp [htype, htid]

/-- A thread is closed as if it were alone when the right `LastBBID` is read for each frame. -/
theorem closeThread_iff {last : StackInfo → Option Int} {stk : List StackInfo}
    (halone : closeAlone T tid stk = some bs) :
    closeThread T tid last stk = some bs ↔ ∀ info ∈ stk, last info = some info.lastBBID := by
  induction stk generalizing bs with
  | nil =>
    cases halone
    simp [closeThread]
  | cons info rest ih =>
    rcases closeThread_cons.mp halone with ⟨l, p, bs', hl, hp, hbs', rfl⟩
    cases hl
    rw [closeThread_cons, List.forall_mem_cons]
    constructor
    · intro h
      rcases h with ⟨l', p', bs'', hl', hp', hbs'', heq⟩
      rcases List.cons.inj heq with ⟨hb, rfl⟩
      have hlast : info.lastBBID = l' := congrArg SmallestBlock.lastBBID hb
      rw [hlast]
      exact ⟨hl', (ih hbs').mp hbs''⟩
    · intro h
      exact ⟨_, p, bs', h.1, hp, (ih hbs').mpr h.2, rfl⟩

theorem closeThreads_cons {p : Option Nat} {cs : Nat → List StackInfo} {tids : List Nat} :
    closeThreads T p cs (tid :: tids) = some bs ↔ ∃ bs₁ bs₂,
      closeThread T tid (fun info => p.bind fun t =>
        if t = tid then some info.lastBBID else (cs t).head?.map StackInfo.lastBBID) (cs tid) =
          some bs₁ ∧
      closeThreads T p (Function.update cs tid []) tids = some bs₂ ∧ bs = bs₁ ++ bs₂ := by
  simp only [closeThreads, Option.bind_eq_bind, Option.bind_eq_some_iff]
  constructor
  · rintro ⟨bs₁, h₁, bs₂, h₂, h⟩
    cases h
    exact ⟨bs₁, bs₂, h₁, h₂, rfl⟩
  · rintro ⟨bs₁, bs₂, h₁, h₂, rfl⟩
    exact ⟨bs₁, h₁, bs₂, h₂, rfl⟩

theorem closeThreads_tid {p : Option Nat} {cs : Nat → List StackInfo} {tids : List Nat}
    (h : closeThreads T p cs tids = some bs) : ∀ b ∈ bs, b.type = .normalBlock ∧ b.tid ∈ tids := by
  induction tids generalizing cs bs with
  | nil =>
    cases h
    simp
  | cons tid tids ih =>
    rcases closeThreads_cons.mp h with ⟨bs₁, bs₂, h₁, h₂, rfl⟩
    intro b hb
    rcases List.mem_append.mp hb with hb | hb
    · rcases closeThread_tid h₁ b hb with ⟨htype, htid⟩
      exact ⟨htype, by rw [htid]; exact List.mem_cons_self⟩
    · rcases ih h₂ b hb with ⟨htype, htid⟩
      exact ⟨htype, List.mem_cons_of_mem _ htid⟩

theorem blocksOf_closeThreads {p : Option Nat} {cs : Nat → List StackInfo} {tids : List Nat}
    (h : closeThreads T p cs tids = some bs) (ht : t ∉ tids) : blocksOf bs t = [] := by
  apply List.filter_eq_nil_iff.mpr
  intro b hb
  have htid := (closeThreads_tid h b hb).2
  have hne : b.tid ≠ t := fun heq => ht (heq ▸ htid)
  simp [hne]

/-- What the frames read of the top frame of `t`: those of the first thread read it before any thread
is closed, the others after the first one is. -/
theorem forall_reads_cons {R : List StackInfo → StackInfo → Prop} (hR : ∀ info, ¬ R [] info)
    {cs : Nat → List StackInfo} {tids : List Nat} {v : Nat} (hv : ∀ tid ∈ tids, v < tid) :
    (∀ tid ∈ v :: tids, tid ≠ t → ∀ info ∈ cs tid, (t ∈ v :: tids → tid < t) ∧ R (cs t) info) ↔
      (v ≠ t → ∀ info ∈ cs v, R (cs t) info) ∧
        ∀ tid ∈ tids, tid ≠ t → ∀ info ∈ Function.update cs v [] tid,
          (t ∈ tids → tid < t) ∧ R (Function.update cs v [] t) info := by
  rw [List.forall_mem_cons]
  apply and_congr
  · constructor
    · intro h hne info hinfo
      exact (h hne info hinfo).2
    · intro h hne info hinfo
      refine ⟨fun ht => hv t ?_, h hne info hinfo⟩
      exact (List.mem_cons.mp ht).resolve_left (Ne.symm hne)
  · refine forall₂_congr fun tid htid => forall_congr' fun _ => ?_
    rw [Function.update_of_ne (hv tid htid).ne']
    refine forall₂_congr fun info _ => ?_
    by_cases htv : t = v
    · subst htv
      rw [Function.update_self]
      refine iff_of_false (fun h => ?_) fun h => hR info h.2
      exact absurd (h.1 List.mem_cons_self) (hv tid htid).not_gt
    · rw [Function.update_of_ne htv]
      simp [htv]

/-- **The closing loop** closes every thread as if it were alone if and only if each of them comes
before the thread `t`, and their frames have the `LastBBID` of its top frame. -/
theorem closeThreads_iff {cs : Nat → List StackInfo} {tids : List Nat}
    (hsorted : tids.Pairwise (· < ·))
    (halone : ∀ tid ∈ tids, ∃ bs, closeAlone T tid (cs tid) = some bs) :
    (∃ bs, closeThreads T (some t) cs tids = some bs ∧
        ∀ tid ∈ tids, closeAlone T tid (cs tid) = some (blocksOf bs tid)) ↔
      ∀ tid ∈ tids, tid ≠ t → ∀ info ∈ cs tid, (t ∈ tids → tid < t) ∧
        (cs t).head?.map StackInfo.lastBBID = some info.lastBBID := by
  induction tids generalizing cs with
  | nil => exact ⟨fun _ _ h => (nomatch h), fun _ => ⟨[], rfl, fun _ h => (nomatch h)⟩⟩
  | cons v tids ih =>
    rcases List.pairwise_cons.mp hsorted with ⟨hv, hsorted⟩
    have hcs : ∀ tid ∈ tids, Function.update cs v [] tid = cs tid :=
      fun tid htid => Function.update_of_ne (hv tid htid).ne' _ _
    have hnotin : v ∉ tids := fun hmem => lt_irrefl v (hv v hmem)
    rcases halone v List.mem_cons_self with ⟨bs₁, hbs₁⟩
    have ih := @ih (Function.update cs v []) hsorted fun tid htid => by
      rw [hcs tid htid]
      exact halone tid (List.mem_cons_of_mem _ htid)
    rw [forall_reads_cons (R := fun top info => top.head?.map StackInfo.lastBBID =
      some info.lastBBID) (fun _ h => nomatch h) hv, ← ih]
    -- the thread that is closed first
    have hfirst : closeThread T v (fun info => (some t).bind fun t =>
        if t = v then some info.lastBBID else (cs t).head?.map StackInfo.lastBBID) (cs v) =
          some bs₁ ↔
        (v ≠ t → ∀ info ∈ cs v, (cs t).head?.map StackInfo.lastBBID = some info.lastBBID) := by
      rw [closeThread_iff hbs₁]
      by_cases htv : t = v
      · simp [htv]
      · simp [htv, Ne.symm htv]
    have hblocks : ∀ {bs₁ bs₂ : List SmallestBlock} {last : StackInfo → Option Int},
        closeThread T v last (cs v) = some bs₁ →
        closeThreads T (some t) (Function.update cs v []) tids = some bs₂ →
          blocksOf (bs₁ ++ bs₂) v = bs₁ ∧ ∀ tid ∈ tids, blocksOf (bs₁ ++ bs₂) tid = blocksOf bs₂ tid := by
      intro bs₁ bs₂ last h₁ h₂
      refine ⟨?_, fun tid htid => ?_⟩
      · rw [blocksOf_append, blocksOf_closeThread h₁, blocksOf_closeThreads h₂ hnotin,
          List.append_nil]
      · rw [blocksOf_append, blocksOf_of_ne (fun b hb => Or.inr (closeThread_tid h₁ b hb).2)
          (hv tid htid).ne', List.nil_append]
    rw [← hfirst]
    constructor
    · intro h
      rcases h with ⟨bs, hbs, hall⟩
      rcases closeThreads_cons.mp hbs with ⟨bs₁', bs₂, h₁, h₂, rfl⟩
      have hrest := (hblocks h₁ h₂).2
      have heq := hall v List.mem_cons_self
      rw [(hblocks h₁ h₂).1, hbs₁, Option.some.injEq] at heq
      refine ⟨by rw [heq]; exact h₁, bs₂, h₂, fun tid htid => ?_⟩
      rw [hcs tid htid, ← hrest tid htid]
      exact hall tid (List.mem_cons_of_mem _ htid)
    · intro h
      rcases h with ⟨h₁, bs₂, h₂, hall⟩
      refine ⟨bs₁ ++ bs₂, closeThreads_cons.mpr ⟨bs₁, bs₂, h₁, h₂, rfl⟩, ?_⟩
      rw [List.forall_mem_cons]
      refine ⟨by rw [(hblocks h₁ h₂).1]; exact hbs₁, fun tid htid => ?_⟩
      rw [(hblocks h₁ h₂).2 tid htid, ← hcs tid htid]
      exact hall tid htid

/-! ## Whole traces -/

section

variable {P : Program}

/-- The frames left open below the top one are behind a call, so that they can be closed. -/
theorem closeAlone_isSome {stk : List StackInfo}
    (h : ∀ c ∈ stk.tail, P.Inside c ∧ 0 < c.curIndex) :
    ∃ bs, closeAlone P.toTables tid stk = some bs := by
  induction stk with
  | nil => exact ⟨[], rfl⟩
  | cons info rest ih =>
    rcases ih fun c hc => h c (List.mem_of_mem_tail hc) with ⟨bs, hbs⟩
    have hpop : ∃ p, popInfo P.toTables 0 rest = some p := by
      cases rest with
      | nil => exact ⟨_, rfl⟩
      | cons c rest =>
        rcases h c List.mem_cons_self with ⟨⟨bb, hbb, hlt⟩, hpos⟩
        have hlt' : c.curIndex - 1 < bb.length := by omega
        have hid := List.getElem?_eq_getElem (P.ids_lt bb (List.mem_of_getElem? hbb)
          bb[c.curIndex - 1] (List.getElem_mem hlt'))
        simp [popInfo, callerOf, hbb, hpos, hlt, List.getElem?_eq_getElem hlt', hid]
    rcases hpop with ⟨p, hp⟩
    exact ⟨_, closeThread_cons.mpr ⟨_, p, bs, rfl, hp, hbs, rfl⟩⟩

theorem ahead_tail {stk : List StackInfo} (hok : P.StackOk stk) :
    ∀ c ∈ (ahead P.toTables stk).2.tail, P.Inside c ∧ 0 < c.curIndex := by
  induction stk with
  | nil => simp [ahead]
  | cons info rest ih =>
    have hrest : P.StackOk rest := by
      cases rest with
      | nil => trivial
      | cons c rest =>
        exact ⟨(hok.2 c List.mem_cons_self).1, fun d hd => hok.2 d (List.mem_cons_of_mem _ hd)⟩
    simp only [ahead]
    split_ifs
    · exact ih hrest
    · exact hok.2

end

/-- When only one thread has blocks, all blocks are its own. -/
theorem executedBlocks_eq (h : ∀ t, t ≠ tid → blocksOf bs t = []) :
    executedBlocks bs = blocksOf bs tid := by
  apply List.filter_congr
  intro b hb
  by_cases htid : b.tid = tid
  · simp [htid]
  · have hnone := List.filter_eq_nil_iff.mp (h b.tid htid) b hb
    simp only [decide_eq_true_eq, and_true] at hnone
    simp [hnone]

/-- A thread without frames has nothing to be closed. -/
theorem closeAlone_all {p : Option Nat} (hin : ∀ t, u.callStack t ≠ [] → t ∈ u.tids)
    (hbs : closeThreads T p u.callStack u.tids = some bs)
    (hall : ∀ t ∈ u.tids, closeAlone T t (u.callStack t) = some (blocksOf bs t)) (t : Nat) :
    closeAlone T t (u.callStack t) = some (blocksOf bs t) := by
  by_cases hmem : t ∈ u.tids
  · exact hall t hmem
  · have hnil : u.callStack t = [] := by
      by_contra hne
      exact hmem (hin t hne)
    rw [hnil, blocksOf_closeThreads hbs hmem]
    rfl

/-- The frames of one thread alone are closed with their own `LastBBID`. -/
theorem closeThreads_alone {es : List Event}
    (h : run (mergeStep T impactful) {} ((es.filter fun e => e.tid = tid).map .event) = some u)
    (hothers : ∀ t, t ≠ tid → u.callStack t = [])
    (halone : ∃ bs, closeAlone T tid (u.callStack tid) = some bs) :
    ∃ bs, closeThreads T u.tidPtr u.callStack u.tids = some bs ∧
      closeAlone T tid (u.callStack tid) = some (blocksOf bs tid) ∧
        ∀ t, t ≠ tid → blocksOf bs t = [] := by
  rcases run_events h with ⟨-, hsettled, -, hptr⟩
  have hin := (hsettled .init).tids
  have hclose : ∃ bs, closeThreads T u.tidPtr u.callStack u.tids = some bs ∧
      ∀ t ∈ u.tids, closeAlone T t (u.callStack t) = some (blocksOf bs t) := by
    cases hlast : (es.filter fun e => e.tid = tid).getLast? with
    | none =>
      rw [List.getLast?_eq_none_iff] at hlast
      rw [hlast] at h
      cases h
      exact ⟨[], rfl, fun _ h => (nomatch h)⟩
    | some e =>
      have he : e.tid = tid := by
        simpa using (List.mem_filter.mp (List.mem_of_getLast? hlast)).2
      rw [hlast] at hptr
      replace hptr : u.tidPtr = some e.tid := hptr
      rw [hptr, he]
      refine (closeThreads_iff (run_tids h) fun t _ => ?_).mpr fun t _ ht info hinfo => ?_
      · by_cases ht : t = tid
        · rw [ht]
          exact halone
        · rw [hothers t ht]
          exact ⟨[], rfl⟩
      · rw [hothers t ht] at hinfo
        cases hinfo
  rcases hclose with ⟨bs, hbs, hall⟩
  have hclosed := closeAlone_all hin hbs hall
  refine ⟨bs, hbs, hclosed tid, fun t ht => ?_⟩
  have hcase := hclosed t
  rw [hothers t ht] at hcase
  exact (Option.some.inj hcase).symm

/-- A thread alone ends with what the merger has recorded for it, and its own frames closed. -/
theorem mergeTrace_alone {es : List Event}
    (hrun : run (mergeStep T impactful) {} (es.map .event) = some s)
    (halone : ∃ bs, closeAlone T tid (s.callStack tid) = some bs) :
    ∃ bt' bs, mergeTrace T impactful ((es.filter fun e => e.tid = tid).map .event) = some bt' ∧
      closeAlone T tid (s.callStack tid) = some bs ∧
        executedBlocks bt' = blocksOf s.blockTrace tid ++ bs := by
  rcases run_alone hrun tid with ⟨u, hu, hview, hothers⟩
  have hcs := view_callStack hview
  rcases closeThreads_alone hu (fun t ht => view_callStack (hothers t ht))
    (by rw [hcs]; exact halone) with ⟨bs, hbs, hclosed, hnone⟩
  refine ⟨u.blockTrace ++ bs, blocksOf bs tid, ?_, by rw [← hcs]; exact hclosed, ?_⟩
  · simp only [mergeTrace, hu, hbs, Option.bind_eq_bind, Option.bind_some]
  · have hblocks : ∀ t, t ≠ tid → blocksOf (u.blockTrace ++ bs) t = [] := by
      intro t ht
      have hview' : blocksOf u.blockTrace t = [] := congrArg ThreadView.blocks (hothers t ht)
      rw [blocksOf_append, hview', hnone t ht]
      rfl
    have hview' : blocksOf u.blockTrace tid = blocksOf s.blockTrace tid :=
      congrArg ThreadView.blocks hview
    rw [executedBlocks_eq hblocks, blocksOf_append, hview']

/-- The threads do not interfere iff the closing loop closes the frames of each of them as if they
were alone. -/
theorem threadsIndependent_iff_closed {es : List Event}
    (hrun : run (mergeStep T impactful) {} (es.map .event) = some s)
    (halone : ∀ tid, ∃ bs, closeAlone T tid (s.callStack tid) = some bs) :
    ThreadsIndependent T impactful es ↔
      ∃ bs, closeThreads T s.tidPtr s.callStack s.tids = some bs ∧
        ∀ tid, closeAlone T tid (s.callStack tid) = some (blocksOf bs tid) := by
  constructor
  · intro hall
    rcases hall with ⟨bt, hbt, hall⟩
    simp only [mergeTrace, hrun, Option.bind_eq_bind, Option.bind_some] at hbt
    rcases Option.bind_eq_some_iff.mp hbt with ⟨bs, hbs, hbt⟩
    cases hbt
    refine ⟨bs, hbs, fun tid => ?_⟩
    rcases hall tid with ⟨bt', hbt', heq⟩
    rcases mergeTrace_alone hrun (halone tid) with ⟨bt'', bs', hbt'', hclosed, hblocks⟩
    cases hbt'.symm.trans hbt''
    rw [hblocks, blocksOf_append, List.append_cancel_left_eq] at heq
    rw [heq]
    exact hclosed
  · intro hall
    rcases hall with ⟨bs, hbs, hall⟩
    refine ⟨s.blockTrace ++ bs, ?_, fun tid => ?_⟩
    · simp only [mergeTrace, hrun, hbs, Option.bind_eq_bind, Option.bind_some]
    · rcases mergeTrace_alone hrun (halone tid) with ⟨bt', bs', hbt', hclosed, hblocks⟩
      cases (hall tid).symm.trans hclosed
      exact ⟨bt', hbt', by rw [hblocks, blocksOf_append]⟩

/-- **The threads of a trace do not interfere** if and only if the closing loop reads, for every
thread left open, a top frame that is still there and has the `LastBBID` of the frames it closes. -/
theorem threads_independent_iff (P : Program) (impactful : Nat → Bool) {es : List Event}
    {th : Nat → List StackInfo} {ex : Nat → List Nat} (h : Execution P es th ex) :
    ThreadsIndependent P.toTables impactful es ↔
      ∀ e ∈ es.getLast?, ClosesAlike (fun tid => (ahead P.toTables (th tid)).2) e.tid := by
  rcases h.tracks impactful with ⟨s, hrun, hT⟩
  rcases run_events hrun with ⟨-, hsettled, -, hptr⟩
  have hin := (hsettled .init).tids
  have halone : ∀ tid, ∃ bs, closeAlone P.toTables tid (s.callStack tid) = some bs := by
    intro tid
    rw [hT.callStack]
    exact closeAlone_isSome (ahead_tail (hT.stack tid))
  rw [threadsIndependent_iff_closed hrun halone]
  cases hlast : es.getLast? with
  | none =>
    rw [List.getLast?_eq_none_iff] at hlast
    subst hlast
    cases hrun
    exact ⟨fun _ _ h => (nomatch h), fun _ => ⟨[], rfl, fun _ => rfl⟩⟩
  | some e =>
    rw [hlast] at hptr
    replace hptr : s.tidPtr = some e.tid := hptr
    rw [hptr]
    have hiff := closeThreads_iff (t := e.tid) (run_tids hrun) fun tid _ => halone tid
    have hstack : (fun tid => (ahead P.toTables (th tid)).2) = s.callStack := by
      funext tid
      exact (hT.callStack tid).symm
    rw [hstack]
    constructor
    · intro hall e' he'
      cases he'
      rcases hall with ⟨bs, hbs, hall⟩
      have hreads := hiff.mp ⟨bs, hbs, fun tid _ => hall tid⟩
      intro tid ht info hinfo
      have hmem : tid ∈ s.tids := hin tid (List.ne_nil_of_mem hinfo)
      rcases hreads tid hmem ht info hinfo with ⟨hlt, hread⟩
      refine ⟨hlt (hin e.tid fun hnil => ?_), hread⟩
      rw [hnil] at hread
      cases hread
    · intro hall
      have hall := hall e rfl
      rcases hiff.mpr (by
        intro tid _ ht info hinfo
        have hreads := hall tid ht info hinfo
        exact ⟨fun _ => hreads.1, hreads.2⟩) with ⟨bs, hbs, hall⟩
      exact ⟨bs, hbs, closeAlone_all hin hbs hall⟩

end

/-! ## Two threads -/

/-- Two threads have entered `f`. -/
theorem twoThreads_execution (t t' : Nat) (hne : t' ≠ t) :
    Execution callProgram [.basicBlock t 0, .basicBlock t' 0]
      (Function.update (Function.update (fun _ => []) t [⟨0, -1, 0⟩]) t' [⟨0, -1, 0⟩])
      (Function.update (Function.update (fun _ => []) t []) t' []) := by
  have h := Execution.init (P := callProgram)
  have h := h.step (show ThreadStep callProgram t _ _ _ _ from .start 0 (by decide))
  have h := h.step (show ThreadStep callProgram t' _ _ _ _ from by
    rw [Function.update_of_ne hne]
    exact .start 0 (by decide))
  simpa [hne] using h

/-- The thread of the last event comes last in the map, and both frames are in an entry block. -/
theorem threads_independent_iff_two : ThreadsIndependent callProgram.toTables (fun _ => false)
    [.basicBlock 3 0, .basicBlock 7 0] := by
  refine (threads_independent_iff callProgram (fun _ => false)
    (twoThreads_execution 3 7 (by decide))).mpr fun e he tid ht info hinfo => ?_
  cases he
  replace ht : tid ≠ 7 := ht
  simp only [Function.update_of_ne ht] at hinfo
  by_cases h3 : tid = 3
  · subst h3
    rw [Function.update_self] at hinfo
    rw [show (ahead callProgram.toTables [⟨0, -1, 0⟩]).2 = [⟨0, -1, 0⟩] by decide +kernel,
      List.mem_singleton] at hinfo
    subst hinfo
    exact ⟨by decide, rfl⟩
  · rw [Function.update_of_ne h3] at hinfo
    cases hinfo

/-- Thread 3 has been closed when the blocks of thread 7 read its top frame. -/
theorem threads_interfere :
    ¬ ∀ (P : Program) (impactful : Nat → Bool) (es : List Event) (th : Nat → List StackInfo)
      (ex : Nat → List Nat), Execution P es th ex → ThreadsIndependent P.toTables impactful es := by
  intro h
  rcases h callProgram (fun _ => false) _ _ _ (twoThreads_execution 7 3 (by decide)) with ⟨bt, hbt, -⟩
  rw [show mergeTrace callProgram.toTables (fun _ => false)
    ([.basicBlock 7 0, .basicBlock 3 0].map .event) = none by decide +kernel] at hbt
  cases hbt

end Slimmer
