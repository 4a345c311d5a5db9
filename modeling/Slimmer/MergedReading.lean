import Slimmer.Reading

/-!
# A merged trace can be read backward

`MergeTrace` appends a block at a time. A block covers a piece of the basic block on top of a call
stack; then the stack stands behind the piece, or, at a return, without the frame (`EmitsBlock`).
`Trail` is the history of the call stacks and the blocks, without the events.

Reading a block backward undoes it: a frame of the reading stands where the call stack stood before
(`Mirrors`). So the blocks of an execution that has run to completion are read to the end, and every
one of them carries, as `LastBBID`, the basic block executed before (`mergeTrace_complete`).
-/

namespace Slimmer

/-! ## What is executed before -/

/-- When the block is read next, it turns out what thread `tid` executed immediately before the
execution `k`, in the same activation: the basic block `last`, or nothing, that is -1. -/
inductive Tells (T : Tables) (tid : Nat) (r : Reading) (b : SmallestBlock) : Nat → Int → Prop
  /-- The block belongs to another execution of the activation. -/
  | finished {f : Frame} {fs : List Frame} (htype : b.type ≠ .declareBlock) (htid : b.tid = tid)
      (hlast : b.isLast = 0) (hframes : r.frames tid = f :: fs) (hstart : f.start = 0) :
      Tells T tid r b f.exec b.bbID
  /-- The block belongs to the execution and is the first one of the activation. -/
  | first {bb : List Nat} {f : Frame} {fs : List Frame} (htype : b.type ≠ .declareBlock)
      (htid : b.tid = tid) (hbb : T.bb2Ins[b.bbID]? = some bb) (hopens : Opens T r bb b f fs)
      (hfirst : 0 < b.isFirst) : Tells T tid r b f.exec (-1)

/-- While the blocks are read on from the reading, it turns out that `last` was executed immediately
before the execution `k`. -/
inductive PrecededBy (T : Tables) (tid : Nat) : Reading → List SmallestBlock → Nat → Int → Prop
  | here {r : Reading} {b : SmallestBlock} {l : List SmallestBlock} {k : Nat} {last : Int}
      (h : Tells T tid r b k last) : PrecededBy T tid r (b :: l) k last
  | later {r r' : Reading} {b : SmallestBlock} {l : List SmallestBlock} {k : Nat} {last : Int}
      (hstep : readStep T r b = some r') (h : PrecededBy T tid r' l k last) :
      PrecededBy T tid r (b :: l) k last

/-- Every block carries what was executed before. -/
def Labelled (T : Tables) (r : Reading) (l : List SmallestBlock) : Prop :=
  ∀ pre b post u bb f fs, l = pre ++ b :: post → run (readStep T) r pre = some u →
    b.type ≠ .declareBlock → T.bb2Ins[b.bbID]? = some bb → Opens T u bb b f fs →
    PrecededBy T b.tid u (b :: post) f.exec b.lastBBID

/-! ## The history of the call stacks -/

/-- The block covers a piece of the basic block `bb` of the frame `info`. -/
structure Piece (tid : Nat) (first : Nat × Nat) (info : StackInfo) (bb : List Nat)
    (b : SmallestBlock) : Prop where
  type : b.type ≠ .declareBlock
  tid : b.tid = tid
  bbID : b.bbID = info.bbID
  start : b.start = info.curIndex
  isFirst : b.isFirst = first.1
  lastBBID : b.lastBBID = info.lastBBID
  fits : b.Fits bb

/-- A piece of the basic block on top of the call stack is executed as the block `b`. At a return
the frame is popped. -/
inductive EmitsBlock (T : Tables) (tid : Nat) (first : Nat × Nat) :
    List StackInfo → SmallestBlock → List StackInfo → Prop
  | stay {info : StackInfo} {rest : List StackInfo} {bb : List Nat} {b : SmallestBlock}
      (hbb : T.bb2Ins[info.bbID]? = some bb) (hpiece : Piece tid first info bb b)
      (hlast : b.isLast = 0) (hend : b.stop = bb.length → T.endType bb = some .terminatorInst) :
      EmitsBlock T tid first (info :: rest) b ({ info with curIndex := b.stop } :: rest)
  | pop {info : StackInfo} {rest : List StackInfo} {bb : List Nat} {b : SmallestBlock}
      (hbb : T.bb2Ins[info.bbID]? = some bb) (hpiece : Piece tid first info bb b)
      (hlast : 0 < b.isLast) (hstop : b.stop = bb.length)
      (hend : T.endType bb = some .returnInst) : EmitsBlock T tid first (info :: rest) b rest

/-- How `is_first`, the call stacks and the block trace come about. -/
inductive Trail (T : Tables) :
    (Nat → Nat × Nat) → (Nat → List StackInfo) → List SmallestBlock → Prop
  | init : Trail T (fun _ => (0, 0)) (fun _ => []) []
  | declare {first : Nat → Nat × Nat} {stks : Nat → List StackInfo} {l : List SmallestBlock}
      {b : SmallestBlock} (h : Trail T first stks l) (htype : b.type = .declareBlock) :
      Trail T first stks (l ++ [b])
  | emit {first : Nat → Nat × Nat} {stks : Nat → List StackInfo} {l : List SmallestBlock}
      {tid : Nat} {b : SmallestBlock} {stk : List StackInfo} (h : Trail T first stks l)
      (hemit : EmitsBlock T tid (first tid) (stks tid) b stk) :
      Trail T (Function.update first tid (0, 0)) (Function.update stks tid stk) (l ++ [b])
  | start {first : Nat → Nat × Nat} {stks : Nat → List StackInfo} {l : List SmallestBlock}
      {tid : Nat} (h : Trail T first stks l) (hstk : stks tid = []) (id : Nat) :
      Trail T (Function.update first tid (2, 0)) (Function.update stks tid [⟨id, -1, 0⟩]) l
  | jump {first : Nat → Nat × Nat} {stks : Nat → List StackInfo} {l : List SmallestBlock}
      {tid : Nat} {info : StackInfo} {rest : List StackInfo} {bb : List Nat}
      (h : Trail T first stks l) (hstk : stks tid = info :: rest)
      (hbb : T.bb2Ins[info.bbID]? = some bb) (hend : bb.length ≤ info.curIndex)
      (hpos : 0 < info.curIndex) (id : Nat) (hinside : T.Inside ⟨id, info.bbID, 0⟩) :
      Trail T (Function.update first tid (0, 0))
        (Function.update stks tid (⟨id, info.bbID, 0⟩ :: rest)) l
  | call {first : Nat → Nat × Nat} {stks : Nat → List StackInfo} {l : List SmallestBlock}
      {tid : Nat} {info : StackInfo} {rest : List StackInfo} (h : Trail T first stks l)
      (hstk : stks tid = info :: rest) (hinside : T.Inside info) (hpos : 0 < info.curIndex)
      (id caller : Nat) :
      Trail T (Function.update first tid (1, caller))
        (Function.update stks tid (⟨id, -1, 0⟩ :: info :: rest)) l

section

variable {T : Tables} {P : Program} {first : Nat → Nat × Nat} {stks : Nat → List StackInfo}
  {l : List SmallestBlock} {tid : Nat} {info : StackInfo} {rest stk : List StackInfo}
  {r r' : Reading} {b : SmallestBlock} {bb : List Nat} {f : Frame} {fs : List Frame}
  {L L' : Nat → Int → Prop} {p : Nat × Nat}

/-- What holds of every thread holds when one of them has changed. -/
theorem forall_update {Q : Nat × Nat → List StackInfo → Prop} (h : ∀ t, Q (first t) (stks t))
    (hnew : Q p stk) (t : Nat) :
    Q (Function.update first tid p t) (Function.update stks tid stk t) := by
  by_cases ht : t = tid
  · rw [ht, Function.update_self, Function.update_self]
    exact hnew
  · rw [Function.update_of_ne ht, Function.update_of_ne ht]
    exact h t

/-- Before the first block of an activation the call stack stands at its beginning. -/
theorem Trail.entry (h : Trail T first stks l) : ∀ tid, 0 < (first tid).1 →
    ∃ info rest, stks tid = info :: rest ∧ info.curIndex = 0 ∧ info.lastBBID = -1 := by
  let Q (p : Nat × Nat) (stk : List StackInfo) : Prop := 0 < p.1 →
    ∃ info rest, stk = info :: rest ∧ info.curIndex = 0 ∧ info.lastBBID = -1
  show ∀ tid, Q (first tid) (stks tid)
  induction h with
  | init => exact fun _ h => absurd h (lt_irrefl 0)
  | declare _ _ ih => exact ih
  | emit _ _ ih => exact forall_update ih fun h => absurd h (lt_irrefl 0)
  | start _ _ id ih => exact forall_update ih fun _ => ⟨⟨id, -1, 0⟩, [], rfl, rfl, rfl⟩
  | jump _ _ _ _ _ _ _ ih => exact forall_update ih fun h => absurd h (lt_irrefl 0)
  | call _ _ _ _ id _ ih => exact forall_update ih fun _ => ⟨⟨id, -1, 0⟩, _, rfl, rfl, rfl⟩

theorem Trail.first_eq_zero (h : Trail T first stks l) (hstk : stks tid = info :: rest)
    (hpos : 0 < info.curIndex) : (first tid).1 = 0 := by
  by_contra hne
  obtain ⟨info', rest', hstk', hzero, -⟩ := h.entry tid (Nat.pos_of_ne_zero hne)
  cases hstk.symm.trans hstk'
  omega

/-- The frames below the top are behind a call. -/
theorem Trail.behind (h : Trail T first stks l) :
    ∀ tid, ∀ c ∈ (stks tid).tail, T.Inside c ∧ 0 < c.curIndex := by
  let Q (_ : Nat × Nat) (stk : List StackInfo) : Prop := ∀ c ∈ stk.tail, T.Inside c ∧ 0 < c.curIndex
  show ∀ tid, Q (first tid) (stks tid)
  induction h with
  | init => exact fun _ _ hc => nomatch hc
  | declare _ _ ih => exact ih
  | @emit first stks l tid b stk _ hemit ih =>
    refine forall_update ih fun c hc => ih tid c ?_
    generalize stks tid = stk₀ at hemit
    cases hemit with
    | stay => exact hc
    | pop => exact List.mem_of_mem_tail hc
  | start _ _ id ih => exact forall_update ih fun _ hc => nomatch hc
  | @jump first stks l tid info rest bb _ hstk _ _ _ id _ ih =>
    refine forall_update ih fun c hc => ih tid c ?_
    rw [hstk]
    exact hc
  | @call first stks l tid info rest _ hstk hinside hpos id _ ih =>
    refine forall_update ih fun c hc => ?_
    obtain rfl | hc := List.mem_cons.mp hc
    · exact ⟨hinside, hpos⟩
    · exact ih tid c (by rw [hstk]; exact hc)

/-! ## Readings that mirror the call stacks -/

/-- The reading has come back to where the frame of the call stack stands, and `L` holds of what
was executed before. -/
def StandsFor (L : Nat → Int → Prop) (info : StackInfo) (f : Frame) : Prop :=
  f.bbID = info.bbID ∧ f.start = info.curIndex ∧ L f.exec info.lastBBID

/-- The frames of the reading for a call stack: the activation is left at its beginning; and at the
end of a basic block, the frame belongs to the execution behind it. -/
inductive Mirrors (T : Tables) (L : Nat → Int → Prop) (first : Nat × Nat) :
    List StackInfo → List Frame → Prop
  | nil : Mirrors T L first [] []
  | entry {info : StackInfo} {rest : List StackInfo} {fs : List Frame} (hfirst : 0 < first.1)
      (hrest : List.Forall₂ (StandsFor L) rest fs) : Mirrors T L first (info :: rest) fs
  | inside {info : StackInfo} {rest : List StackInfo} {f : Frame} {fs : List Frame}
      (hfirst : first.1 = 0) (hinside : T.Inside info) (htop : StandsFor L info f)
      (hrest : List.Forall₂ (StandsFor L) rest fs) : Mirrors T L first (info :: rest) (f :: fs)
  | finished {info : StackInfo} {rest : List StackInfo} {f : Frame} {fs : List Frame}
      (hfirst : first.1 = 0) (hend : ¬ T.Inside info) (hstart : f.start = 0)
      (hlabel : L f.exec info.bbID) (hrest : List.Forall₂ (StandsFor L) rest fs) :
      Mirrors T L first (info :: rest) (f :: fs)

theorem StandsFor.mono (hL : ∀ k last, L k last → L' k last) (h : StandsFor L info f) :
    StandsFor L' info f := ⟨h.1, h.2.1, hL _ _ h.2.2⟩

theorem Mirrors.mono (hL : ∀ k last, L k last → L' k last) (h : Mirrors T L p stk fs) :
    Mirrors T L' p stk fs := by
  have hrest : ∀ {rest : List StackInfo} {fs : List Frame}, List.Forall₂ (StandsFor L) rest fs →
      List.Forall₂ (StandsFor L') rest fs := fun h => h.imp fun _ _ h => h.mono hL
  cases h with
  | nil => exact .nil
  | entry hfirst h => exact .entry hfirst (hrest h)
  | inside hfirst hinside htop h => exact .inside hfirst hinside (htop.mono hL) (hrest h)
  | finished hfirst hend hstart hlabel h =>
    exact .finished hfirst hend hstart (hL _ _ hlabel) (hrest h)

theorem Opens.open_eq (h : Opens T r bb b f fs) : r.open T bb b = some (f, fs) := by
  unfold Reading.open
  cases h with
  | activation hlast hstop hend => rw [if_pos hlast, if_pos ⟨hstop, hend⟩]
  | execution hlast hframes hstart hstop hend =>
    rw [if_neg (by omega), hframes]
    simp [hstart, hstop, hend]
  | part hlast hframes hstart hbbID hstop =>
    rw [if_neg (by omega), hframes]
    simp [hstart.ne', hbbID, hstop]

/-- A block that continues what has been read can be read. -/
theorem readStep_eq (htype : b.type ≠ .declareBlock) (hbb : T.bb2Ins[b.bbID]? = some bb)
    (hfits : b.Fits bb) (hopens : Opens T r bb b f fs) (hstart : 0 < b.isFirst → f.start = 0) :
    ∃ r', readStep T r b = some r' ∧ r'.frames =
      Function.update r.frames b.tid (if 0 < b.isFirst then fs else f :: fs) := by
  unfold readStep
  rw [if_neg htype, hbb, Option.bind_some, if_pos hfits, hopens.open_eq, Option.bind_some]
  unfold Reading.leave
  by_cases hfirst : 0 < b.isFirst
  · simp [hfirst, hstart hfirst]
  · simp [hfirst]

/-- **Reading a block undoes it.** Reading comes to the frame the block was emitted for; and it
resumes behind the block where the call stack stands then. -/
theorem EmitsBlock.opens (hemit : EmitsBlock T tid p stk b rest)
    (hbehind : ∀ c ∈ stk.tail, T.Inside c ∧ 0 < c.curIndex)
    (hr : Mirrors T (fun _ _ => True) (0, 0) rest (r.frames tid)) :
    ∃ info bb f fs, stk = info :: stk.tail ∧ Piece tid p info bb b ∧
      T.bb2Ins[info.bbID]? = some bb ∧ Opens T r bb b f fs ∧
      List.Forall₂ (StandsFor fun _ _ => True) stk.tail fs ∧
      ∀ L : Nat → Int → Prop, L f.exec info.lastBBID →
        (∀ f₀ fs₀, r.frames tid = f₀ :: fs₀ → f₀.start = 0 → b.isLast = 0 → L f₀.exec info.bbID) →
        List.Forall₂ (StandsFor L) stk.tail fs → Mirrors T L (0, 0) rest (r.frames tid) := by
  cases hemit with
  | @stay info rest bb b hbb hpiece hlast hend =>
    refine ⟨info, bb, ?_⟩
    have htid := hpiece.tid
    subst htid
    generalize hframes : r.frames b.tid = frames at hr
    cases hr with
    | entry hfirst => exact absurd hfirst (lt_irrefl 0)
    | @inside _ _ f fs _ hinside htop hrest =>
      have hstop : b.stop = f.start := htop.2.1.symm
      have hpos : 0 < f.start := by
        have := hpiece.fits.1
        omega
      refine ⟨_, fs, rfl, hpiece, hbb,
        .part hlast hframes hpos (hpiece.bbID.trans htop.1.symm) hstop, hrest, ?_⟩
      intro L hlabel _ hrest
      exact .inside rfl hinside ⟨htop.1, htop.2.1, hlabel⟩ hrest
    | @finished _ _ f fs _ hnot hstart _ hrest =>
      have hstop : b.stop = bb.length :=
        le_antisymm hpiece.fits.2.1 (not_lt.mp fun hlt => hnot ⟨bb, hbb, hlt⟩)
      refine ⟨_, fs, rfl, hpiece, hbb, .execution hlast hframes hstart hstop (hend hstop), hrest,
        ?_⟩
      intro L _ hfinished hrest
      exact .finished rfl hnot hstart (hfinished f fs rfl hstart hlast) hrest
  | @pop info rest bb b hbb hpiece hlast hstop hend =>
    refine ⟨info, bb, _, r.frames b.tid, rfl, hpiece, hbb, .activation hlast hstop hend, ?_⟩
    rw [hpiece.tid]
    generalize r.frames tid = frames at hr
    have hback : ∀ {L : Nat → Int → Prop}, List.Forall₂ (StandsFor L) rest frames →
        Mirrors T L (0, 0) rest frames := by
      intro L h
      cases h with
      | nil => exact .nil
      | cons htop hrest => exact .inside rfl (hbehind _ List.mem_cons_self).1 htop hrest
    refine ⟨?_, fun L _ _ hrest => hback hrest⟩
    cases hr with
    | nil => exact .nil
    | entry hfirst => exact absurd hfirst (lt_irrefl 0)
    | inside _ _ htop hrest => exact .cons htop hrest
    | finished _ hnot => exact absurd (hbehind _ List.mem_cons_self).1 hnot

/-! ## Reading a trail backward -/

theorem Labelled.cons (hstep : readStep T r b = some r')
    (hb : b.type ≠ .declareBlock → ∀ bb f fs, T.bb2Ins[b.bbID]? = some bb → Opens T r bb b f fs →
      PrecededBy T b.tid r (b :: l) f.exec b.lastBBID) (h : Labelled T r' l) :
    Labelled T r (b :: l) := by
  intro pre c post u bb f fs hl hrun htype hbb hopens
  cases pre with
  | nil =>
    cases hrun
    cases hl
    exact hb htype bb f fs hbb hopens
  | cons d pre =>
    obtain ⟨rfl, rfl⟩ := List.cons.inj hl
    obtain ⟨u₁, hu₁, hrun⟩ := run_cons_eq_some.mp hrun
    cases hstep.symm.trans hu₁
    exact h pre c post u bb f fs rfl hrun htype hbb hopens

/-- From a reading that mirrors the call stacks, the blocks `l` can be read to the end, they carry
what was executed before, and it turns out for the open frames. -/
structure Replayed (T : Tables) (first : Nat → Nat × Nat) (stks : Nat → List StackInfo)
    (r : Reading) (l : List SmallestBlock) : Prop where
  finishes : ∃ r', run (readStep T) r l = some r' ∧ ∀ tid, r'.frames tid = []
  labelled : Labelled T r l
  mirrors : ∀ tid, Mirrors T (PrecededBy T tid r l) (first tid) (stks tid) (r.frames tid)

/-- The call stack of a thread changes without a block. -/
theorem Replayed.changes
    (hr : ∀ t, Mirrors T (fun _ _ => True) (Function.update first tid p t)
      (Function.update stks tid stk t) (r.frames t))
    (hback : ∀ fs, Mirrors T (fun _ _ => True) p stk fs →
      Mirrors T (fun _ _ => True) (first tid) (stks tid) fs ∧
        ∀ L, Mirrors T L (first tid) (stks tid) fs → Mirrors T L p stk fs)
    (ih : (∀ t, Mirrors T (fun _ _ => True) (first t) (stks t) (r.frames t)) →
      Replayed T first stks r l) :
    Replayed T (Function.update first tid p) (Function.update stks tid stk) r l := by
  have hself := hr tid
  rw [Function.update_self, Function.update_self] at hself
  obtain ⟨hold, hnew⟩ := hback _ hself
  have h := ih fun t => by
    by_cases ht : t = tid
    · rw [ht]
      exact hold
    · have := hr t
      rwa [Function.update_of_ne ht, Function.update_of_ne ht] at this
  refine ⟨h.finishes, h.labelled, fun t => ?_⟩
  by_cases ht : t = tid
  · rw [ht, Function.update_self, Function.update_self]
    exact hnew _ (h.mirrors tid)
  · rw [Function.update_of_ne ht, Function.update_of_ne ht]
    exact h.mirrors t

/-- One more block is read. -/
theorem Replayed.emit (htrail : Trail T first stks l)
    (hemit : EmitsBlock T tid (first tid) (stks tid) b stk)
    (hr : ∀ t, Mirrors T (fun _ _ => True) (Function.update first tid (0, 0) t)
      (Function.update stks tid stk t) (r.frames t))
    (ih : ∀ {r' : Reading}, (∀ t, Mirrors T (fun _ _ => True) (first t) (stks t) (r'.frames t)) →
      Replayed T first stks r' l.reverse) :
    Replayed T (Function.update first tid (0, 0)) (Function.update stks tid stk) r
      (b :: l.reverse) := by
  have hself := hr tid
  rw [Function.update_self, Function.update_self] at hself
  obtain ⟨info, bb, f, fs, hstk, hpiece, hbb, hopens, hrest, hback⟩ :=
    hemit.opens (htrail.behind tid) hself
  have hinside : T.Inside info := by
    refine ⟨bb, hbb, ?_⟩
    have := hpiece.fits.1
    have := hpiece.fits.2.1
    have := hpiece.start
    omega
  have hf : f.bbID = info.bbID ∧ f.start = info.curIndex :=
    ⟨hopens.bbID.1.trans hpiece.bbID, hopens.bbID.2.trans hpiece.start⟩
  -- at the beginning of an activation nothing was executed before
  have hentry : 0 < b.isFirst → f.start = 0 ∧ info.lastBBID = -1 := by
    rw [hpiece.isFirst]
    intro hfirst
    obtain ⟨info', rest, hstk', hzero, hlast⟩ := htrail.entry tid hfirst
    cases hstk.symm.trans hstk'
    exact ⟨hf.2.trans hzero, hlast⟩
  have hbb' : T.bb2Ins[b.bbID]? = some bb := by rw [hpiece.bbID, hbb]
  obtain ⟨r', hstep, hframes⟩ :=
    readStep_eq hpiece.type hbb' hpiece.fits hopens fun h => (hentry h).1
  rw [hpiece.tid, hpiece.isFirst] at hframes
  have hothers : ∀ t, t ≠ tid → r'.frames t = r.frames t := fun t ht => by
    rw [hframes, Function.update_of_ne ht]
  have hmirrors : ∀ t, Mirrors T (fun _ _ => True) (first t) (stks t) (r'.frames t) := by
    intro t
    by_cases ht : t = tid
    · subst ht
      rw [hframes, Function.update_self, hstk]
      by_cases hfirst : 0 < (first t).1
      · rw [if_pos hfirst]
        exact .entry hfirst hrest
      · rw [if_neg hfirst]
        exact .inside (Nat.eq_zero_of_not_pos hfirst) hinside ⟨hf.1, hf.2, trivial⟩ hrest
    · have := hr t
      rw [Function.update_of_ne ht, Function.update_of_ne ht] at this
      rwa [hothers t ht]
  have h := ih hmirrors
  -- what was executed before this execution and those of the frames below
  have hlabels : PrecededBy T tid r (b :: l.reverse) f.exec info.lastBBID ∧
      List.Forall₂ (StandsFor (PrecededBy T tid r (b :: l.reverse))) (stks tid).tail fs := by
    have hmirror := (h.mirrors tid).mono fun _ _ h => PrecededBy.later hstep h
    rw [hframes, Function.update_self, hstk] at hmirror
    by_cases hfirst : 0 < (first tid).1
    · rw [if_pos hfirst] at hmirror
      have hpos : 0 < b.isFirst := by rwa [hpiece.isFirst]
      rw [(hentry hpos).2]
      refine ⟨.here (.first hpiece.type hpiece.tid hbb' hopens hpos), ?_⟩
      cases hmirror with
      | entry _ hrest => exact hrest
      | inside hzero => omega
      | finished hzero => omega
    · rw [if_neg hfirst] at hmirror
      cases hmirror with
      | entry hpos => exact absurd hpos hfirst
      | inside _ _ htop hrest => exact ⟨htop.2.2, hrest⟩
      | finished _ hnot => exact absurd hinside hnot
  refine ⟨?_, ?_, fun t => ?_⟩
  · obtain ⟨r'', hrun, hnil⟩ := h.finishes
    exact ⟨r'', run_cons_eq_some.mpr ⟨r', hstep, hrun⟩, hnil⟩
  · refine Labelled.cons hstep (fun _ bb₁ f₁ fs₁ hbb₁ hopens₁ => ?_) h.labelled
    cases hbb'.symm.trans hbb₁
    cases hopens.open_eq.symm.trans hopens₁.open_eq
    rw [hpiece.lastBBID, hpiece.tid]
    exact hlabels.1
  · by_cases ht : t = tid
    · subst ht
      rw [Function.update_self, Function.update_self]
      refine hback _ hlabels.1 (fun f₀ fs₀ hframes₀ hstart hlast => ?_) hlabels.2
      rw [← hpiece.bbID]
      exact .here (.finished hpiece.type hpiece.tid hlast hframes₀ hstart)
    · rw [Function.update_of_ne ht, Function.update_of_ne ht, ← hothers t ht]
      exact (h.mirrors t).mono fun _ _ h => PrecededBy.later hstep h

/-- **A trail can be read backward.** -/
theorem Trail.replayed (h : Trail T first stks l) {r : Reading}
    (hr : ∀ tid, Mirrors T (fun _ _ => True) (first tid) (stks tid) (r.frames tid)) :
    Replayed T first stks r l.reverse := by
  induction h generalizing r with
  | init =>
    have hnil : ∀ tid, r.frames tid = [] := fun tid => by
      have := hr tid
      generalize r.frames tid = frames at this
      cases this
      rfl
    refine ⟨⟨r, rfl, hnil⟩, fun pre b post u bb f fs hl => absurd hl (by simp), fun tid => ?_⟩
    rw [hnil tid]
    exact .nil
  | @declare first stks l b _ htype ih =>
    rw [List.reverse_append, List.reverse_singleton, List.singleton_append]
    have hstep : readStep T r b = some { r with pos := r.pos + 1 } := by rw [readStep, if_pos htype]
    have h : Replayed T first stks { r with pos := r.pos + 1 } l.reverse := ih hr
    refine ⟨?_, Labelled.cons hstep (fun hne => absurd htype hne) h.labelled, fun tid => ?_⟩
    · obtain ⟨r', hrun, hnil⟩ := h.finishes
      exact ⟨r', run_cons_eq_some.mpr ⟨_, hstep, hrun⟩, hnil⟩
    · exact (h.mirrors tid).mono fun _ _ h => PrecededBy.later hstep h
  | emit htrail hemit ih =>
    rw [List.reverse_append, List.reverse_singleton, List.singleton_append]
    exact .emit htrail hemit hr ih
  | @start first stks l tid _ hstk id ih =>
    refine .changes hr (fun fs h => ?_) ih
    rw [hstk]
    cases h with
    | entry _ hrest =>
      cases hrest
      exact ⟨.nil, fun L _ => .entry (by decide) .nil⟩
    | inside hzero => cases hzero
    | finished hzero => cases hzero
  | @jump first stks l tid info rest bb htrail hstk hbb hend hpos id hinside ih =>
    refine .changes hr (fun fs h => ?_) ih
    have hnot : ¬ T.Inside info := by
      rintro ⟨bb', hbb', hlt⟩
      cases hbb.symm.trans hbb'
      omega
    have hzero : (first tid).1 = 0 := htrail.first_eq_zero hstk hpos
    rw [hstk]
    cases h with
    | entry hfirst => exact absurd hfirst (lt_irrefl 0)
    | inside _ _ htop hrest =>
      refine ⟨.finished hzero hnot htop.2.1 trivial hrest, fun L h => ?_⟩
      cases h with
      | entry hfirst => omega
      | inside _ hinside' => exact absurd hinside' hnot
      | finished _ _ _ hlabel hrest =>
        exact .inside rfl hinside ⟨htop.1, htop.2.1, hlabel⟩ hrest
    | finished _ hnot' => exact absurd hinside hnot'
  | @call first stks l tid info rest htrail hstk hinside hpos id caller ih =>
    refine .changes hr (fun fs h => ?_) ih
    have hzero : (first tid).1 = 0 := htrail.first_eq_zero hstk hpos
    rw [hstk]
    cases h with
    | entry _ hrest =>
      cases hrest with
      | cons htop hrest =>
        refine ⟨.inside hzero hinside htop hrest, fun L h => ?_⟩
        cases h with
        | entry hfirst => omega
        | inside _ _ htop hrest => exact .entry Nat.one_pos (.cons htop hrest)
        | finished _ hnot => exact absurd hinside hnot
    | inside hzero => cases hzero
    | finished hzero => cases hzero

/-! ## The merger leaves a trail -/

/-- The history of the merger's variables. -/
def MergeState.Trails (T : Tables) (s : MergeState) : Prop :=
  Trail T s.isFirst s.callStack s.blockTrace

variable {s s' s₁ : MergeState} {id : Nat} {i : InstInfo}

/-- A block of a program that does not end in a return ends in a terminator. -/
theorem Program.endType_eq (hbb : bb ∈ P.bb2Ins) {ret : Bool}
    (h : endsInReturn P.toTables bb = some ret) :
    P.endType bb = some (if ret then .returnInst else .terminatorInst) := by
  obtain ⟨id, hid, h⟩ := Option.bind_eq_some_iff.mp h
  obtain ⟨i, hi, h⟩ := Option.bind_eq_some_iff.mp h
  have hret : decide (i.type = .returnInst) = ret := Option.some.inj h
  have hends : i.type = .terminatorInst ∨ i.type = .returnInst := by
    have hne := P.block_ne bb hbb
    refine (P.ends bb hbb (bb.length - 1) id i ?_ hi).mpr ?_
    · rwa [← List.getLast?_eq_getElem?]
    · exact Nat.sub_add_cancel (List.length_pos_iff.mpr hne)
  have htype : P.endType bb = some i.type := by
    simp [Tables.endType, hid, hi]
  rw [htype, ← hret]
  obtain hterm | hterm := hends
  · simp [hterm]
  · simp [hterm]

/-- Running ahead. -/
theorem Trail.runAhead {first' : Nat × Nat} {stk' : List StackInfo} {bs : List SmallestBlock}
    (htrail : Trail P.toTables first stks l)
    (hrun : runAhead P.toTables tid (stks tid) (first tid) = some (stk', first', bs)) :
    Trail P.toTables (Function.update first tid first') (Function.update stks tid stk')
      (l ++ bs) := by
  generalize hstk : stks tid = stk at hrun
  induction stk generalizing first stks l stk' first' bs with
  | nil =>
    cases hrun
    rw [← hstk, Function.update_eq_self, Function.update_eq_self, List.append_nil]
    exact htrail
  | cons info rest ih =>
    rw [Slimmer.runAhead] at hrun
    obtain ⟨bb, hbb, hrun⟩ := Option.bind_eq_some_iff.mp hrun
    obtain ⟨n, hn, hrun⟩ := Option.bind_eq_some_iff.mp hrun
    obtain ⟨last, hlast, hrun⟩ := Option.bind_eq_some_iff.mp hrun
    have hmem : bb ∈ P.bb2Ins := List.mem_of_getElem? hbb
    obtain ⟨m, hle, hm⟩ := P.scanEnd_isSome hmem (bb.drop info.curIndex) fun x hx =>
      List.mem_of_mem_drop hx
    cases hn.symm.trans hm
    rw [List.length_drop] at hle
    by_cases hpos : 0 < n
    swap
    · -- nothing lies ahead
      rw [if_neg hpos] at hrun
      split_ifs at hrun
      cases hrun
      rw [← hstk, Function.update_eq_self, Function.update_eq_self, List.append_nil]
      exact htrail
    rw [if_pos hpos] at hrun
    let piece (isLast caller : Nat) : SmallestBlock :=
      { SmallestBlock.make .normalBlock tid info.bbID info.curIndex (info.curIndex + n) (first tid)
          info.lastBBID [] with isLast := isLast, caller := caller }
    have hpiece : ∀ isLast caller, Piece tid (first tid) info bb (piece isLast caller) := by
      intro isLast caller
      refine ⟨by simp [piece, SmallestBlock.make], rfl, rfl, rfl, rfl, rfl, ?_, ?_,
        fun h => absurd rfl h⟩
      · show info.curIndex < info.curIndex + n
        omega
      · show info.curIndex + n ≤ bb.length
        omega
    cases last with
    | true =>
      -- the basic block ends in a return
      have hstop : info.curIndex + n = bb.length ∧ endsInReturn P.toTables bb = some true := by
        unfold lastBB at hlast
        split_ifs at hlast with hstop
        · exact ⟨hstop, hlast⟩
        · cases hlast
      rw [if_pos rfl] at hrun
      obtain ⟨⟨isLast, caller⟩, hpop, hrun⟩ := Option.bind_eq_some_iff.mp hrun
      obtain ⟨⟨stk₁, first₁, bs₁⟩, hrest, hrun⟩ := Option.bind_eq_some_iff.mp hrun
      cases hrun
      have hisLast : 0 < isLast := by
        cases rest with
        | nil =>
          cases hpop
          exact Nat.two_pos
        | cons c rest =>
          obtain ⟨c', -, hc'⟩ := Option.map_eq_some_iff.mp hpop
          cases hc'
          exact Nat.one_pos
      have hend := P.endType_eq hmem hstop.2
      have hemit : EmitsBlock P.toTables tid (first tid) (stks tid) (piece isLast caller) rest := by
        rw [hstk]
        exact .pop hbb (hpiece isLast caller) hisLast hstop.1 hend
      have h := ih (htrail.emit hemit) (Function.update_self ..)
        (by rw [Function.update_self]; exact hrest)
      rw [Function.update_idem, Function.update_idem, List.append_assoc] at h
      exact h
    | false =>
      rw [if_neg Bool.false_ne_true] at hrun
      cases hrun
      have hemit : EmitsBlock P.toTables tid (first tid) (stks tid) (piece 0 (first tid).2)
          ({ info with curIndex := info.curIndex + n } :: rest) := by
        rw [hstk]
        refine .stay hbb (hpiece 0 (first tid).2) rfl fun hstop => ?_
        replace hstop : info.curIndex + n = bb.length := hstop
        rw [lastBB, if_pos hstop] at hlast
        exact P.endType_eq hmem hlast
      exact htrail.emit hemit

theorem MergeState.Trails.advance (h : s.Trails P.toTables)
    (hadvance : s.advance P.toTables tid = some s') : s'.Trails P.toTables := by
  obtain ⟨⟨stk, first, bs⟩, hrun, h'⟩ := Option.bind_eq_some_iff.mp hadvance
  cases h'
  exact Trail.runAhead h hrun

/-- An instruction that records an event does not end its basic block. -/
theorem MergeState.Trails.instBlock (h : s.Trails P.toTables) {type : SmallestBlockType}
    {addr : List Nat} (htype : type ≠ .declareBlock) (hi : P.ins[id]? = some i)
    (hne : ¬ (i.type = .terminatorInst ∨ i.type = .returnInst))
    (hinst : s.instBlock P.toTables type tid id addr = some s') : s'.Trails P.toTables := by
  unfold MergeState.instBlock at hinst
  split at hinst
  · cases hinst
  · rename_i info rest hstk
    obtain ⟨bb, hbb, hinst⟩ := Option.bind_eq_some_iff.mp hinst
    obtain ⟨id', hid', hinst⟩ := Option.bind_eq_some_iff.mp hinst
    obtain ⟨_, hid, hinst⟩ := Option.bind_eq_some_iff.mp hinst
    cases hinst
    have hid : id = id' := by simpa [guard] using hid
    subst hid
    have hlt := (List.getElem?_eq_some_iff.mp hid').1
    have hstop : info.curIndex + 1 < bb.length := by
      have := mt (P.ends bb (List.mem_of_getElem? hbb) _ id i hid' hi).mpr hne
      omega
    have hemit : EmitsBlock P.toTables tid (s.isFirst tid) (s.callStack tid)
        (SmallestBlock.make type tid info.bbID info.curIndex (info.curIndex + 1) (s.isFirst tid)
          info.lastBBID addr) ({ info with curIndex := info.curIndex + 1 } :: rest) := by
      rw [hstk]
      refine .stay hbb ⟨htype, rfl, rfl, rfl, rfl, rfl, ?_, ?_, fun _ => ⟨rfl, hstop⟩⟩ rfl ?_
      · exact Nat.lt_succ_self info.curIndex
      · exact hstop.le
      · intro he
        exact absurd he hstop.ne
    exact Trail.emit h hemit

/-- A basic block starts. -/
theorem MergeState.Trails.enterBlock (h : s.Trails P.toTables) (hid : id < P.bb2Ins.length)
    (henter : s.enterBlock P.toTables tid id = some s') : s'.Trails P.toTables := by
  unfold MergeState.enterBlock at henter
  split at henter
  · rename_i hstk
    cases henter
    exact Trail.start h hstk id
  · rename_i info rest hstk
    obtain ⟨bb, hbb, henter⟩ := Option.bind_eq_some_iff.mp henter
    split_ifs at henter with hend
    · cases henter
      have hpos : 0 < info.curIndex := by
        have := List.length_pos_iff.mpr (P.block_ne bb (List.mem_of_getElem? hbb))
        omega
      exact Trail.jump h hstk hbb hend hpos id (Program.inside_entry hid info.bbID)
    · obtain ⟨_, hpos, henter⟩ := Option.bind_eq_some_iff.mp henter
      obtain ⟨caller, -, henter⟩ := Option.bind_eq_some_iff.mp henter
      cases henter
      have hpos : 0 < info.curIndex := by simpa [guard, Nat.pos_iff_ne_zero] using hpos
      exact Trail.call h hstk ⟨bb, hbb, not_le.mp hend⟩ hpos id caller

theorem mergeStep_cases {impactful : Nat → Bool} {e : Event}
    (h : mergeStep P.toTables impactful s (.event e) = some s') :
    ∃ s₁, MergeState.dispatch P.toTables impactful { s with tidPtr := some e.tid } e = some s₁ ∧
      (s' = s₁ ∨ s₁.advance P.toTables e.tid = some s') := by
  obtain ⟨s₁, hs₁, h⟩ := Option.bind_eq_some_iff.mp h
  refine ⟨s₁, hs₁, ?_⟩
  split_ifs at h
  · exact Or.inl (Option.some.inj h).symm
  · exact Or.inr h

/-- **An event** of a step of a thread. -/
theorem MergeState.Trails.event {impactful : Nat → Bool} {stk stk' : List StackInfo}
    {evs : List Event} {ids : List Nat} (h : s.Trails P.toTables)
    (hstep : ThreadStep P tid stk evs ids stk')
    (hrun : run (mergeStep P.toTables impactful) s (evs.map .event) = some s') :
    s'.Trails P.toTables := by
  have hone : ∀ {e : Event}, run (mergeStep P.toTables impactful) s [.event e] = some s' →
      (∀ s₁, MergeState.dispatch P.toTables impactful { s with tidPtr := some e.tid } e = some s₁ →
        s₁.Trails P.toTables) → s'.Trails P.toTables := by
    intro e hrun hdispatch
    obtain ⟨s₂, hs₂, hrun⟩ := run_cons_eq_some.mp hrun
    cases hrun
    obtain ⟨s₁, hs₁, rfl | hadvance⟩ := mergeStep_cases hs₂
    · exact hdispatch _ hs₁
    · exact (hdispatch _ hs₁).advance hadvance
  have hstart : MergeState.Trails P.toTables { s with tidPtr := some tid } := h
  cases hstep with
  | silent | ret =>
    cases hrun
    exact h
  | start bb hbb | call bb _ _ _ hbb | jump bb _ _ hbb =>
    exact hone hrun fun s₁ hs₁ => hstart.enterBlock hbb hs₁
  | @access info rest id i addr length hat ht =>
    refine hone hrun fun s₁ hs₁ => ?_
    rw [MergeState.dispatch, if_neg (P.id_ne_noId hat)] at hs₁
    obtain ⟨-, -, -, hi⟩ := hat
    refine hstart.instBlock (by simp) hi ?_ hs₁
    rintro (h | h) <;> simp [h, InstType.isAccess] at ht
  | @memset info rest id i addr length hat ht _
  | @memmove info rest id i addr addr2 length hat ht _ =>
    obtain ⟨-, -, -, hi⟩ := hat
    exact hone hrun fun s₁ hs₁ => hstart.instBlock (by simp) hi (by simp [ht]) hs₁
  | argument addr hat ht =>
    refine hone hrun fun s₁ hs₁ => ?_
    cases hs₁
    exact hstart
  | @external info rest id i addr hat ht =>
    obtain ⟨-, -, -, hi⟩ := hat
    refine hone hrun fun s₁ hs₁ => ?_
    obtain ⟨type, htype, hs₁⟩ := Option.bind_eq_some_iff.mp hs₁
    obtain ⟨s₂, hs₂, hs₁⟩ := Option.bind_eq_some_iff.mp hs₁
    cases hs₁
    have hne : type ≠ .declareBlock := by
      unfold callBlockType at htype
      split_ifs at htype
      · cases htype
        simp
      · obtain ⟨j, -, rfl⟩ := Option.map_eq_some_iff.mp htype
        split_ifs <;> simp
    have h₂ : s₂.Trails P.toTables := hstart.instBlock hne hi (by simp [ht]) hs₂
    exact h₂

/-- The merger leaves a trail on the events of an execution. -/
theorem Execution.trails {es : List Event} {th : Nat → List StackInfo} {ex : Nat → List Nat}
    (h : Execution P es th ex) {impactful : Nat → Bool}
    (hrun : run (mergeStep P.toTables impactful) {} (es.map .event) = some s) :
    s.Trails P.toTables := by
  induction h generalizing s with
  | init =>
    cases hrun
    exact .init
  | step _ hstep ih =>
    rw [List.map_append] at hrun
    obtain ⟨s₁, hs₁, hrun⟩ := run_append_eq_some.mp hrun
    exact (ih hs₁).event hstep hrun
  | declare addr length _ ih =>
    rw [List.map_append] at hrun
    obtain ⟨s₁, hs₁, hrun⟩ := run_append_eq_some.mp hrun
    have h := ih hs₁
    simp [run, mergeStep, MergeState.dispatch, Event.continues, Event.tid, Event.declare] at hrun
    cases hrun
    exact Trail.declare h rfl

/-- When the threads have come to their ends, no call stack is left. -/
theorem Execution.trail_of_done {impactful : Nat → Bool} {es : List Event}
    {th : Nat → List StackInfo} {ex : Nat → List Nat} (h : Execution P es th ex)
    (hdone : ∀ tid, th tid = []) {trace : List SmallestBlock}
    (hmerge : mergeTrace P.toTables impactful (es.map .event) = some trace) :
    ∃ first, Trail P.toTables first (fun _ => []) trace := by
  obtain ⟨s, hrun, hT⟩ := h.tracks impactful
  have hcs : s.callStack = fun _ => [] := funext fun tid => by simp [hT.callStack, hdone, ahead]
  have htrace : trace = s.blockTrace := by
    simpa [mergeTrace, hrun, hcs, closeThreads_of_empty] using hmerge.symm
  rw [htrace, ← hcs]
  exact ⟨s.isFirst, h.trails hrun⟩

/-- **A merged trace is complete, and its blocks carry what was executed before.** -/
theorem mergeTrace_complete (impactful : Nat → Bool) {es : List Event}
    {th : Nat → List StackInfo} {ex : Nat → List Nat} (h : Execution P es th ex)
    (hdone : ∀ tid, th tid = []) {trace : List SmallestBlock}
    (hmerge : mergeTrace P.toTables impactful (es.map .event) = some trace) :
    ∃ r, Complete P.toTables trace r ∧ Labelled P.toTables {} trace.reverse := by
  obtain ⟨first, htrail⟩ := h.trail_of_done hdone hmerge
  obtain ⟨⟨r, hr, hnil⟩, hlabelled, -⟩ := htrail.replayed (r := {}) fun _ => .nil
  exact ⟨r, ⟨hr, hnil⟩, hlabelled⟩

end

end Slimmer
