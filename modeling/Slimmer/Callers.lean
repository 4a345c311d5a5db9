import Slimmer.Brackets

/-!
# The callers of the activations

The `Caller` of the first block of an activation is set when its first basic block starts, to the
instruction in front of `CurIndex` of the frame below; the `Caller` of its last block when the frame
is popped, to the same instruction if it is a `CallInst`, and to `(uint32_t) - 1` if not. The frame
below stands behind the call when `MergeTrace` has run ahead through one, but not when the function
has been entered in another way: called back by an external function, or called by an instruction
that is taken for an allocation.

**Theorem (`callers_named`).** When every function that is entered over an unfinished frame is
entered behind a `CallInst`, and no such function left open has just been entered, the first and the
last block of an activation name the same caller, and `BB2Ins` is never indexed in front of a block.
-/

namespace Slimmer

/-! ## Reading the callers -/

/-- An activation that is open: its first block, and the last instruction executed in it. -/
structure OpenActivation where
  isFirst : Nat
  caller : Nat
  last : Option Nat := none
  deriving DecidableEq, Repr

/-- A `Caller` is `(uint32_t) - 1` or the call the calling activation has executed last. -/
def NamesCall (T : Tables) (opens : List OpenActivation) (caller : Nat) : Prop :=
  caller = noId ∨ opens.head?.bind OpenActivation.last = some caller ∧
    (T.ins[caller]?).map InstInfo.type = some .callInst

instance (T : Tables) (opens : List OpenActivation) (caller : Nat) :
    Decidable (NamesCall T opens caller) := inferInstanceAs (Decidable (_ ∨ _ ∧ _))

/-- A first block opens an activation. -/
def openWith (b : SmallestBlock) (opens : List OpenActivation) : List OpenActivation :=
  if b.isFirst = 0 then opens else { isFirst := b.isFirst, caller := b.caller } :: opens

/-- The next block of a thread. The first block of a called function has to name its caller, and the
last block of an activation has to name the same. -/
def readCaller (T : Tables) (opens : List OpenActivation) (b : SmallestBlock) :
    Option (List OpenActivation) :=
  if b.isFirst = 1 ∧ ¬ NamesCall T opens b.caller then none
  else match openWith b opens with
    | [] => none
    | o :: rest =>
      if b.isLast = 0 then some ({ o with last := (b.insIDs T).getLast?.or o.last } :: rest)
      else if o.isFirst = b.isLast ∧ (b.isLast = 1 → o.caller = b.caller) then some rest
      else none

/-- The first and the last block of each activation name the same caller. -/
def CallersAgree (T : Tables) (bt : List SmallestBlock) : Prop :=
  ∀ tid, (run (readCaller T) [] (blocksOf bt tid)).isSome = true

/-- The outermost function of a thread has just been entered. -/
def EnteredOutermost (stk : List StackInfo) : Prop := Entered stk ∧ stk.length = 1

/-- Where `BB2Ins` is indexed at `CurIndex - 1` there is an instruction in front of `CurIndex`, and the
callers agree in what has been emitted at any time, and at the end, where a thread may have no other
block of its outermost function than the one that closes it. -/
structure CallersNamed (T : Tables) (impactful : Nat → Bool) (entries : List Entry) : Prop where
  enter : ∀ pre tid id post s info rest, entries = pre ++ .event (.basicBlock tid id) :: post →
    run (mergeStep T impactful) {} pre = some s → s.callStack tid = info :: rest →
    T.Inside info → 0 < info.curIndex
  below : ∀ pre s, pre <+: entries → run (mergeStep T impactful) {} pre = some s →
    ∀ tid, ∀ info ∈ (s.callStack tid).tail, 0 < info.curIndex
  reached : ∀ pre s, pre <+: entries → run (mergeStep T impactful) {} pre = some s →
    CallersAgree T s.blockTrace
  whole : ∀ bt s, mergeTrace T impactful entries = some bt →
    run (mergeStep T impactful) {} entries = some s → ∀ tid, ¬ EnteredOutermost (s.callStack tid) →
      (run (readCaller T) [] (blocksOf bt tid)).isSome = true

/-- A function that is entered over an unfinished frame is entered behind a `CallInst`. -/
def EntersBehindCall (T : Tables) (s : MergeState) : Entry → Prop
  | .event (.basicBlock tid _) => ∀ info rest, s.callStack tid = info :: rest → T.Inside info →
    0 < info.curIndex ∧ ∃ id i, T.At { info with curIndex := info.curIndex - 1 } id i ∧
      i.type = .callInst
  | _ => True

/-! ## The frames and the open activations -/

/-- The activations of the frames, each with the caller its last block will have. -/
def Opened (T : Tables) : List StackInfo → List OpenActivation → Prop
  | [], opens => opens = []
  | info :: rest, opens => ∃ o os, opens = o :: os ∧
    (0 < info.curIndex → ∃ bb, T.bb2Ins[info.bbID]? = some bb ∧
      o.last = bb[info.curIndex - 1]?) ∧
    popInfo T o.caller rest = some (o.isFirst, o.caller) ∧ Opened T rest os

/-- With what is waiting in `is_first`: nothing, or the first block of the frame on top. -/
inductive Awaits (T : Tables) :
    List StackInfo → Nat × Nat → List OpenActivation → Prop
  | nothing {stk opens} (h : Opened T stk opens) : Awaits T stk (0, 0) opens
  | first {info rest first opens} (hentry : info.lastBBID = -1 ∧ info.curIndex = 0)
    (hpop : popInfo T first.2 rest = some first) (h : Opened T rest opens) :
    Awaits T (info :: rest) first opens

section

variable {P : Program} {T : Tables} {impactful : Nat → Bool} {s s' : MergeState} {tid : Nat}
  {info : StackInfo} {rest stk stk' : List StackInfo} {first first' : Nat × Nat}
  {opens : List OpenActivation} {bs : List SmallestBlock} {bb : List Nat} {n : Nat}

/-- What the frame below says when it is popped to. -/
theorem callerOf_eq_some {c : Nat} : callerOf T info = some c ↔
    0 < info.curIndex ∧ ∃ bb id i, T.bb2Ins[info.bbID]? = some bb ∧ info.curIndex < bb.length ∧
      bb[info.curIndex - 1]? = some id ∧ T.ins[id]? = some i ∧
      c = if i.type = .callInst then id else noId := by
  simp only [callerOf, Option.bind_eq_bind, Option.bind_eq_some_iff, guard]
  constructor
  · rintro ⟨bb, hbb, _, hguard, id, hid, i, hi, hc⟩
    split_ifs at hguard with hlt
    exact ⟨hlt.1, bb, id, i, hbb, hlt.2, hid, hi, (Option.some.inj hc).symm⟩
  · rintro ⟨hpos, bb, id, i, hbb, hlt, hid, hi, rfl⟩
    exact ⟨bb, hbb, (), if_pos ⟨hpos, hlt⟩, id, hid, i, hi, rfl⟩

/-- The caller that is waiting names a call. -/
theorem namesCall_of_popInfo (hpop : popInfo T first.2 rest = some first) (h : Opened T rest opens)
    (hfirst : first.1 = 1) : NamesCall T opens first.2 := by
  cases rest with
  | nil =>
    rw [← Option.some.inj hpop] at hfirst
    exact absurd hfirst (by decide : (2 : Nat) ≠ 1)
  | cons info rest =>
    obtain ⟨c, hc, heq⟩ := Option.map_eq_some_iff.mp hpop
    obtain ⟨hpos, bb, id, i, hbb, -, hid, hi, hcaller⟩ := callerOf_eq_some.mp hc
    obtain ⟨o, os, rfl, hlast, -, -⟩ := h
    rw [← heq]
    by_cases hcall : i.type = .callInst
    · rw [if_pos hcall] at hcaller
      subst hcaller
      obtain ⟨bb', hbb', hlast⟩ := hlast hpos
      cases hbb.symm.trans hbb'
      refine Or.inr ⟨?_, ?_⟩
      · show o.last = some c
        rw [hlast, hid]
      · rw [hi, Option.map_some, hcall]
    · rw [if_neg hcall] at hcaller
      exact Or.inl hcaller

/-! ## One block -/

theorem popInfo_ne_zero {c : Nat} {p : Nat × Nat} (h : popInfo T c rest = some p) : p.1 ≠ 0 := by
  cases rest with
  | nil =>
    rw [← Option.some.inj h]
    exact Nat.succ_ne_zero 1
  | cons info rest =>
    obtain ⟨c', -, heq⟩ := Option.map_eq_some_iff.mp h
    rw [← heq]
    exact Nat.one_ne_zero

/-- The frame below says the same at the start and at the end. -/
theorem popInfo_agree {c c' : Nat} {p p' : Nat × Nat} (h : popInfo T c rest = some p)
    (h' : popInfo T c' rest = some p') : p.1 = p'.1 ∧ (p'.1 = 1 → p.2 = p'.2) := by
  cases rest with
  | nil =>
    rw [← Option.some.inj h, ← Option.some.inj h']
    exact ⟨rfl, fun hone => absurd hone (Nat.succ_ne_self 1)⟩
  | cons info rest =>
    rw [Option.some.inj (h.symm.trans h')]
    exact ⟨rfl, fun _ => rfl⟩

/-- A block opens the activation that is waiting, if there is one. -/
theorem openWith_awaits {b : SmallestBlock} (h : Awaits T (info :: rest) first opens)
    (hfirst : b.isFirst = first.1) (hcaller : b.isFirst ≠ 0 → b.caller = first.2) :
    ¬ (b.isFirst = 1 ∧ ¬ NamesCall T opens b.caller) ∧ ∃ o os, openWith b opens = o :: os ∧
      popInfo T o.caller rest = some (o.isFirst, o.caller) ∧ Opened T rest os := by
  unfold openWith
  cases h with
  | nothing h =>
    obtain ⟨o, os, rfl, -, hpop, hrest⟩ := h
    rw [hfirst, if_pos rfl]
    exact ⟨fun hone => absurd hone.1 Nat.zero_ne_one, o, os, rfl, hpop, hrest⟩
  | first hentry hpop h =>
    have hne : first.1 ≠ 0 := popInfo_ne_zero hpop
    rw [hcaller (hfirst ▸ hne), hfirst, if_neg hne]
    refine ⟨fun hone => hone.2 (namesCall_of_popInfo hpop h hone.1), _, opens, rfl, hpop, h⟩

/-- **A block within an activation.** -/
theorem read_inner {b : SmallestBlock} (h : Awaits T (info :: rest) first opens)
    (hfirst : b.isFirst = first.1) (hcaller : b.caller = first.2) (hlast : b.isLast = 0)
    (hbb : T.bb2Ins[info.bbID]? = some bb)
    (hids : (b.insIDs T).getLast? = bb[info.curIndex + n - 1]?) (hpos : 0 < n)
    (hle : info.curIndex + n ≤ bb.length) :
    ∃ opens', readCaller T opens b = some opens' ∧
      Opened T ({ info with curIndex := info.curIndex + n } :: rest) opens' := by
  obtain ⟨hnames, o, os, hopen, hpop, hrest⟩ := openWith_awaits h hfirst fun _ => hcaller
  have hread : readCaller T opens b =
      some ({ o with last := (b.insIDs T).getLast?.or o.last } :: os) := by
    unfold readCaller
    rw [if_neg hnames, hopen]
    simp only []
    rw [if_pos hlast]
  refine ⟨_, hread, _, os, rfl, fun _ => ⟨bb, hbb, ?_⟩, hpop, hrest⟩
  have hlt : info.curIndex + n - 1 < bb.length := by omega
  show (b.insIDs T).getLast?.or o.last = bb[info.curIndex + n - 1]?
  rw [hids, List.getElem?_eq_getElem hlt]
  rfl

/-- **A block that ends an activation.** -/
theorem read_last {b : SmallestBlock} (h : Awaits T (info :: rest) first opens)
    (hfirst : b.isFirst = first.1) (hpop : popInfo T first.2 rest = some (b.isLast, b.caller)) :
    ∃ opens', readCaller T opens b = some opens' ∧ Opened T rest opens' := by
  have hcaller : b.isFirst ≠ 0 → b.caller = first.2 := by
    intro hne
    cases h with
    | nothing h => exact absurd hfirst hne
    | first hentry hpop' h =>
      -- the block is the only one of its activation
      rw [Option.some.inj (hpop'.symm.trans hpop)]
  obtain ⟨hnames, o, os, hopen, hpop', hrest⟩ := openWith_awaits h hfirst hcaller
  have hne : b.isLast ≠ 0 := popInfo_ne_zero hpop
  have hagree : o.isFirst = b.isLast ∧ (b.isLast = 1 → o.caller = b.caller) :=
    popInfo_agree hpop' hpop
  refine ⟨os, ?_, hrest⟩
  unfold readCaller
  rw [if_neg hnames, hopen]
  simp only []
  rw [if_neg hne, if_pos hagree]

theorem getLast?_insIDs {b : SmallestBlock} (hbb : T.bb2Ins[b.bbID]? = some bb)
    (hlt : b.start < b.stop) (hle : b.stop ≤ bb.length) :
    (b.insIDs T).getLast? = bb[b.stop - 1]? := by
  have hlen : ¬ (bb.take b.stop).length ≤ b.start := by
    rw [List.length_take]
    omega
  have hne : b.stop ≠ 0 := by omega
  have hget : b.stop - 1 < bb.length := by omega
  unfold SmallestBlock.insIDs
  rw [List.getD_eq_getElem?_getD, hbb, Option.getD_some, List.getLast?_drop, if_neg hlen,
    List.getLast?_take, if_neg hne, List.getElem?_eq_getElem hget]
  rfl

theorem scanEnd_le : ∀ {l : List Nat} {n : Nat}, scanEnd T l = some n → n ≤ l.length
  | [], n, h => by
    cases h
    exact Nat.zero_le _
  | id :: l, n, h => by
    obtain ⟨i, hi, h⟩ := Option.bind_eq_some_iff.mp h
    split_ifs at h
    · obtain ⟨m, hm, rfl⟩ := Option.map_eq_some_iff.mp h
      exact Nat.succ_le_succ (scanEnd_le hm)
    · cases h
      exact Nat.succ_le_succ (Nat.zero_le _)
    · cases h
      exact Nat.zero_le _

/-! ## Running ahead -/

/-- **Running ahead** reads on, and leaves nothing waiting unless there was nothing to run
through. -/
theorem runAhead_callers : ∀ {stk stk' : List StackInfo} {first first' : Nat × Nat}
    {opens : List OpenActivation} {bs : List SmallestBlock},
    runAhead T tid stk first = some (stk', first', bs) → Awaits T stk first opens →
      ∃ opens', run (readCaller T) opens bs = some opens' ∧ Awaits T stk' first' opens'
  | [], _, _, _, opens, _, h, hopens => by
    cases h
    exact ⟨opens, rfl, hopens⟩
  | info :: rest, stk', first, first', opens, bs, h, hopens => by
    simp only [runAhead, Option.bind_eq_bind, Option.bind_eq_some_iff] at h
    obtain ⟨bb, hbb, n, hn, last, hlast, h⟩ := h
    have hle := scanEnd_le hn
    rw [List.length_drop] at hle
    split_ifs at h with hn0 hl hl
    · obtain ⟨p, hp, h⟩ := Option.bind_eq_some_iff.mp h
      obtain ⟨⟨stk'', first'', bs'⟩, hrun, h⟩ := Option.bind_eq_some_iff.mp h
      cases h
      obtain ⟨opens₁, hread, hrest⟩ := read_last (b := { SmallestBlock.make .normalBlock tid info.bbID
        info.curIndex (info.curIndex + n) first info.lastBBID [] with
          isLast := p.1, caller := p.2 }) hopens rfl hp
      obtain ⟨opens₂, hread', hawaits⟩ := runAhead_callers hrun (.nothing hrest)
      exact ⟨opens₂, run_cons_eq_some.mpr ⟨opens₁, hread, hread'⟩, hawaits⟩
    · cases h
      have hids : ((SmallestBlock.make .normalBlock tid info.bbID info.curIndex
          (info.curIndex + n) first info.lastBBID []).insIDs T).getLast? =
          bb[info.curIndex + n - 1]? :=
        getLast?_insIDs hbb (Nat.lt_add_of_pos_right hn0) (by show info.curIndex + n ≤ _; omega)
      obtain ⟨opens₁, hread, hopened⟩ := read_inner hopens rfl rfl rfl hbb hids hn0 (by omega)
      exact ⟨opens₁, run_cons_eq_some.mpr ⟨opens₁, hread, rfl⟩, .nothing hopened⟩
    · cases h
      exact ⟨opens, rfl, hopens⟩

theorem runAhead_type :
    ∀ {stk stk' : List StackInfo} {first first' : Nat × Nat} {bs : List SmallestBlock},
      runAhead T tid stk first = some (stk', first', bs) → ∀ b ∈ bs, b.type = .normalBlock
  | [], _, _, _, _, h => by
    cases h
    exact fun _ hb => nomatch hb
  | info :: rest, _, _, _, _, h => by
    obtain ⟨bb, n, -, -, ⟨-, -, -, -, rfl⟩ | ⟨-, -, -, rfl⟩ | ⟨-, p, bs', hrun, rfl⟩⟩ :=
      runAhead_cons_eq_some h
    · exact fun _ hb => nomatch hb
    · exact List.forall_mem_singleton.mpr rfl
    · exact List.forall_mem_cons.mpr ⟨rfl, runAhead_type hrun⟩

/-! ## The main loop -/

/-- The blocks of a thread have been read, and the activations left open are those of its frames. -/
def Held (T : Tables) (v : ThreadView) : Prop :=
  ∃ opens, run (readCaller T) [] v.blocks = some opens ∧ Awaits T v.callStack v.isFirst opens

theorem Held.of_eq {v v' : ThreadView} (h : Held T v) (hstk : v'.callStack = v.callStack)
    (hfirst : v'.isFirst = v.isFirst) (hblocks : v'.blocks = v.blocks) : Held T v' := by
  unfold Held
  rw [hstk, hfirst, hblocks]
  exact h

theorem Held.advance (h : Held T (s.view tid)) (hadv : s.advance T tid = some s') :
    Held T (s'.view tid) := by
  obtain ⟨opens, hread, hawaits⟩ := h
  obtain ⟨stk, first, bs, hrun, rfl⟩ := advance_eq_some hadv
  obtain ⟨opens', hread', hawaits'⟩ := runAhead_callers hrun hawaits
  have hbs : blocksOf bs tid = bs := by
    apply List.filter_eq_self.mpr
    intro b hb
    simp [runAhead_type hrun b hb, runAhead_tid hrun b hb]
  refine ⟨opens', ?_, ?_⟩
  · show run (readCaller T) [] (blocksOf (s.blockTrace ++ bs) tid) = some opens'
    rw [blocksOf_append, hbs]
    exact run_append_eq_some.mpr ⟨opens, hread, hread'⟩
  · show Awaits T (Function.update s.callStack tid stk tid) (Function.update s.isFirst tid first tid)
      opens'
    rw [Function.update_self, Function.update_self]
    exact hawaits'

theorem Held.instBlock {type : SmallestBlockType} {id : Nat} {addr : List Nat}
    (h : Held T (s.view tid)) (htype : type ≠ .declareBlock)
    (hinst : s.instBlock T type tid id addr = some s') : Held T (s'.view tid) := by
  obtain ⟨opens, hread, hawaits⟩ := h
  unfold MergeState.instBlock at hinst
  split at hinst
  · cases hinst
  · rename_i info rest hcs
    simp only [Option.bind_eq_bind, Option.bind_eq_some_iff] at hinst
    obtain ⟨bb, hbb, insID, hins, _, -, hs'⟩ := hinst
    cases hs'
    replace hawaits : Awaits T (s.callStack tid) (s.isFirst tid) opens := hawaits
    rw [hcs] at hawaits
    have hlt : info.curIndex < bb.length := (List.getElem?_eq_some_iff.mp hins).1
    have hids : ((SmallestBlock.make type tid info.bbID info.curIndex (info.curIndex + 1)
        (s.isFirst tid) info.lastBBID addr).insIDs T).getLast? = bb[info.curIndex + 1 - 1]? :=
      getLast?_insIDs hbb (Nat.lt_succ_self _) hlt
    obtain ⟨opens', hread', hopened⟩ := read_inner hawaits rfl rfl rfl hbb hids Nat.one_pos hlt
    refine ⟨opens', ?_, ?_⟩
    · show run (readCaller T) [] (blocksOf (s.blockTrace ++ [_]) tid) = some opens'
      rw [blocksOf_append]
      apply run_append_eq_some.mpr
      refine ⟨opens, hread, ?_⟩
      have hone : blocksOf [SmallestBlock.make type tid info.bbID info.curIndex (info.curIndex + 1)
          (s.isFirst tid) info.lastBBID addr] tid = [SmallestBlock.make type tid info.bbID
            info.curIndex (info.curIndex + 1) (s.isFirst tid) info.lastBBID addr] := by
        apply List.filter_eq_self.mpr
        simp [SmallestBlock.make, htype]
      rw [hone]
      exact run_cons_eq_some.mpr ⟨opens', hread', rfl⟩
    · show Awaits T (Function.update s.callStack tid _ tid)
        (Function.update s.isFirst tid (0, 0) tid) opens'
      rw [Function.update_self, Function.update_self]
      exact .nothing hopened

/-- **A basic block starts.** -/
theorem Held.enterBlock {id : Nat} (h : Held P.toTables (s.view tid))
    (hok : EntersBehindCall P.toTables s (.event (.basicBlock tid id)))
    (henter : s.enterBlock P.toTables tid id = some s') : Held P.toTables (s'.view tid) := by
  obtain ⟨opens, hread, hawaits⟩ := h
  replace hawaits : Awaits P.toTables (s.callStack tid) (s.isFirst tid) opens := hawaits
  have hstep : ∃ stk first, s'.callStack tid = stk ∧ s'.isFirst tid = first ∧
      s'.blockTrace = s.blockTrace ∧ Awaits P.toTables stk first opens := by
    unfold MergeState.enterBlock at henter
    split at henter
    · rename_i hcs
      cases henter
      rw [hcs] at hawaits
      refine ⟨_, _, Function.update_self .., Function.update_self .., rfl, ?_⟩
      generalize s.isFirst tid = first at hawaits
      cases hawaits with
      | nothing h => exact .first ⟨rfl, rfl⟩ rfl h
    · rename_i info rest hcs
      rw [hcs] at hawaits
      obtain ⟨bb, hbb, henter⟩ := Option.bind_eq_some_iff.mp henter
      by_cases hlen : bb.length ≤ info.curIndex
      · rw [if_pos hlen] at henter
        cases henter
        refine ⟨_, _, Function.update_self .., Function.update_self .., rfl, ?_⟩
        generalize s.isFirst tid = first at hawaits
        cases hawaits with
        | nothing h =>
          obtain ⟨o, os, rfl, -, hpop, hrest⟩ := h
          exact .nothing ⟨o, os, rfl, fun hpos => absurd hpos (Nat.lt_irrefl 0), hpop, hrest⟩
        | first hentry =>
          -- a basic block is not empty, so that its end is not its start
          have := List.length_pos_iff.mpr (P.block_ne bb (List.mem_of_getElem? hbb))
          omega
      · rw [if_neg hlen] at henter
        simp only [Option.bind_eq_bind, Option.bind_eq_some_iff] at henter
        obtain ⟨_, -, caller, hcaller, hs'⟩ := henter
        cases hs'
        have hlt : info.curIndex < bb.length := Nat.lt_of_not_le hlen
        obtain ⟨hpos, c, i, ⟨bb', hbb', hc, hi⟩, hcall⟩ := hok info rest hcs ⟨bb, hbb, hlt⟩
        cases hbb.symm.trans hbb'
        cases hcaller.symm.trans hc
        refine ⟨_, _, Function.update_self .., Function.update_self .., rfl, ?_⟩
        generalize s.isFirst tid = first at hawaits
        cases hawaits with
        | nothing h =>
          refine .first ⟨rfl, rfl⟩ ?_ h
          have hname : callerOf P.toTables info = some caller := by
            refine callerOf_eq_some.mpr ⟨hpos, bb, caller, i, hbb, hlt, hc, hi, ?_⟩
            rw [if_pos hcall]
          show (callerOf P.toTables info).map _ = _
          rw [hname]
          rfl
        | first hentry => omega
  obtain ⟨stk, first, hstk, hfirst, hbt, hawaits'⟩ := hstep
  refine ⟨opens, ?_, ?_⟩
  · show run (readCaller P.toTables) [] (blocksOf s'.blockTrace tid) = some opens
    rw [hbt]
    exact hread
  · show Awaits P.toTables (s'.callStack tid) (s'.isFirst tid) opens
    rw [hstk, hfirst]
    exact hawaits'

theorem callBlockType_ne_declare {id addr : Nat} {type : SmallestBlockType}
    (h : callBlockType T impactful id addr = some type) : type ≠ .declareBlock := by
  unfold callBlockType at h
  split_ifs at h
  · cases h
    exact fun hno => nomatch hno
  · obtain ⟨i, -, rfl⟩ := Option.map_eq_some_iff.mp h
    split_ifs <;> exact fun hno => nomatch hno

theorem Held.dispatch {e : Event} (h : Held P.toTables (s.view e.tid))
    (hok : EntersBehindCall P.toTables s (.event e))
    (hdispatch : s.dispatch P.toTables impactful e = some s') : Held P.toTables (s'.view e.tid) := by
  cases e with
  | argument tid addr =>
    cases hdispatch
    exact h.of_eq rfl rfl rfl
  | basicBlock tid id => exact h.enterBlock hok hdispatch
  | memory tid id addr length =>
    simp only [MergeState.dispatch] at hdispatch
    split_ifs at hdispatch
    · cases hdispatch
      refine h.of_eq rfl rfl ?_
      show blocksOf (s.blockTrace ++ [_]) tid = blocksOf s.blockTrace tid
      rw [blocksOf_append]
      exact List.append_nil _
    · exact h.instBlock (by decide) hdispatch
  | ret tid id addr =>
    simp only [MergeState.dispatch, Option.bind_eq_bind, Option.bind_eq_some_iff] at hdispatch
    obtain ⟨type, htype, s₁, hs₁, hs'⟩ := hdispatch
    cases hs'
    exact (h.instBlock (callBlockType_ne_declare htype) hs₁).of_eq rfl rfl rfl
  | memset tid id addr length => exact h.instBlock (by decide) hdispatch
  | memmove tid id addr addr2 length => exact h.instBlock (by decide) hdispatch

/-- **A turn of the main loop.** -/
theorem held_mergeStep {x : Entry} (hok : EntersBehindCall P.toTables s x)
    (h : ∀ tid, Held P.toTables (s.view tid))
    (hstep : mergeStep P.toTables impactful s x = some s') :
    ∀ tid, Held P.toTables (s'.view tid) := by
  cases x with
  | event e =>
    obtain ⟨s₁, hs₁, hstep⟩ := Option.bind_eq_some_iff.mp hstep
    have hok' : EntersBehindCall P.toTables { s with tidPtr := some e.tid } (.event e) := by
      cases e <;> exact hok
    have h₁ : ∀ tid, Held P.toTables (s₁.view tid) := by
      intro tid
      by_cases htid : tid = e.tid
      · rw [htid]
        have hthis : Held P.toTables (({ s with tidPtr := some e.tid } : MergeState).view e.tid) :=
          h e.tid
        exact hthis.dispatch hok' hs₁
      · rw [(dispatch_local hs₁).others tid htid]
        exact h tid
    split_ifs at hstep
    · cases hstep
      exact h₁
    · intro tid
      by_cases htid : tid = e.tid
      · rw [htid]
        exact (h₁ e.tid).advance hstep
      · rw [(advance_local hstep).others tid htid]
        exact h₁ tid
  | mark m t =>
    obtain ⟨t, rfl, hstep⟩ := Option.bind_eq_some_iff.mp hstep
    have hthis : ∀ tid, Held P.toTables (({ s with tidPtr := some t } : MergeState).view tid) := h
    intro tid
    by_cases htid : tid = t
    · rw [htid]
      exact (hthis t).advance hstep
    · rw [(advance_local hstep).others tid htid]
      exact h tid

/-! ## The closing loop -/

theorem closeThread_callers {last : StackInfo → Option Int}
    (h : closeThread T tid last stk = some bs) (hopens : Opened T stk opens) :
    run (readCaller T) opens bs = some [] := by
  induction stk generalizing bs opens with
  | nil =>
    cases h
    rw [show opens = [] from hopens]
    rfl
  | cons info rest ih =>
    obtain ⟨l, p, bs', -, hp, hbs', rfl⟩ := closeThread_cons.mp h
    obtain ⟨opens', hread, hrest⟩ := read_last (b := { SmallestBlock.make .normalBlock tid
      info.bbID info.curIndex info.curIndex (0, 0) l [] with isLast := p.1, caller := p.2 })
      (.nothing hopens) rfl hp
    exact run_cons_eq_some.mpr ⟨opens', hread, ih hbs' hrest⟩

theorem closeThreads_callers {p : Option Nat} {cs : Nat → List StackInfo} {tids : List Nat}
    (h : closeThreads T p cs tids = some bs) (hopens : Opened T (cs tid) opens) :
    ∃ opens', run (readCaller T) opens (blocksOf bs tid) = some opens' := by
  induction tids generalizing cs bs opens with
  | nil =>
    cases h
    exact ⟨opens, rfl⟩
  | cons t tids ih =>
    obtain ⟨bs₁, bs₂, h₁, h₂, rfl⟩ := closeThreads_cons.mp h
    rw [blocksOf_append]
    by_cases ht : t = tid
    · subst ht
      have hnil : Opened T (Function.update cs t [] t) [] := by
        rw [Function.update_self]
        rfl
      obtain ⟨opens', hread⟩ := ih h₂ hnil
      rw [blocksOf_closeThread h₁]
      exact ⟨opens', run_append_eq_some.mpr ⟨[], closeThread_callers h₁ hopens, hread⟩⟩
    · have hsame : Opened T (Function.update cs t [] tid) opens := by
        rw [Function.update_of_ne (Ne.symm ht)]
        exact hopens
      have hnone : blocksOf bs₁ tid = [] :=
        blocksOf_of_ne (fun b hb => Or.inr (closeThread_tid h₁ b hb).2) (Ne.symm ht)
      rw [hnone, List.nil_append]
      exact ih h₂ hsame

/-! ## The theorem -/

theorem opened_below (h : Opened T stk opens) : ∀ c ∈ stk.tail, 0 < c.curIndex := by
  induction stk generalizing opens with
  | nil => exact fun _ hc => nomatch hc
  | cons info rest ih =>
    obtain ⟨o, os, rfl, -, hpop, hrest⟩ := h
    cases rest with
    | nil => exact fun _ hc => nomatch hc
    | cons c rest =>
      obtain ⟨caller, hcaller, -⟩ := Option.map_eq_some_iff.mp hpop
      exact List.forall_mem_cons.mpr ⟨(callerOf_eq_some.mp hcaller).1, ih hrest⟩

theorem awaits_below (h : Awaits T stk first opens) : ∀ c ∈ stk.tail, 0 < c.curIndex := by
  cases h with
  | nothing h => exact opened_below h
  | @first info rest first opens hentry hpop h =>
    cases rest with
    | nil => exact fun _ hc => nomatch hc
    | cons c rest =>
      obtain ⟨caller, hcaller, -⟩ := Option.map_eq_some_iff.mp hpop
      exact List.forall_mem_cons.mpr ⟨(callerOf_eq_some.mp hcaller).1, opened_below h⟩

/-- In every state that is reached, the blocks have been read. -/
theorem held_of_run {entries : List Entry}
    (hok : RunOk (mergeStep P.toTables impactful) (EntersBehindCall P.toTables) {} entries)
    (hrun : run (mergeStep P.toTables impactful) {} entries = some s) :
    ∀ tid, Held P.toTables (s.view tid) := by
  have hinit : ∀ tid, Held P.toTables (({} : MergeState).view tid) :=
    fun tid => ⟨[], rfl, .nothing rfl⟩
  exact run_invariant_of (fun s x s' hx h hstep => held_mergeStep hx h hstep) hok hinit hrun

end

/-- Thread 7 loads and calls; thread 8 has just begun. -/
def callEntries : List Entry :=
  [.event (.basicBlock 7 0), .event (.memory 7 0 4096 8), .event (.basicBlock 7 1),
    .event (.basicBlock 8 0)]

/-- `f` calls an external function between two loads, which calls back `g`; `g` loads and returns. -/
def callbackProgram : Program where
  ins := [{ type := .loadInst }, { type := .externalCallInst, fn := "qsort" }, { type := .loadInst },
    { type := .returnInst }, { type := .loadInst }, { type := .returnInst }]
  bb2Ins := [[0, 1, 2, 3], [4, 5]]
  block_ne := by decide
  ids_lt := by decide
  ends := by
    intro bb hbb k id i hk hi
    rcases List.mem_pair.mp hbb with rfl | rfl
    · rcases k with _ | _ | _ | _ | k <;> cases hk <;> (cases hi; decide)
    · rcases k with _ | _ | k <;> cases hk <;> (cases hi; decide)
  length_le := by decide

/-- The return of the external function is recorded before it is called. -/
def callbackEntries : List Entry :=
  [.event (.basicBlock 7 0), .event (.memory 7 0 4096 8), .event (.argument 7 4096),
    .event (.ret 7 1 8192), .event (.basicBlock 7 1), .event (.memory 7 4 4112 8)]

end Slimmer
