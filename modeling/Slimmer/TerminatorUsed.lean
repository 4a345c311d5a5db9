import Slimmer.Reading

/-!
# The terminator of a basic block that is used

When a basic block has been passed and an instruction of it was needed, its terminator is checked:
`OneBlock` takes it out of `unneeded_di`. That a basic block has been passed is seen by the next
block of the activation being part of another basic block, or by the activation being over.

**Theorem (`used_not_reported`).** In a run in which no call that is skipped begins an activation,
and no terminator to be checked is lost when a basic block is executed twice in a row
(`TerminatorsChecked`), the terminator of an execution with a needed instruction is not reported.

The invariant says that the entries on the stacks of the pass are those of the frames (`Aligned`):
the basic block, whether it is used, and its terminator. Only executions that are still open may be
used and have a reported terminator.
-/

namespace Slimmer

section

variable {I : PassInput} {T : Tables} {P : Program} {s s' : PassState} {r r' : Reading}
  {b : SmallestBlock} {f : Frame} {fs : List Frame} {tid k : Nat}

/-! ## The property -/

/-- The main loop has found an instruction of the execution needed. -/
def Used (s : PassState) (r : Reading) (tid k : Nat) : Prop :=
  ∃ g ∈ s.found, g.late = false ∧ ∃ i ∈ r.insts, i.inst = g.inst ∧ i.inst.tid = tid ∧ i.exec = k

/-- The terminator of the execution is in `unneeded_di`. -/
def Reported (T : Tables) (s : PassState) (r : Reading) (tid k : Nat) : Prop :=
  ∃ i ∈ r.insts, T.IsTerminator i.inst.id ∧ i.inst.tid = tid ∧ i.exec = k ∧ i.inst ∈ s.unneededDI

/-- The block begins another execution of the basic block on top of `next_bb_used`, which is used
and has a terminator in `unneeded_di` that is still to be checked. -/
def Overwrites (T : Tables) (s : PassState) (b : SmallestBlock) : Prop :=
  b.isLast = 0 ∧ (∃ bb, T.bb2Ins[b.bbID]? = some bb ∧ b.stop = bb.length) ∧
    ∃ l e d l', s.nextBBUsed b.tid = (b.bbID, true) :: l ∧
      s.terminatorStack b.tid = (e, d, false) :: l' ∧ d ∈ s.unneededDI

/-- No call that is skipped is the first block of an activation, and no terminator to be checked is
overwritten. -/
def TerminatorsChecked (I : PassInput) (trace : List SmallestBlock) : Prop :=
  RunOk (extractStep I)
    (fun s b => b.type ≠ .declareBlock →
      (b.skipped I.tables = some true → b.isFirst = 0) ∧ ¬ Overwrites I.tables s b)
    {} trace.reverse

/-! ## The invariant -/

/-- The pass and the reading are at the same place. -/
structure Met (s : PassState) (r : Reading) : Prop where
  pos : s.pos = r.pos
  count : s.instCount = r.count
  named : r.Named
  unneeded : ∀ d ∈ s.unneededDI, s.toPassSets.Visited d
  found : ∀ g ∈ s.found, g.late = false → s.toPassSets.Visited g.inst

/-- The terminator of the execution, if it is reported, is the one on the stack. -/
def TerminatorOn (T : Tables) (s : PassState) (r : Reading) (tid k : Nat)
    (t : Nat × DynamicInst × Bool) : Prop :=
  ∀ i ∈ r.insts, T.IsTerminator i.inst.id → i.inst.tid = tid → i.exec = k → i.inst ∈ s.unneededDI →
    t.2 = (i.inst, false)

/-- The stacks hold one entry for each frame. -/
inductive Aligned (T : Tables) (s : PassState) (r : Reading) (tid : Nat) :
    List Frame → List (Nat × Bool) → List (Nat × DynamicInst × Bool) → Prop
  | nil : Aligned T s r tid [] [] []
  | cons {f : Frame} {fs : List Frame} {n : Nat × Bool} {ns : List (Nat × Bool)}
      {t : Nat × DynamicInst × Bool} {ts : List (Nat × DynamicInst × Bool)} (hbbID : n.1 = f.bbID)
      (hused : Used s r tid f.exec → n.2 = true) (hterm : TerminatorOn T s r tid f.exec t)
      (hrest : Aligned T s r tid fs ns ts) : Aligned T s r tid (f :: fs) (n :: ns) (t :: ts)

/-- The invariant between two turns. -/
structure Checked (T : Tables) (s : PassState) (r : Reading) : Prop where
  met : Met s r
  aligned : ∀ tid, Aligned T s r tid (r.frames tid) (s.nextBBUsed tid) (s.terminatorStack tid)
  passed : ∀ tid k, Used s r tid k → Reported T s r tid k → ∃ f ∈ r.frames tid, f.exec = k

/-- The invariant within the turn for a block of the frame `f`; `used` is `this_bb_used`. -/
structure InTurn (T : Tables) (s : PassState) (r : Reading) (tid : Nat) (f : Frame)
    (fs : List Frame) (used : Bool) : Prop where
  met : Met s r
  others : ∀ tid', tid' ≠ tid →
    Aligned T s r tid' (r.frames tid') (s.nextBBUsed tid') (s.terminatorStack tid')
  entries : ∃ n ns t ts, s.nextBBUsed tid = n :: ns ∧ s.terminatorStack tid = t :: ts ∧
    Aligned T s r tid fs ns ts ∧ TerminatorOn T s r tid f.exec t ∧
    (Used s r tid f.exec → used = true ∨ n = (f.bbID, true))
  passed : ∀ tid' k, Used s r tid' k → Reported T s r tid' k →
    (tid' = tid ∧ (k = f.exec ∨ ∃ g ∈ fs, g.exec = k)) ∨
      (tid' ≠ tid ∧ ∃ g ∈ r.frames tid', g.exec = k)

/-! ## Steps that do not concern an execution -/

/-- Nothing becomes used or reported in the execution. -/
structure Quiet (s : PassState) (r : Reading) (s' : PassState) (r' : Reading) (tid k : Nat) :
    Prop where
  used : Used s' r' tid k → Used s r tid k
  reported : ∀ i ∈ r'.insts, i.inst.tid = tid → i.exec = k → i.inst ∈ s'.unneededDI →
    i ∈ r.insts ∧ i.inst ∈ s.unneededDI

theorem Quiet.reported' (h : Quiet s r s' r' tid k) (hr : Reported T s' r' tid k) :
    Reported T s r tid k := by
  rcases hr with ⟨i, hi, hterm, htid, hexec, hun⟩
  rcases h.reported i hi htid hexec hun with ⟨hi, hun⟩
  exact ⟨i, hi, hterm, htid, hexec, hun⟩

theorem TerminatorOn.quiet {t : Nat × DynamicInst × Bool} (h : TerminatorOn T s r tid k t)
    (hq : Quiet s r s' r' tid k) : TerminatorOn T s' r' tid k t := by
  intro i hi hterm htid hexec hun
  rcases hq.reported i hi htid hexec hun with ⟨hi, hun⟩
  exact h i hi hterm htid hexec hun

theorem Aligned.quiet {ns : List (Nat × Bool)} {ts : List (Nat × DynamicInst × Bool)}
    (h : Aligned T s r tid fs ns ts) (hq : ∀ f ∈ fs, Quiet s r s' r' tid f.exec) :
    Aligned T s' r' tid fs ns ts := by
  induction h with
  | nil => exact .nil
  | @cons f fs n ns t ts hbbID hused hterm _ ih =>
    have hf := hq f List.mem_cons_self
    exact .cons hbbID (fun hu => hused (hf.used hu)) (hterm.quiet hf)
      (ih fun g hg => hq g (List.mem_cons_of_mem _ hg))

/-- A scan adds only late calls of `OneInstruction`. -/
theorem Scanned.quiet {pos : Nat} (h : Scanned pos s.toPassSets s'.toPassSets) (tid k : Nat) :
    Quiet s r s' r tid k := by
  constructor
  · intro hu
    rcases hu with ⟨g, hg, hlate, hi⟩
    rcases h.found with ⟨new, hnew, hall⟩
    rcases List.mem_append.mp (hnew ▸ hg) with hg | hg
    · have := (hall g hg).1
      rw [hlate] at this
      cases this
    · exact ⟨g, hg, hlate, hi⟩
  · intro i hi _ _ hun
    exact ⟨hi, h.unneeded hun⟩

theorem Met.scanned {pos : Nat} (h : Met s r) (hpos : s'.pos = s.pos)
    (hs : Scanned pos s.toPassSets s'.toPassSets) : Met s' r := by
  have hv : ∀ d, s.toPassSets.Visited d → s'.toPassSets.Visited d := by
    intro d hd
    unfold PassSets.Visited
    rw [hs.instCount]
    exact hd
  refine ⟨hpos.trans h.pos, hs.instCount.trans h.count, h.named, ?_, ?_⟩
  · intro d hd
    exact hv d (h.unneeded d (hs.unneeded hd))
  · intro g hg hlate
    rcases hs.found with ⟨new, hnew, hall⟩
    rcases List.mem_append.mp (hnew ▸ hg) with hg | hg
    · have := (hall g hg).1
      rw [hlate] at this
      cases this
    · exact hv _ (h.found g hg hlate)

/-! ## An execution is met -/

section

variable {id : Nat} {n : Bool}

theorem Met.name (h : Met s r) (tid id : Nat) :
    s.toPassSets.name tid id = ⟨tid, id, -r.count (tid, id)⟩ := by
  rw [PassSets.name, h.count]

/-- What the main loop finds is either known, or the execution just met. -/
theorem Visit.found_cases (hvisit : Visit I b s id s' n) {g : Found} (hg : g ∈ s'.found) :
    g ∈ s.found ∨ (n = true ∧ g.inst = s.toPassSets.name b.tid id) := by
  rcases hvisit.sets with ⟨report, hreport, hsets⟩
  rcases (PassSets.visit_cases hreport hsets).2 with ⟨hn, -, hfound, -⟩ | ⟨-, -, -, hfound, -⟩
  · rw [hfound] at hg
    rcases List.mem_cons.mp hg with rfl | hg
    · exact Or.inr ⟨hn, rfl⟩
    · exact Or.inl hg
  · exact Or.inl (hfound ▸ hg)

theorem Visit.unneeded_cases (hvisit : Visit I b s id s' n) {d : DynamicInst}
    (hd : d ∈ s'.unneededDI) :
    d ∈ s.unneededDI ∨ (n = false ∧ d = s.toPassSets.name b.tid id) := by
  rcases hvisit.sets with ⟨report, hreport, hsets⟩
  rcases (PassSets.visit_cases hreport hsets).2 with ⟨-, hun, -, -⟩ | ⟨hn, -, hun, -, -, -⟩
  · exact Or.inl (hun ▸ hd)
  · rcases hun d hd with rfl | hd
    · exact Or.inr ⟨hn, rfl⟩
    · exact Or.inl hd

theorem Met.visit (h : Met s r) (hvisit : Visit I b s id s' n) :
    Met s' (r.meet b.tid f id) := by
  refine ⟨hvisit.pos.trans h.pos, ?_, h.named.meet id, ?_, ?_⟩
  · rw [hvisit.instCount, h.count]
    rfl
  · intro d hd
    rw [hvisit.visited]
    rcases hvisit.unneeded_cases hd with hd | ⟨-, rfl⟩
    · exact Or.inl (h.unneeded d hd)
    · exact Or.inr rfl
  · intro g hg hlate
    rw [hvisit.visited]
    rcases hvisit.found_cases hg with hg | ⟨-, hg⟩
    · exact Or.inl (h.found g hg hlate)
    · exact Or.inr hg

/-- A name that has been visited is not the one given next. -/
theorem PassSets.Visited.ne_name {t : PassSets} {d : DynamicInst} (h : t.Visited d) (tid id : Nat) :
    d ≠ t.name tid id := by
  rintro rfl
  exact lt_irrefl _ h

/-- Meeting an execution of the frame `f` concerns no other execution of a basic block. -/
theorem Met.quiet (h : Met s r) (hvisit : Visit I b s id s' n)
    (hk : ¬ (tid = b.tid ∧ k = f.exec)) : Quiet s r s' (r.meet b.tid f id) tid k := by
  constructor
  · intro hu
    rcases hu with ⟨g, hg, hlate, i, hi, hinst, htid, hexec⟩
    rcases List.mem_cons.mp hi with rfl | hi
    · exact absurd ⟨htid.symm, hexec.symm⟩ hk
    · rcases hvisit.found_cases hg with hg | ⟨-, hg⟩
      · exact ⟨g, hg, hlate, i, hi, hinst, htid, hexec⟩
      · rw [hg, h.name] at hinst
        exact absurd hinst (h.named.fresh hi _ _)
  · intro i hi htid hexec hun
    rcases List.mem_cons.mp hi with rfl | hi
    · exact absurd ⟨htid.symm, hexec.symm⟩ hk
    · rcases hvisit.unneeded_cases hun with hun | ⟨-, heq⟩
      · exact ⟨hi, hun⟩
      · rw [h.name] at heq
        exact absurd heq (h.named.fresh hi _ _)

/-- In the execution of the frame, the execution met may be found needed. -/
theorem Met.used_cases (h : Met s r) (hvisit : Visit I b s id s' n)
    (hu : Used s' (r.meet b.tid f id) b.tid f.exec) : Used s r b.tid f.exec ∨ n = true := by
  rcases hu with ⟨g, hg, hlate, i, hi, hinst, htid, hexec⟩
  rcases hvisit.found_cases hg with hg | ⟨hn, -⟩
  · rcases List.mem_cons.mp hi with rfl | hi
    · have hv := h.found g hg hlate
      rw [← hinst, ← h.name] at hv
      exact absurd rfl (hv.ne_name b.tid id)
    · exact Or.inl ⟨g, hg, hlate, i, hi, hinst, htid, hexec⟩
  · exact Or.inr hn

/-- The terminator on the stack when an execution of the frame is met. -/
theorem TerminatorOn.visit {t t' : Nat × DynamicInst × Bool}
    {ts ts' : List (Nat × DynamicInst × Bool)} (h : TerminatorOn I.tables s r b.tid f.exec t)
    (hmet : Met s r) (hvisit : Visit I b s id s' n)
    (hnormal : b.type ≠ .normalBlock → ¬ I.tables.IsTerminator id)
    (hlast : I.tables.IsTerminator id → ∀ i ∈ r.insts, i.inst.tid = b.tid → i.exec ≠ f.exec)
    (ht : s.terminatorStack b.tid = t :: ts) (ht' : s'.terminatorStack b.tid = t' :: ts') :
    TerminatorOn I.tables s' (r.meet b.tid f id) b.tid f.exec t' := by
  intro i hi hterm htid hexec hun
  rcases hvisit.terminatorStack with ⟨hstack, hno⟩ | ⟨-, hyes, e, l, -, hstack⟩
  · -- the execution met is no terminator
    rw [hstack, ht] at ht'
    cases ht'
    rcases List.mem_cons.mp hi with rfl | hi
    · by_cases hb : b.type = .normalBlock
      · rcases hterm with ⟨info, hinfo, htype⟩
        exact absurd htype (hno hb info hinfo)
      · exact absurd hterm (hnormal hb)
    · rcases hvisit.unneeded_cases hun with hun | ⟨-, heq⟩
      · exact h i hi hterm htid hexec hun
      · rw [hmet.name] at heq
        exact absurd heq (hmet.named.fresh hi _ _)
  · rw [hstack, Function.update_self] at ht'
    cases ht'
    rcases List.mem_cons.mp hi with rfl | hi
    · rcases hvisit.unneeded_cases hun with hun | ⟨rfl, -⟩
      · have hv := hmet.unneeded _ hun
        rw [← hmet.name] at hv
        exact absurd rfl (hv.ne_name b.tid id)
      · exact congrArg (·, false) (hmet.name b.tid id)
    · exact absurd hexec (hlast hyes i hi htid)

end

/-! ## A turn -/

theorem Aligned.length {ns : List (Nat × Bool)} {ts : List (Nat × DynamicInst × Bool)}
    (h : Aligned T s r tid fs ns ts) : ns.length = fs.length ∧ ts.length = fs.length := by
  induction h with
  | nil => exact ⟨rfl, rfl⟩
  | cons _ _ _ _ ih => exact ⟨congrArg (· + 1) ih.1, congrArg (· + 1) ih.2⟩

/-- A used execution that is passed has its terminator checked. -/
theorem TerminatorOn.check {call : PassSets → DynamicInst → Nat → Prop} {nextBBID : Nat}
    {t : Nat × DynamicInst × Bool} {ts : List (Nat × DynamicInst × Bool)}
    (h : TerminatorOn T s r b.tid k t) (hterm : s.terminatorStack b.tid = t :: ts)
    (hcheck : Check I b call nextBBID s s') : ¬ Reported T s' r b.tid k := by
  intro hr
  rcases hr with ⟨i, hi, hit, htid, hexec, hun⟩
  have ht := h i hi hit htid hexec (hcheck.scanned.unneeded hun)
  exact hcheck.erases hterm ht hun

/-- An execution that has just begun holds no instance. -/
theorem TerminatorOn.fresh {t : Nat × DynamicInst × Bool} (h : ∀ i ∈ r.insts, i.exec ≠ k) :
    TerminatorOn T s r tid k t :=
  fun i hi _ _ hexec _ => absurd hexec (h i hi)

theorem not_used_of_fresh (h : ∀ i ∈ r.insts, i.exec ≠ k) : ¬ Used s r tid k := by
  intro hu
  rcases hu with ⟨_, _, _, i, hi, _, _, hexec⟩
  exact h i hi hexec

/-- The turn for a part of an execution finds its basic block on the stack. -/
theorem Checked.enter_part (h : Checked T s r) (henter : s.enter I b = some s')
    (htype : b.type ≠ .declareBlock) (hlast : b.isLast = 0) (hframes : r.frames b.tid = f :: fs)
    (hbbID : b.bbID = f.bbID) : s' = s := by
  rcases PassState.enter_cases htype henter with ⟨hl, -⟩ | ⟨-, hs', -⟩ |
    ⟨-, nextBBID, l, s₁, hnext, hne, -⟩
  · omega
  · exact hs'
  · have haligned := h.aligned b.tid
    rw [hframes, hnext] at haligned
    generalize s.terminatorStack b.tid = ts at haligned
    cases haligned with
    | cons hn =>
      replace hn : nextBBID = f.bbID := hn
      exact absurd (hn.trans hbbID.symm) hne

/-- When the next execution of a basic block begins, the one before it is not used any more or its
terminator has been checked. -/
theorem Checked.enter_execution (h : Checked I.tables s r) {n : Nat × Bool} {ns : List (Nat × Bool)}
    {t : Nat × DynamicInst × Bool} {ts : List (Nat × DynamicInst × Bool)}
    (henter : s.enter I b = some s') (htype : b.type ≠ .declareBlock) (hlast : b.isLast = 0)
    (hno : ¬ Overwrites I.tables s b) {bb : List Nat} (hbb : I.tables.bb2Ins[b.bbID]? = some bb)
    (hstop : b.stop = bb.length) (hnext : s.nextBBUsed b.tid = n :: ns)
    (hterm : s.terminatorStack b.tid = t :: ts) (hused : Used s r b.tid k → n.2 = true)
    (hon : TerminatorOn I.tables s r b.tid k t) :
    Scanned s.pos s.toPassSets s'.toPassSets ∧ s'.nextBBUsed = s.nextBBUsed ∧
      (∃ t', s'.terminatorStack = Function.update s.terminatorStack b.tid (t' :: ts)) ∧
      (Used s r b.tid k → ¬ Reported I.tables s' r b.tid k) := by
  rcases PassState.enter_cases htype henter with ⟨hl, -⟩ | ⟨-, rfl, hsame⟩ |
    ⟨-, nextBBID, l, s₁, -, -, hcheck, hset⟩
  · omega
  · refine ⟨.refl _ _, rfl, ⟨t, ?_⟩, ?_⟩
    · rw [← hterm, Function.update_eq_self]
    · intro hu hr
      rcases hr with ⟨i, hi, hit, htid, hexec, hun⟩
      rcases n with ⟨nextBBID, used⟩
      have hused : used = true := hused hu
      subst hused
      have hbbID := hsame nextBBID ns hnext
      subst hbbID
      rcases t with ⟨e, d⟩
      have hd : d = (i.inst, false) := hon i hi hit htid hexec hun
      subst hd
      exact hno ⟨hlast, ⟨bb, hbb, hstop⟩, ns, e, i.inst, ts, hnext, hterm, hun⟩
  · rcases PassState.setTerminator_cases hset with ⟨e, l', hl', rfl⟩
    have hstacks := hcheck.stacks
    rw [hstacks.2.2, hterm] at hl'
    cases hl'
    refine ⟨hcheck.scanned, hstacks.2.1, ⟨(b.bbID, ⟨0, 0, 0⟩, true), ?_⟩, fun _ => ?_⟩
    · show Function.update s₁.terminatorStack _ _ = _
      rw [hstacks.2.2]
    · have hchecked := hon.check hterm hcheck
      exact hchecked

/-- A new activation: nothing of its execution has been met. -/
theorem Checked.turn_activation (h : Checked I.tables s r)
    (hfresh : ∀ i ∈ r.insts, i.exec ≠ r.pos) (henter : s.enter I b = some s')
    (htype : b.type ≠ .declareBlock) (hlast : 0 < b.isLast) :
    InTurn I.tables s' r b.tid ⟨r.pos, r.pos, b.bbID, b.start⟩ (r.frames b.tid) false := by
  have hs' : s' = s.push b := by
    rcases PassState.enter_cases htype henter with ⟨-, hs'⟩ | ⟨hz, -⟩ | ⟨hz, -⟩
    · exact hs'
    · omega
    · omega
  subst hs'
  have hquiet : ∀ tid k, Quiet s r (s.push b) r tid k :=
    fun tid k => ⟨fun hu => hu, fun i hi _ _ hun => ⟨hi, hun⟩⟩
  refine ⟨⟨h.met.pos, h.met.count, h.met.named, h.met.unneeded, h.met.found⟩, ?_, ?_, ?_⟩
  · intro tid ht
    have haligned := (h.aligned tid).quiet fun f _ => hquiet tid f.exec
    show Aligned I.tables (s.push b) r tid (r.frames tid)
      (Function.update s.nextBBUsed b.tid _ tid) (Function.update s.terminatorStack b.tid _ tid)
    rwa [Function.update_of_ne ht, Function.update_of_ne ht]
  · exact ⟨(b.bbID, false), s.nextBBUsed b.tid, (b.bbID, ⟨0, 0, 0⟩, true),
      s.terminatorStack b.tid, Function.update_self .., Function.update_self ..,
      (h.aligned b.tid).quiet fun f _ => hquiet b.tid f.exec, .fresh hfresh,
      fun hu => absurd hu (not_used_of_fresh hfresh)⟩
  · intro tid k hu hr
    rcases h.passed tid k hu hr with ⟨g, hg, hgk⟩
    by_cases ht : tid = b.tid
    · subst ht
      exact Or.inl ⟨rfl, Or.inr ⟨g, hg, hgk⟩⟩
    · exact Or.inr ⟨ht, g, hg, hgk⟩

/-- The next execution of the frame `f₀`: nothing of it has been met. -/
theorem Checked.turn_execution (h : Checked I.tables s r) {f₀ : Frame} {bb : List Nat}
    (hfresh : ∀ i ∈ r.insts, i.exec ≠ r.pos) (henter : s.enter I b = some s')
    (htype : b.type ≠ .declareBlock) (hno : ¬ Overwrites I.tables s b)
    (hbb : I.tables.bb2Ins[b.bbID]? = some bb) (hlast : b.isLast = 0)
    (hframes : r.frames b.tid = f₀ :: fs) (hstop : b.stop = bb.length) :
    InTurn I.tables s' r b.tid ⟨f₀.act, r.pos, b.bbID, b.start⟩ fs false := by
  have haligned := h.aligned b.tid
  rw [hframes] at haligned
  generalize hnext : s.nextBBUsed b.tid = ns₀ at haligned
  generalize hterm : s.terminatorStack b.tid = ts₀ at haligned
  cases haligned with
  | @cons _ _ n ns t ts hbbID hused hon hrest =>
    rcases h.enter_execution henter htype hlast hno hbb hstop hnext hterm hused hon with
      ⟨hscanned, hnext', ⟨t', hterm'⟩, hchecked⟩
    have hquiet : ∀ tid k, Quiet s r s' r tid k := fun tid k => hscanned.quiet tid k
    have hpos : s'.pos = s.pos := (PassState.enter_scanned htype henter).2
    refine ⟨h.met.scanned hpos hscanned, ?_, ?_, ?_⟩
    · intro tid ht
      rw [hnext', hterm', Function.update_of_ne ht]
      exact (h.aligned tid).quiet fun f _ => hquiet tid f.exec
    · refine ⟨n, ns, t', ts, by rw [hnext', hnext], by rw [hterm', Function.update_self],
        hrest.quiet fun f _ => hquiet b.tid f.exec, .fresh hfresh,
        fun hu => absurd hu (not_used_of_fresh hfresh)⟩
    · intro tid k hu hr
      have hu₀ := (hquiet tid k).used hu
      rcases h.passed tid k hu₀ ((hquiet tid k).reported' hr) with ⟨g, hg, hgk⟩
      by_cases ht : tid = b.tid
      · subst ht
        rw [hframes] at hg
        rcases List.mem_cons.mp hg with rfl | hg
        · subst hgk
          exact absurd hr (hchecked hu₀)
        · exact Or.inl ⟨rfl, Or.inr ⟨g, hg, hgk⟩⟩
      · exact Or.inr ⟨ht, g, hg, hgk⟩

/-- The turn comes to the frame the reading has opened. -/
theorem Checked.enter (h : Checked I.tables s r) (hordered : r.Ordered I.tables) {bb : List Nat}
    (hbb : I.tables.bb2Ins[b.bbID]? = some bb) (hopens : Opens I.tables r bb b f fs)
    (henter : s.enter I b = some s') (htype : b.type ≠ .declareBlock)
    (hno : ¬ Overwrites I.tables s b) : InTurn I.tables s' r b.tid f fs false := by
  have hfresh : ∀ i ∈ r.insts, i.exec ≠ r.pos := fun i hi => (hordered.insts i hi).2.ne
  cases hopens with
  | activation hlast =>
    exact h.turn_activation hfresh henter htype hlast
  | execution hlast hframes _ hstop =>
    exact h.turn_execution hfresh henter htype hno hbb hlast hframes hstop
  | @part f₀ fs hlast hframes _ hbbID =>
    rw [h.enter_part henter htype hlast hframes hbbID]
    have haligned := h.aligned b.tid
    rw [hframes] at haligned
    generalize hnext : s.nextBBUsed b.tid = ns₀ at haligned
    generalize hterm : s.terminatorStack b.tid = ts₀ at haligned
    cases haligned with
    | @cons _ _ n ns t ts hn hused hon hrest =>
      refine ⟨h.met, fun tid _ => h.aligned tid, ?_, ?_⟩
      · exact ⟨n, ns, t, ts, hnext, hterm, hrest, hon, fun hu => Or.inr (Prod.ext hn (hused hu))⟩
      · intro tid k hu hr
        rcases h.passed tid k hu hr with ⟨g, hg, hgk⟩
        by_cases ht : tid = b.tid
        · subst ht
          rw [hframes] at hg
          rcases List.mem_cons.mp hg with rfl | hg
          · exact Or.inl ⟨rfl, Or.inl hgk.symm⟩
          · exact Or.inl ⟨rfl, Or.inr ⟨g, hg, hgk⟩⟩
        · exact Or.inr ⟨ht, g, hg, hgk⟩

/-- The executions of the block are visited. A terminator can only be the first one, when nothing of
the execution has been met before. -/
theorem InTurn.visits {su su' : PassState × Bool} {ids : List Nat}
    (h : InTurn I.tables su.1 r b.tid f fs su.2) (hvisits : Visits I b su ids su')
    (hordered : ∀ g ∈ fs, g.exec ≠ f.exec)
    (hnormal : b.type ≠ .normalBlock → ∀ id ∈ ids, ¬ I.tables.IsTerminator id)
    (hfirst : ∀ id ∈ ids.head?, I.tables.IsTerminator id →
      ∀ i ∈ r.insts, i.inst.tid = b.tid → i.exec ≠ f.exec)
    (htail : ∀ id ∈ ids.tail, ¬ I.tables.IsTerminator id) :
    InTurn I.tables su'.1 (ids.foldl (Reading.meet b.tid f) r) b.tid f fs su'.2 := by
  induction hvisits generalizing r with
  | nil => exact h
  | @cons s s₁ used n id ids su' hvisit hrest ih =>
    rcases h.entries with ⟨nx, ns, t, ts, hnext, hterm, hbelow, hon, hused⟩
    apply ih
    · have hquiet : ∀ tid k, ¬ (tid = b.tid ∧ k = f.exec) →
          Quiet s r s₁ (r.meet b.tid f id) tid k := fun tid k hk => h.met.quiet hvisit hk
      have hterm' : ∃ t', s₁.terminatorStack b.tid = t' :: ts ∧
          ∀ tid, tid ≠ b.tid → s₁.terminatorStack tid = s.terminatorStack tid := by
        rcases hvisit.terminatorStack with ⟨hstack, -⟩ | ⟨-, -, e, l, hl, hstack⟩
        · exact ⟨t, by rw [hstack]; exact hterm, fun tid _ => by rw [hstack]⟩
        · cases hterm.symm.trans hl
          refine ⟨_, by rw [hstack, Function.update_self], fun tid ht => ?_⟩
          rw [hstack, Function.update_of_ne ht]
      rcases hterm' with ⟨t', hterm', hothers⟩
      refine ⟨h.met.visit hvisit, ?_, ?_, ?_⟩
      · intro tid ht
        rw [hvisit.nextBBUsed, hothers tid ht]
        exact (h.others tid ht).quiet fun g _ => hquiet tid g.exec fun hk => ht hk.1
      · refine ⟨nx, ns, t', ts, by rw [hvisit.nextBBUsed]; exact hnext, hterm', ?_, ?_, ?_⟩
        · exact hbelow.quiet fun g hg => hquiet b.tid g.exec fun hk => hordered g hg hk.2
        · exact hon.visit h.met hvisit (fun hne => hnormal hne id List.mem_cons_self)
            (hfirst id rfl) hterm hterm'
        · intro hu
          rcases h.met.used_cases hvisit hu with hu | rfl
          · rcases hused hu with hu | hu
            · exact Or.inl (by rw [show used = true from hu]; rfl)
            · exact Or.inr hu
          · exact Or.inl (Bool.or_true used)
      · intro tid k hu hr
        by_cases hk : tid = b.tid ∧ k = f.exec
        · exact Or.inl ⟨hk.1, Or.inl hk.2⟩
        · exact h.passed tid k ((hquiet tid k hk).used hu) ((hquiet tid k hk).reported' hr)
    · exact fun hne id hid => hnormal hne id (List.mem_cons_of_mem _ hid)
    · intro id hid hit
      exact absurd hit (htail id (List.mem_of_mem_head? hid))
    · exact fun id hid => htail id (List.mem_of_mem_tail hid)

/-! ## The end of a turn -/

/-- Only the last instruction of a basic block is a terminator. -/
theorem isTerminator_last (P : Program) {bb : List Nat} {bbID n id : Nat}
    (hbb : P.bb2Ins[bbID]? = some bb) (hid : bb[n]? = some id)
    (hterm : P.toTables.IsTerminator id) : n + 1 = bb.length := by
  rcases hterm with ⟨i, hi, htype⟩
  exact (P.ends bb (List.mem_of_getElem? hbb) n id i hid hi).mp (Or.inl htype)

/-- A terminator is the last execution of a block that reaches the end of its basic block. -/
theorem named_terminator (P : Program) {bb : List Nat} (hbb : P.bb2Ins[b.bbID]? = some bb)
    (hfits : b.Fits bb) {n id : Nat} (hid : (b.named P.toTables)[n]? = some id)
    (hterm : P.toTables.IsTerminator id) :
    b.type = .normalBlock ∧ b.start + n + 1 = bb.length ∧ b.stop = bb.length := by
  rcases hfits with ⟨hlt, hle, hone⟩
  by_cases htype : b.type = .normalBlock
  · have hnamed : b.named P.toTables = (bb.take b.stop).drop b.start := by
      simp [SmallestBlock.named, SmallestBlock.kind, htype, SmallestBlock.insIDs,
        List.getD_eq_getElem?_getD, hbb]
    rw [hnamed, List.getElem?_drop, List.getElem?_take] at hid
    split_ifs at hid with hn
    have hlast := isTerminator_last P hbb hid hterm
    exact ⟨htype, hlast, by omega⟩
  · have hmem := List.mem_of_getElem? hid
    have hins : bb[b.start]? = some id := by
      unfold SmallestBlock.named at hmem
      split at hmem
      · rename_i hkind
        unfold SmallestBlock.kind at hkind
        split at hkind
        · exact absurd ‹_› htype
        · cases hkind
        · split_ifs at hkind
      · rw [List.mem_singleton.mp hmem, SmallestBlock.insID, SmallestBlock.insID?, hbb]
        have hget : bb[b.start]? = some bb[b.start] := List.getElem?_eq_getElem (by omega)
        simp [hget]
      · cases hmem
    have := isTerminator_last P hbb hins hterm
    have := hone htype
    omega

/-- The executions of a block, from the last one to the first one: where a terminator can be. -/
theorem named_reverse_terminator (P : Program) {bb : List Nat}
    (hbb : P.bb2Ins[b.bbID]? = some bb) (hfits : b.Fits bb) :
    (b.type ≠ .normalBlock → ∀ id ∈ (b.named P.toTables).reverse, ¬ P.toTables.IsTerminator id) ∧
      (∀ id ∈ (b.named P.toTables).reverse, P.toTables.IsTerminator id → b.stop = bb.length) ∧
      ∀ id ∈ (b.named P.toTables).reverse.tail, ¬ P.toTables.IsTerminator id := by
  have hany : ∀ id ∈ (b.named P.toTables).reverse, P.toTables.IsTerminator id →
      b.type = .normalBlock ∧ b.stop = bb.length := by
    intro id hid hterm
    rcases List.mem_iff_getElem?.mp (List.mem_reverse.mp hid) with ⟨n, hn⟩
    have h := named_terminator P hbb hfits hn hterm
    exact ⟨h.1, h.2.2⟩
  refine ⟨fun hne id hid hterm => hne (hany id hid hterm).1,
    fun id hid hterm => (hany id hid hterm).2, fun id hid hterm => ?_⟩
  rw [List.tail_reverse, List.mem_reverse] at hid
  rcases List.mem_iff_getElem?.mp hid with ⟨n, hn⟩
  rw [List.dropLast_eq_take, List.getElem?_take] at hn
  split_ifs at hn with hlt
  have h := named_terminator P hbb hfits hn hterm
  have hlen : (b.named P.toTables).length ≤ bb.length - b.start := by
    have hnamed : b.named P.toTables = (bb.take b.stop).drop b.start := by
      simp [SmallestBlock.named, SmallestBlock.kind, h.1, SmallestBlock.insIDs,
        List.getD_eq_getElem?_getD, hbb]
    rw [hnamed, List.length_drop, List.length_take]
    omega
  omega

/-- When the executions of a block have been visited, its basic block is marked. -/
theorem InTurn.mark {used : Bool} (h : InTurn T s r b.tid f fs used) (hbbID : f.bbID = b.bbID)
    (hmark : s.mark b used = some s') :
    Checked T s' { r with frames := Function.update r.frames b.tid (f :: fs) } := by
  rcases h.entries with ⟨n, ns, t, ts, hnext, hterm, hbelow, hon, hused⟩
  rcases PassState.mark_cases hmark with ⟨e, l, hl, rfl⟩
  cases hnext.symm.trans hl
  refine ⟨⟨h.met.pos, h.met.count, h.met.named, h.met.unneeded, h.met.found⟩, fun tid => ?_,
    fun tid k hu hr => ?_⟩
  · show Aligned T _ _ tid (Function.update r.frames b.tid (f :: fs) tid)
      (Function.update s.nextBBUsed b.tid _ tid) (s.terminatorStack tid)
    by_cases ht : tid = b.tid
    · subst ht
      rw [Function.update_self, Function.update_self, hterm]
      refine .cons hbbID.symm (fun hu => ?_) hon
        (hbelow.quiet fun g _ => ⟨fun hu => hu, fun i hi _ _ hun => ⟨hi, hun⟩⟩)
      rcases hused hu with rfl | rfl
      · simp
      · simp [hbbID]
    · rw [Function.update_of_ne ht, Function.update_of_ne ht]
      exact (h.others tid ht).quiet fun g _ => ⟨fun hu => hu, fun i hi _ _ hun => ⟨hi, hun⟩⟩
  · show ∃ g ∈ Function.update r.frames b.tid (f :: fs) tid, _
    rcases h.passed tid k hu hr with ⟨rfl, rfl | ⟨g, hg, hgk⟩⟩ | ⟨ht, g, hg, hgk⟩
    · rw [Function.update_self]
      exact ⟨f, List.mem_cons_self, rfl⟩
    · rw [Function.update_self]
      exact ⟨g, List.mem_cons_of_mem _ hg, hgk⟩
    · rw [Function.update_of_ne ht]
      exact ⟨g, hg, hgk⟩

/-- At the first block of an activation its frame is left: if it is used, its terminator has been
checked. -/
theorem Checked.leaves {call : PassSets → DynamicInst → Nat → Prop} (h : Checked T s r)
    (hframes : r.frames b.tid = f :: fs) (hleave : Leaves I b call s s') :
    Checked T s' { r with
      frames := Function.update r.frames b.tid (if 0 < b.isFirst then fs else f :: fs) } := by
  have hquiet : ∀ tid k, Quiet s r s' { r with
      frames := Function.update r.frames b.tid (if 0 < b.isFirst then fs else f :: fs) } tid k := by
    intro tid k
    have hq : Quiet s r s' r tid k := Scanned.quiet hleave.scanned.1 tid k
    exact ⟨hq.used, hq.reported⟩
  have hmet := h.met.scanned hleave.scanned.2 hleave.scanned.1
  cases hleave with
  | stay hfirst =>
    rw [if_neg (by omega), ← hframes, Function.update_eq_self]
    exact h
  | @pop needed s₁ _ e l hfirst hneeded hnext hcheck hpop =>
    rw [if_pos hfirst] at hquiet ⊢
    have haligned := h.aligned b.tid
    rw [hframes, hnext] at haligned
    generalize hterm : s.terminatorStack b.tid = ts₀ at haligned
    cases haligned with
    | @cons _ _ _ _ t ts hbbID hused hon hrest =>
      rcases PassState.pop_cases hpop with ⟨n', ns', t', ts', hn', ht', hsets, -, hnb, hts⟩
      -- a check leaves the stacks alone
      have hstacks : s₁.nextBBUsed = s.nextBBUsed ∧ s₁.terminatorStack = s.terminatorStack := by
        rcases hcheck with ⟨-, rfl⟩ | ⟨-, hcheck⟩
        · exact ⟨rfl, rfl⟩
        · exact hcheck.stacks.2
      rw [hstacks.1] at hn' hnb
      rw [hstacks.2] at ht' hts
      cases hnext.symm.trans hn'
      cases hterm.symm.trans ht'
      have hchecked : Used s r b.tid f.exec → ¬ Reported T s' r b.tid f.exec := by
        intro hu hr
        rcases hcheck with ⟨hno, -⟩ | ⟨-, hcheck⟩
        · rw [hused hu] at hno
          cases hno
        · have hon' : TerminatorOn T { s with needed := needed } r b.tid f.exec t := hon
          have hterm' : ({ s with needed := needed } : PassState).terminatorStack b.tid = t :: ts :=
            hterm
          have hno := hon'.check hterm' hcheck
          rcases hr with ⟨i, hi, hit, htid, hexec, hun⟩
          exact hno ⟨i, hi, hit, htid, hexec, hsets ▸ hun⟩
      refine ⟨⟨hmet.pos, hmet.count, hmet.named, hmet.unneeded, hmet.found⟩, fun tid => ?_,
        fun tid k hu hr => ?_⟩
      · rw [hnb, hts]
        show Aligned T _ _ tid (Function.update r.frames b.tid fs tid) _ _
        by_cases ht : tid = b.tid
        · subst ht
          rw [Function.update_self, Function.update_self, Function.update_self]
          exact hrest.quiet fun g _ => hquiet _ _
        · rw [Function.update_of_ne ht, Function.update_of_ne ht, Function.update_of_ne ht]
          exact (h.aligned tid).quiet fun g _ => hquiet _ _
      · show ∃ g ∈ Function.update r.frames b.tid fs tid, _
        have hu₀ := (hquiet tid k).used hu
        rcases h.passed tid k hu₀ ((hquiet tid k).reported' hr) with ⟨g, hg, hgk⟩
        by_cases ht : tid = b.tid
        · subst ht
          rw [hframes] at hg
          rw [Function.update_self]
          rcases List.mem_cons.mp hg with rfl | hg
          · subst hgk
            exact absurd hr (hchecked hu₀)
          · exact ⟨g, hg, hgk⟩
        · rw [Function.update_of_ne ht]
          exact ⟨g, hg, hgk⟩

theorem Checked.tick (h : Checked T s r) :
    Checked T { s with pos := s.pos + 1 } { r with pos := r.pos + 1 } := by
  refine ⟨⟨congrArg (· + 1) h.met.pos, h.met.count, h.met.named, h.met.unneeded, h.met.found⟩,
    fun tid => ?_, h.passed⟩
  exact (h.aligned tid).quiet fun f _ => ⟨fun hu => hu, fun i hi _ _ hun => ⟨hi, hun⟩⟩

/-- The invariant does not depend on how much of the execution has been read. -/
theorem Checked.part (f' : Frame) (h : Checked T s r) (hframes : r.frames b.tid = f :: fs)
    (hexec : f'.exec = f.exec) (hbbID : f'.bbID = f.bbID) :
    Checked T s { r with frames := Function.update r.frames b.tid (f' :: fs) } := by
  refine ⟨⟨h.met.pos, h.met.count, h.met.named, h.met.unneeded, h.met.found⟩, fun tid => ?_,
    fun tid k hu hr => ?_⟩
  · show Aligned T s _ tid (Function.update r.frames b.tid _ tid) _ _
    by_cases ht : tid = b.tid
    · subst ht
      have haligned := h.aligned b.tid
      rw [hframes] at haligned
      rw [Function.update_self]
      generalize s.nextBBUsed b.tid = ns₀ at haligned ⊢
      generalize s.terminatorStack b.tid = ts₀ at haligned ⊢
      cases haligned with
      | cons hn hused hon hrest =>
        rw [← hexec] at hused hon
        exact .cons (hn.trans hbbID.symm) hused hon
          (hrest.quiet fun f _ => ⟨fun hu => hu, fun i hi _ _ hun => ⟨hi, hun⟩⟩)
    · rw [Function.update_of_ne ht]
      exact (h.aligned tid).quiet fun f _ => ⟨fun hu => hu, fun i hi _ _ hun => ⟨hi, hun⟩⟩
  · rcases h.passed tid k hu hr with ⟨g, hg, hgk⟩
    show ∃ g ∈ Function.update r.frames b.tid _ tid, _
    by_cases ht : tid = b.tid
    · subst ht
      rw [hframes] at hg
      rw [Function.update_self]
      rcases List.mem_cons.mp hg with rfl | hg
      · exact ⟨f', List.mem_cons_self, hexec.trans hgk⟩
      · exact ⟨g, List.mem_cons_of_mem _ hg, hgk⟩
    · rw [Function.update_of_ne ht]
      exact ⟨g, hg, hgk⟩

/-- **A turn** keeps the invariant. -/
theorem Checked.step (P : Program) (hI : I.tables = P.toTables) (h : Checked I.tables s r)
    (hordered : r.Ordered I.tables)
    (hcond : b.type ≠ .declareBlock →
      (b.skipped I.tables = some true → b.isFirst = 0) ∧ ¬ Overwrites I.tables s b)
    (hstep : extractStep I s b = some s') (hread : readStep I.tables r b = some r') :
    Checked I.tables s' r' := by
  rcases extractStep_cases hstep with ⟨htype, rfl⟩ | ⟨htype, s₁, henter, hrest⟩
  · rcases readStep_cases hread with ⟨-, rfl⟩ | ⟨hne, -⟩
    · exact h.tick
    · exact absurd htype hne
  rcases readStep_cases hread with ⟨he, -⟩ | ⟨-, bb, f, fs, hbb, hfits, hopens, hstart, rfl⟩
  · exact absurd he htype
  have hcond := hcond htype
  rcases hrest with ⟨hskip, rfl⟩ | ⟨hskip, s₂, used, s₃, s₄, hvisits, hmark, hleave, rfl⟩
  · -- a call that is skipped is in the middle of an execution
    have hkind : b.type = .externalCallBlock := by
      by_contra hext
      rw [SmallestBlock.skipped, if_neg hext] at hskip
      cases hskip
    have hmeets : r.meets I.tables f b = r := by
      rw [Reading.meets, SmallestBlock.named, SmallestBlock.kind, hkind]
      simp [hskip]
    have hlt := (hfits.2.2 (by rw [hkind]; decide)).2
    rw [hmeets, if_neg (by rw [hcond.1 hskip]; omega)]
    cases hopens with
    | activation _ hstop => omega
    | execution _ _ _ hstop => omega
    | @part f₀ fs hlast hframes _ hbbID =>
      rw [h.enter_part henter htype hlast hframes hbbID]
      exact (Checked.part { f₀ with start := b.start } h hframes rfl rfl).tick
  · have hturn := h.enter hordered hbb hopens henter htype hcond.2
    rw [hI] at hbb
    rcases named_reverse_terminator P hbb hfits with ⟨hnormal, hstop, htail⟩
    rw [← hI] at hnormal hstop htail hbb
    have hbelow : ∀ g ∈ fs, g.exec ≠ f.exec := by
      intro g hg
      rcases hordered.opens hopens with ⟨hact, -, hlt, -⟩
      have := hlt g hg
      omega
    have hvisited : InTurn I.tables s₂ (r.meets I.tables f b) b.tid f fs used := by
      have hstart : InTurn I.tables (s₁, false).1 r b.tid f fs (s₁, false).2 := hturn
      refine hstart.visits hvisits hbelow hnormal ?_ htail
      -- a terminator begins an execution
      intro id hid hterm i hi htid
      have hstop := hstop id (List.mem_of_mem_head? hid) hterm
      have hlt := (hordered.insts i hi).2
      cases hopens with
      | activation => exact hlt.ne
      | execution => exact hlt.ne
      | @part f₀ fs _ hframes _ hbbID hstart =>
        rcases hordered.frames b.tid f₀ (by rw [hframes]; exact List.mem_cons_self) with
          ⟨-, -, bb', hbb', hlt'⟩
        rw [← hbbID, hbb] at hbb'
        cases hbb'
        omega
    have hmarked := hvisited.mark hopens.bbID.1 hmark
    have hframes : (Function.update (r.meets I.tables f b).frames b.tid (f :: fs)) b.tid = f :: fs :=
      Function.update_self ..
    have hleft := hmarked.leaves hframes hleave
    have hidem := hleft.tick
    simp only [Function.update_idem] at hidem
    exact hidem

/-- **A basic block that is used has its terminator used.** -/
theorem used_not_reported (P : Program) (hI : I.tables = P.toTables) {trace : List SmallestBlock}
    (hcomplete : Complete I.tables trace r) (hcond : TerminatorsChecked I trace)
    (hrun : run (extractStep I) {} trace.reverse = some s) {i t : Instance} {g : Found}
    (hg : g ∈ s.found) (hlate : g.late = false) (hi : i ∈ r.insts) (hinst : i.inst = g.inst)
    (ht : t ∈ r.insts) (hterm : I.tables.IsTerminator t.inst.id) (htid : t.inst.tid = i.inst.tid)
    (hexec : t.exec = i.exec) : t.inst ∉ s.unneededDI := by
  have hchecked : Checked I.tables s r := by
    refine run_related (R := Checked I.tables) ?_ ?_ hrun hcomplete.1
    · exact ⟨⟨rfl, rfl, fun _ hi => (nomatch hi), fun _ hd => absurd hd (Finset.notMem_empty _),
        fun _ hg => (nomatch hg)⟩, fun _ => .nil, fun _ _ hu => absurd hu
          (not_used_of_fresh fun _ hi => (nomatch hi))⟩
    · intro pre b post s s' r r' htrace hs hr h hstep hread
      exact h.step P hI (ordered_of_run hr) (hcond pre b post s htrace hs) hstep hread
  intro hun
  rcases hchecked.passed i.inst.tid i.exec ⟨g, hg, hlate, i, hi, hinst, rfl, rfl⟩
    ⟨t, ht, hterm, htid, hexec, hun⟩ with ⟨f, hf, -⟩
  rw [hcomplete.2] at hf
  cases hf

end

/-! ## A loop of one basic block -/

/-- `do x = ...; while (...); return x`. -/
def loopTables : Tables where
  ins := [{ type := .normalInst }, { type := .terminatorInst, successors := [0, 1] },
    { type := .returnInst, ssaDependencies := [(.inst, 0)] }]
  bb2Ins := [[0, 1], [2]]

/-- The exit is a post-dominator of the loop. -/
def loopInput : PassInput := ⟨loopTables, fun bbID => if bbID = 0 then {1} else ∅, fun _ => ∅⟩

def loopProgram : Program where
  toTables := loopTables
  block_ne := by decide
  ids_lt := by decide
  ends := by
    intro bb hbb k id i hid hi
    simp only [loopTables, List.mem_cons, List.not_mem_nil, or_false] at hbb
    rcases hbb with rfl | rfl
    · match k, hid with
      | 0, hid =>
        cases hid
        cases hi
        decide
      | 1, hid =>
        cases hid
        cases hi
        decide
    · match k, hid with
      | 0, hid =>
        cases hid
        cases hi
        decide
  length_le := by decide

/-- The loop is executed once. -/
def onceTrace : List SmallestBlock :=
  [{ type := .normalBlock, stop := 2, isFirst := 2, lastBBID := -1 },
    { type := .normalBlock, bbID := 1, stop := 1, isLast := 2, lastBBID := 0 }]

/-- The loop is executed twice. -/
def twiceTrace : List SmallestBlock :=
  [{ type := .normalBlock, stop := 2, isFirst := 2, lastBBID := -1 },
    { type := .normalBlock, stop := 2, lastBBID := 0 },
    { type := .normalBlock, bbID := 1, stop := 1, isLast := 2, lastBBID := 0 }]

theorem onceTrace_checked : TerminatorsChecked loopInput onceTrace := by
  refine .cons (fun _ => ⟨fun h => absurd h (by decide), fun h => absurd h.1 (by decide)⟩) ?_
  intro s hs
  refine .cons (fun _ => ⟨fun h => absurd h (by decide), fun h => ?_⟩) fun _ _ => .nil _
  rcases h with ⟨-, -, l, e, d, l', hnext, -, -⟩
  have hs := congrArg (Option.map fun s => s.nextBBUsed 0) hs
  rw [show (extractStep loopInput {} _).map (fun s => s.nextBBUsed 0) = some [(1, true)] by
    decide +kernel, Option.map_some, hnext] at hs
  cases hs

theorem used_not_reported_once : ∃ r s, Complete loopTables onceTrace r ∧
    run (extractStep loopInput) {} onceTrace.reverse = some s ∧
      (⟨⟨0, 1, 0⟩, 0, 1⟩ : Instance) ∈ r.insts ∧ ⟨0, 1, 0⟩ ∉ s.unneededDI := by
  rcases Option.isSome_iff_exists.mp (show (run (extractStep loopInput) {}
    onceTrace.reverse).isSome = true by decide +kernel) with ⟨s, hs⟩
  have hfound : (run (extractStep loopInput) {} onceTrace.reverse).all (fun s =>
      decide ((⟨⟨0, 0, 0⟩, -1, false, 1⟩ : Found) ∈ s.found)) = true := by decide +kernel
  rw [hs, Option.all_some, decide_eq_true_eq] at hfound
  have hcomplete : ∃ r, Complete loopTables onceTrace r ∧
      r.insts = [⟨⟨0, 0, 0⟩, 0, 1⟩, ⟨⟨0, 1, 0⟩, 0, 1⟩, ⟨⟨0, 2, 0⟩, 0, 0⟩] := by
    refine ⟨_, ⟨rfl, fun tid => ?_⟩, rfl⟩
    by_cases ht : tid = 0
    · rw [ht]
      rfl
    · simp [Function.update_of_ne ht]
  rcases hcomplete with ⟨r, hr, hinsts⟩
  refine ⟨r, s, hr, hs, by rw [hinsts]; decide, ?_⟩
  exact used_not_reported (i := ⟨⟨0, 0, 0⟩, 0, 1⟩) (t := ⟨⟨0, 1, 0⟩, 0, 1⟩) loopProgram rfl hr
    onceTrace_checked hs hfound rfl (by rw [hinsts]; decide) rfl (by rw [hinsts]; decide)
    ⟨_, rfl, rfl⟩ rfl rfl

/-- The terminator of the second execution of the loop is overwritten by that of the first one. -/
theorem twice_reported :
    ¬ ∀ (I : PassInput) (P : Program), I.tables = P.toTables →
      ∀ (trace : List SmallestBlock) (r : Reading) (s : PassState), Complete I.tables trace r →
        run (extractStep I) {} trace.reverse = some s →
        ∀ g ∈ s.found, g.late = false → ∀ i ∈ r.insts, i.inst = g.inst → ∀ t ∈ r.insts,
          I.tables.IsTerminator t.inst.id → t.inst.tid = i.inst.tid → t.exec = i.exec →
            t.inst ∉ s.unneededDI := by
  intro h
  rcases Option.isSome_iff_exists.mp (show (run (extractStep loopInput) {}
    twiceTrace.reverse).isSome = true by decide +kernel) with ⟨s, hs⟩
  have hfound : (run (extractStep loopInput) {} twiceTrace.reverse).all (fun s =>
      decide ((⟨⟨0, 0, 0⟩, 0, false, 1⟩ : Found) ∈ s.found ∧ ⟨0, 1, 0⟩ ∈ s.unneededDI)) = true := by
    decide +kernel
  rw [hs, Option.all_some, decide_eq_true_eq] at hfound
  have hcomplete : ∃ r, Complete loopTables twiceTrace r ∧
      (⟨⟨0, 0, 0⟩, 0, 1⟩ : Instance) ∈ r.insts ∧ (⟨⟨0, 1, 0⟩, 0, 1⟩ : Instance) ∈ r.insts := by
    refine ⟨_, ⟨rfl, fun tid => ?_⟩, by decide +kernel, by decide +kernel⟩
    by_cases ht : tid = 0
    · rw [ht]
      rfl
    · simp [Function.update_of_ne ht]
  rcases hcomplete with ⟨r, hr, hi, ht⟩
  exact h loopInput loopProgram rfl twiceTrace r s hr hs _ hfound.1 rfl _ hi rfl _ ht
    ⟨_, rfl, rfl⟩ rfl rfl hfound.2

end Slimmer
