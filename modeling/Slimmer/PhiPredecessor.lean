import Slimmer.MergedReading
import Slimmer.FrameEntries
import Slimmer.Classified

/-!
# The predecessor of a phi node

`OneInstruction` follows the entry of a phi node for `last_bb_id`. The main loop takes it from the
block the phi node is in. `OneBlock` takes it from the block at hand. At the end of the first basic
block of an activation that block belongs to the basic block gone through; but when a basic block has
just been finished, it belongs to its predecessor, and `LastBBID` is the predecessor's predecessor.

**Theorem (`phi_predecessor_of_run`).** In a run in which `OneBlock` finds phi nodes under their own
names only, and of a basic block that has just been finished only where the block at hand was itself
entered from its own basic block (`PhisOwn`), every phi node is resolved against the basic block
executed immediately before. In `branchTrace` it is resolved against the one before that
(`phi_resolved_too_early`).
-/

namespace Slimmer

/-- The instruction is a phi node. -/
def Tables.IsPhi (T : Tables) (id : Nat) : Prop := ∃ i, T.ins[id]? = some i ∧ i.type = .phiNode

/-- The last basic block the calls of `OneInstruction` for phi nodes get is the one executed
immediately before, in the same activation. -/
def PhisResolved (T : Tables) (trace : List SmallestBlock) (r : Reading) (t : PassSets) : Prop :=
  ∀ g ∈ t.found, T.IsPhi g.inst.id →
    ∃ i ∈ r.insts, i.inst = g.inst ∧ PrecededBy T g.inst.tid {} trace.reverse i.exec g.lastBBID

/-- Whenever `OneBlock` is called for the terminator `d` during the turn for `b` and finds a phi node,
the basic block is that of the block at hand, or the block at hand has been entered from its own basic
block; and the name is that of the phi node in the execution `d` belongs to. -/
def PhisFit (I : PassInput) (r : Reading) (s : PassState) (b : SmallestBlock) : Prop :=
  ∀ t d nextBBID bb, OneBlockCall I s b t d nextBBID → I.tables.bb2Ins[nextBBID]? = some bb →
    ∀ k e, Wanted I b t d bb.reverse k e → I.tables.IsPhi e.id →
      (nextBBID = b.bbID ∨ b.lastBBID = b.bbID) ∧
        ∀ j ∈ r.insts, j.inst = d → ∃ i ∈ r.insts, i.inst = e ∧ i.exec = j.exec

/-- A call that is skipped is not the first block of an activation, and what `OneBlock` finds fits. -/
def PhisOwn (I : PassInput) (r : Reading) (s : PassState) (b : SmallestBlock) : Prop :=
  b.type ≠ .declareBlock → (b.skipped I.tables = some true → b.isFirst = 0) ∧ PhisFit I r s b

section

variable {I : PassInput} {T : Tables} {trace : List SmallestBlock} {s s' : PassState}
  {t t' : PassSets} {r r' R : Reading} {b : SmallestBlock} {bb : List Nat} {f : Frame}
  {fs : List Frame} {d e : DynamicInst} {tid k : Nat} {last last' : Int} {l : List SmallestBlock}

/-! ## What is executed before is one basic block -/

/-- The execution has been passed, and nothing can turn out about it any more. -/
def Reading.Left (r : Reading) (tid k : Nat) : Prop :=
  k < r.pos ∧ ∀ f ∈ r.frames tid, f.exec ≠ k

theorem PrecededBy.of_run {pre : List SmallestBlock} (hrun : run (readStep T) r pre = some r')
    (h : PrecededBy T tid r' l k last) : PrecededBy T tid r (pre ++ l) k last := by
  induction pre generalizing r with
  | nil =>
    cases hrun
    exact h
  | cons b pre ih =>
    obtain ⟨r₁, hstep, hrun⟩ := run_cons_eq_some.mp hrun
    exact .later hstep (ih hrun)

/-- The executions of the frames a block leaves behind. -/
theorem Opens.exec_ne (hopens : Opens T r bb b f fs) (hk : k < r.pos)
    (hnot : ∀ g ∈ r.frames b.tid, 0 < g.start → g.exec ≠ k) : f.exec ≠ k := by
  cases hopens with
  | activation | execution => exact hk.ne'
  | @part f₀ fs _ hframes hstart =>
    exact hnot f₀ (by rw [hframes]; exact List.mem_cons_self) hstart

theorem Reading.Left.step (h : r.Left tid k) (hordered : r.Ordered T)
    (hstep : readStep T r b = some r') : r'.Left tid k := by
  obtain ⟨-, rfl⟩ | ⟨-, bb, f, fs, -, -, hopens, -, rfl⟩ := readStep_cases hstep
  · exact ⟨Nat.lt_succ_of_lt h.1, h.2⟩
  refine ⟨?_, fun g hg => ?_⟩
  · show k < (r.meets T f b).pos + 1
    rw [meets_pos]
    exact Nat.lt_succ_of_lt h.1
  replace hg : g ∈ Function.update (r.meets T f b).frames b.tid
    (if 0 < b.isFirst then fs else f :: fs) tid := hg
  rw [meets_frames] at hg
  by_cases ht : tid = b.tid
  · subst ht
    rw [Function.update_self] at hg
    have hold : ∀ g ∈ fs, g.exec ≠ k := fun g hg => h.2 g ((hordered.opens hopens).2.2.2.1 g hg)
    split_ifs at hg
    · exact hold g hg
    · obtain rfl | hg := List.mem_cons.mp hg
      · exact hopens.exec_ne h.1 fun g hg _ => h.2 g hg
      · exact hold g hg
  · rw [Function.update_of_ne ht] at hg
    exact h.2 g hg

theorem Reading.Left.not_preceded (h : r.Left tid k) (hordered : r.Ordered T) :
    ¬ PrecededBy T tid r l k last := by
  intro hp
  induction hp with
  | here htells =>
    cases htells with
    | finished _ _ _ hframes => exact h.2 _ (by rw [hframes]; exact List.mem_cons_self) rfl
    | first _ htid _ hopens =>
      subst htid
      exact hopens.exec_ne h.1 (fun g hg _ => h.2 g hg) rfl
  | later hstep _ ih => exact ih (h.step hordered hstep) (hordered.step hstep)

/-- When it has turned out what was executed before an execution, the execution is left. -/
theorem Tells.left (h : Tells T tid r b k last) (hordered : r.Ordered T)
    (hstep : readStep T r b = some r') : r'.Left tid k := by
  obtain ⟨he, -⟩ | ⟨-, bb, f, fs, hbb, -, hopens, -, rfl⟩ := readStep_cases hstep
  · cases h with
    | finished hne | first hne => exact absurd he hne
  have hpos : ∀ {k : Nat}, k ≤ r.pos → k < (r.meets T f b).pos + 1 := fun hk => by
    rw [meets_pos]
    exact Nat.lt_succ_of_le hk
  have hframes : ∀ g ∈ Function.update (r.meets T f b).frames b.tid
      (if 0 < b.isFirst then fs else f :: fs) b.tid, (g = f ∧ b.isFirst = 0) ∨ g ∈ fs := by
    intro g hg
    rw [Function.update_self] at hg
    split_ifs at hg with hfirst
    · exact Or.inr hg
    · exact (List.mem_cons.mp hg).imp_left fun he => ⟨he, Nat.eq_zero_of_not_pos hfirst⟩
  cases h with
  | @finished f₀ fs₀ _ htid hlast hframes₀ hstart =>
    subst htid
    have hmem : f₀ ∈ r.frames b.tid := by
      rw [hframes₀]
      exact List.mem_cons_self
    obtain ⟨hact, hpast, -⟩ := hordered.frames b.tid f₀ hmem
    refine ⟨hpos hpast.le, fun g hg => ?_⟩
    cases hopens with
    | activation hlast' => omega
    | @execution f₁ fs₁ _ hframes₁ =>
      cases hframes₀.symm.trans hframes₁
      obtain ⟨rfl, -⟩ | hg := hframes g hg
      · exact hpast.ne'
      · have hnested := hordered.nested b.tid
        rw [hframes₀] at hnested
        have := (List.pairwise_cons.mp hnested).1 g hg
        omega
    | @part f₁ fs₁ _ hframes₁ hpart =>
      cases hframes₀.symm.trans hframes₁
      omega
  | @first bb' f' fs' _ htid hbb' hopens' hfirst =>
    subst htid
    cases hbb.symm.trans hbb'
    cases hopens.open_eq.symm.trans hopens'.open_eq
    have hbelow := hordered.opens hopens
    refine ⟨hpos hbelow.2.1, fun g hg => ?_⟩
    obtain ⟨-, hzero⟩ | hg := hframes g hg
    · omega
    · have := hbelow.2.2.1 g hg
      omega

theorem Tells.unique (h : Tells T tid r b k last) (h' : Tells T tid r b k last')
    (hordered : r.Ordered T) : last = last' := by
  -- the execution that has been passed is not the one the block belongs to
  have hne : ∀ {bb : List Nat} {f g : Frame} {fs gs : List Frame}, b.isLast = 0 →
      r.frames tid = g :: gs → g.start = 0 → b.tid = tid → Opens T r bb b f fs →
      f.exec ≠ g.exec := by
    intro bb f g fs gs hlast hframes hstart htid hopens
    subst htid
    have hpast := (hordered.frames b.tid g (by rw [hframes]; exact List.mem_cons_self)).2.1
    cases hopens with
    | activation hlast' => omega
    | execution => exact hpast.ne'
    | part _ hframes' hpart =>
      cases hframes.symm.trans hframes'
      omega
  cases h with
  | @finished f fs _ htid hlast hframes hstart =>
    generalize hk : f.exec = k at h'
    cases h' with
    | finished => rfl
    | first _ _ _ hopens => exact absurd hk.symm (hne hlast hframes hstart htid hopens)
  | @first bb f fs _ htid _ hopens =>
    generalize hk : f.exec = k at h'
    cases h' with
    | finished _ _ hlast hframes hstart => exact absurd hk (hne hlast hframes hstart htid hopens)
    | first => rfl

/-- **Only one basic block** is executed immediately before. -/
theorem PrecededBy.unique (h : PrecededBy T tid r l k last) (h' : PrecededBy T tid r l k last')
    (hordered : r.Ordered T) : last = last' := by
  induction h with
  | here htells =>
    cases h' with
    | here htells' => exact htells.unique htells' hordered
    | later hstep h' =>
      exact absurd h' ((htells.left hordered hstep).not_preceded (hordered.step hstep))
  | later hstep h ih =>
    cases h' with
    | here htells' =>
      exact absurd h ((htells'.left hordered hstep).not_preceded (hordered.step hstep))
    | later hstep' h' =>
      cases hstep.symm.trans hstep'
      exact ih h' (hordered.step hstep)

/-! ## What is found -/

/-- The last basic block a visit takes is that of its block. -/
theorem Visit.found_lastBBID {id : Nat} {n : Bool} (hvisit : Visit I b s id s' n) {g : Found}
    (hg : g ∈ s'.found) : g ∈ s.found ∨
      (g.inst = s.toPassSets.name b.tid id ∧ g.lastBBID = b.lastBBID) := by
  obtain ⟨-, -, hfound⟩ | ⟨-, hfound, -⟩ := hvisit.unneeded_eq
  · rw [hfound] at hg
    obtain rfl | hg := List.mem_cons.mp hg
    · exact Or.inr ⟨rfl, rfl⟩
    · exact Or.inl hg
  · rw [hfound] at hg
    exact Or.inl hg

/-- The last basic block `OneBlock` takes is that of the block at hand. -/
theorem oneBlock_lastBBID {pos nextBBID : Nat} (h : oneBlock I pos t d b nextBBID = some t') :
    ∀ g ∈ t'.found, g ∈ t.found ∨ g.lastBBID = b.lastBBID := by
  obtain ⟨bb, sc, sc', -, hfound, hrun, rfl⟩ := oneBlock_cases h
  have hstep : ∀ {e : DynamicInst} {sc sc' : Finset (Nat × Nat) × PassSets},
      scanFound I b pos e sc = some sc' →
      (∀ g ∈ sc.2.found, g ∈ t.found ∨ g.lastBBID = b.lastBBID) →
      ∀ g ∈ sc'.2.found, g ∈ t.found ∨ g.lastBBID = b.lastBBID := by
    intro e sc sc' hfound hold g hg
    rw [(scanFound_cases hfound).2.2.1] at hg
    obtain rfl | hg := List.mem_cons.mp hg
    · exact Or.inr rfl
    · exact hold g hg
  refine run_invariant (P := fun u : Finset (Nat × Nat) × PassSets =>
    ∀ g ∈ u.2.found, g ∈ t.found ∨ g.lastBBID = b.lastBBID) ?_
    (hstep hfound fun g hg => Or.inl hg) hrun
  intro u id u' hu hscan
  obtain ⟨-, -, rfl⟩ | ⟨-, hscan⟩ := scanInst_cases hscan
  · exact hu
  · exact hstep hscan hu

/-- The executions of the block are visited; they belong to the execution of the frame. -/
theorem PhisResolved.visits {su su' : PassState × Bool} {ids : List Nat}
    (h : PhisResolved I.tables trace R su.1.toPassSets) (hvisits : Visits I b su ids su')
    (hmet : Met su.1 r) (hsub : (ids.foldl (Reading.meet b.tid f) r).insts ⊆ R.insts)
    (hlabel : PrecededBy I.tables b.tid {} trace.reverse f.exec b.lastBBID) :
    PhisResolved I.tables trace R su'.1.toPassSets := by
  induction hvisits generalizing r with
  | nil => exact h
  | @cons s s₁ used n id ids su' hvisit _ ih =>
    refine ih (fun g hg hphi => ?_) (hmet.visit hvisit) hsub
    obtain hg | ⟨hinst, hlast⟩ := hvisit.found_lastBBID hg
    · exact h g hg hphi
    · refine ⟨⟨⟨b.tid, id, -r.count (b.tid, id)⟩, f.act, f.exec⟩, ?_, ?_, ?_⟩
      · exact hsub ((foldl_meet_suffix ids (r.meet b.tid f id)).subset List.mem_cons_self)
      · rw [hinst, hmet.name]
      · rw [hinst, hlast]
        exact hlabel

theorem Wanted.tid_eq {ids : List Nat} (h : Wanted I b t d ids k e) (htid : d.tid = b.tid) :
    e.tid = b.tid := by
  cases h with
  | terminator => exact htid
  | depended | memory | operand => rfl

/-- `OneBlock` goes through the execution of the frame `f`, which `d` belongs to. -/
theorem PhisResolved.rescan {pos nextBBID : Nat} (h : PhisResolved I.tables trace R t)
    (hone : oneBlock I pos t d b nextBBID = some t')
    (hd : ∃ j ∈ R.insts, j.inst = d ∧ j.exec = f.exec) (htid : d.tid = b.tid)
    (hphi : ∀ bb, I.tables.bb2Ins[nextBBID]? = some bb → ∀ k e, Wanted I b t d bb.reverse k e →
      I.tables.IsPhi e.id →
      PrecededBy I.tables b.tid {} trace.reverse f.exec b.lastBBID ∧
        ∀ j ∈ R.insts, j.inst = d → ∃ i ∈ R.insts, i.inst = e ∧ i.exec = j.exec) :
    PhisResolved I.tables trace R t' := by
  obtain ⟨bb, new, hbb, hfound, hwanted⟩ := oneBlock_wanted hone
  intro g hg hgphi
  obtain hold | hlast := oneBlock_lastBBID hone g hg
  · exact h g hold hgphi
  rw [hfound] at hg
  obtain hg | hg := List.mem_append.mp hg
  · obtain ⟨k, hk⟩ := hwanted g hg
    obtain ⟨hlabel, hname⟩ := hphi bb hbb k _ hk hgphi
    obtain ⟨j, hj, hjd, hjexec⟩ := hd
    obtain ⟨i, hi, hinst, hexec⟩ := hname j hj hjd
    refine ⟨i, hi, hinst, ?_⟩
    rw [hexec, hjexec, hlast, hk.tid_eq htid]
    exact hlabel
  · exact h g hg hgphi

/-! ## A turn -/

/-- The terminator on the stack is checked; it belongs to the execution of the frame `f`. -/
theorem PhisResolved.check {s₀ : PassState} {nextBBID : Nat}
    {es : List (Nat × DynamicInst × Bool)} {entry : Nat × DynamicInst × Bool}
    (h : PhisResolved I.tables trace R s.toPassSets) (hterm : s.terminatorStack b.tid = entry :: es)
    (htop : entry.2.2 = false → TerminatorOf I.tables r.insts b.tid f entry.2.1)
    (hsub : r.insts ⊆ R.insts)
    (hphi : ∀ t d bb, OneBlockCall I s₀ b t d nextBBID → I.tables.bb2Ins[nextBBID]? = some bb →
      ∀ k e, Wanted I b t d bb.reverse k e → I.tables.IsPhi e.id →
      PrecededBy I.tables b.tid {} trace.reverse f.exec b.lastBBID ∧
        ∀ j ∈ R.insts, j.inst = d → ∃ i ∈ R.insts, i.inst = e ∧ i.exec = j.exec)
    (hcheck : Check I b (OneBlockCall I s₀ b) nextBBID s s') :
    PhisResolved I.tables trace R s'.toPassSets := by
  cases hcheck with
  | needed => exact h
  | scan hterm' hneeded hsets hcall =>
    cases hterm.symm.trans hterm'
    obtain ⟨j, hj, hjd, htid, hexec, -⟩ := htop hneeded
    exact h.rescan hsets ⟨j, hsub hj, hjd, hexec⟩ htid fun bb hbb => hphi _ _ bb hcall hbb

/-- The turn comes to a frame: the terminator of the execution just passed may be checked. -/
theorem PhisResolved.enter {post : List SmallestBlock}
    (h : PhisResolved I.tables trace R s.toPassSets) (hfollowed : Followed I.tables s r)
    (hopens : Opens I.tables r bb b f fs) (htype : b.type ≠ .declareBlock)
    (hsub : r.insts ⊆ R.insts)
    (hbefore : ∀ {k : Nat} {last : Int}, PrecededBy I.tables b.tid r (b :: post) k last →
      PrecededBy I.tables b.tid {} trace.reverse k last)
    (hphi : PhisFit I R s b) (henter : s.enter I b = some s') :
    PhisResolved I.tables trace R s'.toPassSets := by
  refine PassState.enter_sets htype henter h fun nextBBID l s₁ hlast hnext hne hcheck => ?_
  cases hopens with
  | activation hlast' => omega
  | @execution f₀ fs _ hframes hstart =>
    have hentries := hfollowed.entries b.tid
    rw [hframes] at hentries
    obtain ⟨n, ns, e, es, hnext', hterm, htop, -⟩ := hentries.cases_top
    refine h.check hterm htop.terminator hsub (fun t d bb hcall hbb k e hk he => ?_) hcheck
    obtain ⟨hcase, hname⟩ := hphi t d nextBBID bb hcall hbb k e hk he
    refine ⟨?_, hname⟩
    -- the block at hand belongs to the predecessor
    rw [hcase.resolve_left hne]
    exact hbefore (.here (.finished htype rfl hlast hframes hstart))
  | @part f₀ fs _ hframes _ hbbID =>
    have hentries := hfollowed.entries b.tid
    rw [hframes] at hentries
    obtain ⟨n, ns, e, es, hnext', -, htop, -⟩ := hentries.cases_top
    cases hnext.symm.trans hnext'
    have hn : nextBBID = f₀.bbID := htop.bbID
    exact absurd (hn.trans hbbID.symm) hne

/-- At the first block of an activation its terminator may be checked. -/
theorem PhisResolved.leaves {s₀ : PassState} (h : PhisResolved I.tables trace R s.toPassSets)
    (hfollowed : Followed I.tables s r) (hframes : r.frames b.tid = f :: fs)
    (hsub : r.insts ⊆ R.insts)
    (hlabel : PrecededBy I.tables b.tid {} trace.reverse f.exec b.lastBBID)
    (hphi : PhisFit I R s₀ b) (hleave : Leaves I b (OneBlockCall I s₀ b) s s') :
    PhisResolved I.tables trace R s'.toPassSets := by
  refine hleave.sets (fun _ _ => h) fun needed s₁ _ _ hcheck => ?_
  have hentries := hfollowed.entries b.tid
  rw [hframes] at hentries
  obtain ⟨n, ns, t, ts, -, hterm, htop, -⟩ := hentries.cases_top
  have h₁ : PhisResolved I.tables trace R { s with needed := needed }.toPassSets := h
  refine h₁.check hterm htop.terminator hsub (fun t d bb hcall hbb k e hk he => ?_) hcheck
  exact ⟨hlabel, (hphi t d _ bb hcall hbb k e hk he).2⟩

/-- **A turn** resolves the phi nodes it finds. -/
theorem PhisResolved.step {post : List SmallestBlock}
    (h : PhisResolved I.tables trace R s.toPassSets) (hfollowed : Followed I.tables s r)
    (hphi : PhisOwn I R s b) (hsub : r'.insts ⊆ R.insts)
    (hbefore : ∀ {k : Nat} {last : Int}, PrecededBy I.tables b.tid r (b :: post) k last →
      PrecededBy I.tables b.tid {} trace.reverse k last)
    (hlabelled : ∀ bb f fs, b.type ≠ .declareBlock → I.tables.bb2Ins[b.bbID]? = some bb →
      Opens I.tables r bb b f fs → PrecededBy I.tables b.tid r (b :: post) f.exec b.lastBBID)
    (hstep : extractStep I s b = some s') (hread : readStep I.tables r b = some r') :
    PhisResolved I.tables trace R s'.toPassSets := by
  obtain ⟨-, rfl⟩ | ⟨htype, s₁, henter, hrest⟩ := extractStep_cases hstep
  · exact h
  obtain ⟨hfirst, hphi⟩ := hphi htype
  obtain ⟨he, -⟩ | ⟨-, bb, f, fs, hbb, hfits, hopens, hstart, rfl⟩ := readStep_cases hread
  · exact absurd he htype
  replace hsub : (r.meets I.tables f b).insts ⊆ R.insts := hsub
  have hold : r.insts ⊆ (r.meets I.tables f b).insts := (foldl_meet_suffix _ _).subset
  have hlabel := hbefore (hlabelled bb f fs htype hbb hopens)
  have h₁ : PhisResolved I.tables trace R s₁.toPassSets :=
    h.enter hfollowed hopens htype (List.Subset.trans hold hsub) hbefore hphi henter
  obtain ⟨-, rfl⟩ | ⟨-, s₂, used, s₃, s₄, hvisits, hmark, hleave, rfl⟩ := hrest
  · exact h₁
  have h₂ : PhisResolved I.tables trace R s₂.toPassSets :=
    h₁.visits hvisits (hfollowed.enter hopens henter htype).met hsub hlabel
  have h₃ : PhisResolved I.tables trace R s₃.toPassSets := by
    obtain ⟨e, l, -, rfl⟩ := PassState.mark_cases hmark
    exact h₂
  have hbody := hfollowed.body hbb hfits hopens htype henter hvisits hmark
  have h₄ : PhisResolved I.tables trace R s₄.toPassSets :=
    h₃.leaves hbody inside_frames_self hsub hlabel hphi hleave
  exact h₄

end

/-- **Phi nodes are resolved against the predecessor that was executed**, as far as the phi nodes
`OneBlock` finds fit. For every execution of a program in which all threads have run to completion, on
the trace `MergeTrace` makes of it, and every run of the pass over the blocks of this trace from the
last one on: if every turn meets `PhisOwn`, every phi node passed to `OneInstruction` has been
executed, and the last basic block it is given is the one, and the only one, executed immediately
before in the same activation. -/
theorem phi_predecessor_of_run (P : Program) (impactful : Nat → Bool) {es : List Event}
    {th : Nat → List StackInfo} {ex : Nat → List Nat} (hexec : Execution P es th ex)
    (hdone : ∀ tid, th tid = []) {trace : List SmallestBlock}
    (hmerge : mergeTrace P.toTables impactful (es.map .event) = some trace) {I : PassInput}
    (hI : I.tables = P.toTables) {R : Reading}
    (hread : run (readStep I.tables) {} trace.reverse = some R) {pre post : List SmallestBlock}
    (hsplit : trace.reverse = pre ++ post) (hok : RunOk (extractStep I) (PhisOwn I R) {} pre)
    {s : PassState} (hrun : run (extractStep I) {} pre = some s) :
    ∀ g ∈ s.found, I.tables.IsPhi g.inst.id → ∃ i ∈ R.insts, i.inst = g.inst ∧
      ∀ last, PrecededBy I.tables g.inst.tid {} trace.reverse i.exec last ↔ last = g.lastBBID := by
  obtain ⟨-, -, hlabelled⟩ := mergeTrace_complete impactful hexec hdone hmerge
  rw [← hI] at hlabelled
  have hresolved : PhisResolved I.tables trace R s.toPassSets ∧
      ∃ r, run (readStep I.tables) {} pre = some r ∧ Followed I.tables s r := by
    induction pre using List.reverseRecOn generalizing s post with
    | nil =>
      cases hrun
      exact ⟨fun g hg => absurd hg List.not_mem_nil, {}, rfl, followed_init⟩
    | append_singleton pre b ih =>
      have hsplit' : trace.reverse = pre ++ b :: post := by
        rw [hsplit, List.append_assoc, List.cons_append, List.nil_append]
      obtain ⟨s₁, hs₁, hstep⟩ := run_concat_eq_some.mp hrun
      obtain ⟨hresolved, r, hr, hfollowed⟩ := ih hsplit' hok.left hs₁
      have hown : PhisOwn I R s₁ b := hok pre b [] s₁ rfl hs₁
      have hread' := hread
      rw [hsplit'] at hread'
      obtain ⟨r₁, hr₁, hread'⟩ := run_append_eq_some.mp hread'
      cases hr.symm.trans hr₁
      obtain ⟨r', hr', hrest⟩ := run_cons_eq_some.mp hread'
      have hbefore : ∀ {k : Nat} {last : Int}, PrecededBy I.tables b.tid r (b :: post) k last →
          PrecededBy I.tables b.tid {} trace.reverse k last := fun h => by
        rw [hsplit']
        exact h.of_run hr
      refine ⟨?_, r', run_concat_eq_some.mpr ⟨r, hr, hr'⟩, ?_⟩
      · exact hresolved.step hfollowed hown (insts_suffix hrest).subset hbefore
          (fun bb f fs => hlabelled pre b post r bb f fs hsplit' hr) hstep hr'
      · by_cases htype : b.type = .declareBlock
        · refine hfollowed.step (fun h => ?_) hstep hr'
          rw [SmallestBlock.skipped, if_neg (by rw [htype]; decide)] at h
          cases h
        · exact hfollowed.step (hown htype).1 hstep hr'
  intro g hg hphi
  obtain ⟨i, hi, hinst, hbefore⟩ := hresolved.1 g hg hphi
  have hordered : ({} : Reading).Ordered I.tables := ordered_of_run (run_nil _)
  refine ⟨i, hi, hinst, fun last => ⟨fun h => h.unique hbefore hordered, ?_⟩⟩
  rintro rfl
  exact hbefore

/-! ## A branch whose condition is a phi node -/

/-- `do c = ...; while (...); if (c) ...; return v;`, where the loop may be left out. -/
def branchTables : Tables where
  ins := [{ type := .normalInst }, { type := .terminatorInst, successors := [1, 2] },
    { type := .normalInst }, { type := .terminatorInst, successors := [1, 2] },
    { type := .phiNode, phiDependencies := [(0, .inst, 0), (1, .inst, 2)] },
    { type := .normalInst },
    { type := .terminatorInst, ssaDependencies := [(.inst, 4)], successors := [1, 3] },
    { type := .returnInst, ssaDependencies := [(.inst, 5)] }]
  bb2Ins := [[0, 1], [2, 3], [4, 5, 6], [7]]

/-- The return is behind every branch. -/
def branchInput : PassInput :=
  ⟨branchTables, fun bb => if bb = 2 then {3} else {2, 3}, fun _ => ∅⟩

def branchProgram : Program where
  toTables := branchTables
  block_ne := by decide
  ids_lt := by decide
  ends := by
    intro bb hbb k id i hk hi
    simp only [branchTables, List.mem_cons, List.not_mem_nil, or_false] at hbb
    obtain rfl | rfl | rfl | rfl := hbb
    · rcases k with _ | _ | k <;> cases hk <;> (cases hi; decide)
    · rcases k with _ | _ | k <;> cases hk <;> (cases hi; decide)
    · rcases k with _ | _ | _ | k <;> cases hk <;> (cases hi; decide)
    · rcases k with _ | k <;> cases hk; (cases hi; decide)
  length_le := by decide

/-- The loop is executed once. -/
def branchTrace : List SmallestBlock :=
  [{ type := .normalBlock, stop := 2, isFirst := 2, lastBBID := -1 },
    { type := .normalBlock, bbID := 1, stop := 2, lastBBID := 0 },
    { type := .normalBlock, bbID := 2, stop := 3, lastBBID := 1 },
    { type := .normalBlock, bbID := 3, stop := 1, isLast := 2, lastBBID := 2 }]

theorem branchProgram_execution :
    Execution branchProgram [.basicBlock 0 0, .basicBlock 0 1, .basicBlock 0 2, .basicBlock 0 3]
      (fun _ => []) (Function.update (fun _ => []) 0 [0, 1, 2, 3, 4, 5, 6, 7]) := by
  have h := Execution.init (P := branchProgram)
  have h := h.step (show ThreadStep branchProgram 0 _ _ _ _ from .start 0 (by decide))
  have h := h.step (show ThreadStep branchProgram 0 _ _ [0] _ from .silent ⟨_, rfl, rfl, rfl⟩ rfl)
  have h := h.step (show ThreadStep branchProgram 0 _ _ [1] _ from
    .jump 1 ⟨_, rfl, rfl, rfl⟩ rfl (by decide))
  have h := h.step (show ThreadStep branchProgram 0 _ _ [2] _ from .silent ⟨_, rfl, rfl, rfl⟩ rfl)
  have h := h.step (show ThreadStep branchProgram 0 _ _ [3] _ from
    .jump 2 ⟨_, rfl, rfl, rfl⟩ rfl (by decide))
  have h := h.step (show ThreadStep branchProgram 0 _ _ [4] _ from .silent ⟨_, rfl, rfl, rfl⟩ rfl)
  have h := h.step (show ThreadStep branchProgram 0 _ _ [5] _ from .silent ⟨_, rfl, rfl, rfl⟩ rfl)
  have h := h.step (show ThreadStep branchProgram 0 _ _ [6] _ from
    .jump 3 ⟨_, rfl, rfl, rfl⟩ rfl (by decide))
  have h := h.step (show ThreadStep branchProgram 0 _ _ [7] _ from .ret ⟨_, rfl, rfl, rfl⟩ rfl)
  simpa using h

theorem branchTrace_merged : mergeTrace branchProgram.toTables (fun _ => false)
    ([.basicBlock 0 0, .basicBlock 0 1, .basicBlock 0 2, .basicBlock 0 3].map .event) =
      some branchTrace := by
  decide +kernel

/-- The phi node is found late, with the basic block executed before the loop. -/
theorem phi_resolved_too_early :
    ¬ ∀ (P : Program) (impactful : Nat → Bool) (es : List Event) (th : Nat → List StackInfo)
      (ex : Nat → List Nat) (trace : List SmallestBlock) (I : PassInput) (R : Reading)
      (s : PassState), Execution P es th ex → (∀ tid, th tid = []) →
      mergeTrace P.toTables impactful (es.map .event) = some trace → I.tables = P.toTables →
      run (readStep I.tables) {} trace.reverse = some R →
      run (extractStep I) {} trace.reverse = some s →
      ∀ g ∈ s.found, I.tables.IsPhi g.inst.id → ∀ i ∈ R.insts, i.inst = g.inst →
        PrecededBy I.tables g.inst.tid {} trace.reverse i.exec g.lastBBID := by
  intro h
  obtain ⟨s, hs⟩ := Option.isSome_iff_exists.mp
    (show (run (extractStep branchInput) {} branchTrace.reverse).isSome = true by decide +kernel)
  have hfound : (run (extractStep branchInput) {} branchTrace.reverse).all (fun s =>
      decide ((⟨⟨0, 4, 0⟩, 0, true, 2⟩ : Found) ∈ s.found)) = true := by decide +kernel
  rw [hs, Option.all_some, decide_eq_true_eq] at hfound
  obtain ⟨R, hR, hi⟩ : ∃ R, run (readStep branchTables) {} branchTrace.reverse = some R ∧
      (⟨⟨0, 4, 0⟩, 0, 1⟩ : Instance) ∈ R.insts := ⟨_, rfl, by decide⟩
  have hearly := h branchProgram _ _ _ _ branchTrace branchInput R s branchProgram_execution
    (fun _ => rfl) branchTrace_merged rfl hR hs _ hfound ⟨_, rfl, rfl⟩ _ hi rfl
  have hloop : PrecededBy branchTables 0 {} branchTrace.reverse 1 1 :=
    .later rfl (.later rfl (.here (.finished (f := ⟨0, 1, 2, 0⟩) (by decide) rfl rfl rfl rfl)))
  have hordered : ({} : Reading).Ordered branchTables := ordered_of_run (run_nil _)
  exact absurd (hearly.unique hloop hordered) (by decide)

/-- The block in front of the loop. -/
def againEntry : SmallestBlock := { type := .normalBlock, stop := 2, isFirst := 2, lastBBID := -1 }

/-- The loop is executed twice. -/
def againTrace : List SmallestBlock :=
  [againEntry,
    { type := .normalBlock, bbID := 1, stop := 2, lastBBID := 0 },
    { type := .normalBlock, bbID := 1, stop := 2, lastBBID := 1 },
    { type := .normalBlock, bbID := 2, stop := 3, lastBBID := 1 },
    { type := .normalBlock, bbID := 3, stop := 1, isLast := 2, lastBBID := 2 }]

theorem againTrace_execution :
    Execution branchProgram
      [.basicBlock 0 0, .basicBlock 0 1, .basicBlock 0 1, .basicBlock 0 2, .basicBlock 0 3]
      (fun _ => []) (Function.update (fun _ => []) 0 [0, 1, 2, 3, 2, 3, 4, 5, 6, 7]) := by
  have h := Execution.init (P := branchProgram)
  have h := h.step (show ThreadStep branchProgram 0 _ _ _ _ from .start 0 (by decide))
  have h := h.step (show ThreadStep branchProgram 0 _ _ [0] _ from .silent ⟨_, rfl, rfl, rfl⟩ rfl)
  have h := h.step (show ThreadStep branchProgram 0 _ _ [1] _ from
    .jump 1 ⟨_, rfl, rfl, rfl⟩ rfl (by decide))
  have h := h.step (show ThreadStep branchProgram 0 _ _ [2] _ from .silent ⟨_, rfl, rfl, rfl⟩ rfl)
  have h := h.step (show ThreadStep branchProgram 0 _ _ [3] _ from
    .jump 1 ⟨_, rfl, rfl, rfl⟩ rfl (by decide))
  have h := h.step (show ThreadStep branchProgram 0 _ _ [2] _ from .silent ⟨_, rfl, rfl, rfl⟩ rfl)
  have h := h.step (show ThreadStep branchProgram 0 _ _ [3] _ from
    .jump 2 ⟨_, rfl, rfl, rfl⟩ rfl (by decide))
  have h := h.step (show ThreadStep branchProgram 0 _ _ [4] _ from .silent ⟨_, rfl, rfl, rfl⟩ rfl)
  have h := h.step (show ThreadStep branchProgram 0 _ _ [5] _ from .silent ⟨_, rfl, rfl, rfl⟩ rfl)
  have h := h.step (show ThreadStep branchProgram 0 _ _ [6] _ from
    .jump 3 ⟨_, rfl, rfl, rfl⟩ rfl (by decide))
  have h := h.step (show ThreadStep branchProgram 0 _ _ [7] _ from .ret ⟨_, rfl, rfl, rfl⟩ rfl)
  simpa using h

theorem againTrace_merged : mergeTrace branchProgram.toTables (fun _ => false)
    ([.basicBlock 0 0, .basicBlock 0 1, .basicBlock 0 1, .basicBlock 0 2,
      .basicBlock 0 3].map .event) = some againTrace := by
  decide +kernel

/-- What `OneBlock` finds has the name it computes. -/
theorem Wanted.name {I : PassInput} {b : SmallestBlock} {t : PassSets} {d e : DynamicInst}
    {ids : List Nat} {k : Nat} (h : Wanted I b t d ids k e) :
    e = d ∨ ∃ id ∈ ids, e = rescanned b t d id := by
  cases h with
  | terminator => exact Or.inl rfl
  | depended hid | memory hid | operand hid =>
    exact Or.inr ⟨_, List.mem_of_getElem? hid, rfl⟩

theorem branchTables_isPhi {id : Nat} (h : branchTables.IsPhi id) : id = 4 := by
  obtain ⟨i, hi, htype⟩ := h
  have hlt : id < 8 := (List.getElem?_eq_some_iff.mp hi).1
  have hall : ∀ id < 8, ∀ i ∈ branchTables.ins[id]?, i.type = .phiNode → id = 4 := by decide
  exact hall id hlt i hi htype

/-- `OneBlock` is called once, for the branch; the block at hand is that of the loop, entered from
the loop. -/
theorem againTrace_own {R : Reading} (hinsts : R.insts = [⟨⟨0, 0, 0⟩, 0, 4⟩, ⟨⟨0, 1, 0⟩, 0, 4⟩,
      ⟨⟨0, 2, -1⟩, 0, 3⟩, ⟨⟨0, 3, -1⟩, 0, 3⟩, ⟨⟨0, 2, 0⟩, 0, 2⟩, ⟨⟨0, 3, 0⟩, 0, 2⟩,
      ⟨⟨0, 4, 0⟩, 0, 1⟩, ⟨⟨0, 5, 0⟩, 0, 1⟩, ⟨⟨0, 6, 0⟩, 0, 1⟩, ⟨⟨0, 7, 0⟩, 0, 0⟩]) :
    RunOk (extractStep branchInput) (PhisOwn branchInput R) {} againTrace.reverse := by
  intro pre b post s hsplit hrun htype
  have hmem : b ∈ againTrace.reverse := by
    rw [hsplit]
    simp
  have hskip : ∀ b ∈ againTrace.reverse, b.skipped branchInput.tables = some false := by decide
  refine ⟨fun h => absurd ((hskip b hmem).symm.trans h) (by decide), ?_⟩
  have hpre : pre = againTrace.reverse.take pre.length := by
    rw [hsplit]
    simp
  have hb : againTrace.reverse[pre.length]? = some b := by
    rw [hsplit]
    simp
  have hlt : pre.length < 5 := (List.getElem?_eq_some_iff.mp hb).1
  rw [hpre] at hrun
  generalize pre.length = n at hrun hb hlt
  have hstate : ∀ {α : Type} (F : PassState → α) {v : α},
      (run (extractStep branchInput) {} (againTrace.reverse.take n)).map F = some v → F s = v := by
    intro α F v hv
    rw [hrun, Option.map_some] at hv
    exact Option.some.inj hv
  intro t d nextBBID bb hcall hbb k e hk hphi
  obtain rfl | rfl | rfl | rfl | rfl : n = 0 ∨ n = 1 ∨ n = 2 ∨ n = 3 ∨ n = 4 := by omega
  · cases hb
    cases hcall with
    | finished _ hlast => cases hlast
    | first _ _ _ _ hfirst => cases hfirst
  · cases hb
    cases hcall with
    | finished _ _ _ _ hterm hneeded =>
      have hstack := hstate (fun s => s.terminatorStack 0)
        (v := [(3, ⟨0, 0, 0⟩, true)]) (by decide +kernel)
      cases hterm.symm.trans hstack
      cases hneeded
    | first _ _ _ _ hfirst => cases hfirst
  · cases hb
    cases hcall with
    | finished _ _ hnext _ hterm _ =>
      have hnext' := hstate (fun s => s.nextBBUsed 0) (v := [(2, true)]) (by decide +kernel)
      have hterm' := hstate (fun s => s.terminatorStack 0)
        (v := [(2, ⟨0, 6, 0⟩, false)]) (by decide +kernel)
      have hcount := hstate (fun s => (s.instCount (0, 4), s.instCount (0, 6)))
        (v := (1, 1)) (by decide +kernel)
      cases hnext.symm.trans hnext'
      cases hterm.symm.trans hterm'
      cases hbb
      obtain rfl : e = ⟨0, 4, 0⟩ := by
        have hid := branchTables_isPhi hphi
        obtain rfl | ⟨id, -, rfl⟩ := hk.name
        · cases hid
        · replace hid : id = 4 := hid
          subst hid
          rw [rescanned, scanName, cntDiff, (Prod.mk.inj hcount).1, (Prod.mk.inj hcount).2]
          rfl
      refine ⟨Or.inr rfl, ?_⟩
      rw [hinsts]
      decide
    | first _ _ _ _ hfirst => cases hfirst
  · cases hb
    cases hcall with
    | finished _ _ hnext hne _ _ =>
      have hnext' := hstate (fun s => s.nextBBUsed 0) (v := [(1, true)]) (by decide +kernel)
      cases hnext.symm.trans hnext'
      exact absurd rfl hne
    | first _ _ _ _ hfirst => cases hfirst
  · obtain rfl : againEntry = b := Option.some.inj hb
    cases hcall with
    | finished _ _ _ _ hterm hneeded =>
      have hstack := hstate (fun s => s.terminatorStack 0)
        (v := [(1, ⟨0, 3, -1⟩, true)]) (by decide +kernel)
      cases hterm.symm.trans hstack
      cases hneeded
    | first _ henter _ hbody _ hcaller _ hterm hneeded =>
      have hstack := hstate (fun s => (s.enter branchInput againEntry).bind fun s =>
          (s.body branchInput againEntry).bind fun s =>
            (s.needCaller againEntry).map fun s => s.terminatorStack 0)
        (v := some [(0, ⟨0, 1, 0⟩, true)]) (by decide +kernel)
      simp only [henter, Option.bind_some, hbody, hcaller, Option.map_some] at hstack
      cases hterm.symm.trans (Option.some.inj hstack)
      cases hneeded

/-- In the loop the phi node is resolved against the loop. -/
theorem phi_predecessor_of_run_again : ∃ R s,
    run (readStep branchTables) {} againTrace.reverse = some R ∧
    run (extractStep branchInput) {} againTrace.reverse = some s ∧
    (⟨⟨0, 4, 0⟩, 1, true, 2⟩ : Found) ∈ s.found ∧
    ∀ g ∈ s.found, branchInput.tables.IsPhi g.inst.id → ∃ i ∈ R.insts, i.inst = g.inst ∧
      ∀ last, PrecededBy branchInput.tables g.inst.tid {} againTrace.reverse i.exec last ↔
        last = g.lastBBID := by
  obtain ⟨s, hs⟩ := Option.isSome_iff_exists.mp
    (show (run (extractStep branchInput) {} againTrace.reverse).isSome = true by decide +kernel)
  have hfound : (run (extractStep branchInput) {} againTrace.reverse).all (fun s =>
      decide ((⟨⟨0, 4, 0⟩, 1, true, 2⟩ : Found) ∈ s.found)) = true := by decide +kernel
  rw [hs, Option.all_some, decide_eq_true_eq] at hfound
  obtain ⟨R, hR, hinsts⟩ : ∃ R, run (readStep branchTables) {} againTrace.reverse = some R ∧
      R.insts = [⟨⟨0, 0, 0⟩, 0, 4⟩, ⟨⟨0, 1, 0⟩, 0, 4⟩,
        ⟨⟨0, 2, -1⟩, 0, 3⟩, ⟨⟨0, 3, -1⟩, 0, 3⟩, ⟨⟨0, 2, 0⟩, 0, 2⟩, ⟨⟨0, 3, 0⟩, 0, 2⟩,
        ⟨⟨0, 4, 0⟩, 0, 1⟩, ⟨⟨0, 5, 0⟩, 0, 1⟩, ⟨⟨0, 6, 0⟩, 0, 1⟩, ⟨⟨0, 7, 0⟩, 0, 0⟩] := ⟨_, rfl, rfl⟩
  exact ⟨R, s, hR, hs, hfound, phi_predecessor_of_run branchProgram _ againTrace_execution
    (fun _ => rfl) againTrace_merged rfl hR (List.append_nil _).symm (againTrace_own hinsts) hs⟩

end Slimmer
