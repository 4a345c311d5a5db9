import Slimmer.Arrangement
import Slimmer.TerminatorUsed

/-!
# The stacks of the pass and the open frames

As long as no call that is skipped is the first block of an activation, `next_bb_used` and
`terminator_stack` hold one entry for each open frame of a thread (`Entries`): its basic block, and
its terminator unless that is known to be needed.

`Followed` is what holds between two turns, `Following` what holds within one.
-/

namespace Slimmer

section

variable {I : PassInput} {T : Tables} {trace : List SmallestBlock} {s s' : PassState}
  {r r' : Reading} {b : SmallestBlock} {d : DynamicInst} {bb : List Nat} {f : Frame}
  {fs : List Frame} {tid : Nat}

/-! ## Entries -/

/-- The terminator is that of the execution of the frame. -/
def TerminatorOf (T : Tables) (insts : List Instance) (tid : Nat) (f : Frame) (d : DynamicInst) :
    Prop :=
  ∃ i ∈ insts, i.inst = d ∧ d.tid = tid ∧ i.exec = f.exec ∧ T.IsTerminator d.id

/-- The entries on top of `next_bb_used` and `terminator_stack` are those of the frame. -/
structure OfFrame (T : Tables) (insts : List Instance) (tid : Nat) (f : Frame) (n : Nat × Bool)
    (e : Nat × DynamicInst × Bool) : Prop where
  bbID : n.1 = f.bbID
  terminator : e.2.2 = false → TerminatorOf T insts tid f e.2.1

/-- The stacks hold one entry for each frame. -/
inductive Entries (T : Tables) (insts : List Instance) (tid : Nat) :
    List Frame → List (Nat × Bool) → List (Nat × DynamicInst × Bool) → Prop
  | nil : Entries T insts tid [] [] []
  | cons {f : Frame} {fs : List Frame} {n : Nat × Bool} {ns : List (Nat × Bool)}
      {e : Nat × DynamicInst × Bool} {es : List (Nat × DynamicInst × Bool)}
      (htop : OfFrame T insts tid f n e) (hrest : Entries T insts tid fs ns es) :
      Entries T insts tid (f :: fs) (n :: ns) (e :: es)

variable {insts insts' : List Instance} {ns : List (Nat × Bool)}
  {es : List (Nat × DynamicInst × Bool)}

theorem TerminatorOf.mono (h : TerminatorOf T insts tid f d) (hsub : insts ⊆ insts') :
    TerminatorOf T insts' tid f d := by
  rcases h with ⟨i, hi, hcase⟩
  exact ⟨i, hsub hi, hcase⟩

/-- It is the last instruction of the basic block of the frame. -/
theorem TerminatorOf.last (P : Program) (hT : T = P.toTables) {bbID : Nat}
    (hbb : T.bb2Ins[bbID]? = some bb) (hframe : FrameHolds T trace r tid f bb) (hstart : f.start = 0)
    (h : TerminatorOf T r.insts tid f d) : bb.getLast? = some d.id := by
  rcases h with ⟨t, ht, rfl, htid, hexec, hit⟩
  have hmem := (hframe.within t ht htid hexec).1
  rw [hstart, List.drop_zero] at hmem
  rcases List.mem_iff_getElem?.mp hmem with ⟨n, hn⟩
  rw [hT] at hbb hit
  rw [List.getLast?_eq_getElem?, ← isTerminator_last P hbb hn hit]
  exact hn

theorem Entries.mono (h : Entries T insts tid fs ns es) (hsub : insts ⊆ insts') :
    Entries T insts' tid fs ns es := by
  induction h with
  | nil => exact .nil
  | cons htop _ ih => exact .cons ⟨htop.bbID, fun he => (htop.terminator he).mono hsub⟩ ih

theorem Entries.cases_top (h : Entries T insts tid (f :: fs) ns es) :
    ∃ n ns' e es', ns = n :: ns' ∧ es = e :: es' ∧ OfFrame T insts tid f n e ∧
      Entries T insts tid fs ns' es' := by
  cases h with
  | cons htop hrest => exact ⟨_, _, _, _, rfl, rfl, htop, hrest⟩

/-- The invariant between two turns. -/
structure Followed (T : Tables) (s : PassState) (r : Reading) : Prop where
  met : Met s r
  entries : ∀ tid, Entries T r.insts tid (r.frames tid) (s.nextBBUsed tid) (s.terminatorStack tid)

/-- The invariant within the turn for a block of the frame `f`. As long as `begins` holds, the
terminator on the stack may be that of the execution before. -/
structure Following (T : Tables) (s : PassState) (r : Reading) (tid : Nat) (f : Frame)
    (fs : List Frame) (begins : Prop) : Prop where
  met : Met s r
  others : ∀ tid', tid' ≠ tid →
    Entries T r.insts tid' (r.frames tid') (s.nextBBUsed tid') (s.terminatorStack tid')
  top : ∃ n ns e es, s.nextBBUsed tid = n :: ns ∧ s.terminatorStack tid = e :: es ∧
    Entries T r.insts tid fs ns es ∧
    ((e.2.2 = false → TerminatorOf T r.insts tid f e.2.1) ∨ begins)

theorem followed_init : Followed T {} {} :=
  ⟨⟨rfl, rfl, fun _ hi => (nomatch hi), fun _ hd => absurd hd (Finset.notMem_empty _),
    fun _ hg => (nomatch hg)⟩, fun _ => .nil⟩

/-! ## The parts of a turn -/

/-- The turn comes to the frame the reading has opened. -/
theorem Followed.enter (h : Followed I.tables s r) (hopens : Opens I.tables r bb b f fs)
    (henter : s.enter I b = some s') (htype : b.type ≠ .declareBlock) :
    Following I.tables s' r b.tid f fs
      (b.stop = bb.length ∧ I.tables.endType bb = some .terminatorInst) := by
  cases hopens with
  | activation hlast =>
    have hs' : s' = s.push b := by
      rcases PassState.enter_cases htype henter with ⟨-, hs'⟩ | ⟨hz, -⟩ | ⟨hz, -⟩
      · exact hs'
      · omega
      · omega
    subst hs'
    refine ⟨⟨h.met.pos, h.met.count, h.met.named, h.met.unneeded, h.met.found⟩, ?_, ?_⟩
    · intro tid ht
      show Entries _ _ tid (r.frames tid) (Function.update s.nextBBUsed b.tid _ tid)
        (Function.update s.terminatorStack b.tid _ tid)
      rw [Function.update_of_ne ht, Function.update_of_ne ht]
      exact h.entries tid
    · exact ⟨(b.bbID, false), s.nextBBUsed b.tid, (b.bbID, ⟨0, 0, 0⟩, true),
        s.terminatorStack b.tid, Function.update_self .., Function.update_self ..,
        h.entries b.tid, Or.inl fun he => nomatch he⟩
  | @execution f₀ fs hlast hframes hstart hstop hend =>
    have hentries := h.entries b.tid
    rw [hframes] at hentries
    rcases hentries.cases_top with ⟨n, ns, e, es, hnext, hterm, htop, hrest⟩
    rcases PassState.enter_cases htype henter with ⟨hl, -⟩ | ⟨-, rfl, -⟩ |
      ⟨-, nextBBID, l, s₁, hnext', -, hcheck, hset⟩
    · omega
    · exact ⟨h.met, fun tid _ => h.entries tid,
        n, ns, e, es, hnext, hterm, hrest, Or.inr ⟨hstop, hend⟩⟩
    · cases hnext.symm.trans hnext'
      rcases PassState.setTerminator_cases hset with ⟨e', l', hl', rfl⟩
      have hstacks := hcheck.stacks
      rw [hstacks.2.2, hterm] at hl'
      cases hl'
      refine ⟨h.met.scanned hstacks.1 hcheck.scanned, ?_, ?_⟩
      · intro tid ht
        show Entries _ _ tid (r.frames tid) (s₁.nextBBUsed tid)
          (Function.update s₁.terminatorStack b.tid _ tid)
        rw [Function.update_of_ne ht, hstacks.2.1, hstacks.2.2]
        exact h.entries tid
      · refine ⟨(nextBBID, true), ns, (b.bbID, ⟨0, 0, 0⟩, true), es, ?_, Function.update_self ..,
          hrest, Or.inl fun he => nomatch he⟩
        show s₁.nextBBUsed b.tid = _
        rw [hstacks.2.1]
        exact hnext
  | @part f₀ fs hlast hframes _ hbbID =>
    have hentries := h.entries b.tid
    rw [hframes] at hentries
    rcases hentries.cases_top with ⟨n, ns, e, es, hnext, hterm, htop, hrest⟩
    have hs' : s' = s := by
      rcases PassState.enter_cases htype henter with ⟨hl, -⟩ | ⟨-, hs', -⟩ |
        ⟨-, nextBBID, l, s₁, hnext', hne, -⟩
      · omega
      · exact hs'
      · cases hnext.symm.trans hnext'
        have hn : nextBBID = f₀.bbID := htop.bbID
        exact absurd (hn.trans hbbID.symm) hne
    subst hs'
    exact ⟨h.met, fun tid _ => h.entries tid, n, ns, e, es, hnext, hterm, hrest,
      Or.inl fun he => htop.terminator he⟩

/-- The executions of the block are visited. When it begins an execution, its terminator is the
first one. -/
theorem Following.visits {su su' : PassState × Bool} {ids : List Nat} {begins : Prop}
    (h : Following I.tables su.1 r b.tid f fs begins) (hvisits : Visits I b su ids su')
    (hbegins : begins → b.type = .normalBlock ∧ ∃ id ∈ ids.head?, I.tables.IsTerminator id) :
    Following I.tables su'.1 (ids.foldl (Reading.meet b.tid f) r) b.tid f fs False := by
  induction hvisits generalizing r begins with
  | nil =>
    refine ⟨h.met, h.others, ?_⟩
    rcases h.top with ⟨n, ns, e, es, hnext, hterm, hrest, htop | hb⟩
    · exact ⟨n, ns, e, es, hnext, hterm, hrest, Or.inl htop⟩
    · rcases (hbegins hb).2 with ⟨id, hid, -⟩
      cases hid
  | @cons s s₁ used n id ids su' hvisit hrest ih =>
    rcases h.top with ⟨nx, ns, e, es, hnext, hterm, hbelow, htop⟩
    have hsub : r.insts ⊆ (r.meet b.tid f id).insts := List.subset_cons_self _ _
    have hstacks : ∃ e', s₁.terminatorStack b.tid = e' :: es ∧
        (∀ tid, tid ≠ b.tid → s₁.terminatorStack tid = s.terminatorStack tid) ∧
        (e'.2.2 = false → TerminatorOf I.tables (r.meet b.tid f id).insts b.tid f e'.2.1) := by
      rcases hvisit.terminatorStack with ⟨hstack, hno⟩ | ⟨-, hyes, e', l, hl, hstack⟩
      · refine ⟨e, by rw [hstack]; exact hterm, fun tid _ => by rw [hstack], fun he => ?_⟩
        rcases htop with htop | hb
        · exact (htop he).mono hsub
        · rcases hbegins hb with ⟨hnormal, id', hid', i, hi, htype⟩
          cases hid'
          exact absurd htype (hno hnormal i hi)
      · cases hterm.symm.trans hl
        refine ⟨_, by rw [hstack, Function.update_self], fun tid ht => ?_, fun _ => ?_⟩
        · rw [hstack, Function.update_of_ne ht]
        · exact ⟨_, List.mem_cons_self, (h.met.name b.tid id).symm, rfl, rfl, hyes⟩
    rcases hstacks with ⟨e', hterm', hothers, htop'⟩
    have hmet : Following I.tables s₁ (r.meet b.tid f id) b.tid f fs False := by
      refine ⟨h.met.visit hvisit, ?_, ?_⟩
      · intro tid ht
        rw [hvisit.nextBBUsed, hothers tid ht]
        exact (h.others tid ht).mono hsub
      · exact ⟨nx, ns, e', es, by rw [hvisit.nextBBUsed]; exact hnext, hterm', hbelow.mono hsub,
          Or.inl htop'⟩
    exact ih hmet fun hb => hb.elim
/-- When the executions of a block have been visited, its basic block is marked. -/
theorem Following.mark {used : Bool} (h : Following T s r b.tid f fs False)
    (hbbID : f.bbID = b.bbID) (hmark : s.mark b used = some s') :
    Followed T s' (r.inside b.tid f fs) := by
  rcases h.top with ⟨n, ns, e, es, hnext, hterm, hrest, htop | hno⟩
  swap
  · exact hno.elim
  rcases PassState.mark_cases hmark with ⟨n', l, hl, rfl⟩
  cases hnext.symm.trans hl
  refine ⟨⟨h.met.pos, h.met.count, h.met.named, h.met.unneeded, h.met.found⟩, fun tid => ?_⟩
  show Entries T r.insts tid ((r.inside b.tid f fs).frames tid)
    (Function.update s.nextBBUsed b.tid _ tid) (s.terminatorStack tid)
  by_cases ht : tid = b.tid
  · subst ht
    rw [inside_frames_self, Function.update_self, hterm]
    exact .cons ⟨hbbID.symm, htop⟩ hrest
  · rw [inside_frames_of_ne ht, Function.update_of_ne ht]
    exact h.others tid ht

/-- A block that begins an execution of a basic block with a terminator executes the terminator
last. -/
theorem SmallestBlock.Fits.begins (hbb : T.bb2Ins[b.bbID]? = some bb) (hfits : b.Fits bb)
    (htype : b.type ≠ .declareBlock) (hstop : b.stop = bb.length)
    (hend : T.endType bb = some .terminatorInst) :
    b.type = .normalBlock ∧ ∃ id ∈ (b.named T).reverse.head?, T.IsTerminator id := by
  have hnormal : b.type = .normalBlock := by
    by_contra hne
    have := (hfits.2.2 hne).2
    omega
  rcases Option.bind_eq_some_iff.mp hend with ⟨id, hlast, hinfo⟩
  rcases Option.map_eq_some_iff.mp hinfo with ⟨i, hi, hit⟩
  refine ⟨hnormal, id, ?_, i, hi, hit⟩
  rcases named_segment hbb hfits htype with hnamed | ⟨-, hkind, -⟩
  · have hlt := hfits.1
    rw [List.head?_reverse, hnamed, hstop, List.take_length, List.getLast?_drop,
      if_neg (by omega)]
    exact hlast
  · rw [SmallestBlock.kind, hnormal] at hkind
    cases hkind

/-- The executions of the block have been visited and its basic block is marked. -/
theorem Followed.body {s₁ s₂ s₃ : PassState} {used : Bool} (h : Followed I.tables s r)
    (hbb : I.tables.bb2Ins[b.bbID]? = some bb) (hfits : b.Fits bb)
    (hopens : Opens I.tables r bb b f fs) (htype : b.type ≠ .declareBlock)
    (henter : s.enter I b = some s₁)
    (hvisits : Visits I b (s₁, false) (b.named I.tables).reverse (s₂, used))
    (hmark : s₂.mark b used = some s₃) :
    Followed I.tables s₃ ((r.meets I.tables f b).inside b.tid f fs) := by
  have hentered : Following I.tables (s₁, false).1 r b.tid f fs
      (b.stop = bb.length ∧ I.tables.endType bb = some .terminatorInst) :=
    h.enter hopens henter htype
  have hvisited := hentered.visits hvisits fun hb => hfits.begins hbb htype hb.1 hb.2
  exact Following.mark hvisited hopens.bbID.1 hmark

/-- A call that is skipped is in the middle of an execution. -/
theorem Followed.skip {s₁ : PassState} (h : Followed I.tables s r) (hfits : b.Fits bb)
    (hopens : Opens I.tables r bb b f fs) (htype : b.type ≠ .declareBlock)
    (henter : s.enter I b = some s₁) (hskip : b.skipped I.tables = some true) :
    r.meets I.tables f b = r ∧ s₁ = s ∧ Followed I.tables s₁ (r.inside b.tid f fs) := by
  have hkind : b.type = .externalCallBlock := by
    by_contra hext
    rw [SmallestBlock.skipped, if_neg hext] at hskip
    cases hskip
  have hmeets : r.meets I.tables f b = r := by
    rw [Reading.meets, SmallestBlock.named, SmallestBlock.kind, hkind]
    simp [hskip]
  have hlt := (hfits.2.2 (by rw [hkind]; decide)).2
  cases hopens with
  | activation _ hstop => omega
  | execution _ _ _ hstop => omega
  | @part f₀ fs hlast hframes _ hbbID =>
    have hentries := h.entries b.tid
    rw [hframes] at hentries
    rcases hentries.cases_top with ⟨n, ns, e, es, hnext, hterm, htop, hrest⟩
    have hs₁ : s₁ = s := by
      rcases PassState.enter_cases htype henter with ⟨hl, -⟩ | ⟨-, hs₁, -⟩ |
        ⟨-, nextBBID, l, s₂, hnext', hne, -⟩
      · omega
      · exact hs₁
      · cases hnext.symm.trans hnext'
        have hn : nextBBID = f₀.bbID := htop.bbID
        exact absurd (hn.trans hbbID.symm) hne
    subst hs₁
    refine ⟨hmeets, rfl, ⟨h.met.pos, h.met.count, h.met.named, h.met.unneeded, h.met.found⟩,
      fun tid => ?_⟩
    by_cases ht : tid = b.tid
    · subst ht
      rw [inside_frames_self, hnext, hterm]
      exact .cons ⟨htop.bbID, htop.terminator⟩ hrest
    · rw [inside_frames_of_ne ht]
      exact h.entries tid

/-- At the first block of an activation its frame is left. -/
theorem Followed.leaves {call : PassSets → DynamicInst → Nat → Prop} (h : Followed I.tables s r)
    (hframes : r.frames b.tid = f :: fs) (hleave : Leaves I b call s s') :
    Followed I.tables s' { r with
      frames := Function.update r.frames b.tid (if 0 < b.isFirst then fs else f :: fs) } := by
  have hmet := h.met.scanned hleave.scanned.2 hleave.scanned.1
  cases hleave with
  | stay hfirst =>
    rw [if_neg (by omega), ← hframes, Function.update_eq_self]
    exact h
  | @pop needed s₁ _ e l hfirst hneeded hnext hcheck hpop =>
    rw [if_pos hfirst]
    have hentries := h.entries b.tid
    rw [hframes] at hentries
    rcases hentries.cases_top with ⟨n, ns, t, ts, hn, hterm, htop, hrest⟩
    rcases PassState.pop_cases hpop with ⟨n', ns', t', ts', hn', ht', hsets, -, hnb, hts⟩
    -- a check leaves the stacks alone
    have hstacks : s₁.nextBBUsed = s.nextBBUsed ∧ s₁.terminatorStack = s.terminatorStack := by
      rcases hcheck with ⟨-, rfl⟩ | ⟨-, hcheck⟩
      · exact ⟨rfl, rfl⟩
      · exact hcheck.stacks.2
    rw [hstacks.1] at hn' hnb
    rw [hstacks.2] at ht' hts
    cases hn.symm.trans hn'
    cases hterm.symm.trans ht'
    refine ⟨⟨hmet.pos, hmet.count, hmet.named, hmet.unneeded, hmet.found⟩, fun tid => ?_⟩
    rw [hnb, hts]
    show Entries _ r.insts tid (Function.update r.frames b.tid fs tid) _ _
    by_cases ht : tid = b.tid
    · subst ht
      rw [Function.update_self, Function.update_self, Function.update_self]
      exact hrest
    · rw [Function.update_of_ne ht, Function.update_of_ne ht, Function.update_of_ne ht]
      exact h.entries tid

theorem Followed.tick (h : Followed T s r) :
    Followed T { s with pos := s.pos + 1 } { r with pos := r.pos + 1 } :=
  ⟨⟨congrArg (· + 1) h.met.pos, h.met.count, h.met.named, h.met.unneeded, h.met.found⟩, h.entries⟩

/-- **A turn** keeps the invariant. -/
theorem Followed.step (h : Followed I.tables s r)
    (hfirst : b.skipped I.tables = some true → b.isFirst = 0)
    (hstep : extractStep I s b = some s') (hread : readStep I.tables r b = some r') :
    Followed I.tables s' r' := by
  rcases extractStep_cases hstep with ⟨htype, rfl⟩ | ⟨htype, s₁, henter, hrest⟩
  · rcases readStep_cases hread with ⟨-, rfl⟩ | ⟨hne, -⟩
    · exact h.tick
    · exact absurd htype hne
  rcases readStep_cases hread with ⟨he, -⟩ | ⟨-, bb, f, fs, hbb, hfits, hopens, -, rfl⟩
  · exact absurd he htype
  rcases hrest with ⟨hskip, rfl⟩ | ⟨-, s₂, used, s₃, s₄, hvisits, hmark, hleave, rfl⟩
  · rcases h.skip hfits hopens htype henter hskip with ⟨hmeets, -, hfollowed⟩
    rw [hmeets, if_neg (by rw [hfirst hskip]; omega)]
    exact hfollowed.tick
  · have hmarked := h.body hbb hfits hopens htype henter hvisits hmark
    have hleft := (hmarked.leaves inside_frames_self hleave).tick
    simp only [Reading.inside, Function.update_idem] at hleft
    exact hleft

/-- **A run** keeps the invariant when no call that is skipped is the first block of an
activation. -/
theorem followed_of_run {pre : List SmallestBlock}
    (hfirst : ∀ b ∈ pre, b.skipped I.tables = some true → b.isFirst = 0)
    (hrun : run (extractStep I) {} pre = some s) (hread : run (readStep I.tables) {} pre = some r) :
    Followed I.tables s r := by
  refine run_related (R := Followed I.tables) followed_init ?_ hrun hread
  intro pre' b post s₁ s₂ r₁ r₂ hpre _ _ h hstep hread
  refine h.step (hfirst b ?_) hstep hread
  rw [hpre]
  simp

end

end Slimmer
