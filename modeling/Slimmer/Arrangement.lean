import Slimmer.Reading
import Slimmer.Naming
import Mathlib.Data.List.Pairwise

/-!
# Where the executed instructions of a reading lie

An open frame is at index `start` of its basic block: exactly the instructions from there on have
been met for its execution, apart from the calls that are skipped (`SkippedIn`). The instances of an
activation are those of one execution after the other, and the instances of an execution are in the
order of the basic block.

`Reading.inside` is the reading within a turn, with the frame of the block on top.
-/

namespace Slimmer

/-- The instruction is that of a call that is skipped. -/
def SkippedIn (T : Tables) (trace : List SmallestBlock) (id : Nat) : Prop :=
  ∃ b ∈ trace, b.kind T = .skipped ∧ id ∈ b.executed T

/-- The reading with this frame on top of the stack of the thread. -/
def Reading.inside (r : Reading) (tid : Nat) (f : Frame) (fs : List Frame) : Reading :=
  { r with frames := Function.update r.frames tid (f :: fs) }

/-- How two instances of a thread are ordered; `i` has been met after `j`. -/
def MetAfter (T : Tables) (i j : Instance) : Prop :=
  i.inst ≠ j.inst ∧ (i.inst.tid = j.inst.tid →
    (i.act = j.act → j.exec ≤ i.exec) ∧
    (i.exec = j.exec → ∃ bb ∈ T.bb2Ins, [i.inst.id, j.inst.id].Sublist bb))

/-- What the open frame `f` of a thread says about the instances. -/
structure FrameHolds (T : Tables) (trace : List SmallestBlock) (r : Reading) (tid : Nat)
    (f : Frame) (bb : List Nat) : Prop where
  covered : ∀ id ∈ bb.drop f.start, SkippedIn T trace id ∨
    ∃ i ∈ r.insts, i.inst.tid = tid ∧ i.inst.id = id ∧ i.exec = f.exec
  within : ∀ i ∈ r.insts, i.inst.tid = tid → i.exec = f.exec →
    i.inst.id ∈ bb.drop f.start ∧ i.act = f.act
  latest : ∀ i ∈ r.insts, i.inst.tid = tid → i.act = f.act → i.exec ≤ f.exec

structure Reading.Arranged (T : Tables) (trace : List SmallestBlock) (r : Reading) : Prop where
  named : r.Named
  origin : ∀ i ∈ r.insts, ∃ b ∈ trace, i.inst.id ∈ b.named T
  frames : ∀ tid, ∀ f ∈ r.frames tid, ∀ bb, T.bb2Ins[f.bbID]? = some bb →
    FrameHolds T trace r tid f bb
  pairs : r.insts.Pairwise (MetAfter T)

section

variable {T : Tables} {trace : List SmallestBlock} {r r' : Reading} {b : SmallestBlock}
  {bb : List Nat} {f : Frame} {fs : List Frame} {tid : Nat}

@[simp] theorem inside_insts : (r.inside tid f fs).insts = r.insts := rfl

@[simp] theorem inside_frames_self : (r.inside tid f fs).frames tid = f :: fs :=
  Function.update_self ..

theorem inside_frames_of_ne {tid' : Nat} (h : tid' ≠ tid) :
    (r.inside tid f fs).frames tid' = r.frames tid' := Function.update_of_ne h ..

theorem top_mem_inside : f ∈ (r.inside tid f fs).frames tid := by
  rw [inside_frames_self]
  exact List.mem_cons_self

theorem mem_inside {g : Frame} (hg : g ∈ fs) : g ∈ (r.inside tid f fs).frames tid := by
  rw [inside_frames_self]
  exact List.mem_cons_of_mem _ hg

/-- What stands in front has been met later. -/
theorem Reading.Arranged.metAfter (h : r.Arranged T trace) {before after : List Instance}
    (hsplit : r.insts = before ++ after) {i j : Instance} (hi : i ∈ before) (hj : j ∈ after) :
    MetAfter T i j := by
  have hpairs := h.pairs
  rw [hsplit] at hpairs
  exact (List.pairwise_append.mp hpairs).2.2 i hi j hj

/-- A dynamic instruction has one instance. -/
theorem Reading.Arranged.eq_of_inst (h : r.Arranged T trace) {i j : Instance} (hi : i ∈ r.insts)
    (hj : j ∈ r.insts) (hinst : i.inst = j.inst) : i = j := by
  by_contra hne
  have hsymm : Std.Symm (fun i j : Instance => i.inst ≠ j.inst) := ⟨fun _ _ h => h.symm⟩
  exact (h.pairs.imp fun h => h.1).forall hi hj hne hinst

/-- What a block names is not skipped elsewhere. -/
theorem KindsAgree.not_skipped (hkinds : KindsAgree T trace) (hb : b ∈ trace) {id : Nat}
    (hid : id ∈ b.named T) : ¬ SkippedIn T trace id := by
  intro hskip
  rcases hskip with ⟨b', hb', hkind, hid'⟩
  have hexec : id ∈ b.executed T ∧ b.kind T ≠ .skipped := by
    unfold SmallestBlock.named at hid
    unfold SmallestBlock.executed
    cases hk : b.kind T <;> rw [hk] at hid
    · exact ⟨hid, by decide⟩
    · exact ⟨hid, by decide⟩
    · cases hid
    · cases hid
  exact hexec.2 ((hkinds b' hb' b hb id hid' hexec.1).symm.trans hkind)

/-- A skipped instruction has no instance. -/
theorem Reading.Arranged.not_skipped (h : r.Arranged T trace) (hkinds : KindsAgree T trace)
    {i : Instance} (hi : i ∈ r.insts) : ¬ SkippedIn T trace i.inst.id := by
  rcases h.origin i hi with ⟨b, hb, hid⟩
  exact hkinds.not_skipped hb hid

/-! ## One execution is met -/

/-- Other frames are not concerned when an execution of `f` is met. -/
theorem FrameHolds.meet {g : Frame} {tid' id : Nat} (h : FrameHolds T trace r tid' g bb)
    (hne : tid' = tid → g.exec ≠ f.exec ∧ g.act ≠ f.act) :
    FrameHolds T trace (r.meet tid f id) tid' g bb := by
  refine ⟨fun id hid => ?_, fun i hi htid hexec => ?_, fun i hi htid hact => ?_⟩
  · rcases h.covered id hid with hskip | ⟨i, hi, hcase⟩
    · exact Or.inl hskip
    · exact Or.inr ⟨i, List.mem_cons_of_mem _ hi, hcase⟩
  · rcases List.mem_cons.mp hi with rfl | hi
    · exact absurd hexec.symm (hne htid.symm).1
    · exact h.within i hi htid hexec
  · rcases List.mem_cons.mp hi with rfl | hi
    · exact absurd hact.symm (hne htid.symm).2
    · exact h.latest i hi htid hact

/-- **Meeting one execution**, the one before index `start`. -/
theorem Reading.Arranged.meet {start id : Nat} (hbb : T.bb2Ins[f.bbID]? = some bb)
    (hid : bb[start]? = some id) (horigin : ∃ b ∈ trace, id ∈ b.named T)
    (hne : ∀ g ∈ fs, g.exec ≠ f.exec ∧ g.act ≠ f.act)
    (h : (r.inside tid { f with start := start + 1 } fs).Arranged T trace) :
    ((r.meet tid f id).inside tid { f with start := start } fs).Arranged T trace := by
  have hdrop : bb.drop start = id :: bb.drop (start + 1) := by
    rcases List.getElem?_eq_some_iff.mp hid with ⟨hlt, hget⟩
    rw [List.drop_eq_getElem_cons hlt, hget]
  have htop : FrameHolds T trace r tid { f with start := start + 1 } bb := by
    have hf := h.frames tid { f with start := start + 1 } top_mem_inside bb hbb
    exact ⟨hf.covered, hf.within, hf.latest⟩
  refine ⟨Reading.Named.meet h.named id, ?_, ?_, ?_⟩
  · intro i hi
    rcases List.mem_cons.mp hi with rfl | hi
    · exact horigin
    · exact h.origin i hi
  · intro tid' g hg bb' hbb'
    have hmeet : FrameHolds T trace (r.meet tid f id) tid' g bb' := by
      by_cases ht : tid' = tid
      · subst ht
        rw [inside_frames_self] at hg
        rcases List.mem_cons.mp hg with rfl | hg
        · cases hbb.symm.trans hbb'
          refine ⟨?_, ?_, ?_⟩
          · show ∀ id' ∈ bb.drop start, _
            rw [hdrop]
            intro id' hid'
            rcases List.mem_cons.mp hid' with rfl | hid'
            · exact Or.inr ⟨_, List.mem_cons_self, rfl, rfl, rfl⟩
            · rcases htop.covered id' hid' with hskip | ⟨i, hi, hcase⟩
              · exact Or.inl hskip
              · exact Or.inr ⟨i, List.mem_cons_of_mem _ hi, hcase⟩
          · show ∀ i ∈ (r.meet tid' f id).insts, _ → _ → i.inst.id ∈ bb.drop start ∧ i.act = f.act
            rw [hdrop]
            intro i hi htid hexec
            rcases List.mem_cons.mp hi with rfl | hi
            · exact ⟨List.mem_cons_self, rfl⟩
            · rcases htop.within i hi htid hexec with ⟨hmem, hact⟩
              exact ⟨List.mem_cons_of_mem _ hmem, hact⟩
          · intro i hi htid hact
            rcases List.mem_cons.mp hi with rfl | hi
            · exact le_refl _
            · exact htop.latest i hi htid hact
        · have hold := h.frames tid' g (mem_inside hg) bb' hbb'
          exact FrameHolds.meet ⟨hold.covered, hold.within, hold.latest⟩ fun _ => hne g hg
      · rw [inside_frames_of_ne ht] at hg
        have hold := h.frames tid' g (by rw [inside_frames_of_ne ht]; exact hg) bb' hbb'
        exact FrameHolds.meet ⟨hold.covered, hold.within, hold.latest⟩ fun he => absurd he ht
    exact ⟨hmeet.covered, hmeet.within, hmeet.latest⟩
  · refine List.pairwise_cons.mpr ⟨fun j hj => ⟨?_, fun htid => ⟨fun hact => ?_, fun hexec => ?_⟩⟩,
      h.pairs⟩
    · exact (Reading.Named.fresh h.named hj tid id).symm
    · exact htop.latest j hj htid.symm hact.symm
    · have hmem := (htop.within j hj htid.symm hexec.symm).1
      refine ⟨bb, List.mem_of_getElem? hbb, ?_⟩
      have hsub : [id, j.inst.id].Sublist (bb.drop start) := by
        rw [hdrop]
        exact (List.singleton_sublist.mpr hmem).cons_cons id
      exact hsub.trans (List.drop_sublist _ _)

/-- The executions of a segment of the basic block are met from the last one to the first one. -/
theorem Reading.Arranged.segment {start : Nat} (seg : List Nat) (hbb : T.bb2Ins[f.bbID]? = some bb)
    (hseg : seg <+: bb.drop start) (horigin : ∀ id ∈ seg, ∃ b ∈ trace, id ∈ b.named T)
    (hne : ∀ g ∈ fs, g.exec ≠ f.exec ∧ g.act ≠ f.act)
    (h : (r.inside tid { f with start := start + seg.length } fs).Arranged T trace) :
    ((seg.reverse.foldl (Reading.meet tid f) r).inside tid { f with start := start } fs).Arranged T
      trace := by
  induction seg using List.reverseRecOn generalizing r with
  | nil => exact h
  | append_singleton seg id ih =>
    rw [List.reverse_append, List.reverse_singleton, List.singleton_append, List.foldl_cons]
    have hid : bb[start + seg.length]? = some id := by
      rcases hseg with ⟨rest, hrest⟩
      rw [← List.getElem?_drop, ← hrest, List.append_assoc, List.getElem?_append_right (le_refl _)]
      simp
    apply ih
    · exact (List.prefix_append _ _).trans hseg
    · exact fun id hid => horigin id (List.mem_append_left _ hid)
    · rw [List.length_append, List.length_singleton, ← Nat.add_assoc] at h
      exact h.meet hbb hid (horigin id (by simp)) hne

/-! ## A turn -/

/-- A block executes a segment of its basic block; a call that is skipped is not met. -/
theorem named_segment (hbb : T.bb2Ins[b.bbID]? = some bb) (hfits : b.Fits bb)
    (htype : b.type ≠ .declareBlock) :
    b.named T = (bb.take b.stop).drop b.start ∨
      (b.named T = [] ∧ b.kind T = .skipped ∧ b.executed T = (bb.take b.stop).drop b.start) := by
  have hins : b.type ≠ .normalBlock → [b.insID T] = (bb.take b.stop).drop b.start := by
    intro hne
    rcases hfits with ⟨hlt, hle, hone⟩
    have hget : bb[b.start]? = some bb[b.start] := List.getElem?_eq_getElem (by omega)
    have hid : b.insID T = bb[b.start] := by
      rw [SmallestBlock.insID, SmallestBlock.insID?, hbb]
      simp [hget]
    rw [(hone hne).1, List.take_add_one, hget, hid, List.drop_append_of_le_length (by simp; omega)]
    simp
  by_cases hnormal : b.type = .normalBlock
  · left
    simp [SmallestBlock.named, SmallestBlock.kind, hnormal, SmallestBlock.insIDs,
      List.getD_eq_getElem?_getD, hbb]
  · rw [← hins hnormal]
    cases hk : b.kind T with
    | normal =>
      unfold SmallestBlock.kind at hk
      split at hk
      · exact absurd ‹_› hnormal
      · cases hk
      · split_ifs at hk
    | counted => exact Or.inl (by rw [SmallestBlock.named, hk])
    | skipped => exact Or.inr ⟨by rw [SmallestBlock.named, hk], rfl, by rw [SmallestBlock.executed, hk]⟩
    | declare =>
      unfold SmallestBlock.kind at hk
      split at hk
      · cases hk
      · exact absurd ‹_› htype
      · split_ifs at hk

/-- The frame of a block, before its executions are met. -/
theorem Reading.Arranged.opens (h : r.Arranged T trace) (hordered : r.Ordered T)
    (hbb : T.bb2Ins[b.bbID]? = some bb) (hopens : Opens T r bb b f fs) :
    (r.inside b.tid { f with start := b.stop } fs).Arranged T trace := by
  have hmem : ∀ g ∈ fs, g ∈ r.frames b.tid := (hordered.opens hopens).2.2.2.1
  have htop : ∀ bb', T.bb2Ins[f.bbID]? = some bb' →
      FrameHolds T trace r b.tid { f with start := b.stop } bb' := by
    intro bb' hbb'
    rw [hopens.bbID.1] at hbb'
    cases hbb.symm.trans hbb'
    -- an execution that has just begun
    have hnew : ∀ act, b.stop = bb.length → FrameHolds T trace r b.tid ⟨act, r.pos, b.bbID, b.stop⟩ bb := by
      intro act hstop
      refine ⟨?_, fun i hi _ hexec => ?_, fun i hi _ _ => (hordered.insts i hi).2.le⟩
      · show ∀ id ∈ bb.drop b.stop, _
        rw [hstop, List.drop_length]
        exact fun _ hid => nomatch hid
      · exact absurd hexec (hordered.insts i hi).2.ne
    cases hopens with
    | activation _ hstop => exact hnew _ hstop
    | execution _ _ _ hstop => exact hnew _ hstop
    | @part f₀ fs hlast hframes _ hbbID hstop =>
      have hf := h.frames b.tid f₀ (by rw [hframes]; exact List.mem_cons_self) bb
        (by rw [← hbbID]; exact hbb)
      rw [hstop]
      exact hf
  refine ⟨h.named, h.origin, fun tid g hg bb' hbb' => ?_, h.pairs⟩
  have hold : FrameHolds T trace r tid g bb' := by
    by_cases ht : tid = b.tid
    · subst ht
      rw [inside_frames_self] at hg
      rcases List.mem_cons.mp hg with rfl | hg
      · exact htop bb' hbb'
      · exact h.frames b.tid g (hmem g hg) bb' hbb'
    · rw [inside_frames_of_ne ht] at hg
      exact h.frames tid g hg bb' hbb'
  exact ⟨hold.covered, hold.within, hold.latest⟩

/-- The frames below that of the block. -/
theorem Reading.Ordered.opens_ne (h : r.Ordered T) (hopens : Opens T r bb b f fs) :
    ∀ g ∈ fs, g.exec ≠ f.exec ∧ g.act ≠ f.act := by
  intro g hg
  rcases h.opens hopens with ⟨hact, -, hbelow, hmem, -⟩
  have hlt := hbelow g hg
  have hle := (h.frames b.tid g (hmem g hg)).1
  constructor <;> omega

/-- When the executions of the block have been met. -/
theorem Reading.Arranged.meets (h : r.Arranged T trace) (hordered : r.Ordered T) (hb : b ∈ trace)
    (htype : b.type ≠ .declareBlock) (hbb : T.bb2Ins[b.bbID]? = some bb) (hfits : b.Fits bb)
    (hopens : Opens T r bb b f fs) : ((r.meets T f b).inside b.tid f fs).Arranged T trace := by
  have hlen : b.start + ((bb.take b.stop).drop b.start).length = b.stop := by
    rw [List.length_drop, List.length_take]
    have := hfits.1
    have := hfits.2.1
    omega
  have hprefix : (bb.take b.stop).drop b.start <+: bb.drop b.start := by
    rw [List.drop_take]
    exact List.take_prefix _ _
  have hopened := h.opens hordered hbb hopens
  have hne : ∀ g ∈ fs, g.exec ≠ f.exec ∧ g.act ≠ f.act := hordered.opens_ne hopens
  have hf : { f with start := b.start } = f := by
    rw [← hopens.bbID.2]
  rcases named_segment hbb hfits htype with hnamed | ⟨hnamed, hkind, hexecuted⟩
  · have hseg := hopened
    rw [← hlen] at hseg
    have hmet := hseg.segment ((bb.take b.stop).drop b.start) (by rw [hopens.bbID.1]; exact hbb)
      hprefix (fun id hid => ⟨b, hb, by rw [hnamed]; exact hid⟩) hne
    rw [hf, ← hnamed] at hmet
    exact hmet
  · have hmeets : r.meets T f b = r := by
      rw [Reading.meets, hnamed]
      rfl
    rw [hmeets]
    refine ⟨hopened.named, hopened.origin, fun tid g hg bb' hbb' => ?_, hopened.pairs⟩
    by_cases ht : tid = b.tid
    · subst ht
      rw [inside_frames_self] at hg
      rcases List.mem_cons.mp hg with rfl | hg
      · have hbb'' := hbb'
        rw [hopens.bbID.1] at hbb''
        cases hbb.symm.trans hbb''
        have hold := hopened.frames b.tid { g with start := b.stop } top_mem_inside bb hbb'
        have hdrop : bb.drop b.start = (bb.take b.stop).drop b.start ++ bb.drop b.stop := by
          rw [← List.drop_append_of_le_length (by rw [List.length_take]; have := hfits.1
                                                  have := hfits.2.1; omega), List.take_append_drop]
        refine ⟨?_, fun i hi htid hexec => ?_, hold.latest⟩
        · rw [hopens.bbID.2, hdrop]
          intro id hid
          rcases List.mem_append.mp hid with hid | hid
          · exact Or.inl ⟨b, hb, hkind, by rw [hexecuted]; exact hid⟩
          · exact hold.covered id hid
        · rw [hopens.bbID.2, hdrop]
          rcases hold.within i hi htid hexec with ⟨hmem, hact⟩
          exact ⟨List.mem_append_right _ hmem, hact⟩
      · have hold := hopened.frames b.tid g (mem_inside hg) bb' hbb'
        exact ⟨hold.covered, hold.within, hold.latest⟩
    · rw [inside_frames_of_ne ht] at hg
      have hold := hopened.frames tid g (by rw [inside_frames_of_ne ht]; exact hg) bb' hbb'
      exact ⟨hold.covered, hold.within, hold.latest⟩

theorem Reading.Arranged.step (h : r.Arranged T trace) (hordered : r.Ordered T) (hb : b ∈ trace)
    (hstep : readStep T r b = some r') : r'.Arranged T trace := by
  rcases readStep_cases hstep with ⟨-, rfl⟩ | ⟨htype, bb, f, fs, hbb, hfits, hopens, -, rfl⟩
  · refine ⟨h.named, h.origin, fun tid f hf bb hbb => ?_, h.pairs⟩
    have hold := h.frames tid f hf bb hbb
    exact ⟨hold.covered, hold.within, hold.latest⟩
  have hmet := h.meets hordered hb htype hbb hfits hopens
  refine ⟨hmet.named, hmet.origin, fun tid g hg bb' hbb' => ?_, hmet.pairs⟩
  replace hg : g ∈ Function.update (r.meets T f b).frames b.tid
    (if 0 < b.isFirst then fs else f :: fs) tid := hg
  have hold : FrameHolds T trace ((r.meets T f b).inside b.tid f fs) tid g bb' := by
    apply hmet.frames tid g _ bb' hbb'
    by_cases ht : tid = b.tid
    · subst ht
      rw [Function.update_self] at hg
      rw [inside_frames_self]
      split_ifs at hg
      · exact List.mem_cons_of_mem _ hg
      · exact hg
    · rw [Function.update_of_ne ht] at hg
      rw [inside_frames_of_ne ht]
      exact hg
  exact ⟨hold.covered, hold.within, hold.latest⟩

theorem arranged_of_run {pre : List SmallestBlock} (hpre : ∀ b ∈ pre, b ∈ trace)
    (h : run (readStep T) {} pre = some r) : r.Arranged T trace := by
  induction pre using List.reverseRecOn generalizing r with
  | nil =>
    cases h
    exact ⟨fun _ hi => (nomatch hi), fun _ hi => (nomatch hi), fun _ _ hf => (nomatch hf), .nil⟩
  | append_singleton pre b ih =>
    rcases run_concat_eq_some.mp h with ⟨r₁, h₁, hstep⟩
    have hpre₁ : ∀ b ∈ pre, b ∈ trace := fun b hb => hpre b (List.mem_append_left _ hb)
    exact (ih hpre₁ h₁).step (ordered_of_run h₁) (hpre b (by simp)) hstep

theorem foldl_meet_suffix (ids : List Nat) (r : Reading) :
    r.insts <:+ (ids.foldl (Reading.meet tid f) r).insts := by
  induction ids generalizing r with
  | nil => exact List.suffix_refl _
  | cons id ids ih => exact (List.suffix_cons _ _).trans (ih (r.meet tid f id))

/-- What has been met stays. -/
theorem insts_suffix {post : List SmallestBlock} (h : run (readStep T) r post = some r') :
    r.insts <:+ r'.insts := by
  refine run_invariant (P := fun u => r.insts <:+ u.insts) ?_ (List.suffix_refl _) h
  intro u b u' hu hstep
  rcases readStep_cases hstep with ⟨-, rfl⟩ | ⟨-, bb, f, fs, -, -, -, -, rfl⟩
  · exact hu
  · exact hu.trans (foldl_meet_suffix _ _)

end

end Slimmer
