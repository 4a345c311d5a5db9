import Slimmer.OperandClosed

/-!
# The names `OneBlock` computes

`OneBlock` goes through an execution of a basic block once more after the main loop has passed it.
It takes the names from the differences of the counters: `cnt_diff` is what the counter of the
terminator has advanced by, and the counter of every other instruction is assumed to have advanced
as far.

A nested activation executes a basic block as a whole or not at all, so two instructions of one
basic block are executed equally often before the earlier one (`Reading.Leveled`). Between the two
this fails: a call in the middle of the basic block may execute its terminator again.

**Theorem (`oneBlock_rescans_iff`).** In every complete trace without a skipped call at the
beginning of an activation, the name `OneBlock` computes is that of the execution just passed if and
only if the terminator is not executed in between (`Reading.Reentered`).
-/

namespace Slimmer

/-- How often the instances execute the instruction. -/
def executions (tid id : Nat) (l : List Instance) : Nat :=
  l.countP fun i => decide (i.inst.key = (tid, id))

/-- The execution of the frame has come past the instruction. -/
def Frame.hasMet (T : Tables) (id : Nat) (f : Frame) : Bool :=
  decide (id ∈ ((T.bb2Ins[f.bbID]?).getD []).drop f.start)

/-- Two instructions of a basic block have been met equally often, but for the frames `above`. -/
def Level (T : Tables) (tid : Nat) (above : List Frame) (l : List Instance) (x y : Nat) : Prop :=
  executions tid x l + above.countP (Frame.hasMet T y) =
    executions tid y l + above.countP (Frame.hasMet T x)

/-- Since an instance of an open frame has been met, its instruction and the ones behind it have been
met equally often. -/
def Reading.Leveled (T : Tables) (trace : List SmallestBlock) (r : Reading) : Prop :=
  ∀ tid above f fs bb, r.frames tid = above ++ f :: fs → T.bb2Ins[f.bbID]? = some bb →
    ∀ l i l', r.insts = l ++ i :: l' → i.inst.tid = tid → i.exec = f.exec →
      ∀ y, [i.inst.id, y].Sublist bb → ¬ SkippedIn T trace y → Level T tid above l i.inst.id y

section

variable {I : PassInput} {T : Tables} {trace : List SmallestBlock} {s s' : PassState}
  {r r' : Reading} {b : SmallestBlock} {bb : List Nat} {f g : Frame} {fs above : List Frame}
  {l : List Instance} {tid x y : Nat}

/-! ## Counting -/

@[simp] theorem executions_nil (tid id : Nat) : executions tid id [] = 0 := rfl

@[simp] theorem executions_cons (tid id : Nat) (i : Instance) (l : List Instance) :
    executions tid id (i :: l) =
      executions tid id l + if i.inst.key = (tid, id) then 1 else 0 := by
  simp [executions, List.countP_cons]

theorem executions_append (tid id : Nat) (l l' : List Instance) :
    executions tid id (l ++ l') = executions tid id l + executions tid id l' :=
  List.countP_append ..

theorem executions_eq_zero {id : Nat} :
    executions tid id l = 0 ↔ ∀ i ∈ l, i.inst.key ≠ (tid, id) := by
  simp [executions, List.countP_eq_zero]

/-- The counters are the numbers of instances, and an instance is named by those behind it. -/
structure Reading.Counted (r : Reading) : Prop where
  count : ∀ tid id, r.count (tid, id) = executions tid id r.insts
  cnt : ∀ l i l', r.insts = l ++ i :: l' → i.inst.cnt = -executions i.inst.tid i.inst.id l'

theorem Reading.Counted.meet (h : r.Counted) (id : Nat) : (r.meet tid f id).Counted := by
  constructor
  · intro tid' id'
    show Function.update r.count (tid, id) _ (tid', id') = executions tid' id' (_ :: r.insts)
    rw [executions_cons, ← h.count]
    show _ = r.count (tid', id') + if (tid, id) = (tid', id') then 1 else 0
    by_cases hkey : (tid', id') = (tid, id)
    · cases hkey
      rw [Function.update_self, if_pos rfl]
    · rw [Function.update_of_ne hkey, if_neg fun he => hkey he.symm, Nat.add_zero]
  · intro l i l' hinsts
    cases l with
    | nil =>
      cases List.cons.inj hinsts with
      | intro hi hl =>
        rw [← hi, ← hl]
        exact congrArg (fun n : Nat => -(n : Int)) (h.count tid id)
    | cons j l => exact h.cnt l i l' (List.cons.inj hinsts).2

theorem Reading.Counted.meets (h : r.Counted) : (r.meets T f b).Counted := by
  unfold Reading.meets
  generalize (b.named T).reverse = ids
  induction ids generalizing r with
  | nil => exact h
  | cons id ids ih => exact ih (h.meet id)

theorem counted_of_run {pre : List SmallestBlock} (h : run (readStep T) {} pre = some r) :
    r.Counted := by
  refine run_invariant (P := Reading.Counted) ?_ ?_ h
  · intro r b r' hr hstep
    rcases readStep_cases hstep with ⟨-, rfl⟩ | ⟨-, bb, f, fs, -, -, -, -, rfl⟩
    · exact ⟨hr.count, hr.cnt⟩
    · exact ⟨hr.meets.count, hr.meets.cnt⟩
  · exact ⟨fun _ _ => rfl, fun l i l' hl => absurd hl (by simp)⟩

/-! ## Frames that make no difference -/

theorem Level.cons_iff (h : g.hasMet T x = g.hasMet T y) :
    Level T tid (g :: above) l x y ↔ Level T tid above l x y := by
  unfold Level
  rw [List.countP_cons, List.countP_cons, h]
  omega

/-- A frame that has not met anything. -/
theorem Frame.hasMet_fresh (hbb : T.bb2Ins[f.bbID]? = some bb) (hstart : f.start = bb.length) :
    f.hasMet T x = false := by
  rw [hasMet, hbb, Option.getD_some, hstart, List.drop_length]
  rfl

/-- A frame that has met all of its basic block: both instructions, or none. -/
theorem Frame.hasMet_whole (hnodup : T.bb2Ins.flatten.Nodup) (hmem : bb ∈ T.bb2Ins)
    (hsub : [x, y].Sublist bb) (hstart : g.start = 0) : g.hasMet T x = g.hasMet T y := by
  unfold hasMet
  rw [hstart, List.drop_zero]
  cases hbb : T.bb2Ins[g.bbID]? with
  | none => rfl
  | some bb' =>
    have hmem' : bb' ∈ T.bb2Ins := List.mem_of_getElem? hbb
    have hiff : x ∈ bb' ↔ y ∈ bb' := by
      constructor
      · intro hx
        rw [← bb_unique hnodup hmem hmem' (hsub.subset (by simp)) hx]
        exact hsub.subset (by simp)
      · intro hy
        rw [← bb_unique hnodup hmem hmem' (hsub.subset (by simp)) hy]
        exact hsub.subset (by simp)
    simp only [Option.getD_some, hiff]

/-- The frame meets the execution before index `start`. -/
theorem Frame.hasMet_meet {start id : Nat} (hbb : T.bb2Ins[f.bbID]? = some bb)
    (hid : bb[start]? = some id) :
    ({ f with start := start } : Frame).hasMet T x =
      (decide (x = id) || ({ f with start := start + 1 } : Frame).hasMet T x) := by
  rcases List.getElem?_eq_some_iff.mp hid with ⟨hlt, hget⟩
  unfold hasMet
  simp only [hbb, Option.getD_some]
  rw [List.drop_eq_getElem_cons hlt, hget]
  simp [Bool.decide_or]

/-! ## Meeting executions -/

/-- In the order of the basic block, what lies behind has been met before. -/
theorem mem_drop_of_pair {n : Nat} (hdistinct : bb.Nodup) (hsub : [x, y].Sublist bb)
    (hx : x ∈ bb.drop n) : y ∈ bb.drop n := by
  rw [← List.take_append_drop n bb] at hsub hdistinct
  rcases List.sublist_append_iff.mp hsub with ⟨l₁, l₂, heq, h₁, h₂⟩
  cases l₁ with
  | nil =>
    rw [List.nil_append] at heq
    rw [← heq] at h₂
    exact h₂.subset (by simp)
  | cons a l₁ =>
    have ha : x = a := (List.cons.inj heq).1
    have hmem : x ∈ bb.take n := h₁.subset (by simp [ha])
    exact absurd rfl ((List.nodup_append.mp hdistinct).2.2 x hmem x hx)

theorem Level.cons_of_ne {j : Instance} (hx : j.inst.key ≠ (tid, x)) (hy : j.inst.key ≠ (tid, y))
    (h : Level T tid above l x y) : Level T tid above (j :: l) x y := by
  unfold Level at h ⊢
  rw [executions_cons, executions_cons, if_neg hx, if_neg hy]
  exact h

/-- The instance is counted when the frame on top has met it. -/
theorem Level.meet {j : Instance} {start id : Nat} (hbb : T.bb2Ins[f.bbID]? = some bb)
    (hid : bb[start]? = some id) (hnot : id ∉ bb.drop (start + 1)) (hj : j.inst.key = (tid, id))
    (h : Level T tid ({ f with start := start + 1 } :: above) l x y) :
    Level T tid ({ f with start := start } :: above) (j :: l) x y := by
  have hfalse : ({ f with start := start + 1 } : Frame).hasMet T id = false := by
    unfold Frame.hasMet
    simp only [hbb, Option.getD_some]
    exact decide_eq_false hnot
  have hcount : ∀ z, above.countP (Frame.hasMet T z) +
        (if ({ f with start := start } : Frame).hasMet T z = true then 1 else 0) =
      above.countP (Frame.hasMet T z) +
        (if ({ f with start := start + 1 } : Frame).hasMet T z = true then 1 else 0) +
        (if j.inst.key = (tid, z) then 1 else 0) := by
    intro z
    rw [Frame.hasMet_meet hbb hid, hj]
    by_cases hz : z = id
    · rw [hz, hfalse]
      simp
    · have hkey : (tid, id) ≠ (tid, z) := fun he => hz (Prod.mk.inj he).2.symm
      rw [decide_eq_false hz, Bool.false_or, if_neg hkey]
      exact (Nat.add_zero _).symm
  have hx := hcount x
  have hy := hcount y
  unfold Level at h ⊢
  rw [List.countP_cons, List.countP_cons] at h ⊢
  rw [executions_cons, executions_cons]
  omega

/-- **Meeting one execution**, the one before index `start`. -/
theorem Reading.Leveled.meet {start id : Nat} (hnodup : T.bb2Ins.flatten.Nodup)
    (hbb : T.bb2Ins[f.bbID]? = some bb) (hid : bb[start]? = some id)
    (hne : ∀ g ∈ fs, g.exec ≠ f.exec)
    (harranged : (r.inside tid { f with start := start + 1 } fs).Arranged T trace)
    (h : (r.inside tid { f with start := start + 1 } fs).Leveled T trace) :
    ((r.meet tid f id).inside tid { f with start := start } fs).Leveled T trace := by
  have hdistinct : bb.Nodup := (List.nodup_flatten.mp hnodup).1 bb (List.mem_of_getElem? hbb)
  have hnot : id ∉ bb.drop (start + 1) := by
    rcases List.getElem?_eq_some_iff.mp hid with ⟨hlt, hget⟩
    have hdrop := hdistinct.sublist (List.drop_sublist start bb)
    rw [List.drop_eq_getElem_cons hlt, hget] at hdrop
    exact (List.nodup_cons.mp hdrop).1
  intro tid' above g gs bb' hframes hbb' l i l' hinsts htid hexec y hsub hskip
  cases l with
  | nil =>
    -- the instance that is met belongs to the frame on top
    have hi : (⟨⟨tid, id, -r.count (tid, id)⟩, f.act, f.exec⟩ : Instance) = i :=
      (List.cons.inj hinsts).1
    rw [← hi] at htid hexec
    replace htid : tid = tid' := htid
    subst htid
    rw [inside_frames_self] at hframes
    cases above with
    | nil => rfl
    | cons g₀ above =>
      have hg : g ∈ fs := by
        rw [(List.cons.inj hframes).2]
        simp
      exact absurd hexec.symm (hne g hg)
  | cons j l =>
    rcases List.cons.inj hinsts with ⟨rfl, hold⟩
    replace hold : r.insts = l ++ i :: l' := hold
    by_cases ht : tid' = tid
    swap
    · have hkey : ∀ z, (⟨tid, id, -r.count (tid, id)⟩ : DynamicInst).key ≠ (tid', z) :=
        fun z he => ht (Prod.mk.inj he).1.symm
      apply Level.cons_of_ne (hkey _) (hkey _)
      rw [inside_frames_of_ne ht] at hframes
      exact h tid' above g gs bb' (by rw [inside_frames_of_ne ht]; exact hframes) hbb' l i l' hold
        htid hexec y hsub hskip
    subst ht
    rw [inside_frames_self] at hframes
    cases above with
    | nil =>
      rcases List.cons.inj hframes with ⟨rfl, rfl⟩
      cases hbb.symm.trans hbb'
      have hmem : i ∈ r.insts := by
        rw [hold]
        simp
      have hdrop : i.inst.id ∈ bb.drop (start + 1) :=
        ((harranged.frames tid' _ top_mem_inside bb hbb).within i hmem htid hexec).1
      have hkey : ∀ z ∈ bb.drop (start + 1),
          (⟨tid', id, -r.count (tid', id)⟩ : DynamicInst).key ≠ (tid', z) := by
        intro z hz he
        rw [← (Prod.mk.inj he).2] at hz
        exact hnot hz
      apply Level.cons_of_ne (hkey _ hdrop) (hkey y (mem_drop_of_pair hdistinct hsub hdrop))
      exact h tid' [] { f with start := start + 1 } fs bb inside_frames_self hbb l i l' hold htid
        hexec y hsub hskip
    | cons g₀ above =>
      rcases List.cons.inj hframes with ⟨rfl, rfl⟩
      apply Level.meet hbb hid hnot rfl
      exact h tid' ({ f with start := start + 1 } :: above) g gs bb' inside_frames_self hbb' l i l'
        hold htid hexec y hsub hskip

/-- The executions of a segment of the basic block are met from the last one to the first one. -/
theorem Reading.Leveled.segment {start : Nat} (seg : List Nat) (hnodup : T.bb2Ins.flatten.Nodup)
    (hbb : T.bb2Ins[f.bbID]? = some bb) (hseg : seg <+: bb.drop start)
    (horigin : ∀ id ∈ seg, ∃ b ∈ trace, id ∈ b.named T)
    (hne : ∀ g ∈ fs, g.exec ≠ f.exec ∧ g.act ≠ f.act)
    (harranged : (r.inside tid { f with start := start + seg.length } fs).Arranged T trace)
    (h : (r.inside tid { f with start := start + seg.length } fs).Leveled T trace) :
    ((seg.reverse.foldl (Reading.meet tid f) r).inside tid { f with start := start } fs).Leveled T
      trace := by
  induction seg using List.reverseRecOn generalizing r with
  | nil => exact h
  | append_singleton seg id ih =>
    rw [List.reverse_append, List.reverse_singleton, List.singleton_append, List.foldl_cons]
    have hid : bb[start + seg.length]? = some id := by
      rcases hseg with ⟨rest, hrest⟩
      rw [← List.getElem?_drop, ← hrest, List.append_assoc, List.getElem?_append_right (le_refl _)]
      simp
    rw [List.length_append, List.length_singleton, ← Nat.add_assoc] at harranged h
    apply ih
    · exact (List.prefix_append _ _).trans hseg
    · exact fun id hid => horigin id (List.mem_append_left _ hid)
    · exact harranged.meet hbb hid (horigin id (by simp)) hne
    · exact h.meet hnodup hbb hid (fun g hg => (hne g hg).1) harranged

/-! ## A turn -/

/-- The frame of a block, before its executions are met. -/
theorem Reading.Leveled.opens (h : r.Leveled T trace) (hnodup : T.bb2Ins.flatten.Nodup)
    (hordered : r.Ordered T) (hbb : T.bb2Ins[b.bbID]? = some bb) (hopens : Opens T r bb b f fs) :
    (r.inside b.tid { f with start := b.stop } fs).Leveled T trace := by
  intro tid above g gs bb' hframes hbb' l i l' hinsts htid hexec y hsub hskip
  by_cases ht : tid = b.tid
  swap
  · rw [inside_frames_of_ne ht] at hframes
    exact h tid above g gs bb' hframes hbb' l i l' hinsts htid hexec y hsub hskip
  subst ht
  rw [inside_frames_self] at hframes
  have hmem : i ∈ r.insts := by
    rw [show r.insts = l ++ i :: l' from hinsts]
    simp
  have hpast := (hordered.insts i hmem).2
  have hfresh : ∀ {act z : Nat}, b.stop = bb.length →
      (⟨act, r.pos, b.bbID, b.stop⟩ : Frame).hasMet T z = false :=
    fun hstop => Frame.hasMet_fresh (f := ⟨_, r.pos, b.bbID, b.stop⟩) hbb hstop
  cases hopens with
  | activation _ hstop =>
    cases above with
    | nil =>
      rw [← (List.cons.inj hframes).1] at hexec
      exact absurd hexec hpast.ne
    | cons g₀ above =>
      rcases List.cons.inj hframes with ⟨rfl, hfs⟩
      apply (Level.cons_iff ((hfresh hstop).trans (hfresh hstop).symm)).mpr
      exact h b.tid above g gs bb' hfs hbb' l i l' hinsts htid hexec y hsub hskip
  | @execution f₀ fs _ hframes₀ hstart hstop =>
    cases above with
    | nil =>
      rw [← (List.cons.inj hframes).1] at hexec
      exact absurd hexec hpast.ne
    | cons g₀ above =>
      rcases List.cons.inj hframes with ⟨rfl, hfs⟩
      apply (Level.cons_iff ((hfresh hstop).trans (hfresh hstop).symm)).mpr
      -- the execution before has been met as a whole
      have hwhole := Frame.hasMet_whole (g := f₀) hnodup (List.mem_of_getElem? hbb') hsub hstart
      apply (Level.cons_iff hwhole).mp
      rw [hfs] at hframes₀
      exact h b.tid (f₀ :: above) g gs bb' hframes₀ hbb' l i l' hinsts htid hexec y hsub hskip
  | @part f₀ fs _ hframes₀ _ _ hstop =>
    rw [hstop] at hframes
    exact h b.tid above g gs bb' (hframes₀.trans hframes) hbb' l i l' hinsts htid hexec y hsub hskip

/-- A call that is skipped is not met. -/
theorem Reading.Leveled.skip {stop : Nat} (hnot : ∀ id, ¬ SkippedIn T trace id →
      ({ f with start := stop } : Frame).hasMet T id = f.hasMet T id)
    (hkinds : KindsAgree T trace) (harranged : r.Arranged T trace)
    (h : (r.inside tid { f with start := stop } fs).Leveled T trace) :
    (r.inside tid f fs).Leveled T trace := by
  intro tid' above g gs bb' hframes hbb' l i l' hinsts htid hexec y hsub hskip
  by_cases ht : tid' = tid
  swap
  · rw [inside_frames_of_ne ht] at hframes
    exact h tid' above g gs bb' (by rw [inside_frames_of_ne ht]; exact hframes) hbb' l i l' hinsts
      htid hexec y hsub hskip
  subst ht
  rw [inside_frames_self] at hframes
  cases above with
  | nil =>
    rcases List.cons.inj hframes with ⟨rfl, rfl⟩
    exact h tid' [] { f with start := stop } fs bb' inside_frames_self hbb' l i l' hinsts htid hexec
      y hsub hskip
  | cons g₀ above =>
    rcases List.cons.inj hframes with ⟨rfl, rfl⟩
    have hlevel := h tid' ({ f with start := stop } :: above) g gs bb' inside_frames_self hbb' l i l'
      hinsts htid hexec y hsub hskip
    have hi : i ∈ r.insts := by
      rw [show r.insts = l ++ i :: l' from hinsts]
      simp
    unfold Level at hlevel ⊢
    rw [List.countP_cons, List.countP_cons, hnot y hskip,
      hnot _ (harranged.not_skipped hkinds hi)] at hlevel
    rw [List.countP_cons, List.countP_cons]
    exact hlevel

/-- When the executions of the block have been met. -/
theorem Reading.Leveled.meets (h : r.Leveled T trace) (hnodup : T.bb2Ins.flatten.Nodup)
    (hkinds : KindsAgree T trace) (hordered : r.Ordered T) (harranged : r.Arranged T trace)
    (hb : b ∈ trace) (htype : b.type ≠ .declareBlock) (hbb : T.bb2Ins[b.bbID]? = some bb)
    (hfits : b.Fits bb) (hopens : Opens T r bb b f fs) :
    ((r.meets T f b).inside b.tid f fs).Leveled T trace := by
  have hopened := h.opens hnodup hordered hbb hopens
  have hbbf : T.bb2Ins[f.bbID]? = some bb := by
    rw [hopens.bbID.1]
    exact hbb
  have hf : { f with start := b.start } = f := by
    rw [← hopens.bbID.2]
  rcases named_segment hbb hfits htype with hnamed | ⟨hnamed, hkind, hexecuted⟩
  · have hlen : b.start + ((bb.take b.stop).drop b.start).length = b.stop := by
      rw [List.length_drop, List.length_take]
      have := hfits.1
      have := hfits.2.1
      omega
    have hprefix : (bb.take b.stop).drop b.start <+: bb.drop b.start := by
      rw [List.drop_take]
      exact List.take_prefix _ _
    have hne : ∀ g ∈ fs, g.exec ≠ f.exec ∧ g.act ≠ f.act := hordered.opens_ne hopens
    have harr := harranged.opens hordered hbb hopens
    rw [← hlen] at hopened harr
    have hmet := hopened.segment ((bb.take b.stop).drop b.start) hnodup hbbf hprefix
      (fun id hid => ⟨b, hb, by rw [hnamed]; exact hid⟩) hne harr
    rw [hf, ← hnamed] at hmet
    exact hmet
  · have hmeets : r.meets T f b = r := by
      rw [Reading.meets, hnamed]
      rfl
    rw [hmeets]
    refine hopened.skip (fun id hid => ?_) hkinds harranged
    have hdrop : bb.drop b.start = (bb.take b.stop).drop b.start ++ bb.drop b.stop := by
      rw [← List.drop_append_of_le_length (by rw [List.length_take]; have := hfits.1
                                              have := hfits.2.1; omega), List.take_append_drop]
    unfold Frame.hasMet
    simp only [hbbf, Option.getD_some]
    rw [hopens.bbID.2, hdrop, ← hexecuted]
    have hnot : id ∉ b.executed T := fun hmem => hid ⟨b, hb, hkind, hmem⟩
    simp [hnot]

theorem Reading.Leveled.step (h : r.Leveled T trace) (hnodup : T.bb2Ins.flatten.Nodup)
    (hkinds : KindsAgree T trace) (hordered : r.Ordered T) (harranged : r.Arranged T trace)
    (hb : b ∈ trace) (hstep : readStep T r b = some r') : r'.Leveled T trace := by
  rcases readStep_cases hstep with ⟨-, rfl⟩ | ⟨htype, bb, f, fs, hbb, hfits, hopens, hstart, rfl⟩
  · exact h
  have hmet := h.meets hnodup hkinds hordered harranged hb htype hbb hfits hopens
  intro tid above g gs bb' hframes hbb' l i l' hinsts htid hexec y hsub hskip
  replace hframes : Function.update (r.meets T f b).frames b.tid
    (if 0 < b.isFirst then fs else f :: fs) tid = above ++ g :: gs := hframes
  by_cases ht : tid = b.tid
  swap
  · rw [Function.update_of_ne ht] at hframes
    exact hmet tid above g gs bb' (by rw [inside_frames_of_ne ht]; exact hframes) hbb' l i l' hinsts
      htid hexec y hsub hskip
  subst ht
  rw [Function.update_self] at hframes
  by_cases hfirst : 0 < b.isFirst
  · rw [if_pos hfirst] at hframes
    -- the frame that is left has been met as a whole
    have hwhole := Frame.hasMet_whole (g := f) hnodup (List.mem_of_getElem? hbb') hsub (hstart hfirst)
    apply (Level.cons_iff hwhole).mp
    exact hmet b.tid (f :: above) g gs bb' (by rw [inside_frames_self, hframes]; rfl) hbb' l i l'
      hinsts htid hexec y hsub hskip
  · rw [if_neg hfirst] at hframes
    exact hmet b.tid above g gs bb' (by rw [inside_frames_self, hframes]) hbb' l i l' hinsts htid
      hexec y hsub hskip

theorem leveled_of_run {pre : List SmallestBlock} (hnodup : T.bb2Ins.flatten.Nodup)
    (hkinds : KindsAgree T trace) (hpre : ∀ b ∈ pre, b ∈ trace)
    (h : run (readStep T) {} pre = some r) : r.Leveled T trace := by
  induction pre using List.reverseRecOn generalizing r with
  | nil =>
    cases h
    intro _ above f _ _ hframes
    exact absurd hframes.symm (by simp)
  | append_singleton pre b ih =>
    rcases run_concat_eq_some.mp h with ⟨r₁, h₁, hstep⟩
    have hpre₁ : ∀ b ∈ pre, b ∈ trace := fun b hb => hpre b (List.mem_append_left _ hb)
    exact (ih hpre₁ h₁).step hnodup hkinds (ordered_of_run h₁) (arranged_of_run hpre₁ h₁)
      (hpre b (by simp)) hstep

/-! ## The names -/

/-- The terminator `d` is executed between the instance `i` and the instance named `d`. -/
def Reading.Reentered (r : Reading) (i : Instance) (d : DynamicInst) : Prop :=
  ∃ l mid t post, r.insts = l ++ i :: mid ++ t :: post ∧ t.inst = d ∧ ∃ j ∈ mid, j.inst.key = d.key

/-- The name is computed from the number of executions of the terminator in between. -/
theorem scanName_iff {sets : PassSets} {i t : Instance} {mid post : List Instance}
    (hcounted : r.Counted) (hcount : sets.instCount = r.count)
    (hsplit : r.insts = l ++ i :: mid ++ t :: post) (hi : i.inst.tid = b.tid)
    (ht : t.inst.tid = b.tid) (hne : i.inst.id ≠ t.inst.id)
    (hlevel : executions b.tid i.inst.id l = executions b.tid t.inst.id l) :
    i.inst = scanName b (cntDiff sets t.inst b) sets i.inst.id ↔
      executions b.tid t.inst.id mid = 0 := by
  have hsplit' : r.insts = l ++ i :: (mid ++ t :: post) := by
    rw [hsplit, List.append_assoc, List.cons_append]
  have hicnt := hcounted.cnt _ _ _ hsplit'
  have htcnt := hcounted.cnt _ _ _ hsplit
  have hicount := hcounted.count b.tid i.inst.id
  have htcount := hcounted.count b.tid t.inst.id
  have hikey : i.inst.key = (b.tid, i.inst.id) := Prod.ext hi rfl
  have htkey : t.inst.key = (b.tid, t.inst.id) := Prod.ext ht rfl
  rw [hsplit', executions_append, executions_cons, executions_append, executions_cons, hikey, htkey,
    if_pos rfl, if_neg fun he => hne (Prod.mk.inj he).2.symm] at hicount
  rw [hsplit', executions_append, executions_cons, executions_append, executions_cons, hikey, htkey,
    if_pos rfl, if_neg fun he => hne (Prod.mk.inj he).2] at htcount
  rw [hi, executions_append, executions_cons, htkey,
    if_neg fun he => hne (Prod.mk.inj he).2.symm] at hicnt
  rw [ht] at htcnt
  have hname : i.inst = scanName b (cntDiff sets t.inst b) sets i.inst.id ↔
      i.inst.cnt = cntDiff sets t.inst b - sets.instCount (b.tid, i.inst.id) := by
    rcases i with ⟨⟨tid, id, n⟩, act, exec⟩
    cases hi
    simp [scanName]
  rw [hname, cntDiff, hcount]
  omega

/-- Nothing lies behind the last element. -/
theorem last_not_before (hdistinct : bb.Nodup) (hlast : bb.getLast? = some x) :
    ¬ [x, y].Sublist bb := by
  intro hsub
  rcases List.getLast?_eq_some_iff.mp hlast with ⟨front, rfl⟩
  have hy : y ∈ [x] := by
    have hdrop := mem_drop_of_pair (n := front.length) hdistinct hsub (by simp)
    rw [List.drop_left] at hdrop
    exact hdrop
  rw [List.mem_singleton.mp hy] at hsub
  exact not_pair_sublist hdistinct hsub hsub

theorem exists_between {i j : Instance} (hi : i ∈ l) (hj : j ∈ l) (hne : i ≠ j) :
    (∃ pre mid post, l = pre ++ i :: mid ++ j :: post) ∨
      ∃ pre mid post, l = pre ++ j :: mid ++ i :: post := by
  rcases List.append_of_mem hi with ⟨pre, post, rfl⟩
  rcases List.mem_append.mp hj with hj | hj
  · right
    rcases List.append_of_mem hj with ⟨pre, mid, rfl⟩
    exact ⟨pre, mid, post, rfl⟩
  · left
    rcases List.mem_cons.mp hj with rfl | hj
    · exact absurd rfl hne
    rcases List.append_of_mem hj with ⟨mid, post, rfl⟩
    exact ⟨pre, mid, post, by rw [List.append_assoc, List.cons_append]⟩

/-- **The names of the execution of the frame on top**, of which all instructions have been met. -/
theorem scan_iff (P : Program) (hT : T = P.toTables) (hnodup : T.bb2Ins.flatten.Nodup)
    (hkinds : KindsAgree T trace) (harranged : r.Arranged T trace) (hleveled : r.Leveled T trace)
    (hcounted : r.Counted) {sets : PassSets} (hcount : sets.instCount = r.count)
    (hframes : r.frames b.tid = f :: fs) (hstart : f.start = 0)
    (hbb : T.bb2Ins[f.bbID]? = some bb) {d : DynamicInst} (hd : TerminatorOf T r.insts b.tid f d)
    {i : Instance} (hi : i ∈ r.insts) (hitid : i.inst.tid = b.tid) (hiexec : i.exec = f.exec) :
    i.inst = scanName b (cntDiff sets d b) sets i.inst.id ↔ ¬ r.Reentered i d := by
  have hmem : bb ∈ T.bb2Ins := List.mem_of_getElem? hbb
  have hdistinct : bb.Nodup := (List.nodup_flatten.mp hnodup).1 bb hmem
  have hframe := harranged.frames b.tid f (by rw [hframes]; exact List.mem_cons_self) bb hbb
  have hlast := hd.last P hT hbb hframe hstart
  rcases hd with ⟨t₀, ht₀, ht₀d, hdtid, ht₀exec, -⟩
  have hid : i.inst.id ∈ bb := List.mem_of_mem_drop (hframe.within i hi hitid hiexec).1
  have hunique : ∀ j ∈ r.insts, j.inst = d → j = t₀ := by
    intro j hj hjd
    exact harranged.eq_of_inst hj ht₀ (hjd.trans ht₀d.symm)
  -- between `i` and the terminator
  have hbetween : ∀ {l mid t post}, r.insts = l ++ i :: mid ++ t :: post → t.inst = d →
      (i.inst = scanName b (cntDiff sets d b) sets i.inst.id ↔ executions b.tid d.id mid = 0) := by
    intro l mid t post hsplit ht
    have htmem : t ∈ r.insts := by
      rw [hsplit]
      simp
    have htexec : t.exec = f.exec := by
      rw [hunique t htmem ht]
      exact ht₀exec
    have httid : t.inst.tid = b.tid := by
      rw [ht]
      exact hdtid
    have hafter : MetAfter T i t := harranged.metAfter hsplit (by simp) List.mem_cons_self
    have hsub := hafter.sublist hnodup hmem (hitid.trans httid.symm) (hiexec.trans htexec.symm)
      (Or.inl hid)
    have hne : i.inst.id ≠ t.inst.id := by
      intro he
      rw [he] at hsub
      exact not_pair_sublist hdistinct hsub hsub
    have hsplit' : r.insts = l ++ i :: (mid ++ t :: post) := by
      rw [hsplit, List.append_assoc, List.cons_append]
    have hlevel := hleveled b.tid [] f fs bb hframes hbb l i _ hsplit' hitid hiexec t.inst.id hsub
      (harranged.not_skipped hkinds htmem)
    rw [← ht]
    exact scanName_iff hcounted hcount hsplit hitid httid hne hlevel
  have hkey : ∀ {mid : List Instance}, (∃ j ∈ mid, j.inst.key = d.key) ↔
      executions b.tid d.id mid ≠ 0 := by
    intro mid
    have hd : d.key = (b.tid, d.id) := Prod.ext hdtid rfl
    rw [hd, Ne, executions_eq_zero]
    push Not
    rfl
  constructor
  · intro hname hre
    rcases hre with ⟨l, mid, t, post, hsplit, ht, hj⟩
    exact hkey.mp hj ((hbetween hsplit ht).mp hname)
  · intro hre
    by_cases heq : i = t₀
    · -- the terminator itself
      rw [heq, ht₀d]
      rcases d with ⟨tid, id, n⟩
      cases hdtid
      simp [scanName, cntDiff]
    rcases exists_between hi ht₀ heq with ⟨l, mid, post, hsplit⟩ | ⟨l, mid, post, hsplit⟩
    · apply (hbetween hsplit ht₀d).mpr
      by_contra hmid
      exact hre ⟨l, mid, t₀, post, hsplit, ht₀d, hkey.mpr hmid⟩
    · -- nothing lies behind the terminator
      have hafter : MetAfter T t₀ i := harranged.metAfter hsplit (by simp) List.mem_cons_self
      have htid : t₀.inst.tid = i.inst.tid := by
        rw [ht₀d, hdtid, hitid]
      have hsub := hafter.sublist hnodup hmem htid (ht₀exec.trans hiexec.symm) (Or.inr hid)
      rw [ht₀d] at hsub
      exact absurd hsub (last_not_before hdistinct hlast)

/-! ## Executions that have been passed -/

/-- The turn for `b` comes when the execution `k` of the basic block `bbID` has just been passed:
`b` begins another basic block in the same activation, or `b` is the beginning of the activation and
of the execution. -/
inductive JustPassed (T : Tables) (r : Reading) (b : SmallestBlock) : Nat → Nat → Prop
  | finished {f : Frame} {fs : List Frame} (hlast : b.isLast = 0)
      (hframes : r.frames b.tid = f :: fs) (hstart : f.start = 0) (hne : f.bbID ≠ b.bbID) :
      JustPassed T r b f.bbID f.exec
  | first {bb : List Nat} {f : Frame} {fs : List Frame} (hbb : T.bb2Ins[b.bbID]? = some bb)
      (hopens : Opens T r bb b f fs) (hfirst : 0 < b.isFirst) (hstart : f.start = 0) :
      JustPassed T r b b.bbID f.exec

/-- All instructions of the execution have been met. -/
def Reading.Passed (r : Reading) (tid k : Nat) : Prop :=
  k < r.pos ∧ ∀ f ∈ r.frames tid, f.exec = k → f.start = 0

theorem Reading.Passed.step {k : Nat} (h : r.Passed tid k) (hstep : readStep T r b = some r') :
    r'.Passed tid k ∧
      ∀ i ∈ r'.insts, i.inst.tid = tid → i.exec = k → i ∈ r.insts := by
  rcases readStep_cases hstep with ⟨-, rfl⟩ | ⟨-, bb, f, fs, -, -, hopens, -, rfl⟩
  · exact ⟨⟨Nat.lt_succ_of_lt h.1, h.2⟩, fun i hi _ _ => hi⟩
  rcases h with ⟨hlt, hwhole⟩
  -- the block belongs to another execution
  have hexec : b.tid = tid → f.exec ≠ k ∧ ∀ g ∈ fs, g ∈ r.frames tid := by
    intro ht
    subst ht
    cases hopens with
    | activation => exact ⟨(Nat.ne_of_lt hlt).symm, fun g hg => hg⟩
    | execution _ hframes =>
      refine ⟨(Nat.ne_of_lt hlt).symm, fun g hg => ?_⟩
      rw [hframes]
      exact List.mem_cons_of_mem _ hg
    | @part f₀ fs _ hframes hstart =>
      refine ⟨fun he => ?_, fun g hg => ?_⟩
      · have := hwhole f₀ (by rw [hframes]; exact List.mem_cons_self) he
        omega
      · rw [hframes]
        exact List.mem_cons_of_mem _ hg
  refine ⟨⟨?_, fun g hg hk => ?_⟩, fun i hi htid hk => ?_⟩
  · show k < (r.meets T f b).pos + 1
    rw [meets_pos]
    exact Nat.lt_succ_of_lt hlt
  · replace hg : g ∈ Function.update (r.meets T f b).frames b.tid
      (if 0 < b.isFirst then fs else f :: fs) tid := hg
    rw [meets_frames] at hg
    by_cases ht : tid = b.tid
    · rcases hexec ht.symm with ⟨hne, hmem⟩
      rw [ht, Function.update_self] at hg
      have hg' : g = f ∨ g ∈ fs := by
        split_ifs at hg
        · exact Or.inr hg
        · exact List.mem_cons.mp hg
      rcases hg' with rfl | hg'
      · exact absurd hk hne
      · exact hwhole g (hmem g hg') hk
    · rw [Function.update_of_ne ht] at hg
      exact hwhole g hg hk
  · rcases mem_foldl_meet hi with hi | ⟨hitid, -, -, hiexec⟩
    · exact hi
    · exact absurd (hiexec.symm.trans hk) (hexec (hitid.symm.trans htid)).1

theorem Reading.Passed.run {k : Nat} {post : List SmallestBlock} (h : r.Passed tid k)
    (hrun : Slimmer.run (readStep T) r post = some r') :
    ∀ i ∈ r'.insts, i.inst.tid = tid → i.exec = k → i ∈ r.insts := by
  have hinv : r'.Passed tid k ∧ ∀ i ∈ r'.insts, i.inst.tid = tid → i.exec = k → i ∈ r.insts := by
    refine run_invariant (P := fun u : Reading => u.Passed tid k ∧
      ∀ i ∈ u.insts, i.inst.tid = tid → i.exec = k → i ∈ r.insts) ?_
      ⟨h, fun _ hi _ _ => hi⟩ hrun
    intro u b u' hu hstep
    rcases hu.1.step hstep with ⟨hpassed, hold⟩
    exact ⟨hpassed, fun i hi htid hk => hu.2 i (hold i hi htid hk) htid hk⟩
  exact hinv.2

/-- What is met later lies before the execution. -/
theorem reentered_iff {u : Reading} {i : Instance} {d : DynamicInst} (hsuffix : u.insts <:+ r.insts)
    (hpairs : r.insts.Pairwise (MetAfter T)) (hi : i ∈ u.insts) :
    u.Reentered i d ↔ r.Reentered i d := by
  rcases hsuffix with ⟨more, hmore⟩
  constructor
  · intro h
    rcases h with ⟨l, mid, t, post, hsplit, ht, hj⟩
    refine ⟨more ++ l, mid, t, post, ?_, ht, hj⟩
    rw [← hmore, hsplit]
    simp only [List.append_assoc, List.cons_append]
  · intro h
    rcases h with ⟨l, mid, t, post, hsplit, ht, hj⟩
    have hfresh : i ∉ more := by
      intro hmem
      rw [← hmore] at hpairs
      exact ((List.pairwise_append.mp hpairs).2.2 i hmem i hi).1 rfl
    have heq : more ++ u.insts = l ++ (i :: (mid ++ t :: post)) := by
      rw [hmore, hsplit, List.append_assoc, List.cons_append]
    rcases List.append_eq_append_iff.mp heq with ⟨c, rfl, hu⟩ | ⟨c, rfl, hu⟩
    · refine ⟨c, mid, t, post, ?_, ht, hj⟩
      rw [hu, List.append_assoc, List.cons_append]
    · cases c with
      | nil =>
        refine ⟨[], mid, t, post, ?_, ht, hj⟩
        rw [List.nil_append] at hu
        rw [← hu]
        rfl
      | cons j c =>
        rw [(List.cons.inj hu).1] at hfresh
        exact absurd (by simp) hfresh

/-! ## The theorem -/

/-- The execution `k` of the basic block `bbID` is the one `OneBlock` re-examines for the terminator
`d`: the terminator belongs to it, every instruction of it has been met, and the name computed for
one is the one the main loop gave it if and only if the terminator is not executed in between. -/
structure Rescanned (T : Tables) (trace : List SmallestBlock) (r : Reading) (b : SmallestBlock)
    (sets : PassSets) (d : DynamicInst) (bbID k : Nat) : Prop where
  terminator : ∃ t ∈ r.insts, t.inst = d ∧ d.tid = b.tid ∧ t.exec = k ∧ T.IsTerminator d.id
  covered : ∃ bb, T.bb2Ins[bbID]? = some bb ∧ bb.getLast? = some d.id ∧
    ∀ id ∈ bb, ¬ SkippedIn T trace id → ∃ i ∈ r.insts, i.inst.tid = b.tid ∧ i.inst.id = id ∧ i.exec = k
  names : ∀ i ∈ r.insts, i.inst.tid = b.tid → i.exec = k →
    (i.inst = scanName b (cntDiff sets d b) sets i.inst.id ↔ ¬ r.Reentered i d)

/-- The execution of the frame on top of `u`, which the rest of the trace leaves alone. -/
theorem rescanned_of_frame (P : Program) (hT : T = P.toTables) (hnodup : T.bb2Ins.flatten.Nodup)
    (hkinds : KindsAgree T trace) {u : Reading} (harranged : u.Arranged T trace)
    (hleveled : u.Leveled T trace) (hcounted : u.Counted) {sets : PassSets}
    (hcount : sets.instCount = u.count) (hframes : u.frames b.tid = f :: fs) (hstart : f.start = 0)
    (hbb : T.bb2Ins[f.bbID]? = some bb) {d : DynamicInst} (hd : TerminatorOf T u.insts b.tid f d)
    (hsuffix : u.insts <:+ r.insts) (hpairs : r.insts.Pairwise (MetAfter T))
    (hrest : ∀ i ∈ r.insts, i.inst.tid = b.tid → i.exec = f.exec → i ∈ u.insts) :
    Rescanned T trace r b sets d f.bbID f.exec := by
  have hframe := harranged.frames b.tid f (by rw [hframes]; exact List.mem_cons_self) bb hbb
  constructor
  · rcases hd with ⟨t, ht, hcase⟩
    exact ⟨t, hsuffix.subset ht, hcase⟩
  · refine ⟨bb, hbb, hd.last P hT hbb hframe hstart, fun id hid hskip => ?_⟩
    rcases hframe.covered id (by rw [hstart]; exact hid) with hs | ⟨i, hi, hcase⟩
    · exact absurd hs hskip
    · exact ⟨i, hsuffix.subset hi, hcase⟩
  · intro i hi htid hexec
    have hmem := hrest i hi htid hexec
    rw [← reentered_iff hsuffix hpairs hmem]
    exact scan_iff P hT hnodup hkinds harranged hleveled hcounted hcount hframes hstart hbb hd hmem
      htid hexec

/-- Where a block begins another basic block, that of the frame has been gone through. -/
theorem start_of_other_bb (hstep : readStep T r b = some r') (htype : b.type ≠ .declareBlock)
    (hlast : b.isLast = 0) (hframes : r.frames b.tid = f :: fs) (hne : f.bbID ≠ b.bbID) :
    f.start = 0 := by
  rcases readStep_cases hstep with ⟨he, -⟩ | ⟨-, bb, f', fs', -, -, hopens, -⟩
  · exact absurd he htype
  cases hopens with
  | activation hl => omega
  | execution _ hframes' hstart =>
    cases hframes.symm.trans hframes'
    exact hstart
  | part _ hframes' _ hbbID =>
    cases hframes.symm.trans hframes'
    exact absurd hbbID.symm hne

/-- The execution of a frame that is at the beginning of its basic block has been passed. -/
theorem Reading.Ordered.passed_of_frame (h : r.Ordered T) (hframes : r.frames tid = f :: fs)
    (hstart : f.start = 0) : r.Passed tid f.exec := by
  have hmem : f ∈ r.frames tid := by
    rw [hframes]
    exact List.mem_cons_self
  rcases h.frames tid f hmem with ⟨hact, hexec, -⟩
  refine ⟨hexec, fun g hg hk => ?_⟩
  have hnested := h.nested tid
  rw [hframes] at hnested hg
  rcases List.mem_cons.mp hg with rfl | hg
  · exact hstart
  · -- the executions below are older
    have := (List.pairwise_cons.mp hnested).1 g hg
    omega

/-- The execution of the first block of an activation has been passed behind it. -/
theorem Reading.Ordered.passed_of_first (h : r.Ordered T) (hopens : Opens T r bb b f fs)
    (hfirst : 0 < b.isFirst) (hr' : r' = { r.meets T f b with
      pos := (r.meets T f b).pos + 1
      frames := Function.update (r.meets T f b).frames b.tid
        (if 0 < b.isFirst then fs else f :: fs) }) : r'.Passed b.tid f.exec := by
  rw [hr']
  constructor
  · show f.exec < (r.meets T f b).pos + 1
    rw [meets_pos]
    exact Nat.lt_succ_of_le (h.opens hopens).2.1
  · intro g hg hk
    replace hg : g ∈ Function.update (r.meets T f b).frames b.tid
      (if 0 < b.isFirst then fs else f :: fs) b.tid := hg
    rw [Function.update_self, if_pos hfirst] at hg
    exact absurd hk (h.opens_ne hopens g hg).1

/-- **`OneBlock` re-examines the execution just passed**, in every complete trace in which no call
that is skipped is the first block of an activation; and the names are those of this execution as
far as the terminator is not executed in between. -/
theorem oneBlock_rescans_iff (P : Program) (hI : I.tables = P.toTables)
    (hnodup : I.tables.bb2Ins.flatten.Nodup) (hkinds : KindsAgree I.tables trace)
    (hcomplete : Complete I.tables trace r)
    (hfirst : ∀ b ∈ trace, b.skipped I.tables = some true → b.isFirst = 0)
    {pre post : List SmallestBlock} (htrace : trace.reverse = pre ++ b :: post)
    (hrun : run (extractStep I) {} pre = some s) {sets : PassSets} {d : DynamicInst}
    {nextBBID : Nat} (hcall : OneBlockCall I s b sets d nextBBID) :
    ∃ r₁ k, run (readStep I.tables) {} pre = some r₁ ∧ JustPassed I.tables r₁ b nextBBID k ∧
      Rescanned I.tables trace r b sets d nextBBID k := by
  have hread := hcomplete.1
  rw [htrace] at hread
  rcases run_append_eq_some.mp hread with ⟨r₁, hr₁, hread⟩
  rcases run_cons_eq_some.mp hread with ⟨r₂, hr₂, hpost⟩
  have hmem : ∀ c ∈ pre ++ b :: post, c ∈ trace := by
    intro c hc
    rw [← htrace] at hc
    exact List.mem_reverse.mp hc
  have hpre : ∀ c ∈ pre, c ∈ trace := fun c hc => hmem c (List.mem_append_left _ hc)
  have hb : b ∈ trace := hmem b (by simp)
  have hall : r.Arranged I.tables trace :=
    arranged_of_run (fun c hc => List.mem_reverse.mp hc) hcomplete.1
  have hpairs := hall.pairs
  have hfollowed := followed_of_run (fun c hc => hfirst c (hpre c hc)) hrun hr₁
  have hordered := ordered_of_run hr₁
  have harranged := arranged_of_run hpre hr₁
  have hleveled := leveled_of_run hnodup hkinds hpre hr₁
  have hsuffix : r₂.insts <:+ r.insts := insts_suffix hpost
  refine ⟨r₁, ?_⟩
  cases hcall with
  | @finished _ l e l' htype hlast hnext hne hterm hneeded =>
    have hentries := hfollowed.entries b.tid
    rw [hnext, hterm] at hentries
    generalize hframes : r₁.frames b.tid = frames at hentries
    cases hentries with
    | @cons f fs _ _ _ _ htop _ =>
    replace htop : nextBBID = f.bbID ∧ TerminatorOf I.tables r₁.insts b.tid f e.2.1 :=
      ⟨htop.bbID, htop.terminator hneeded⟩
    rcases htop with ⟨rfl, hd⟩
    have hstart := start_of_other_bb hr₂ htype hlast hframes hne
    have hfmem : f ∈ r₁.frames b.tid := by
      rw [hframes]
      exact List.mem_cons_self
    rcases hordered.frames b.tid f hfmem with ⟨-, -, bb, hbb, -⟩
    have hpassed := hordered.passed_of_frame hframes hstart
    refine ⟨f.exec, hr₁, .finished hlast hframes hstart hne, ?_⟩
    exact rescanned_of_frame P hI hnodup hkinds harranged hleveled (counted_of_run hr₁)
      hfollowed.met.count hframes hstart hbb hd (insts_suffix hread) hpairs (hpassed.run hread)
  | @first s₁ s₂ s₃ nextBBID l e l' htype henter hskip hbody hisFirst hcaller hnext hterm hneeded =>
    rcases Option.bind_eq_some_iff.mp hbody with ⟨⟨s₂', used⟩, hinstructions, hmark⟩
    have hvisits := instructions_visits hskip hinstructions
    rcases readStep_cases hr₂ with ⟨he, -⟩ | ⟨-, bb, f, fs, hbb, hfits, hopens, hstart, hr₂⟩
    · exact absurd he htype
    have hinside := hfollowed.body hbb hfits hopens htype henter hvisits hmark
    -- the call does not change the stacks and the counters
    rcases PassState.needCaller_cases hcaller with ⟨needed, -, rfl⟩
    replace hterm : s₂.terminatorStack b.tid = e :: l' := hterm
    have hd : TerminatorOf I.tables (r₁.meets I.tables f b).insts b.tid f e.2.1 := by
      have hentries := hinside.entries b.tid
      rw [inside_frames_self, hterm] at hentries
      rcases hentries.cases_top with ⟨n, ns, e', es, -, he, htop, -⟩
      cases he
      exact htop.terminator hneeded
    have hpassed := hordered.passed_of_first hopens hisFirst hr₂
    have hrest := hpassed.run hpost
    rw [hr₂] at hsuffix hrest
    have hmet : (r₁.meets I.tables f b).Counted := (counted_of_run hr₁).meets
    have hcounted : ((r₁.meets I.tables f b).inside b.tid f fs).Counted := ⟨hmet.count, hmet.cnt⟩
    have hcount : ({ s₂ with needed := needed } : PassState).instCount =
      ((r₁.meets I.tables f b).inside b.tid f fs).count := hinside.met.count
    refine ⟨f.exec, hr₁, .first hbb hopens hisFirst (hstart hisFirst), ?_⟩
    rw [← hopens.bbID.1]
    exact rescanned_of_frame P hI hnodup hkinds (harranged.meets hordered hb htype hbb hfits hopens)
      (hleveled.meets hnodup hkinds hordered harranged hb htype hbb hfits hopens) hcounted
      hcount inside_frames_self (hstart hisFirst) (by rw [hopens.bbID.1]; exact hbb) hd
      hsuffix hpairs hrest

end

/-! ## A call in the middle of a basic block -/

/-- `if (...) { s = ...; f(); } return s;`. -/
def nestedTables : Tables where
  ins := [{ type := .terminatorInst, successors := [1, 2] }, { type := .normalInst },
    { type := .callInst, fn := "f" }, { type := .terminatorInst, successors := [2] },
    { type := .returnInst, ssaDependencies := [(.inst, 1)] }]
  bb2Ins := [[0], [1, 2, 3], [4]]

/-- The return is behind the call on every path. -/
def nestedInput : PassInput := ⟨nestedTables, fun bb => if bb = 1 then {2} else ∅, fun _ => ∅⟩

def nestedProgram : Program where
  toTables := nestedTables
  block_ne := by decide
  ids_lt := by decide
  ends := by
    intro bb hbb k id i hid hi
    simp only [nestedTables, List.mem_cons, List.not_mem_nil, or_false] at hbb
    rcases hbb with rfl | rfl | rfl
    · match k, hid with
      | 0, hid =>
        cases hid
        cases hi
        decide
    · match k, hid with
      | 0, hid =>
        cases hid
        cases hi
        decide
      | 1, hid =>
        cases hid
        cases hi
        decide
      | 2, hid =>
        cases hid
        cases hi
        decide
    · match k, hid with
      | 0, hid =>
        cases hid
        cases hi
        decide
  length_le := by decide

/-- The first basic block of the outermost activation. -/
def nestedEntry : SmallestBlock := { type := .normalBlock, stop := 1, isFirst := 2, lastBBID := -1 }

/-- What is behind it: `f` calls itself twice. -/
def nestedRest : List SmallestBlock :=
  [{ type := .normalBlock, bbID := 1, stop := 2, lastBBID := 0 },
    { type := .normalBlock, stop := 1, isFirst := 1, caller := 2, lastBBID := -1 },
    { type := .normalBlock, bbID := 1, stop := 2, lastBBID := 0 },
    { type := .normalBlock, stop := 1, isFirst := 1, caller := 2, lastBBID := -1 },
    { type := .normalBlock, bbID := 2, stop := 1, isLast := 1, caller := 2, lastBBID := 0 },
    { type := .normalBlock, bbID := 1, start := 2, stop := 3, lastBBID := 0 },
    { type := .normalBlock, bbID := 2, stop := 1, isLast := 1, caller := 2, lastBBID := 1 },
    { type := .normalBlock, bbID := 1, start := 2, stop := 3, lastBBID := 0 },
    { type := .normalBlock, bbID := 2, stop := 1, isLast := 2, lastBBID := 1 }]

theorem nestedTrace_kinds : KindsAgree nestedTables (nestedEntry :: nestedRest) := by
  unfold KindsAgree
  decide

theorem nestedTrace_complete : ∃ r, Complete nestedTables (nestedEntry :: nestedRest) r ∧
    (⟨⟨0, 2, -1⟩, 0, 1⟩ : Instance) ∈ r.insts := by
  refine ⟨_, ⟨rfl, fun tid => ?_⟩, by decide⟩
  by_cases ht : tid = 0
  · rw [ht]
    rfl
  · simp [nestedEntry, Function.update_of_ne ht]

/-- `OneBlock` is called for the basic block of the outermost call. -/
theorem nestedTrace_call : ∃ s, run (extractStep nestedInput) {} nestedRest.reverse = some s ∧
    OneBlockCall nestedInput s nestedEntry s.toPassSets ⟨0, 3, 0⟩ 1 ∧
    s.instCount (0, 2) = 2 ∧ s.instCount (0, 3) = 2 := by
  rcases Option.isSome_iff_exists.mp (show (run (extractStep nestedInput) {}
    nestedRest.reverse).isSome = true by decide +kernel) with ⟨s, hs⟩
  have hstate : (run (extractStep nestedInput) {} nestedRest.reverse).map (fun s =>
      (s.nextBBUsed 0, s.terminatorStack 0, s.instCount (0, 2), s.instCount (0, 3))) =
      some ([(1, true)], [(1, ⟨0, 3, 0⟩, false)], 2, 2) := by decide +kernel
  rw [hs, Option.map_some] at hstate
  simp only [Option.some.injEq, Prod.mk.injEq] at hstate
  rcases hstate with ⟨hnext, hterm, hcall, hcount⟩
  have hfinished : OneBlockCall nestedInput s nestedEntry s.toPassSets ⟨0, 3, 0⟩ 1 :=
    .finished (b := nestedEntry) (e := (1, ⟨0, 3, 0⟩, false)) (by decide) rfl hnext (by decide)
      hterm rfl
  exact ⟨s, hs, hfinished, hcall, hcount⟩

theorem oneBlock_rescans_iff_nested : ∃ r s r₁ k,
    Complete nestedTables (nestedEntry :: nestedRest) r ∧
      run (readStep nestedTables) {} nestedRest.reverse = some r₁ ∧
      JustPassed nestedTables r₁ nestedEntry 1 k ∧
      Rescanned nestedTables (nestedEntry :: nestedRest) r nestedEntry s ⟨0, 3, 0⟩ 1 k := by
  rcases nestedTrace_complete with ⟨r, hr, -⟩
  rcases nestedTrace_call with ⟨s, hs, hcall, -⟩
  rcases oneBlock_rescans_iff nestedProgram rfl (by decide) nestedTrace_kinds hr (by decide)
    (List.reverse_cons ..) hs hcall with ⟨r₁, k, hread, hpassed, hrescanned⟩
  exact ⟨r, s.toPassSets, r₁, k, hr, hread, hpassed, hrescanned⟩

/-- The call of the outermost activation gets the name of the one inside. -/
theorem nested_call_misnamed :
    ¬ ∀ (I : PassInput) (P : Program) (trace : List SmallestBlock) (r : Reading),
      I.tables = P.toTables → I.tables.bb2Ins.flatten.Nodup → KindsAgree I.tables trace →
      Complete I.tables trace r → (∀ b ∈ trace, b.skipped I.tables = some true → b.isFirst = 0) →
      ∀ (pre post : List SmallestBlock) (b : SmallestBlock) (s : PassState) (r₁ : Reading)
        (sets : PassSets) (d : DynamicInst) (nextBBID k : Nat),
        trace.reverse = pre ++ b :: post → run (extractStep I) {} pre = some s →
        run (readStep I.tables) {} pre = some r₁ → OneBlockCall I s b sets d nextBBID →
        JustPassed I.tables r₁ b nextBBID k →
        ∀ i ∈ r.insts, i.inst.tid = b.tid → i.exec = k →
          i.inst = scanName b (cntDiff sets d b) sets i.inst.id := by
  intro h
  rcases nestedTrace_complete with ⟨r, hr, hi⟩
  rcases nestedTrace_call with ⟨s, hs, hcall, hcount, hcount'⟩
  have hread : ∃ r₁, run (readStep nestedTables) {} nestedRest.reverse = some r₁ ∧
      r₁.frames 0 = [⟨0, 1, 1, 0⟩] := ⟨_, rfl, rfl⟩
  rcases hread with ⟨r₁, hr₁, hframes⟩
  have hname := h nestedInput nestedProgram _ r rfl (by decide) nestedTrace_kinds hr (by decide)
    _ _ _ s r₁ _ _ _ 1 (List.reverse_cons ..) hs hr₁ hcall
    (JustPassed.finished (f := ⟨0, 1, 1, 0⟩) rfl hframes rfl (by decide)) _ hi rfl rfl
  have hcnt := congrArg DynamicInst.cnt hname
  simp only [scanName, cntDiff] at hcnt
  rw [show nestedEntry.tid = 0 from rfl, hcount, hcount'] at hcnt
  exact absurd hcnt (by decide)

end Slimmer
