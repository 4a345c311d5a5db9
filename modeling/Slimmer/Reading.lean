import Slimmer.PassSteps
import Slimmer.Machine

/-!
# Reading a block trace backward

What a block trace says about the run: which activation and which execution of a basic block every
executed instruction belongs to. `readStep` reads the trace from its last block to its first one and
keeps, per thread, a frame for every open activation. It is independent of the pass.

An activation ends with a return, and every other execution of a basic block in it ends with a
terminator; a basic block is executed as a whole, in one or more blocks. Activations and executions
are named by the position of their last block.

**Facts.** A complete trace is read to the end with no frame left over (`Complete`). The names of
the executions are those of the pass, as long as both count alike (`Reading.Named`).
-/

namespace Slimmer

/-- An activation: it is in the part of `bbID` before index `start`, of the execution `exec`. -/
structure Frame where
  act : Nat
  exec : Nat
  bbID : Nat
  start : Nat
  deriving DecidableEq, Repr

/-- One executed instruction: its name, its activation, and the execution of its basic block. -/
structure Instance where
  inst : DynamicInst
  act : Nat
  exec : Nat
  deriving DecidableEq, Repr

/-- What has been read of a trace. A thread has its innermost frame first; the instances are in the
order of the run. -/
structure Reading where
  pos : Nat := 0
  frames : Nat → List Frame := fun _ => []
  count : Nat × Nat → Nat := fun _ => 0
  insts : List Instance := []

/-- The type of the last instruction of a basic block. -/
def Tables.endType (T : Tables) (bb : List Nat) : Option InstType :=
  bb.getLast?.bind fun id => (T.ins[id]?).map InstInfo.type

/-- The block is a part of the basic block `bb`; what is not a `NormalBlock` is one instruction that
does not end it. -/
def SmallestBlock.Fits (b : SmallestBlock) (bb : List Nat) : Prop :=
  b.start < b.stop ∧ b.stop ≤ bb.length ∧
    (b.type ≠ .normalBlock → b.stop = b.start + 1 ∧ b.stop < bb.length)

instance (b : SmallestBlock) (bb : List Nat) : Decidable (b.Fits bb) :=
  inferInstanceAs (Decidable (_ ∧ _ ∧ (_ → _)))

/-- The frame a block belongs to, and the frames below it: a new activation, a new execution of a
basic block in the innermost one, or the same execution. -/
def Reading.open (T : Tables) (r : Reading) (bb : List Nat) (b : SmallestBlock) :
    Option (Frame × List Frame) :=
  if 0 < b.isLast then
    if b.stop = bb.length ∧ T.endType bb = some .returnInst then
      some (⟨r.pos, r.pos, b.bbID, b.start⟩, r.frames b.tid)
    else none
  else
    match r.frames b.tid with
    | [] => none
    | f :: fs =>
      if f.start = 0 then
        if b.stop = bb.length ∧ T.endType bb = some .terminatorInst then
          some (⟨f.act, r.pos, b.bbID, b.start⟩, fs)
        else none
      else if b.bbID = f.bbID ∧ b.stop = f.start then some ({ f with start := b.start }, fs)
      else none

/-- An execution of `id` in the frame `f`. -/
def Reading.meet (tid : Nat) (f : Frame) (r : Reading) (id : Nat) : Reading :=
  { r with
    count := Function.update r.count (tid, id) (r.count (tid, id) + 1)
    insts := ⟨⟨tid, id, -r.count (tid, id)⟩, f.act, f.exec⟩ :: r.insts }

/-- The executions of a block, from the last one to the first one. -/
def Reading.meets (T : Tables) (r : Reading) (f : Frame) (b : SmallestBlock) : Reading :=
  (b.named T).reverse.foldl (Reading.meet b.tid f) r

/-- The frames when the block has been read. The first block of an activation ends it. -/
def Reading.leave (r : Reading) (f : Frame) (fs : List Frame) (b : SmallestBlock) :
    Option Reading :=
  if 0 < b.isFirst then
    if f.start = 0 then
      some { r with pos := r.pos + 1, frames := Function.update r.frames b.tid fs }
    else none
  else some { r with pos := r.pos + 1, frames := Function.update r.frames b.tid (f :: fs) }

/-- Read one block. -/
def readStep (T : Tables) (r : Reading) (b : SmallestBlock) : Option Reading :=
  if b.type = .declareBlock then some { r with pos := r.pos + 1 }
  else (T.bb2Ins[b.bbID]?).bind fun bb =>
    if b.Fits bb then
      (r.open T bb b).bind fun (f, fs) => (r.meets T f b).leave f fs b
    else none

/-- The trace of a run to completion: all activations have been read from their last block to their
first one. -/
def Complete (T : Tables) (trace : List SmallestBlock) (r : Reading) : Prop :=
  run (readStep T) {} trace.reverse = some r ∧ ∀ tid, r.frames tid = []

/-- The instruction is a terminator. -/
def Tables.IsTerminator (T : Tables) (id : Nat) : Prop :=
  ∃ i, T.ins[id]? = some i ∧ i.type = .terminatorInst

section

variable {T : Tables} {r r' : Reading} {b : SmallestBlock} {bb : List Nat} {f : Frame}
  {fs : List Frame} {tid : Nat}

/-! ## What a block can do -/

/-- The three ways a block continues what has been read. -/
inductive Opens (T : Tables) (r : Reading) (bb : List Nat) (b : SmallestBlock) :
    Frame → List Frame → Prop
  | activation (hlast : 0 < b.isLast) (hstop : b.stop = bb.length)
      (hend : T.endType bb = some .returnInst) :
      Opens T r bb b ⟨r.pos, r.pos, b.bbID, b.start⟩ (r.frames b.tid)
  | execution {f : Frame} {fs : List Frame} (hlast : b.isLast = 0)
      (hframes : r.frames b.tid = f :: fs) (hstart : f.start = 0) (hstop : b.stop = bb.length)
      (hend : T.endType bb = some .terminatorInst) :
      Opens T r bb b ⟨f.act, r.pos, b.bbID, b.start⟩ fs
  | part {f : Frame} {fs : List Frame} (hlast : b.isLast = 0) (hframes : r.frames b.tid = f :: fs)
      (hstart : 0 < f.start) (hbbID : b.bbID = f.bbID) (hstop : b.stop = f.start) :
      Opens T r bb b { f with start := b.start } fs

theorem Reading.open_cases (h : r.open T bb b = some (f, fs)) : Opens T r bb b f fs := by
  unfold Reading.open at h
  by_cases hlast : 0 < b.isLast
  · rw [if_pos hlast] at h
    split_ifs at h with hc
    cases h
    exact .activation hlast hc.1 hc.2
  rw [if_neg hlast] at h
  have hlast' : b.isLast = 0 := Nat.eq_zero_of_not_pos hlast
  cases hframes : r.frames b.tid with
  | nil =>
    rw [hframes] at h
    cases h
  | cons f₀ fs₀ =>
    rw [hframes] at h
    replace h : (if f₀.start = 0 then
        if b.stop = bb.length ∧ T.endType bb = some .terminatorInst then
          some ((⟨f₀.act, r.pos, b.bbID, b.start⟩ : Frame), fs₀) else none
      else if b.bbID = f₀.bbID ∧ b.stop = f₀.start then some ({ f₀ with start := b.start }, fs₀)
      else none) = some (f, fs) := h
    split_ifs at h with hstart hc hc
    · cases h
      exact .execution hlast' hframes hstart hc.1 hc.2
    · cases h
      exact .part hlast' hframes (Nat.pos_of_ne_zero hstart) hc.1 hc.2

/-- **A block** is a declaration, or it continues what has been read, its executions are met, and at
the first block of an activation the frame is left. -/
theorem readStep_cases (h : readStep T r b = some r') :
    (b.type = .declareBlock ∧ r' = { r with pos := r.pos + 1 }) ∨
      (b.type ≠ .declareBlock ∧ ∃ bb f fs, T.bb2Ins[b.bbID]? = some bb ∧ b.Fits bb ∧
        Opens T r bb b f fs ∧ (0 < b.isFirst → f.start = 0) ∧
        r' = { r.meets T f b with
          pos := (r.meets T f b).pos + 1
          frames := Function.update (r.meets T f b).frames b.tid
            (if 0 < b.isFirst then fs else f :: fs) }) := by
  unfold readStep at h
  split_ifs at h with htype
  · cases h
    exact Or.inl ⟨htype, rfl⟩
  rcases Option.bind_eq_some_iff.mp h with ⟨bb, hbb, h⟩
  split_ifs at h with hfits
  rcases Option.bind_eq_some_iff.mp h with ⟨⟨f, fs⟩, hopen, h⟩
  refine Or.inr ⟨htype, bb, f, fs, hbb, hfits, Reading.open_cases hopen, ?_⟩
  replace h : (r.meets T f b).leave f fs b = some r' := h
  unfold Reading.leave at h
  by_cases hfirst : 0 < b.isFirst
  · rw [if_pos hfirst] at h
    split_ifs at h with hstart
    cases h
    exact ⟨fun _ => hstart, by rw [if_pos hfirst]⟩
  · rw [if_neg hfirst] at h
    cases h
    exact ⟨fun hf => absurd hf hfirst, by rw [if_neg hfirst]⟩

/-! ## Meeting executions -/

theorem foldl_meet_frames (ids : List Nat) (r : Reading) :
    (ids.foldl (Reading.meet tid f) r).pos = r.pos ∧
      (ids.foldl (Reading.meet tid f) r).frames = r.frames := by
  induction ids generalizing r with
  | nil => exact ⟨rfl, rfl⟩
  | cons id ids ih => exact ih (r.meet tid f id)

@[simp] theorem meets_pos : (r.meets T f b).pos = r.pos := (foldl_meet_frames _ r).1

@[simp] theorem meets_frames : (r.meets T f b).frames = r.frames := (foldl_meet_frames _ r).2

/-- What an execution that has been met belongs to. -/
theorem mem_foldl_meet {ids : List Nat} {r : Reading} {i : Instance}
    (h : i ∈ (ids.foldl (Reading.meet tid f) r).insts) :
    i ∈ r.insts ∨ (i.inst.tid = tid ∧ i.inst.id ∈ ids ∧ i.act = f.act ∧ i.exec = f.exec) := by
  induction ids generalizing r with
  | nil => exact Or.inl h
  | cons id ids ih =>
    rcases ih h with h | ⟨htid, hid, hact, hexec⟩
    · rcases List.mem_cons.mp h with rfl | h
      · exact Or.inr ⟨rfl, List.mem_cons_self, rfl, rfl⟩
      · exact Or.inl h
    · exact Or.inr ⟨htid, List.mem_cons_of_mem _ hid, hact, hexec⟩

/-! ## The order of the activations -/

/-- Activations and executions are numbered as they are met: what is open inside has been met later.
-/
structure Reading.Ordered (T : Tables) (r : Reading) : Prop where
  insts : ∀ i ∈ r.insts, i.act ≤ i.exec ∧ i.exec < r.pos
  frames : ∀ tid, ∀ f ∈ r.frames tid, f.act ≤ f.exec ∧ f.exec < r.pos ∧
    ∃ bb, T.bb2Ins[f.bbID]? = some bb ∧ f.start < bb.length
  nested : ∀ tid, (r.frames tid).Pairwise fun f g => g.exec < f.act

theorem Opens.bbID (h : Opens T r bb b f fs) : f.bbID = b.bbID ∧ f.start = b.start := by
  cases h with
  | activation | execution => exact ⟨rfl, rfl⟩
  | part _ _ _ hbbID => exact ⟨hbbID.symm, rfl⟩

/-- The frame of a block and those below it. -/
theorem Reading.Ordered.opens (h : r.Ordered T) (hopens : Opens T r bb b f fs) :
    f.act ≤ f.exec ∧ f.exec ≤ r.pos ∧ (∀ g ∈ fs, g.exec < f.act) ∧
      (∀ g ∈ fs, g ∈ r.frames b.tid) ∧ fs.Pairwise fun f g => g.exec < f.act := by
  cases hopens with
  | activation =>
    refine ⟨le_refl _, le_refl _, fun g hg => ?_, fun g hg => hg, h.nested b.tid⟩
    exact (h.frames b.tid g hg).2.1
  | @execution f₀ fs hlast hframes =>
    have hnested := h.nested b.tid
    rw [hframes] at hnested ⊢
    rcases List.pairwise_cons.mp hnested with ⟨hbelow, hnested⟩
    have hf := h.frames b.tid f₀ (by rw [hframes]; exact List.mem_cons_self)
    refine ⟨?_, le_refl _, hbelow, fun g hg => List.mem_cons_of_mem _ hg, hnested⟩
    show f₀.act ≤ r.pos
    omega
  | @part f₀ fs hlast hframes =>
    have hnested := h.nested b.tid
    rw [hframes] at hnested ⊢
    rcases List.pairwise_cons.mp hnested with ⟨hbelow, hnested⟩
    have hf := h.frames b.tid f₀ (by rw [hframes]; exact List.mem_cons_self)
    exact ⟨hf.1, hf.2.1.le, hbelow, fun g hg => List.mem_cons_of_mem _ hg, hnested⟩

theorem Reading.Ordered.step (h : r.Ordered T) (hstep : readStep T r b = some r') :
    r'.Ordered T := by
  rcases readStep_cases hstep with ⟨-, rfl⟩ | ⟨-, bb, f, fs, hbb, hfits, hopens, -, rfl⟩
  · refine ⟨fun i hi => ?_, fun tid f hf => ?_, h.nested⟩
    · exact ⟨(h.insts i hi).1, Nat.lt_succ_of_lt (h.insts i hi).2⟩
    · rcases h.frames tid f hf with ⟨hact, hexec, hbb⟩
      exact ⟨hact, Nat.lt_succ_of_lt hexec, hbb⟩
  rcases h.opens hopens with ⟨hact, hexec, hbelow, hold, hnested⟩
  have hstart : f.start < bb.length := by
    have := hfits.1
    have := hfits.2.1
    rw [hopens.bbID.2]
    omega
  have hrest : ∀ g ∈ (if 0 < b.isFirst then fs else f :: fs), g.act ≤ g.exec ∧ g.exec < r.pos + 1 ∧
      ∃ bb, T.bb2Ins[g.bbID]? = some bb ∧ g.start < bb.length := by
    have hfs : ∀ g ∈ fs, g.act ≤ g.exec ∧ g.exec < r.pos + 1 ∧
        ∃ bb, T.bb2Ins[g.bbID]? = some bb ∧ g.start < bb.length := by
      intro g hg
      rcases h.frames b.tid g (hold g hg) with ⟨hact, hexec, hbb⟩
      exact ⟨hact, Nat.lt_succ_of_lt hexec, hbb⟩
    intro g hg
    split_ifs at hg
    · exact hfs g hg
    · rcases List.mem_cons.mp hg with rfl | hg
      · refine ⟨hact, Nat.lt_succ_of_le hexec, bb, ?_, hstart⟩
        rw [hopens.bbID.1]
        exact hbb
      · exact hfs g hg
  refine ⟨fun i hi => ?_, fun tid g hg => ?_, fun tid => ?_⟩
  · show i.act ≤ i.exec ∧ i.exec < (r.meets T f b).pos + 1
    rw [meets_pos]
    rcases mem_foldl_meet hi with hi | ⟨-, -, hiact, hiexec⟩
    · exact ⟨(h.insts i hi).1, Nat.lt_succ_of_lt (h.insts i hi).2⟩
    · rw [hiact, hiexec]
      exact ⟨hact, Nat.lt_succ_of_le hexec⟩
  · show g.act ≤ g.exec ∧ g.exec < (r.meets T f b).pos + 1 ∧ _
    replace hg : g ∈ Function.update (r.meets T f b).frames b.tid
      (if 0 < b.isFirst then fs else f :: fs) tid := hg
    rw [meets_pos]
    rw [meets_frames] at hg
    by_cases ht : tid = b.tid
    · rw [ht, Function.update_self] at hg
      exact hrest g hg
    · rw [Function.update_of_ne ht] at hg
      rcases h.frames tid g hg with ⟨hact, hexec, hbb⟩
      exact ⟨hact, Nat.lt_succ_of_lt hexec, hbb⟩
  · show (Function.update (r.meets T f b).frames b.tid _ tid).Pairwise _
    rw [meets_frames]
    by_cases ht : tid = b.tid
    · rw [ht, Function.update_self]
      split_ifs
      · exact hnested
      · exact List.pairwise_cons.mpr ⟨hbelow, hnested⟩
    · rw [Function.update_of_ne ht]
      exact h.nested tid

theorem ordered_of_run {pre : List SmallestBlock} (h : run (readStep T) {} pre = some r) :
    r.Ordered T := by
  refine run_invariant (P := Reading.Ordered T) (fun _ _ _ h hstep => h.step hstep) ?_ h
  exact ⟨fun _ hi => (nomatch hi), fun _ _ hf => (nomatch hf), fun _ => List.Pairwise.nil⟩

/-- All names have been given. -/
def Reading.Named (r : Reading) : Prop :=
  ∀ i ∈ r.insts, -(r.count i.inst.key : Int) < i.inst.cnt ∧ i.inst.cnt ≤ 0

theorem Reading.Named.meet (h : r.Named) (id : Nat) : (r.meet tid f id).Named := by
  have hcount : ∀ key, r.count key ≤ (r.meet tid f id).count key := by
    intro key
    show _ ≤ Function.update r.count (tid, id) _ key
    by_cases hkey : key = (tid, id)
    · rw [hkey, Function.update_self]
      exact Nat.le_succ _
    · rw [Function.update_of_ne hkey]
  intro i hi
  rcases List.mem_cons.mp hi with rfl | hi
  · have hself : (r.meet tid f id).count (tid, id) = r.count (tid, id) + 1 := Function.update_self ..
    show -((r.meet tid f id).count (tid, id) : Int) < -r.count (tid, id) ∧ _ ≤ _
    rw [hself]
    constructor
    · omega
    · show -(r.count (tid, id) : Int) ≤ 0
      omega
  · have := h i hi
    have := hcount i.inst.key
    omega

/-- The name an execution gets is new. -/
theorem Reading.Named.fresh (h : r.Named) {i : Instance} (hi : i ∈ r.insts) (tid id : Nat) :
    i.inst ≠ ⟨tid, id, -r.count (tid, id)⟩ := by
  intro heq
  have := (h i hi).1
  rw [heq] at this
  exact lt_irrefl _ this

end

end Slimmer
