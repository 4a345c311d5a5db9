import Slimmer.RingInvariant

/-!
# The ring is a FIFO without overwriting

**Theorem (`ring_fifo`).** In every run of the ring, with any number of buffers and threads:

* no thread writes into a buffer unless every block handed off from it has been compressed;
* nothing is written into a compressed buffer unless every block handed on from it has been dumped;
* the blocks in the file are the compressions of the first blocks handed off, in order.

What was done at one slot is counted over the actions of the run, so the theorem does not rest on
the history the state records.
-/

namespace Slimmer

/-! ## Kinds of actions -/

/-- The signal of `filled_buffer[i]`. -/
def RingAct.handsOff (i : Nat) : RingAct → Bool
  | .handOff _ j => j = i
  | _ => false

/-- The end of a compression of `buffer[i]`. -/
def RingAct.endsCompression (i : Nat) : RingAct → Bool
  | .compressEnd j => j = i
  | _ => false

/-- The signal of `filled_compressed[i]`. -/
def RingAct.handsOn (i : Nat) : RingAct → Bool
  | .compressSignalFilled j => j = i
  | _ => false

/-- The end of a dump of `compressed[i]`. -/
def RingAct.endsDump (i : Nat) : RingAct → Bool
  | .dumpEnd j => j = i
  | _ => false

/-- A store into `buffer[i]`. -/
def RingAct.writesBuffer (i : Nat) : RingAct → Bool
  | .fill _ j | .store _ j _ _ | .storeEnd _ j => j = i
  | _ => false

/-- A store into `compressed[i]` or `after_compressed[i]`. -/
def RingAct.writesCompressed (i : Nat) : RingAct → Bool
  | .compressScratch j _ | .compressEnd j => j = i
  | _ => false

/-- Who takes an action. -/
inductive Party
  | thread
  | compress
  | dump
  deriving DecidableEq, Repr

/-- Who takes an action. -/
def RingAct.party : RingAct → Party
  | .compressTest | .compressTakeFilled _ | .compressTakeEmpty _ | .compressScratch ..
  | .compressEnd _ | .compressSignalFilled _ | .compressSignalEmpty _ => .compress
  | .dumpTest | .dumpTakeFilled _ | .dumpEnd _ | .dumpSignalEmpty _ => .dump
  | _ => .thread

section

variable {cfg : RingConfig} {s s' : RingState} {a : RingAct}

/-- A thread leaves the other two parties where they are. -/
theorem thread_frame (ha : a.party = .thread) (hstep : ringStep cfg s a = some s') :
    s'.squeezed = s.squeezed ∧ s'.compressPc = s.compressPc ∧ s'.written = s.written ∧
      s'.dumpPc = s.dumpPc := by
  cases a <;> simp only [RingAct.party, reduceCtorEq] at ha <;> simp only [ringStep] at hstep
  all_goals
    repeat' split at hstep
    all_goals first | (cases hstep; exact ⟨rfl, rfl, rfl, rfl⟩) | cases hstep

/-- `CompressTrace` leaves the threads and the dump where they are. -/
theorem compress_frame (ha : a.party = .compress) (hstep : ringStep cfg s a = some s') :
    s'.handed = s.handed ∧ s'.acquired = s.acquired ∧ s'.written = s.written ∧
      s'.dumpPc = s.dumpPc ∧ s'.compressDone = s.compressDone ∧ s'.dumpDone = s.dumpDone := by
  cases a <;> simp only [RingAct.party, reduceCtorEq] at ha
  case compressTest =>
    obtain ⟨pc, -, rfl⟩ := Option.map_eq_some_iff.mp hstep
    exact ⟨rfl, rfl, rfl, rfl, rfl, rfl⟩
  all_goals
    simp only [ringStep] at hstep
    split_ifs at hstep
    cases hstep
    exact ⟨rfl, rfl, rfl, rfl, rfl, rfl⟩

/-- `DumpCompressed` leaves the threads and the compression where they are. -/
theorem dump_frame (ha : a.party = .dump) (hstep : ringStep cfg s a = some s') :
    s'.handed = s.handed ∧ s'.acquired = s.acquired ∧ s'.squeezed = s.squeezed ∧
      s'.compressPc = s.compressPc ∧ s'.compressDone = s.compressDone ∧
      s'.dumpDone = s.dumpDone := by
  cases a <;> simp only [RingAct.party, reduceCtorEq] at ha
  case dumpTest =>
    obtain ⟨pc, -, rfl⟩ := Option.map_eq_some_iff.mp hstep
    exact ⟨rfl, rfl, rfl, rfl, rfl, rfl⟩
  all_goals
    simp only [ringStep] at hstep
    split_ifs at hstep
    cases hstep
    exact ⟨rfl, rfl, rfl, rfl, rfl, rfl⟩

/-! ## Slots -/

/-- A hand-off is from the buffer of its turn. -/
theorem RingInv.handOff_slot (h : RingInv cfg s) {p j : Nat}
    (hstep : ringStep cfg s (.handOff p j) = some s') :
    j = s.handed.length % cfg.cnt ∧ s'.handed = s.handed ++ [s.content cfg j] := by
  simp only [ringStep] at hstep
  split_ifs at hstep with hj
  split at hstep
  · rename_i c length k hpc
    split_ifs at hstep
    cases hstep
    exact ⟨hj.trans (h.head.cur_of_holds (p := p) (by rw [hpc]; rfl)), rfl⟩
  · rename_i hpc
    cases hstep
    exact ⟨hj.trans (h.head.owner_of_closes (p := p) (by rw [hpc]; rfl) (by rw [hpc]; rfl)).2, rfl⟩
  · cases hstep

/-- A store is into the buffer of the turn, which its thread owns. -/
theorem RingInv.writesBuffer_slot (h : RingInv cfg s) {i : Nat} (hw : a.writesBuffer i = true)
    (hstep : ringStep cfg s a = some s') :
    i = s.handed.length % cfg.cnt ∧ s.acquired = s.handed.length + 1 := by
  -- whoever stores holds the lock and does not wait
  have howner : ∀ {p : Nat}, i = s.curBlock → (s.pc p).holds = true → (s.pc p).ownsNone = false →
      i = s.handed.length % cfg.cnt ∧ s.acquired = s.handed.length + 1 := fun hi hholds hown =>
    ⟨hi.trans (h.head.cur_of_holds hholds), h.head.acquired_of_holds hholds hown⟩
  cases a <;> simp only [RingAct.writesBuffer, decide_eq_true_eq, Bool.false_eq_true] at hw
  case fill p j =>
    subst hw
    simp only [ringStep] at hstep
    split_ifs at hstep with hj
    split at hstep
    · rename_i c length k hpc
      exact howner (p := p) hj (by rw [hpc]; rfl) (by rw [hpc]; rfl)
    · rename_i k hpc
      exact howner (p := p) hj (by rw [hpc]; rfl) (by rw [hpc]; rfl)
    · cases hstep
  case store p j k v =>
    subst hw
    simp only [ringStep] at hstep
    split at hstep
    · rename_i ret length hpc
      split_ifs at hstep with hc
      exact howner (p := p) hc.1 (by rw [hpc]; rfl) (by rw [hpc]; rfl)
    · cases hstep
  case storeEnd p j =>
    subst hw
    simp only [ringStep] at hstep
    split at hstep
    · rename_i ret length hpc
      split_ifs at hstep with hj
      exact howner (p := p) hj (by rw [hpc]; rfl) (by rw [hpc]; rfl)
    · cases hstep

/-- LZ4 writes where its turn is. -/
theorem RingInv.writesCompressed_slot (h : RingInv cfg s) {i : Nat}
    (hw : a.writesCompressed i = true) (hstep : ringStep cfg s a = some s') :
    i = s.squeezed % cfg.cnt ∧ s.compressPc = .body i .compressing := by
  have hpc : s.compressPc = .body i .compressing := by
    cases a <;> simp only [RingAct.writesCompressed, decide_eq_true_eq, Bool.false_eq_true] at hw
    all_goals
      subst hw
      simp only [ringStep] at hstep
      split_ifs at hstep with hpc
      exact hpc
  have hloop := h.compressLoop
  rw [hpc] at hloop
  exact ⟨hloop.2, hpc⟩

/-! ## Counting -/

/-- The compression of the turn in progress has ended. -/
def CompressPc.ended : CompressPc → Bool
  | .signalFilled | .signalEmpty => true
  | _ => false

/-- The hand-offs at slot `i` are the turns of the producers there. -/
theorem RingInv.count_handsOff (h : RingInv cfg s) (i : Nat)
    (hstep : ringStep cfg s a = some s') :
    turns cfg.cnt i s'.handed.length =
      turns cfg.cnt i s.handed.length + if a.handsOff i then 1 else 0 := by
  cases hparty : a.party with
  | thread =>
    cases a <;> simp only [RingAct.party, reduceCtorEq] at hparty
    case handOff p j =>
      obtain ⟨hj, hh⟩ := h.handOff_slot hstep
      rw [hh, List.length_append, List.length_singleton, turns_succ, ← hj]
      simp [RingAct.handsOff]
    all_goals
      simp only [ringStep] at hstep
      repeat' split at hstep
      all_goals first | (cases hstep; rfl) | cases hstep
  | compress =>
    rw [(compress_frame hparty hstep).1]
    cases a <;> simp only [RingAct.party, reduceCtorEq] at hparty <;> rfl
  | dump =>
    rw [(dump_frame hparty hstep).1]
    cases a <;> simp only [RingAct.party, reduceCtorEq] at hparty <;> rfl

/-- What one turn more counts at slot `i`. -/
theorem turns_turn {cnt n i j : Nat} (hj : j = n % cnt) :
    turns cnt i (n + 1) = turns cnt i n + if decide (j = i) = true then 1 else 0 := by
  rw [turns_succ, ← hj]
  simp

/-- The compressions ended at slot `i` are the turns of `CompressTrace` there. -/
theorem RingInv.count_endsCompression (h : RingInv cfg s) (i : Nat)
    (hstep : ringStep cfg s a = some s') :
    turns cfg.cnt i (s'.squeezed + s'.compressPc.past CompressPc.ended) =
      turns cfg.cnt i (s.squeezed + s.compressPc.past CompressPc.ended) +
        if a.endsCompression i then 1 else 0 := by
  cases hparty : a.party with
  | thread =>
    obtain ⟨hq, hpc, -⟩ := thread_frame hparty hstep
    rw [hq, hpc]
    cases a <;> simp only [RingAct.party, reduceCtorEq] at hparty <;> rfl
  | dump =>
    obtain ⟨-, -, hq, hpc, -⟩ := dump_frame hparty hstep
    rw [hq, hpc]
    cases a <;> simp only [RingAct.party, reduceCtorEq] at hparty <;> rfl
  | compress =>
    have hloop := h.compressLoop
    cases a <;> simp only [RingAct.party, reduceCtorEq] at hparty
    case compressTest =>
      obtain ⟨pc, hpc, rfl⟩ := Option.map_eq_some_iff.mp hstep
      show turns _ _ (_ + pc.past _) = _
      rw [(hloop.test hpc).2 _ rfl]
      rfl
    all_goals simp only [ringStep] at hstep
    case compressTakeFilled j | compressTakeEmpty j =>
      split_ifs at hstep with hc
      cases hstep
      rw [hc.1]
      rfl
    case compressEnd j =>
      split_ifs at hstep with hc
      cases hstep
      rw [hc] at hloop ⊢
      exact turns_turn hloop.2
    case compressScratch j l | compressSignalFilled j | compressSignalEmpty j =>
      split_ifs at hstep with hc
      cases hstep
      rw [hc]
      rfl

/-- The hand-ons at slot `i` are the turns of `CompressTrace` that have come that far. -/
theorem RingInv.count_handsOn (h : RingInv cfg s) (i : Nat) (hstep : ringStep cfg s a = some s') :
    turns cfg.cnt i (s'.squeezed + s'.compressPc.past CompressPc.signalled) =
      turns cfg.cnt i (s.squeezed + s.compressPc.past CompressPc.signalled) +
        if a.handsOn i then 1 else 0 := by
  cases hparty : a.party with
  | thread =>
    obtain ⟨hq, hpc, -⟩ := thread_frame hparty hstep
    rw [hq, hpc]
    cases a <;> simp only [RingAct.party, reduceCtorEq] at hparty <;> rfl
  | dump =>
    obtain ⟨-, -, hq, hpc, -⟩ := dump_frame hparty hstep
    rw [hq, hpc]
    cases a <;> simp only [RingAct.party, reduceCtorEq] at hparty <;> rfl
  | compress =>
    have hloop := h.compressLoop
    cases a <;> simp only [RingAct.party, reduceCtorEq] at hparty
    case compressTest =>
      obtain ⟨pc, hpc, rfl⟩ := Option.map_eq_some_iff.mp hstep
      show turns _ _ (_ + pc.past _) = _
      rw [(hloop.test hpc).2 _ rfl]
      rfl
    all_goals simp only [ringStep] at hstep
    case compressTakeFilled j | compressTakeEmpty j =>
      split_ifs at hstep with hc
      cases hstep
      rw [hc.1]
      rfl
    case compressSignalFilled j =>
      split_ifs at hstep with hc
      cases hstep
      rw [hc] at hloop ⊢
      exact turns_turn hloop.2
    case compressScratch j l | compressEnd j | compressSignalEmpty j =>
      split_ifs at hstep with hc
      cases hstep
      rw [hc]
      rfl

/-- The dumps ended at slot `i` are the turns of `DumpCompressed` there. -/
theorem RingInv.count_endsDump (h : RingInv cfg s) (i : Nat) (hstep : ringStep cfg s a = some s') :
    turns cfg.cnt i (s'.written + s'.dumpPc.past DumpPc.dumped) =
      turns cfg.cnt i (s.written + s.dumpPc.past DumpPc.dumped) +
        if a.endsDump i then 1 else 0 := by
  cases hparty : a.party with
  | thread =>
    obtain ⟨-, -, hw, hpc⟩ := thread_frame hparty hstep
    rw [hw, hpc]
    cases a <;> simp only [RingAct.party, reduceCtorEq] at hparty <;> rfl
  | compress =>
    obtain ⟨-, -, hw, hpc, -⟩ := compress_frame hparty hstep
    rw [hw, hpc]
    cases a <;> simp only [RingAct.party, reduceCtorEq] at hparty <;> rfl
  | dump =>
    have hloop := h.dumpLoop
    cases a <;> simp only [RingAct.party, reduceCtorEq] at hparty
    case dumpTest =>
      obtain ⟨pc, hpc, rfl⟩ := Option.map_eq_some_iff.mp hstep
      show turns _ _ (_ + pc.past _) = _
      rw [(hloop.test hpc).2 _ rfl]
      rfl
    all_goals simp only [ringStep] at hstep
    case dumpTakeFilled j =>
      split_ifs at hstep with hc
      cases hstep
      rw [hc.1]
      rfl
    case dumpEnd j =>
      split_ifs at hstep with hc
      cases hstep
      rw [hc] at hloop ⊢
      exact turns_turn hloop.2
    case dumpSignalEmpty j =>
      split_ifs at hstep with hc
      cases hstep
      rw [hc]
      rfl

/-! ## The theorem -/

variable {buffer : Nat → Nat → UInt8} {compressed : Nat → List UInt8} {as : List RingAct}

/-- The invariant and the counts after a run. -/
theorem ring_counts (hcnt : 0 < cfg.cnt)
    (hrun : run (ringStep cfg) (RingState.init buffer compressed) as = some s) (i : Nat) :
    as.countP (RingAct.handsOff i) = turns cfg.cnt i s.handed.length ∧
      as.countP (RingAct.endsCompression i) =
        turns cfg.cnt i (s.squeezed + s.compressPc.past CompressPc.ended) ∧
      as.countP (RingAct.handsOn i) =
        turns cfg.cnt i (s.squeezed + s.compressPc.past CompressPc.signalled) ∧
      as.countP (RingAct.endsDump i) =
        turns cfg.cnt i (s.written + s.dumpPc.past DumpPc.dumped) := by
  have hinit : RingInv cfg (RingState.init buffer compressed) := RingInv.init buffer compressed
  have h₁ := run_countP (fun s a s' (h : RingInv cfg s) (hs : ringStep cfg s a = some s') =>
    ⟨h.step hcnt hs, h.count_handsOff i hs⟩) hinit hrun
  have h₂ := run_countP (fun s a s' (h : RingInv cfg s) (hs : ringStep cfg s a = some s') =>
    ⟨h.step hcnt hs, h.count_endsCompression i hs⟩) hinit hrun
  have h₃ := run_countP (fun s a s' (h : RingInv cfg s) (hs : ringStep cfg s a = some s') =>
    ⟨h.step hcnt hs, h.count_handsOn i hs⟩) hinit hrun
  have h₄ := run_countP (fun s a s' (h : RingInv cfg s) (hs : ringStep cfg s a = some s') =>
    ⟨h.step hcnt hs, h.count_endsDump i hs⟩) hinit hrun
  simp only [RingState.init, List.length_nil, LoopPc.past, Nat.add_zero, turns_zero,
    Nat.zero_add] at h₁ h₂ h₃ h₄
  exact ⟨h₁.symm, h₂.symm, h₃.symm, h₄.symm⟩

/-- A thread only stores into a buffer whose blocks have all been compressed. -/
theorem RingInv.writesBuffer_turns (h : RingInv cfg s) {i : Nat} (hw : a.writesBuffer i = true)
    (hstep : ringStep cfg s a = some s') :
    turns cfg.cnt i s.handed.length ≤ turns cfg.cnt i s.squeezed := by
  obtain ⟨hi, hacq⟩ := h.writesBuffer_slot hw hstep
  have hbal := h.tokens.emptyBuffer i
  rw [hacq, turns_succ, if_pos hi.symm] at hbal
  omega

/-- LZ4 only writes where all blocks have been dumped. -/
theorem RingInv.writesCompressed_turns (h : RingInv cfg s) {i : Nat}
    (hw : a.writesCompressed i = true) (hstep : ringStep cfg s a = some s') :
    turns cfg.cnt i (s.squeezed + s.compressPc.past CompressPc.signalled) ≤
      turns cfg.cnt i s.written := by
  obtain ⟨hi, hpc⟩ := h.writesCompressed_slot hw hstep
  have hbal := h.tokens.emptyCompressed i
  rw [hpc] at hbal ⊢
  have hsucc : turns cfg.cnt i (s.squeezed + 1) = turns cfg.cnt i s.squeezed + 1 := by
    rw [turns_succ, if_pos hi.symm]
  change s.emptyCompressed i + turns cfg.cnt i (s.squeezed + 1) = _ at hbal
  change turns cfg.cnt i s.squeezed ≤ _
  omega

/-- **The ring is a FIFO without overwriting.** In every run: when a thread stores into `buffer[i]`,
as many compressions of `buffer[i]` have ended as blocks were handed off from it; when LZ4 writes
into `compressed[i]`, as many dumps of `compressed[i]` have ended as blocks were handed on from it;
and the file holds the compressions of the first blocks handed off. -/
theorem ring_fifo (hcnt : 0 < cfg.cnt)
    (hrun : run (ringStep cfg) (RingState.init buffer compressed) as = some s) :
    (∀ i pre a post, as = pre ++ a :: post → a.writesBuffer i = true →
      pre.countP (RingAct.handsOff i) ≤ pre.countP (RingAct.endsCompression i)) ∧
    (∀ i pre a post, as = pre ++ a :: post → a.writesCompressed i = true →
      pre.countP (RingAct.handsOn i) ≤ pre.countP (RingAct.endsDump i)) ∧
    s.file <+: s.handed.map cfg.compress := by
  refine ⟨fun i pre a post has hw => ?_, fun i pre a post has hw => ?_, ?_⟩
  · subst has
    obtain ⟨s₁, hpre, hpost⟩ := run_append_eq_some.mp hrun
    obtain ⟨s₂, hstep, -⟩ := run_cons_eq_some.mp hpost
    obtain ⟨h₁, h₂, -, -⟩ := ring_counts hcnt hpre i
    rw [h₁, h₂]
    exact ((ringInv_run hcnt hpre).writesBuffer_turns hw hstep).trans
      (turns_mono (Nat.le_add_right _ _))
  · subst has
    obtain ⟨s₁, hpre, hpost⟩ := run_append_eq_some.mp hrun
    obtain ⟨s₂, hstep, -⟩ := run_cons_eq_some.mp hpost
    obtain ⟨-, -, h₃, h₄⟩ := ring_counts hcnt hpre i
    rw [h₃, h₄]
    exact ((ringInv_run hcnt hpre).writesCompressed_turns hw hstep).trans
      (turns_mono (Nat.le_add_right _ _))
  · rw [(ringInv_run hcnt hrun).contents.file]
    exact (List.take_prefix _ _).map _

end

/-- A ring of one buffer of two bytes; the bytes are stored as they are. -/
def oneBuffer : RingConfig where
  cnt := 1
  size := 2
  compress := id
  threads := 1

/-- A thread fills the only buffer, hands it off, and waits until it has been compressed. -/
def oneBufferRun : List RingAct :=
  [.call 0 2, .lock 0, .testFull 0, .store 0 0 0 7, .store 0 0 1 8, .unlock 0, .call 0 1, .lock 0,
    .testFull 0, .handOff 0 0, .compressTest, .compressTest, .compressTakeFilled 0,
    .compressTakeEmpty 0, .compressEnd 0, .compressSignalFilled 0, .compressSignalEmpty 0,
    .takeEmpty 0 0, .store 0 0 0 9]

theorem ring_fifo_oneBuffer :
    ∃ s, run (ringStep oneBuffer) (RingState.init (fun _ _ => 0) fun _ => []) oneBufferRun =
        some s ∧
      (∀ i pre a post, oneBufferRun = pre ++ a :: post → a.writesBuffer i = true →
        pre.countP (RingAct.handsOff i) ≤ pre.countP (RingAct.endsCompression i)) ∧
      (∀ i pre a post, oneBufferRun = pre ++ a :: post → a.writesCompressed i = true →
        pre.countP (RingAct.handsOn i) ≤ pre.countP (RingAct.endsDump i)) ∧
      s.file <+: s.handed.map oneBuffer.compress := by
  obtain ⟨s, hs⟩ := Option.isSome_iff_exists.mp (show (run (ringStep oneBuffer)
    (RingState.init (fun _ _ => 0) fun _ => []) oneBufferRun).isSome = true from rfl)
  exact ⟨s, hs, ring_fifo (by decide) hs⟩

end Slimmer
