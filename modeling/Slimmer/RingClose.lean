import Slimmer.RingFifo

/-!
# When closing the trace loses nothing

`CloseBufferFile` sets `compress_done` and `dump_done`, then hands off the last block, then waits
for the two threads. Both threads test their flag before every turn, whatever is still queued, so
each of them runs at most the turn it is in when its flag is set.

**Theorem (`close_iff`).** In a run at whose end `CloseBufferFile` has returned, the file holds all
blocks handed off if and only if

* when `compress_done` is set, `CompressTrace` is waiting for the very block that is handed off
  last, and
* when `dump_done` is set, `DumpCompressed` is, and has dumped all before it.

`compressLast` is the number of blocks `CompressTrace` has compressed when it leaves the turn it is
in. Once the flag is set that number no longer changes (`compressLast_step`).
-/

namespace Slimmer

/-- The condition on the two steps that set a flag. -/
def CloseOk (s : RingState) : RingAct → Prop
  | .setCompressDone _ => s.compressPc = .body s.curBlock .waitFilled
  | .setDumpDone _ =>
    s.dumpPc = .body s.curBlock .waitFilled ∧ s.filledCompressed s.curBlock = 0
  | _ => True

/-- The turns `CompressTrace` has run when it leaves the one it is in. -/
def RingState.compressLast (s : RingState) : Nat :=
  s.squeezed + s.compressPc.past fun _ => true

/-- The turns `DumpCompressed` has run when it leaves the one it is in. -/
def RingState.dumpLast (s : RingState) : Nat :=
  s.written + s.dumpPc.past fun _ => true

section

variable {cfg : RingConfig} {s s' : RingState} {a : RingAct} {p : Nat}

/-! ## After a flag is set -/

/-- With its flag set, a loop does not enter another turn. -/
theorem LoopPc.past_test_done {β : Type} {cnt : Nat} {first : β} {pc pc' : LoopPc β}
    (h : pc.test cnt true first = some pc') (f : β → Bool) : pc'.past f = pc.past f := by
  cases pc <;> simp [LoopPc.test] at h <;> subst h <;> rfl

theorem compressLast_step (hdone : s.compressDone = true)
    (hstep : ringStep cfg s a = some s') : s'.compressLast = s.compressLast := by
  unfold RingState.compressLast
  cases hparty : a.party with
  | thread =>
    obtain ⟨hq, hpc, -⟩ := thread_frame hparty hstep
    rw [hq, hpc]
  | dump =>
    obtain ⟨-, -, hq, hpc, -⟩ := dump_frame hparty hstep
    rw [hq, hpc]
  | compress =>
    cases a <;> simp only [RingAct.party, reduceCtorEq] at hparty
    case compressTest =>
      obtain ⟨pc, hpc, rfl⟩ := Option.map_eq_some_iff.mp hstep
      rw [hdone] at hpc
      show _ + pc.past _ = _
      rw [LoopPc.past_test_done hpc]
    all_goals simp only [ringStep] at hstep
    case compressTakeFilled j | compressTakeEmpty j =>
      split_ifs at hstep with hc
      cases hstep
      rw [hc.1]
      rfl
    case compressSignalEmpty j | compressEnd j | compressSignalFilled j =>
      split_ifs at hstep with hc
      cases hstep
      rw [hc]
      rfl
    case compressScratch j l =>
      split_ifs at hstep with hc
      cases hstep
      rw [hc]

theorem dumpLast_step (hdone : s.dumpDone = true)
    (hstep : ringStep cfg s a = some s') : s'.dumpLast = s.dumpLast := by
  unfold RingState.dumpLast
  cases hparty : a.party with
  | thread =>
    obtain ⟨-, -, hw, hpc⟩ := thread_frame hparty hstep
    rw [hw, hpc]
  | compress =>
    obtain ⟨-, -, hw, hpc, -⟩ := compress_frame hparty hstep
    rw [hw, hpc]
  | dump =>
    cases a <;> simp only [RingAct.party, reduceCtorEq] at hparty
    case dumpTest =>
      obtain ⟨pc, hpc, rfl⟩ := Option.map_eq_some_iff.mp hstep
      rw [hdone] at hpc
      show _ + pc.past _ = _
      rw [LoopPc.past_test_done hpc]
    all_goals simp only [ringStep] at hstep
    case dumpTakeFilled j =>
      split_ifs at hstep with hc
      cases hstep
      rw [hc.1]
      rfl
    case dumpEnd j | dumpSignalEmpty j =>
      split_ifs at hstep with hc
      cases hstep
      rw [hc]
      rfl

/-- A flag is only set by the closing thread, once it is past its `StartAppend`. -/
theorem Head.pc_of_compressDone (h : Head cfg s) (hdone : s.compressDone = true) :
    ∃ p, s.closer = some p ∧ (s.pc p).pastCompressDone = true ∧ ∀ q, q ≠ p → s.pc q = .idle := by
  cases hcloser : s.closer with
  | none => simp [(h.flagsNone hcloser).1] at hdone
  | some p => exact ⟨p, rfl, by rw [← (h.flags p hcloser).1, hdone], fun q hq => h.alone p q hcloser hq⟩

/-- After that no thread is given another buffer. -/
theorem acquired_step (h : RingInv cfg s) (hdone : s.compressDone = true)
    (hstep : ringStep cfg s a = some s') : s'.acquired = s.acquired := by
  cases hparty : a.party with
  | compress => exact (compress_frame hparty hstep).2.1
  | dump => exact (dump_frame hparty hstep).2.1
  | thread =>
    cases a <;> simp only [RingAct.party, reduceCtorEq] at hparty
    case takeEmpty q j =>
      obtain ⟨p, -, hpast, halone⟩ := h.head.pc_of_compressDone hdone
      simp only [ringStep] at hstep
      split at hstep
      · rename_i c length hpc
        by_cases hqp : q = p
        · subst hqp
          simp [hpc, Pc.pastCompressDone] at hpast
        · simp [halone q hqp] at hpc
      · cases hstep
    all_goals
      simp only [ringStep] at hstep
      repeat' split at hstep
      all_goals first | (cases hstep; rfl) | cases hstep

/-- The flags only change at the two steps that set them. -/
theorem flags_step (hstep : ringStep cfg s a = some s') :
    (s'.compressDone = s.compressDone ∨ ∃ p, a = .setCompressDone p) ∧
      (s'.dumpDone = s.dumpDone ∨ ∃ p, a = .setDumpDone p) := by
  cases hparty : a.party with
  | compress =>
    obtain ⟨-, -, -, -, hc, hd⟩ := compress_frame hparty hstep
    exact ⟨Or.inl hc, Or.inl hd⟩
  | dump =>
    obtain ⟨-, -, -, -, hc, hd⟩ := dump_frame hparty hstep
    exact ⟨Or.inl hc, Or.inl hd⟩
  | thread =>
    cases a <;> simp only [RingAct.party, reduceCtorEq] at hparty
    case setCompressDone p =>
      simp only [ringStep] at hstep
      split at hstep
      · cases hstep
        exact ⟨Or.inr ⟨p, rfl⟩, Or.inl rfl⟩
      · cases hstep
    case setDumpDone p =>
      simp only [ringStep] at hstep
      split at hstep
      · cases hstep
        exact ⟨Or.inl rfl, Or.inr ⟨p, rfl⟩⟩
      · cases hstep
    all_goals
      simp only [ringStep] at hstep
      repeat' split at hstep
      all_goals first | (cases hstep; exact ⟨Or.inl rfl, Or.inl rfl⟩) | cases hstep

/-! ## When a flag is set -/

/-- `CompressTrace` is no further than the producers, and at most a round behind. -/
theorem RingInv.squeezed_le (h : RingInv cfg s) :
    s.squeezed + s.compressPc.past CompressPc.tookFilled ≤ s.handed.length :=
  h.tokens.filledBuffer.taken_le

theorem CompressPc.signalled_le (pc : LoopPc CompressPc) :
    pc.past CompressPc.signalled ≤ pc.past CompressPc.tookFilled := by
  cases pc with
  | body i b => cases b <;> simp [LoopPc.past, CompressPc.signalled, CompressPc.tookFilled]
  | _ => exact le_rfl

/-- When `compress_done` is set: the last turn of `CompressTrace` is the last block iff the thread
is waiting for it. -/
theorem RingInv.compressLast_eq_iff (h : RingInv cfg s) (hcnt : 0 < cfg.cnt)
    (hpc : s.pc p = .setCompressDone) :
    s.compressLast = s.acquired ↔ s.compressPc = .body s.curBlock .waitFilled := by
  obtain ⟨hacq, hcur⟩ := h.head.owner_of_closes (p := p) (by rw [hpc]; rfl) (by rw [hpc]; rfl)
  have hle := h.squeezed_le
  have hloop := h.compressLoop
  unfold RingState.compressLast
  constructor
  · intro hlast
    cases hq : s.compressPc with
    | outerTest | innerTest i | finished =>
      simp only [hq, LoopPc.past] at hlast hle
      omega
    | body i b =>
      rw [hq] at hlast hle hloop
      simp only [LoopPc.past, Bool.toNat_true] at hlast hle
      have hb : b = .waitFilled := by
        cases b with
        | waitFilled => rfl
        | _ =>
          simp only [CompressPc.tookFilled, Bool.toNat_true] at hle
          omega
      have hsq : s.squeezed = s.handed.length := by omega
      rw [hb, hcur, hloop.2, hsq]
  · intro hq
    rw [hq] at hle hloop ⊢
    have hround := h.tokens.emptyBuffer.taken_le_add hcnt
    have hle : s.squeezed ≤ s.handed.length := hle
    -- both are at `cur_block`, less than a round apart
    have hsq : s.squeezed = s.handed.length := by
      by_contra hne
      exact mod_ne_of_lt (N := cfg.cnt) (show s.squeezed < s.handed.length by omega) (by omega)
        (hloop.2.symm.trans hcur)
    rw [hsq, hacq]
    rfl

/-- When `dump_done` is set: the last turn of `DumpCompressed` is the last block iff the thread is
waiting for it. -/
theorem RingInv.dumpLast_eq_iff (h : RingInv cfg s) (hcnt : 0 < cfg.cnt)
    (hpc : s.pc p = .setDumpDone) :
    s.dumpLast = s.acquired ↔
      s.dumpPc = .body s.curBlock .waitFilled ∧ s.filledCompressed s.curBlock = 0 := by
  obtain ⟨hacq, hcur⟩ := h.head.owner_of_closes (p := p) (by rw [hpc]; rfl) (by rw [hpc]; rfl)
  have hbal := h.tokens.filledCompressed
  have hround := h.tokens.emptyBuffer.taken_le_add hcnt
  have hloop := h.dumpLoop
  -- `q` compressed blocks have been handed on
  obtain ⟨q, hq⟩ : ∃ q, s.squeezed + s.compressPc.past CompressPc.signalled = q := ⟨_, rfl⟩
  have hsq : s.squeezed ≤ q := by omega
  have hqle : q ≤ s.handed.length := by
    have := h.squeezed_le
    have := CompressPc.signalled_le s.compressPc
    omega
  rw [hq] at hbal
  have hle := hbal.taken_le
  unfold RingState.dumpLast
  constructor
  · intro hlast
    cases hw : s.dumpPc with
    | outerTest | innerTest i | finished =>
      simp only [hw, LoopPc.past] at hlast hle
      omega
    | body i b =>
      rw [hw] at hlast hle hloop hbal
      simp only [LoopPc.past, Bool.toNat_true] at hlast hle
      have hb : b = .waitFilled := by
        cases b with
        | waitFilled => rfl
        | _ =>
          simp only [DumpPc.tookFilled, Bool.toNat_true] at hle
          omega
      have hwr : s.written = s.handed.length := by omega
      have hqeq : q = s.written := by omega
      refine ⟨by rw [hb, hcur, hloop.2, hwr], ?_⟩
      have := hbal s.curBlock
      rw [hqeq, hb] at this
      exact Nat.add_right_cancel (this.trans (Nat.add_comm _ _))
  · rintro ⟨hw, hsem⟩
    rw [hw] at hle hloop hbal ⊢
    have hle : s.written ≤ q := hle
    have hcurw : s.curBlock = s.written % cfg.cnt := hloop.2
    -- no compressed block is left for this slot
    have hwr : s.written = q := by
      by_contra hne
      have hlt := turns_lt (N := cfg.cnt) (le_refl s.written) (show s.written < q by omega)
      have : s.filledCompressed s.curBlock + turns cfg.cnt s.curBlock s.written =
        turns cfg.cnt s.curBlock q + 0 := hbal s.curBlock
      rw [hsem, hcurw] at this
      omega
    have hlast : s.written = s.handed.length := by
      by_contra hne
      exact mod_ne_of_lt (N := cfg.cnt) (show s.written < s.handed.length by omega) (by omega)
        (hcurw.symm.trans hcur)
    rw [hlast, hacq]
    rfl

/-! ## Runs -/

/-- After `compress_done` is set, the last turn of `CompressTrace` and the last buffer are
settled. -/
theorem compressLast_run (hcnt : 0 < cfg.cnt) (h : RingInv cfg s) (hdone : s.compressDone = true)
    {as : List RingAct} {t : RingState} (hrun : run (ringStep cfg) s as = some t) :
    t.compressLast = s.compressLast ∧ t.acquired = s.acquired := by
  have hinv := run_invariant (P := fun u => RingInv cfg u ∧ u.compressDone = true ∧
    u.compressLast = s.compressLast ∧ u.acquired = s.acquired)
    (fun u a u' hu hstep => ?_) ⟨h, hdone, rfl, rfl⟩ hrun
  · exact hinv.2.2
  · obtain ⟨hu, hdone, hlast, hacq⟩ := hu
    refine ⟨hu.step hcnt hstep, ?_, (compressLast_step hdone hstep).trans hlast,
      (acquired_step hu hdone hstep).trans hacq⟩
    obtain hsame | ⟨p, rfl⟩ := (flags_step hstep).1
    · rw [hsame, hdone]
    · simp only [ringStep] at hstep
      split at hstep <;> cases hstep
      rfl

/-- After `dump_done` is set, so is the last turn of `DumpCompressed`. -/
theorem dumpLast_run (hdone : s.dumpDone = true) {as : List RingAct} {t : RingState}
    (hrun : run (ringStep cfg) s as = some t) : t.dumpLast = s.dumpLast := by
  have hinv := run_invariant (P := fun u => u.dumpDone = true ∧ u.dumpLast = s.dumpLast)
    (fun u a u' hu hstep => ?_) ⟨hdone, rfl⟩ hrun
  · exact hinv.2
  · refine ⟨?_, (dumpLast_step hu.1 hstep).trans hu.2⟩
    obtain hsame | ⟨p, rfl⟩ := (flags_step hstep).2
    · rw [hsame, hu.1]
    · simp only [ringStep] at hstep
      split at hstep <;> cases hstep
      rfl

/-- The conditions on the two steps say that both threads end with the last block. -/
theorem closeOk_iff (hcnt : 0 < cfg.cnt) (h : RingInv cfg s) {as : List RingAct} {t : RingState}
    (hrun : run (ringStep cfg) s as = some t) (hclosed : t.pc p = .closed) :
    RunOk (ringStep cfg) CloseOk s as ↔
      (s.compressDone = false → t.compressLast = t.acquired) ∧
        (s.dumpDone = false → t.dumpLast = t.acquired) := by
  induction as generalizing s with
  | nil =>
    cases hrun
    have hcloser := (h.head.closer p).mp (by rw [hclosed]; rfl)
    obtain ⟨hc, hd⟩ := h.head.flags p hcloser
    rw [hclosed] at hc hd
    simp [hc, hd, Pc.pastCompressDone, Pc.pastDumpDone, RunOk.nil]
  | cons a as ih =>
    obtain ⟨s', hstep, hrest⟩ := run_cons_eq_some.mp hrun
    have h' := h.step hcnt hstep
    rw [runOk_cons hstep, ih h' hrest]
    obtain ⟨hc, hd⟩ := flags_step hstep
    by_cases hac : ∃ q, a = .setCompressDone q
    · obtain ⟨q, rfl⟩ := hac
      obtain ⟨hpc, hs'⟩ : s.pc q = .setCompressDone ∧
          s' = { s.goto q .setDumpDone with compressDone := true } := by
        simp only [ringStep] at hstep
        split at hstep
        · exact ⟨‹_›, (Option.some.inj hstep).symm⟩
        · cases hstep
      have hcloser := (h.head.closer q).mp (by rw [hpc]; rfl)
      obtain ⟨hcd, -⟩ := h.head.flags q hcloser
      rw [hpc] at hcd
      have hsd : s'.dumpDone = s.dumpDone := by rw [hs']; rfl
      have hdone : s'.compressDone = true := by rw [hs']
      obtain ⟨hlast, hacq⟩ := compressLast_run hcnt h' hdone hrest
      have hlast : t.compressLast = s.compressLast := hlast.trans (by rw [hs']; rfl)
      have hacq : t.acquired = s.acquired := hacq.trans (by rw [hs']; rfl)
      have hiff := h.compressLast_eq_iff hcnt hpc
      simp only [CloseOk, ← hiff, ← hlast, ← hacq, hsd, hdone, hcd, Pc.pastCompressDone]
      simp
    · by_cases had : ∃ q, a = .setDumpDone q
      · obtain ⟨q, rfl⟩ := had
        obtain ⟨hpc, hs'⟩ : s.pc q = .setDumpDone ∧
            s' = { s.goto q .signalLast with dumpDone := true } := by
          simp only [ringStep] at hstep
          split at hstep
          · exact ⟨‹_›, (Option.some.inj hstep).symm⟩
          · cases hstep
        have hcloser := (h.head.closer q).mp (by rw [hpc]; rfl)
        obtain ⟨hcd, hdd⟩ := h.head.flags q hcloser
        rw [hpc] at hcd hdd
        have hsc : s'.compressDone = s.compressDone := by rw [hs']; rfl
        have hdone : s'.dumpDone = true := by rw [hs']
        have hlast : t.dumpLast = s.dumpLast :=
          (dumpLast_run hdone hrest).trans (by rw [hs']; rfl)
        have hacq : t.acquired = s.acquired :=
          (compressLast_run hcnt h' (hsc.trans hcd) hrest).2.trans (by rw [hs']; rfl)
        have hiff := h.dumpLast_eq_iff hcnt hpc
        simp only [CloseOk, ← hiff, ← hlast, ← hacq, hsc, hdone, hcd, hdd, Pc.pastCompressDone,
          Pc.pastDumpDone]
        simp
      · have hok : CloseOk s a := by
          cases a <;> simp_all [CloseOk]
        rw [hc.resolve_right hac, hd.resolve_right had]
        simp [hok]

/-! ## The joins -/

/-- The thread has joined `CompressTrace`. -/
def Pc.joinedCompress : Pc → Bool
  | .joinDump | .closed => true
  | _ => false

/-- The thread has joined `DumpCompressed`. -/
def Pc.joinedDump : Pc → Bool
  | .closed => true
  | _ => false

/-- Who is past a join has joined a thread that has ended. -/
structure Joined (s : RingState) : Prop where
  compress : ∀ p, (s.pc p).joinedCompress = true → s.compressPc = .finished
  dump : ∀ p, (s.pc p).joinedDump = true → s.dumpPc = .finished

theorem Joined.goto (h : Joined s) {b : Pc} (hpc : s'.pc = Function.update s.pc p b)
    (hc : s'.compressPc = s.compressPc) (hd : s'.dumpPc = s.dumpPc)
    (hbc : b.joinedCompress = true → s.compressPc = .finished)
    (hbd : b.joinedDump = true → s.dumpPc = .finished) : Joined s' := by
  refine ⟨fun q hq => ?_, fun q hq => ?_⟩
  · rw [hc]
    rw [hpc] at hq
    by_cases hqp : q = p
    · rw [hqp, Function.update_self] at hq
      exact hbc hq
    · rw [Function.update_of_ne hqp] at hq
      exact h.compress q hq
  · rw [hd]
    rw [hpc] at hq
    by_cases hqp : q = p
    · rw [hqp, Function.update_self] at hq
      exact hbd hq
    · rw [Function.update_of_ne hqp] at hq
      exact h.dump q hq

theorem Joined.step (h : Joined s) (hstep : ringStep cfg s a = some s') : Joined s' := by
  cases hparty : a.party with
  | compress =>
    -- a thread that has ended takes no step
    have hpc : s'.pc = s.pc ∧ s'.dumpPc = s.dumpPc ∧ s.compressPc ≠ .finished := by
      cases a <;> simp only [RingAct.party, reduceCtorEq] at hparty
      case compressTest =>
        obtain ⟨pc, hpc, rfl⟩ := Option.map_eq_some_iff.mp hstep
        refine ⟨rfl, rfl, fun hf => ?_⟩
        simp [hf, LoopPc.test] at hpc
      all_goals
        simp only [ringStep] at hstep
        split_ifs at hstep with hc
        cases hstep
        exact ⟨rfl, rfl, fun hf => by simp [hf] at hc⟩
    obtain ⟨hpc, hd, hne⟩ := hpc
    refine ⟨fun q hq => ?_, fun q hq => ?_⟩
    · rw [hpc] at hq
      exact absurd (h.compress q hq) hne
    · rw [hpc] at hq
      exact hd.trans (h.dump q hq)
  | dump =>
    have hpc : s'.pc = s.pc ∧ s'.compressPc = s.compressPc ∧ s.dumpPc ≠ .finished := by
      cases a <;> simp only [RingAct.party, reduceCtorEq] at hparty
      case dumpTest =>
        obtain ⟨pc, hpc, rfl⟩ := Option.map_eq_some_iff.mp hstep
        refine ⟨rfl, rfl, fun hf => ?_⟩
        simp [hf, LoopPc.test] at hpc
      all_goals
        simp only [ringStep] at hstep
        split_ifs at hstep with hc
        cases hstep
        exact ⟨rfl, rfl, fun hf => by simp [hf] at hc⟩
    obtain ⟨hpc, hc, hne⟩ := hpc
    refine ⟨fun q hq => ?_, fun q hq => ?_⟩
    · rw [hpc] at hq
      exact hc.trans (h.compress q hq)
    · rw [hpc] at hq
      exact absurd (h.dump q hq) hne
  | thread =>
    cases a <;> simp only [RingAct.party, reduceCtorEq] at hparty
    case joinCompress q =>
      simp only [ringStep] at hstep
      split_ifs at hstep with hc
      cases hstep
      exact h.goto (b := .joinDump) rfl rfl rfl (fun _ => hc.2) (fun hb => absurd hb (by decide))
    case joinDump q =>
      simp only [ringStep] at hstep
      split_ifs at hstep with hc
      cases hstep
      exact h.goto (b := .closed) rfl rfl rfl
        (fun _ => h.compress q (by rw [hc.1]; rfl)) (fun _ => hc.2)
    case store q i k v =>
      simp only [ringStep] at hstep
      repeat' split at hstep
      all_goals first | (cases hstep; exact ⟨h.compress, h.dump⟩) | cases hstep
    all_goals
      simp only [ringStep] at hstep
      repeat' split at hstep
      all_goals first
        | (cases hstep
           exact h.goto rfl rfl rfl (fun hb => by cases hb) (fun hb => by cases hb))
        | cases hstep

/-! ## The theorem -/

variable {buffer : Nat → Nat → UInt8} {compressed : Nat → List UInt8} {as : List RingAct}

theorem joined_run (hrun : run (ringStep cfg) (RingState.init buffer compressed) as = some s) :
    Joined s := by
  have hinit : Joined (RingState.init buffer compressed) :=
    ⟨fun _ hp => (nomatch hp), fun _ hp => (nomatch hp)⟩
  exact run_invariant (fun _ _ _ h hstep => h.step hstep) hinit hrun

/-- At the end the file holds everything iff both threads have run all turns. -/
theorem RingInv.file_eq_iff (h : RingInv cfg s) (hj : Joined s) (hclosed : s.pc p = .closed) :
    s.file = s.handed.map cfg.compress ↔
      s.compressLast = s.acquired ∧ s.dumpLast = s.acquired := by
  have hc := hj.compress p (by rw [hclosed]; rfl)
  have hd := hj.dump p (by rw [hclosed]; rfl)
  have hacq := h.head.waits p (by rw [hclosed]; rfl)
  have hle := h.tokens.filledCompressed.taken_le
  have hle' := h.squeezed_le
  have hfile := h.contents.file
  unfold RingState.compressLast RingState.dumpLast
  rw [hc] at hle hle' ⊢
  rw [hd] at hle hfile ⊢
  simp only [LoopPc.past, Nat.add_zero] at hle hle' hfile ⊢
  rw [hfile, hacq]
  constructor
  · intro heq
    have := congrArg List.length heq
    simp only [List.length_map, List.length_take] at this
    omega
  · rintro ⟨-, hw⟩
    rw [hw, List.take_length]

/-- **Closing loses nothing exactly when both threads are waiting for the last block.** In every
run at whose end `CloseBufferFile` has returned: the file holds the compressions of all blocks
handed off, in order, if and only if `CloseOk` holds at the two steps that set the flags. -/
theorem close_iff (hcnt : 0 < cfg.cnt)
    (hrun : run (ringStep cfg) (RingState.init buffer compressed) as = some s)
    (hclosed : s.pc p = .closed) :
    s.file = s.handed.map cfg.compress ↔
      RunOk (ringStep cfg) CloseOk (RingState.init buffer compressed) as := by
  rw [(ringInv_run hcnt hrun).file_eq_iff (joined_run hrun) hclosed,
    closeOk_iff hcnt (RingInv.init buffer compressed) hrun hclosed]
  simp [RingState.init]

end

/-! ## Two runs -/

/-- Both threads are waiting when the file is closed. -/
def closeWaiting : List RingAct :=
  [.compressTest, .compressTest, .dumpTest, .dumpTest, .close 0, .lock 0, .testFull 0,
    .storeEnd 0 0, .fill 0 0, .unlock 0, .setCompressDone 0, .setDumpDone 0, .handOff 0 0,
    .compressTakeFilled 0, .compressTakeEmpty 0, .compressEnd 0, .compressSignalFilled 0,
    .compressSignalEmpty 0, .compressTest, .compressTest, .dumpTakeFilled 0, .dumpEnd 0,
    .dumpSignalEmpty 0, .dumpTest, .dumpTest, .joinCompress 0, .joinDump 0]

theorem close_iff_waiting :
    ∃ s, run (ringStep oneBuffer) (RingState.init (fun _ _ => 0) fun _ => []) closeWaiting =
        some s ∧
      (s.file = s.handed.map oneBuffer.compress ↔
        RunOk (ringStep oneBuffer) CloseOk (RingState.init (fun _ _ => 0) fun _ => [])
          closeWaiting) := by
  obtain ⟨s, hs⟩ := Option.isSome_iff_exists.mp (show (run (ringStep oneBuffer)
    (RingState.init (fun _ _ => 0) fun _ => []) closeWaiting).isSome = true from rfl)
  have hclosed : s.pc 0 = .closed := by
    cases hs
    rfl
  exact ⟨s, hs, close_iff (by decide) hs hclosed⟩

/-- Neither thread has tested its flag when the file is closed. -/
def closeEarly : List RingAct :=
  [.close 0, .lock 0, .testFull 0, .storeEnd 0 0, .fill 0 0, .unlock 0, .setCompressDone 0,
    .setDumpDone 0, .handOff 0 0, .compressTest, .dumpTest, .joinCompress 0, .joinDump 0]

/-- The block with the `EndEvent` is lost. -/
theorem close_loses_last :
    ¬ ∀ (cfg : RingConfig) (buffer : Nat → Nat → UInt8) (compressed : Nat → List UInt8)
      (as : List RingAct) (s : RingState) (p : Nat), 0 < cfg.cnt →
      run (ringStep cfg) (RingState.init buffer compressed) as = some s → s.pc p = .closed →
      s.file = s.handed.map cfg.compress := by
  intro h
  obtain ⟨s, hs⟩ := Option.isSome_iff_exists.mp (show (run (ringStep oneBuffer)
    (RingState.init (fun _ _ => 0) fun _ => []) closeEarly).isSome = true from rfl)
  have hclosed : s.pc 0 = .closed ∧ s.file = [] ∧ s.handed.length = 1 := by
    cases hs
    exact ⟨rfl, rfl, rfl⟩
  have := congrArg List.length (h _ _ _ _ s 0 (by decide) hs hclosed.1)
  rw [hclosed.2.1, List.length_map, hclosed.2.2] at this
  simp at this

end Slimmer
