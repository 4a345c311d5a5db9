import Mathlib.Algebra.BigOperators.Group.Finset.Basic
import Slimmer.RingClose

/-!
# Appends end, and when closing the trace returns

A thread waits for the lock, for an empty buffer, and at the end for the other two threads; these
wait for each other's buffers. Two theorems say what this comes to, for any number of threads and
buffers and every order of steps.

**Theorem (`ring_settles`).** The runtime takes at most a constant number of steps for each call of a
record function, besides the bytes the caller stores. When no step is left and `CloseBufferFile` has
not been called, all threads are back from their calls and all blocks handed off are in the file.

**Theorem (`close_returns_iff`).** `CloseBufferFile` may wait for ever. It returns if and only if, when
it sets `dump_done`, the turns that are left bring `DumpCompressed` no further than `CompressTrace`,
and `CompressTrace` no more than a round ahead.

The bound is a potential (`RingState.rank`) that every step uses up: each place of a thread is worth
the steps from there to the end of its call, and each block the turns it will cause.
-/

namespace Slimmer

/-- A step of the runtime. A thread that writes its event may store any number of bytes, and LZ4 may
leave anything in its destination any number of times. -/
def RingAct.works : RingAct → Bool
  | .call .. | .close _ | .store .. | .compressScratch .. => false
  | _ => true

def RingAct.calls : RingAct → Bool
  | .call .. => true
  | _ => false

/-! ## The potential -/

/-- The steps to the next turn, or to the end of the thread. -/
def LoopPc.rank {β : Type} (cnt : Nat) (done : Bool) (f : β → Nat) : LoopPc β → Nat
  | .outerTest => 2
  | .innerTest i => if i < cnt ∧ done = false then 1 else 3
  | .body _ b => f b
  | .finished => 0

def CompressPc.rank : CompressPc → Nat
  | .waitFilled => 0
  | .waitEmpty => 7
  | .compressing => 6
  | .signalFilled => 5
  | .signalEmpty => 4

def DumpPc.rank : DumpPc → Nat
  | .waitFilled => 0
  | .dumping => 5
  | .signalEmpty => 4

/-- The steps left when `StartAppend` returns, with those the last block causes. -/
def Caller.rank (size : Nat) : Caller → Nat
  | .record => 1
  | .close => size + 25

/-- The steps to the end of the call, with those the block causes that is handed off on the way. -/
def Pc.rank (size : Nat) : Pc → Nat
  | .idle => 0
  | .spin c _ => c.rank size + size + 18
  | .locked c _ => c.rank size + size + 17
  | .pad c _ j => c.rank size + (size - j) + 16
  | .waitEmpty c _ => c.rank size + 1
  | .writing c _ _ => c.rank size
  | .padEnd j => size - j + 24
  | .setCompressDone => 23
  | .setDumpDone => 20
  | .signalLast => 17
  | .joinCompress => 2
  | .joinDump => 1
  | .closed => 0

/-- What `CompressTrace` can do without another block. -/
def RingState.compressRank (cfg : RingConfig) (s : RingState) : Nat :=
  8 * (s.handed.length - (s.squeezed + s.compressPc.past CompressPc.tookFilled)) +
    s.compressPc.rank cfg.cnt s.compressDone CompressPc.rank

/-- What `DumpCompressed` can do without another block. -/
def RingState.dumpRank (cfg : RingConfig) (s : RingState) : Nat :=
  6 * (s.handed.length - (s.written + s.dumpPc.past DumpPc.tookFilled)) +
    s.dumpPc.rank cfg.cnt s.dumpDone DumpPc.rank

/-- What the threads can do, and `CloseBufferFile` while it has not been called. -/
def RingState.threadRank (cfg : RingConfig) (s : RingState) : Nat :=
  (if s.closer = none then 2 * cfg.size + 43 else 0) +
    ∑ p ∈ Finset.range cfg.threads, (s.pc p).rank cfg.size

def RingState.rank (cfg : RingConfig) (s : RingState) : Nat :=
  s.threadRank cfg + (s.compressRank cfg + s.dumpRank cfg)

section

variable {cfg : RingConfig} {s s' : RingState} {a : RingAct} {p : Nat}

/-! ## One step -/

/-- A test that is not the first one of a turn brings the next turn nearer. -/
theorem LoopPc.rank_test {β : Type} {cnt : Nat} {done : Bool} {f : β → Nat} {first : β}
    {pc pc' : LoopPc β} (hcnt : 0 < cnt) (hfirst : f first = 0)
    (h : pc.test cnt done first = some pc') :
    pc'.rank cnt done f + 1 ≤ pc.rank cnt done f := by
  cases pc with
  | outerTest =>
    simp only [LoopPc.test, Option.some.injEq] at h
    subst h
    cases done <;> simp [LoopPc.rank, hcnt]
  | innerTest i =>
    simp only [LoopPc.test, Option.some.injEq] at h
    subst h
    split_ifs with hi
    · simp [LoopPc.rank, hfirst, hi]
    · simp [LoopPc.rank, hi]
  | body i b => simp [LoopPc.test] at h
  | finished => simp [LoopPc.test] at h

theorem LoopPc.rank_innerTest {β : Type} (cnt i : Nat) (done : Bool) (f : β → Nat) :
    (LoopPc.innerTest i : LoopPc β).rank cnt done f ≤ 3 := by
  simp only [LoopPc.rank]
  split_ifs <;> omega

/-- The flag of a loop, and the last block. -/
theorem LoopPc.rank_done {β : Type} {cnt : Nat} {done : Bool} {f : β → Nat} (pc : LoopPc β) :
    pc.rank cnt true f ≤ pc.rank cnt done f + 2 := by
  cases pc with
  | innerTest i =>
    simp only [LoopPc.rank, Bool.true_eq_false, and_false, if_false]
    split_ifs <;> omega
  | _ => exact Nat.le_add_right _ 2

theorem compressRank_step (h : RingInv cfg s) (hcnt : 0 < cfg.cnt) (ha : a.party = .compress)
    (hw : a.works = true) (hstep : ringStep cfg s a = some s') :
    s'.compressRank cfg + 1 ≤ s.compressRank cfg := by
  have hle := h.squeezed_le
  unfold RingState.compressRank
  cases a <;> simp only [RingAct.party, RingAct.works, reduceCtorEq] at ha hw
  case compressTest =>
    obtain ⟨pc, hpc, rfl⟩ := Option.map_eq_some_iff.mp hstep
    have hrank := LoopPc.rank_test (f := CompressPc.rank) hcnt rfl hpc
    have hpast := (h.compressLoop.test hpc).2 CompressPc.tookFilled rfl
    simp only [hpast]
    omega
  case compressTakeFilled i =>
    simp only [ringStep] at hstep
    split_ifs at hstep with hc
    cases hstep
    have hpos := hc.2
    have hbal := h.tokens.filledBuffer
    have hloop := h.compressLoop
    rw [hc.1] at hle hbal hloop ⊢
    -- there is a block to take
    have hlt : s.squeezed < s.handed.length := by
      have := (hbal.take hpos (by rw [hloop.2]; rfl)).taken_le
      exact this
    simp only [LoopPc.past, LoopPc.rank, CompressPc.rank, CompressPc.tookFilled,
      Bool.toNat_true, Bool.toNat_false]
    omega
  case compressTakeEmpty i =>
    simp only [ringStep] at hstep
    split_ifs at hstep with hc
    cases hstep
    rw [hc.1]
    simp [LoopPc.past, LoopPc.rank, CompressPc.rank, CompressPc.tookFilled]
  case compressEnd i =>
    simp only [ringStep] at hstep
    split_ifs at hstep with hc
    cases hstep
    rw [hc]
    simp [LoopPc.past, LoopPc.rank, CompressPc.rank, CompressPc.tookFilled]
  case compressSignalFilled i =>
    simp only [ringStep] at hstep
    split_ifs at hstep with hc
    cases hstep
    rw [hc]
    simp [LoopPc.past, LoopPc.rank, CompressPc.rank, CompressPc.tookFilled]
  case compressSignalEmpty i =>
    simp only [ringStep] at hstep
    split_ifs at hstep with hc
    cases hstep
    have hinner := LoopPc.rank_innerTest cfg.cnt (i + 1) s.compressDone CompressPc.rank
    rw [hc] at hle ⊢
    simp only [LoopPc.past, CompressPc.tookFilled, Bool.toNat_true] at hle ⊢
    have : (LoopPc.body i CompressPc.signalEmpty).rank cfg.cnt s.compressDone CompressPc.rank = 4 :=
      rfl
    omega

theorem dumpRank_step (h : RingInv cfg s) (hcnt : 0 < cfg.cnt) (ha : a.party = .dump)
    (hstep : ringStep cfg s a = some s') : s'.dumpRank cfg + 1 ≤ s.dumpRank cfg := by
  have hle := h.tokens.order
  unfold RingState.dumpRank
  cases a <;> simp only [RingAct.party, reduceCtorEq] at ha
  case dumpTest =>
    obtain ⟨pc, hpc, rfl⟩ := Option.map_eq_some_iff.mp hstep
    have hrank := LoopPc.rank_test (f := DumpPc.rank) hcnt rfl hpc
    have hpast := (h.dumpLoop.test hpc).2 DumpPc.tookFilled rfl
    simp only [hpast]
    omega
  case dumpTakeFilled i =>
    simp only [ringStep] at hstep
    split_ifs at hstep with hc
    cases hstep
    have hpos := hc.2
    have hbal := h.tokens.filledCompressed
    have hloop := h.dumpLoop
    rw [hc.1] at hle hbal hloop ⊢
    have hlt : s.written + 1 ≤ s.squeezed + s.compressPc.past CompressPc.signalled :=
      (hbal.take hpos (by rw [hloop.2]; rfl)).taken_le
    simp only [LoopPc.past, LoopPc.rank, DumpPc.rank, DumpPc.tookFilled,
      Bool.toNat_true, Bool.toNat_false]
    omega
  case dumpEnd i =>
    simp only [ringStep] at hstep
    split_ifs at hstep with hc
    cases hstep
    rw [hc]
    simp [LoopPc.past, LoopPc.rank, DumpPc.rank, DumpPc.tookFilled]
  case dumpSignalEmpty i =>
    simp only [ringStep] at hstep
    split_ifs at hstep with hc
    cases hstep
    have hinner := LoopPc.rank_innerTest cfg.cnt (i + 1) s.dumpDone DumpPc.rank
    rw [hc] at hle ⊢
    simp only [LoopPc.past, DumpPc.tookFilled, Bool.toNat_true] at hle ⊢
    have : (LoopPc.body i DumpPc.signalEmpty).rank cfg.cnt s.dumpDone DumpPc.rank = 4 := rfl
    omega

/-- A thread moves from one place to another. -/
theorem sum_rank_move (f : Nat → Pc) (b : Pc) (size : Nat) {n : Nat} (hp : p < n) :
    (∑ q ∈ Finset.range n, (Function.update f p b q).rank size) + (f p).rank size =
      (∑ q ∈ Finset.range n, (f q).rank size) + b.rank size := by
  have hmem := Finset.mem_range.mpr hp
  rw [← Finset.add_sum_erase _ _ hmem, ← Finset.add_sum_erase _ (fun q => (f q).rank size) hmem,
    Function.update_self]
  have hrest : ∑ q ∈ (Finset.range n).erase p, (Function.update f p b q).rank size =
      ∑ q ∈ (Finset.range n).erase p, (f q).rank size :=
    Finset.sum_congr rfl fun q hq => by rw [Function.update_of_ne (Finset.ne_of_mem_erase hq)]
  rw [hrest]
  ring

/-- A thread that moves pays for what its step lets the other two do. -/
theorem rank_move {b : Pc} (k : Nat) (hpc : s'.pc = Function.update s.pc p b)
    (hp : p < cfg.threads) (hcloser : s'.closer = s.closer)
    (hworkers : s'.compressRank cfg + s'.dumpRank cfg ≤ s.compressRank cfg + s.dumpRank cfg + k)
    (hb : b.rank cfg.size + k + 1 ≤ (s.pc p).rank cfg.size) :
    s'.rank cfg + 1 ≤ s.rank cfg := by
  have hsum := sum_rank_move s.pc b cfg.size hp
  unfold RingState.rank RingState.threadRank
  rw [hpc, hcloser]
  omega

/-- What a step of a thread lets the other two do: a turn each for a block, and two more tests for a
flag. -/
theorem workers_le (m k l : Nat) (hlen : s'.handed.length = s.handed.length + m)
    (hq : s'.squeezed = s.squeezed) (hw : s'.written = s.written)
    (hcp : s'.compressPc = s.compressPc) (hdp : s'.dumpPc = s.dumpPc)
    (hc : s.compressPc.rank cfg.cnt s'.compressDone CompressPc.rank ≤
      s.compressPc.rank cfg.cnt s.compressDone CompressPc.rank + k)
    (hd : s.dumpPc.rank cfg.cnt s'.dumpDone DumpPc.rank ≤
      s.dumpPc.rank cfg.cnt s.dumpDone DumpPc.rank + l) :
    s'.compressRank cfg + s'.dumpRank cfg ≤
      s.compressRank cfg + s.dumpRank cfg + (14 * m + k + l) := by
  unfold RingState.compressRank RingState.dumpRank
  rw [hlen, hq, hw, hcp, hdp]
  omega

theorem threadRank_step (h : RingInv cfg s) (ha : a.party = .thread) (hw : a.works = true)
    (hstep : ringStep cfg s a = some s') : s'.rank cfg + 1 ≤ s.rank cfg := by
  have hlt : ∀ {q : Nat} {b : Pc}, s.pc q = b → b ≠ .idle → q < cfg.threads := fun hq hb =>
    h.head.lt_threads (by rw [hq]; exact hb)
  cases a <;> simp only [RingAct.party, RingAct.works, reduceCtorEq] at ha hw
  case lock q =>
    simp only [ringStep] at hstep
    split at hstep
    · rename_i c length hpc
      split_ifs at hstep
      cases hstep
      refine rank_move 0 rfl (hlt hpc (by simp)) rfl le_rfl ?_
      rw [hpc]
      simp [Pc.rank]
    · cases hstep
  case testFull q =>
    simp only [ringStep] at hstep
    split at hstep
    · rename_i c length hpc
      split_ifs at hstep
      · cases hstep
        refine rank_move 0 rfl (hlt hpc (by simp)) rfl le_rfl ?_
        rw [hpc]
        simp only [Pc.rank]
        omega
      · cases hstep
        refine rank_move 0 rfl (hlt hpc (by simp)) rfl le_rfl ?_
        rw [hpc]
        simp only [Pc.rank]
        omega
    · cases hstep
  case fill q i =>
    simp only [ringStep] at hstep
    split_ifs at hstep with hi
    split at hstep
    · rename_i c length j hpc
      split_ifs at hstep with hj
      cases hstep
      refine rank_move 0 rfl (hlt hpc (by simp)) rfl le_rfl ?_
      rw [hpc]
      simp only [Pc.rank]
      omega
    · rename_i j hpc
      split_ifs at hstep with hj
      cases hstep
      refine rank_move 0 rfl (hlt hpc (by simp)) rfl le_rfl ?_
      rw [hpc]
      simp only [Pc.rank]
      omega
    · cases hstep
  case handOff q i =>
    simp only [ringStep] at hstep
    split_ifs at hstep with hi
    have hturns : ∀ {t : RingState}, t.handed = s.handed ++ [s.content cfg i] →
        t.squeezed = s.squeezed → t.written = s.written → t.compressPc = s.compressPc →
        t.dumpPc = s.dumpPc → t.compressDone = s.compressDone → t.dumpDone = s.dumpDone →
        t.compressRank cfg + t.dumpRank cfg ≤ s.compressRank cfg + s.dumpRank cfg + 14 := by
      intro t hh hq hw hcp hdp hcd hdd
      exact workers_le 1 0 0 (by rw [hh, List.length_append, List.length_singleton]) hq hw hcp hdp
        (by rw [hcd, Nat.add_zero]) (by rw [hdd, Nat.add_zero])
    split at hstep
    · rename_i c length j hpc
      split_ifs at hstep with hj
      cases hstep
      refine rank_move 14 rfl (hlt hpc (by simp)) rfl (hturns rfl rfl rfl rfl rfl rfl rfl) ?_
      rw [hpc]
      simp only [Pc.rank]
      omega
    · rename_i hpc
      cases hstep
      refine rank_move 14 rfl (hlt hpc (by simp)) rfl (hturns rfl rfl rfl rfl rfl rfl rfl) ?_
      rw [hpc]
      simp [Pc.rank]
    · cases hstep
  case takeEmpty q i =>
    simp only [ringStep] at hstep
    split at hstep
    · rename_i c length hpc
      split_ifs at hstep
      cases hstep
      refine rank_move 0 rfl (hlt hpc (by simp)) rfl le_rfl ?_
      rw [hpc]
      simp [Pc.rank]
    · cases hstep
  case storeEnd q i =>
    simp only [ringStep] at hstep
    split at hstep
    · rename_i ret length hpc
      split_ifs at hstep
      cases hstep
      refine rank_move 0 rfl (hlt hpc (by simp)) rfl le_rfl ?_
      rw [hpc]
      simp only [Pc.rank, Caller.rank]
      omega
    · cases hstep
  case unlock q =>
    simp only [ringStep] at hstep
    split at hstep
    · rename_i ret length hpc
      cases hstep
      refine rank_move 0 rfl (hlt hpc (by simp)) rfl le_rfl ?_
      rw [hpc]
      simp [Pc.rank, Caller.rank]
    · rename_i j hpc
      split_ifs at hstep
      cases hstep
      refine rank_move 0 rfl (hlt hpc (by simp)) rfl le_rfl ?_
      rw [hpc]
      simp [Pc.rank]
    · cases hstep
  case setCompressDone q =>
    simp only [ringStep] at hstep
    split at hstep
    · rename_i hpc
      cases hstep
      refine rank_move 2 rfl (hlt hpc (by simp)) rfl
        (workers_le 0 2 0 rfl rfl rfl rfl rfl s.compressPc.rank_done le_rfl) ?_
      rw [hpc]
      simp [Pc.rank]
    · cases hstep
  case setDumpDone q =>
    simp only [ringStep] at hstep
    split at hstep
    · rename_i hpc
      cases hstep
      refine rank_move 2 rfl (hlt hpc (by simp)) rfl
        (workers_le 0 0 2 rfl rfl rfl rfl rfl le_rfl s.dumpPc.rank_done) ?_
      rw [hpc]
      simp [Pc.rank]
    · cases hstep
  case joinCompress q =>
    simp only [ringStep] at hstep
    split_ifs at hstep with hc
    cases hstep
    refine rank_move 0 rfl (hlt hc.1 (by simp)) rfl le_rfl ?_
    rw [hc.1]
    simp [Pc.rank]
  case joinDump q =>
    simp only [ringStep] at hstep
    split_ifs at hstep with hc
    cases hstep
    refine rank_move 0 rfl (hlt hc.1 (by simp)) rfl le_rfl ?_
    rw [hc.1]
    simp [Pc.rank]

/-- The other two leave the threads where they are. -/
theorem threads_frame (ha : a.party ≠ .thread) (hstep : ringStep cfg s a = some s') :
    s'.pc = s.pc ∧ s'.closer = s.closer ∧ s'.lock = s.lock := by
  cases a <;> simp only [RingAct.party, ne_eq, not_true, reduceCtorEq] at ha
  case compressTest | dumpTest =>
    obtain ⟨pc, -, rfl⟩ := Option.map_eq_some_iff.mp hstep
    exact ⟨rfl, rfl, rfl⟩
  all_goals
    simp only [ringStep] at hstep
    split_ifs at hstep
    cases hstep
    exact ⟨rfl, rfl, rfl⟩

/-- **Every step uses up the potential**; a call adds to it. -/
theorem rank_step (h : RingInv cfg s) (hcnt : 0 < cfg.cnt) (hstep : ringStep cfg s a = some s') :
    s'.rank cfg + (if a.works then 1 else 0) ≤
      s.rank cfg + if a.calls then cfg.size + 19 else 0 := by
  by_cases hw : a.works = true
  · rw [if_pos hw]
    refine le_trans ?_ (Nat.le_add_right _ _)
    cases hparty : a.party with
    | thread => exact threadRank_step h hparty hw hstep
    | compress =>
      have hrank := compressRank_step h hcnt hparty hw hstep
      obtain ⟨hh, -, hwr, hdp, -, hdd⟩ := compress_frame hparty hstep
      obtain ⟨hpc, hcloser, -⟩ := threads_frame (by rw [hparty]; decide) hstep
      unfold RingState.rank RingState.threadRank RingState.dumpRank
      rw [hh, hwr, hdp, hdd, hpc, hcloser]
      omega
    | dump =>
      have hrank := dumpRank_step h hcnt hparty hstep
      obtain ⟨hh, -, hq, hcp, hcd, -⟩ := dump_frame hparty hstep
      obtain ⟨hpc, hcloser, -⟩ := threads_frame (by rw [hparty]; decide) hstep
      unfold RingState.rank RingState.threadRank RingState.compressRank
      rw [hh, hq, hcp, hcd, hpc, hcloser]
      omega
  · rw [if_neg hw]
    cases a <;> simp only [RingAct.works, not_true] at hw
    case call p n =>
      simp only [ringStep] at hstep
      split_ifs at hstep with hc
      cases hstep
      have hspin : (Pc.spin .record n).rank cfg.size = cfg.size + 19 := by
        simp only [Pc.rank, Caller.rank]
        omega
      have hsum := sum_rank_move s.pc (.spin .record n) cfg.size hc.1
      rw [hc.2.2, hspin, show Pc.idle.rank cfg.size = 0 from rfl] at hsum
      have hthreads : (s.goto p (.spin .record n)).threadRank cfg =
          s.threadRank cfg + (cfg.size + 19) := by
        show _ + ∑ q ∈ Finset.range cfg.threads, (Function.update s.pc p _ q).rank cfg.size = _
        rw [← Nat.add_zero (∑ q ∈ Finset.range cfg.threads, _), hsum, ← Nat.add_assoc]
        rfl
      show (s.goto p (.spin .record n)).threadRank cfg + (s.compressRank cfg + s.dumpRank cfg) + 0 ≤
        s.threadRank cfg + (s.compressRank cfg + s.dumpRank cfg) + (cfg.size + 19)
      omega
    case close p =>
      simp only [ringStep] at hstep
      split_ifs at hstep with hc
      cases hstep
      have hspin : (Pc.spin .close 1).rank cfg.size = 2 * cfg.size + 43 := by
        simp only [Pc.rank, Caller.rank]
        omega
      have hsum := sum_rank_move s.pc (.spin .close 1) cfg.size hc.1
      rw [hc.2.2 p hc.1, hspin, show Pc.idle.rank cfg.size = 0 from rfl] at hsum
      have hopen : s.threadRank cfg = 2 * cfg.size + 43 +
          ∑ q ∈ Finset.range cfg.threads, (s.pc q).rank cfg.size := by
        rw [RingState.threadRank, if_pos hc.2.1]
      show (0 + ∑ q ∈ Finset.range cfg.threads, (Function.update s.pc p (.spin .close 1) q).rank
        cfg.size) + (s.compressRank cfg + s.dumpRank cfg) + 0 ≤ s.threadRank cfg +
          (s.compressRank cfg + s.dumpRank cfg) + 0
      omega
    case store p i k v =>
      simp only [ringStep] at hstep
      split at hstep
      · split_ifs at hstep
        cases hstep
        exact le_rfl
      · cases hstep
    case compressScratch i l =>
      simp only [ringStep] at hstep
      split_ifs at hstep
      cases hstep
      exact le_rfl

/-! ## No step is left -/

/-- No step of the runtime can be taken. -/
def Stuck (cfg : RingConfig) (s : RingState) : Prop :=
  ∀ a, a.works = true → ringStep cfg s a = none

/-- Where `CompressTrace` may be when no step is left. -/
theorem Stuck.compress (hs : Stuck cfg s) (h : RingInv cfg s) (hcnt : 0 < cfg.cnt) :
    s.compressPc = .finished ∨
    (∃ i, s.compressPc = .body i .waitFilled) ∧ s.squeezed = s.handed.length ∨
    (∃ i, s.compressPc = .body i .waitEmpty) ∧ s.squeezed = s.written + cfg.cnt := by
  have hloop := h.compressLoop
  have hle := h.squeezed_le
  have hfilled := h.tokens.filledBuffer
  have hempty := h.tokens.emptyCompressed
  cases hpc : s.compressPc with
  | outerTest =>
    have := hs .compressTest rfl
    simp [ringStep, hpc, LoopPc.test] at this
  | innerTest i =>
    have := hs .compressTest rfl
    simp [ringStep, hpc, LoopPc.test] at this
  | finished => exact Or.inl rfl
  | body i b =>
    rw [hpc] at hloop hle hfilled hempty
    obtain ⟨-, rfl⟩ := hloop
    cases b with
    | waitFilled =>
      refine Or.inr (Or.inl ⟨⟨_, rfl⟩, ?_⟩)
      have hblocked := hs (.compressTakeFilled (s.squeezed % cfg.cnt)) rfl
      simp only [ringStep, hpc, true_and, ite_eq_right_iff, reduceCtorEq, imp_false] at hblocked
      have hle : s.squeezed ≤ s.handed.length := hle
      have hfilled : Balanced cfg.cnt s.filledBuffer s.squeezed s.handed.length 0 := hfilled
      by_contra hne
      exact hblocked (hfilled.pos_of_lt (by omega))
    | waitEmpty =>
      refine Or.inr (Or.inr ⟨⟨_, rfl⟩, ?_⟩)
      have hblocked := hs (.compressTakeEmpty (s.squeezed % cfg.cnt)) rfl
      simp only [ringStep, hpc, true_and, ite_eq_right_iff, reduceCtorEq, imp_false] at hblocked
      have hempty : Balanced cfg.cnt s.emptyCompressed s.squeezed s.written 1 := hempty
      have := hempty.taken_le_add hcnt
      by_contra hne
      exact hblocked (hempty.pos_of_lt_add (by omega))
    | compressing =>
      have := hs (.compressEnd (s.squeezed % cfg.cnt)) rfl
      simp [ringStep, hpc] at this
    | signalFilled =>
      have := hs (.compressSignalFilled (s.squeezed % cfg.cnt)) rfl
      simp [ringStep, hpc] at this
    | signalEmpty =>
      have := hs (.compressSignalEmpty (s.squeezed % cfg.cnt)) rfl
      simp [ringStep, hpc] at this

/-- Where `DumpCompressed` may be when no step is left. -/
theorem Stuck.dump (hs : Stuck cfg s) (h : RingInv cfg s) :
    s.dumpPc = .finished ∨ (∃ i, s.dumpPc = .body i .waitFilled) ∧
      s.written = s.squeezed + s.compressPc.past CompressPc.signalled := by
  have hloop := h.dumpLoop
  have hfilled := h.tokens.filledCompressed
  cases hpc : s.dumpPc with
  | outerTest =>
    have := hs .dumpTest rfl
    simp [ringStep, hpc, LoopPc.test] at this
  | innerTest i =>
    have := hs .dumpTest rfl
    simp [ringStep, hpc, LoopPc.test] at this
  | finished => exact Or.inl rfl
  | body i b =>
    rw [hpc] at hloop hfilled
    obtain ⟨-, rfl⟩ := hloop
    cases b with
    | waitFilled =>
      refine Or.inr ⟨⟨_, rfl⟩, ?_⟩
      have hblocked := hs (.dumpTakeFilled (s.written % cfg.cnt)) rfl
      simp only [ringStep, hpc, true_and, ite_eq_right_iff, reduceCtorEq, imp_false] at hblocked
      have hfilled : Balanced cfg.cnt s.filledCompressed s.written
        (s.squeezed + s.compressPc.past CompressPc.signalled) 0 := hfilled
      have := hfilled.taken_le
      by_contra hne
      exact hblocked (hfilled.pos_of_lt (by omega))
    | dumping =>
      have := hs (.dumpEnd (s.written % cfg.cnt)) rfl
      simp [ringStep, hpc] at this
    | signalEmpty =>
      have := hs (.dumpSignalEmpty (s.written % cfg.cnt)) rfl
      simp [ringStep, hpc] at this

/-- While neither flag is set, the two loops have caught up. -/
theorem Stuck.caught_up (hs : Stuck cfg s) (h : RingInv cfg s) (hcnt : 0 < cfg.cnt)
    (hc : s.compressDone = false) (hd : s.dumpDone = false) :
    s.squeezed = s.handed.length ∧ s.written = s.handed.length := by
  have hloop := h.compressLoop
  have hdump : s.written = s.squeezed + s.compressPc.past CompressPc.signalled := by
    rcases hs.dump h with hpc | ⟨-, hw⟩
    · have hloop := h.dumpLoop
      rw [hpc] at hloop
      rw [hd] at hloop
      cases hloop
    · exact hw
  rcases hs.compress h hcnt with hpc | ⟨⟨i, hpc⟩, hq⟩ | ⟨⟨i, hpc⟩, hq⟩
  · rw [hpc] at hloop
    rw [hc] at hloop
    cases hloop
  · rw [hpc] at hdump
    exact ⟨hq, hdump.trans hq⟩
  · -- a full round ahead of a thread that waits for it
    rw [hpc] at hdump
    have hdump : s.written = s.squeezed := hdump
    omega

/-- A thread that is not back from its call waits for the lock or for a buffer, or has handed off
the last block. -/
theorem Stuck.waits (hs : Stuck cfg s) (p : Nat) :
    s.pc p = .idle ∨ (∃ c n, s.pc p = .spin c n) ∨ (∃ c n, s.pc p = .waitEmpty c n) ∨
      (s.pc p).joining = true := by
  cases hpc : s.pc p with
  | idle => exact Or.inl rfl
  | spin c n => exact Or.inr (Or.inl ⟨c, n, rfl⟩)
  | waitEmpty c n => exact Or.inr (Or.inr (Or.inl ⟨c, n, rfl⟩))
  | joinCompress | joinDump | closed => exact Or.inr (Or.inr (Or.inr rfl))
  | locked c n =>
    have := hs (.testFull p) rfl
    simp only [ringStep, hpc] at this
    split_ifs at this
  | pad c n j =>
    rcases Nat.lt_or_ge j cfg.size with hj | hj
    · have := hs (.fill p s.curBlock) rfl
      simp [ringStep, hpc, hj] at this
    · have := hs (.handOff p s.curBlock) rfl
      simp [ringStep, hpc, Nat.not_lt.mpr hj] at this
  | writing c ret n =>
    cases c with
    | record =>
      have := hs (.unlock p) rfl
      simp [ringStep, hpc] at this
    | close =>
      have := hs (.storeEnd p s.curBlock) rfl
      simp [ringStep, hpc] at this
  | padEnd j =>
    rcases Nat.lt_or_ge j cfg.size with hj | hj
    · have := hs (.fill p s.curBlock) rfl
      simp [ringStep, hpc, hj] at this
    · have := hs (.unlock p) rfl
      simp [ringStep, hpc, Nat.not_lt.mpr hj] at this
  | setCompressDone =>
    have := hs (.setCompressDone p) rfl
    simp [ringStep, hpc] at this
  | setDumpDone =>
    have := hs (.setDumpDone p) rfl
    simp [ringStep, hpc] at this
  | signalLast =>
    have := hs (.handOff p s.curBlock) rfl
    simp [ringStep, hpc] at this

/-- When no step is left a thread is back from its call, or has handed off the last block. -/
theorem Stuck.idle (hs : Stuck cfg s) (h : RingInv cfg s) (hcnt : 0 < cfg.cnt) (p : Nat) :
    s.pc p = .idle ∨ (s.pc p).joining = true := by
  -- while a thread holds the lock, no flag is set
  have hflags : ∀ {q : Nat}, (s.pc q).holds = true → s.compressDone = false ∧ s.dumpDone = false := by
    intro q hq
    cases hcloser : s.closer with
    | none => exact h.head.flagsNone hcloser
    | some r =>
      have hr : r = q := h.head.eq_closer (by rintro he; simp [he, Pc.holds] at hq) hcloser
      subst hr
      obtain ⟨hc, hd⟩ := h.head.flags r hcloser
      rw [hc, hd]
      cases hpc : s.pc r <;> simp_all [Pc.holds, Pc.pastCompressDone, Pc.pastDumpDone]
  have hwait : ∀ q c n, s.pc q ≠ .waitEmpty c n := by
    intro q c n hpc
    have hholds : (s.pc q).holds = true := by rw [hpc]; rfl
    obtain ⟨hc, hd⟩ := hflags hholds
    obtain ⟨hq, -⟩ := hs.caught_up h hcnt hc hd
    have hacq := h.head.waits q (by rw [hpc]; rfl)
    have hpos := h.tokens.emptyBuffer.pos_of_lt_add (by omega)
    rw [hacq, ← h.head.cur_of_holds hholds] at hpos
    have := hs (.takeEmpty q s.curBlock) rfl
    simp [ringStep, hpc, hpos] at this
  rcases hs.waits p with hpc | ⟨c, n, hpc⟩ | ⟨c, n, hpc⟩ | hpc
  · exact Or.inl hpc
  · -- the lock is not free, so a thread that holds it waits for a buffer
    exfalso
    have hlock := hs (.lock p) rfl
    simp only [ringStep, hpc, ite_eq_right_iff, reduceCtorEq, imp_false] at hlock
    obtain ⟨q, hq⟩ := Option.ne_none_iff_exists'.mp hlock
    have hholds := (h.head.lock q).mpr hq
    rcases hs.waits q with hq | ⟨d, m, hq⟩ | ⟨d, m, hq⟩ | hq
    · simp [hq, Pc.holds] at hholds
    · simp [hq, Pc.holds] at hholds
    · exact hwait q d m hq
    · cases hqpc : s.pc q <;> simp_all [Pc.holds, Pc.joining]
  · exact absurd hpc (hwait p c n)
  · exact Or.inr hpc

/-- No step is left when `CloseBufferFile` has returned. -/
theorem stuck_of_closed (hpc : ∀ p, s.pc p = .idle ∨ s.pc p = .closed)
    (hc : s.compressPc = .finished) (hd : s.dumpPc = .finished) : Stuck cfg s := by
  intro a ha
  cases a <;> simp only [RingAct.works, Bool.false_eq_true] at ha
  case compressTest | compressTakeFilled | compressTakeEmpty | compressEnd | compressSignalFilled |
      compressSignalEmpty => simp [ringStep, hc, LoopPc.test]
  case dumpTest | dumpTakeFilled | dumpEnd | dumpSignalEmpty => simp [ringStep, hd, LoopPc.test]
  case fill p i | handOff p i | takeEmpty p i | storeEnd p i =>
    rcases hpc p with hp | hp <;> simp [ringStep, hp]
  all_goals
    rename_i p
    rcases hpc p with hp | hp <;> simp [ringStep, hp, hc, hd]

/-! ## The theorems -/

variable {buffer : Nat → Nat → UInt8} {compressed : Nat → List UInt8} {as : List RingAct}

theorem rank_init : (RingState.init buffer compressed).rank cfg = 2 * cfg.size + 47 := by
  simp [RingState.rank, RingState.threadRank, RingState.compressRank, RingState.dumpRank,
    RingState.init, LoopPc.rank, LoopPc.past, Pc.rank]

/-- The runtime takes no more than the steps the calls need. -/
theorem works_le (hcnt : 0 < cfg.cnt)
    (hrun : run (ringStep cfg) (RingState.init buffer compressed) as = some s) :
    s.rank cfg + as.countP RingAct.works ≤
      2 * cfg.size + 47 + (cfg.size + 19) * as.countP RingAct.calls := by
  have hinit : RingInv cfg (RingState.init buffer compressed) := RingInv.init buffer compressed
  have := run_potential (fun s a s' (h : RingInv cfg s) (hs : ringStep cfg s a = some s') =>
    ⟨h.step hcnt hs, rank_step h hcnt hs⟩) hinit hrun
  rwa [rank_init] at this

/-- **Appends end.** In every run, in every interleaving, the runtime takes at most a constant number of
steps for each call of a record function. When no step is left and `CloseBufferFile` has not been
called, all threads are back from their calls and the file holds all blocks handed off. -/
theorem ring_settles (hcnt : 0 < cfg.cnt)
    (hrun : run (ringStep cfg) (RingState.init buffer compressed) as = some s) :
    as.countP RingAct.works ≤ (cfg.size + 19) * as.countP RingAct.calls + (2 * cfg.size + 47) ∧
    ((∀ a, a.works = true → ringStep cfg s a = none) → s.closer = none →
      (∀ p, s.pc p = .idle) ∧ s.file = s.handed.map cfg.compress) := by
  have h := ringInv_run hcnt hrun
  refine ⟨by have := works_le hcnt hrun; omega, fun hs hcloser => ⟨fun p => ?_, ?_⟩⟩
  · refine (Stuck.idle hs h hcnt p).resolve_right fun hjoin => ?_
    have hcloses : (s.pc p).closes = true := by
      cases hpc : s.pc p <;> simp_all [Pc.joining, Pc.closes]
    have := (h.head.closer p).mp hcloses
    rw [hcloser] at this
    cases this
  · obtain ⟨hc, hd⟩ := h.head.flagsNone hcloser
    obtain ⟨-, hw⟩ := Stuck.caught_up hs h hcnt hc hd
    rw [h.contents.file, List.take_of_length_le (by omega)]

theorem closer_step (hcloser : s.closer = some p) (hstep : ringStep cfg s a = some s') :
    s'.closer = some p := by
  by_cases hparty : a.party = .thread
  · cases a <;> simp only [RingAct.party, reduceCtorEq] at hparty <;> simp only [ringStep] at hstep
    all_goals
      repeat' split at hstep
      all_goals first | (cases hstep; exact hcloser) | cases hstep
    -- `CloseBufferFile` is not called twice
    rename_i hc
    rw [hcloser] at hc
    cases hc.2.1
  · rw [(threads_frame hparty hstep).2.1, hcloser]

/-- The closing thread before its last hand-off: `CompressTrace` has no more turns than there are
blocks. -/
theorem RingInv.compressLast_le (h : RingInv cfg s) (hpc : s.pc p = .setDumpDone) :
    s.compressLast ≤ s.acquired := by
  have hacq := (h.head.owner_of_closes (p := p) (by rw [hpc]; rfl) (by rw [hpc]; rfl)).1
  have hle := h.squeezed_le
  have hpast : (s.compressPc.past fun _ => true) ≤ 1 := by
    cases s.compressPc <;> simp [LoopPc.past]
  unfold RingState.compressLast
  omega

/-- **When `CloseBufferFile` returns.** Take any run, and a step of it that sets `dump_done`. Where no
step of the runtime is left, `CloseBufferFile` has returned if and only if, when the flag was set,
`DumpCompressed` was to run no more turns than `CompressTrace` in all, and `CompressTrace` no more than
a round more than `DumpCompressed`; otherwise it waits for ever. -/
theorem close_returns_iff (hcnt : 0 < cfg.cnt) {pre post : List RingAct} {t : RingState}
    (hpre : run (ringStep cfg) (RingState.init buffer compressed) pre = some s)
    (hpost : run (ringStep cfg) s (.setDumpDone p :: post) = some t)
    (hstuck : ∀ a, a.works = true → ringStep cfg t a = none) :
    t.pc p = .closed ↔
      s.dumpLast ≤ s.compressLast ∧ s.compressLast ≤ s.dumpLast + cfg.cnt := by
  have hs := ringInv_run hcnt hpre
  obtain ⟨s', hstep, hrest⟩ := run_cons_eq_some.mp hpost
  have h' := hs.step hcnt hstep
  have ht := run_invariant (fun _ _ _ h hstep => RingInv.step h hcnt hstep) h' hrest
  have hj : Joined t := joined_run (run_append_eq_some.mpr ⟨s, hpre, hpost⟩)
  obtain ⟨hpc, rfl⟩ : s.pc p = .setDumpDone ∧ s' = { s.goto p .signalLast with dumpDone := true } := by
    simp only [ringStep] at hstep
    split at hstep
    · exact ⟨‹_›, (Option.some.inj hstep).symm⟩
    · cases hstep
  have hcloser : s.closer = some p := (hs.head.closer p).mp (by rw [hpc]; rfl)
  have hcd : s.compressDone = true := by
    rw [(hs.head.flags p hcloser).1, hpc]
    rfl
  -- what is settled when the flag is set
  obtain ⟨hC, hacq⟩ := compressLast_run hcnt h' hcd hrest
  have hD := dumpLast_run (by rfl) hrest
  have hD : t.dumpLast = s.dumpLast := hD
  have hC : t.compressLast = s.compressLast := hC
  have hacq : t.acquired = s.acquired := hacq
  have hle := hs.compressLast_le hpc
  -- where the closing thread is
  have hclosert : t.closer = some p :=
    run_invariant (P := fun u => u.closer = some p) (fun _ _ _ h hstep => closer_step h hstep)
      (show ({ s.goto p .signalLast with dumpDone := true } : RingState).closer = some p from hcloser)
      hrest
  have hcloses := (ht.head.closer p).mpr hclosert
  have hjoining : (t.pc p).joining = true :=
    (Stuck.idle hstuck ht hcnt p).resolve_left fun hidle => by simp [hidle, Pc.closes] at hcloses
  have hhanded := ht.head.waits p (Pc.ownsNone_of_joining hjoining)
  have hfilled := ht.tokens.filledCompressed.taken_le
  have hempty := ht.tokens.emptyCompressed.taken_le_add hcnt
  rw [← hC, ← hD]
  rw [← hC, ← hacq] at hle
  unfold RingState.compressLast at hle ⊢
  unfold RingState.dumpLast
  have hdump := Stuck.dump hstuck ht
  rcases Stuck.compress hstuck ht hcnt with hc | ⟨⟨i, hc⟩, hq⟩ | ⟨⟨i, hc⟩, hq⟩
  · rw [hc] at hle hfilled hempty hdump ⊢
    simp only [LoopPc.past, Nat.add_zero] at hle hfilled hempty hdump ⊢
    rcases hdump with hd | ⟨⟨j, hd⟩, hw⟩
    · -- both threads have ended
      rw [hd] at hfilled ⊢
      simp only [Nat.add_zero] at hfilled ⊢
      refine ⟨fun _ => ⟨hfilled, hempty⟩, fun _ => ?_⟩
      have h₁ := hstuck (.joinCompress p) rfl
      have h₂ := hstuck (.joinDump p) rfl
      simp only [ringStep, hc, hd, and_true, ite_eq_right_iff, reduceCtorEq, imp_false] at h₁ h₂
      cases hpct : t.pc p <;> simp_all [Pc.joining]
    · -- `DumpCompressed` waits for a turn `CompressTrace` does not run
      rw [hd]
      simp only [Bool.toNat_true]
      refine ⟨fun hclosed => ?_, fun hcond => by omega⟩
      have := hj.dump p (by rw [hclosed]; rfl)
      rw [hd] at this
      cases this
  · -- a turn for a block that is not handed off
    rw [hc] at hle
    simp only [LoopPc.past, Bool.toNat_true] at hle
    omega
  · rw [hc] at hdump ⊢
    simp only [LoopPc.past, CompressPc.signalled, Bool.toNat_true, Bool.toNat_false,
      Nat.add_zero] at hdump ⊢
    refine ⟨fun hclosed => ?_, fun hcond => ?_⟩
    · have := hj.compress p (by rw [hclosed]; rfl)
      rw [hc] at this
      cases this
    · rcases hdump with hd | ⟨⟨j, hd⟩, hw⟩
      · -- `CompressTrace` waits for a turn `DumpCompressed` does not run
        rw [hd] at hcond
        simp only [Nat.add_zero] at hcond
        omega
      · omega

end

theorem ring_settles_oneBuffer :
    ∃ s, run (ringStep oneBuffer) (RingState.init (fun _ _ => 0) fun _ => []) oneBufferRun =
        some s ∧
      oneBufferRun.countP RingAct.works ≤
        (oneBuffer.size + 19) * oneBufferRun.countP RingAct.calls + (2 * oneBuffer.size + 47) ∧
      ((∀ a, a.works = true → ringStep oneBuffer s a = none) → s.closer = none →
        (∀ p, s.pc p = .idle) ∧ s.file = s.handed.map oneBuffer.compress) := by
  obtain ⟨s, hs⟩ := Option.isSome_iff_exists.mp (show (run (ringStep oneBuffer)
    (RingState.init (fun _ _ => 0) fun _ => []) oneBufferRun).isSome = true from rfl)
  exact ⟨s, hs, ring_settles (by decide) hs⟩

/-- The file is closed before the two threads have tested their flags. -/
def closeBefore : List RingAct :=
  [.close 0, .lock 0, .testFull 0, .storeEnd 0 0, .fill 0 0, .unlock 0, .setCompressDone 0]

theorem close_returns_early :
    ∃ s t, run (ringStep oneBuffer) (RingState.init (fun _ _ => 0) fun _ => []) closeBefore =
        some s ∧
      run (ringStep oneBuffer) s (.setDumpDone 0 :: [.handOff 0 0, .compressTest, .dumpTest,
        .joinCompress 0, .joinDump 0]) = some t ∧
      (t.pc 0 = .closed ↔
        s.dumpLast ≤ s.compressLast ∧ s.compressLast ≤ s.dumpLast + oneBuffer.cnt) := by
  obtain ⟨s, hs⟩ := Option.isSome_iff_exists.mp (show (run (ringStep oneBuffer)
    (RingState.init (fun _ _ => 0) fun _ => []) closeBefore).isSome = true from rfl)
  obtain ⟨t, ht⟩ := Option.isSome_iff_exists.mp (show (run (ringStep oneBuffer) s
    (.setDumpDone 0 :: [.handOff 0 0, .compressTest, .dumpTest, .joinCompress 0,
      .joinDump 0])).isSome = true by cases hs; rfl)
  refine ⟨s, t, hs, ht, close_returns_iff (by decide) hs ht (stuck_of_closed (fun p => ?_) ?_ ?_)⟩
  · cases hs
    cases ht
    cases p with
    | zero => exact Or.inr rfl
    | succ p => exact Or.inl rfl
  · cases hs
    cases ht
    rfl
  · cases hs
    cases ht
    rfl

end Slimmer
