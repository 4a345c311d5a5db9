import Slimmer.Ring

/-!
# The invariant of the ring

`RingInv` holds in every reachable state (`ringInv_run`), for any number of threads and buffers
and whether or not the file has been closed. It has four parts.

* `Head`: one thread at a time holds the lock, and between the hand-off of a buffer and the `wait`
  for the next one the producers own no buffer.
* `LoopOk`: the loops of `CompressTrace` and `DumpCompressed` are at the slot of their turn.
* `Tokens`: each array of semaphores is balanced (`Balanced`) between the one who waits and the one
  who signals.
* `Contents`: buffers not yet compressed hold what was handed off, compressed buffers not yet
  dumped hold its compression, and the file holds the compression of what was handed off first.
-/

namespace Slimmer

/-! ## The parts -/

/-- The thread is at `empty_buffer[cur_block].wait()`, or has handed off the last block: the
producers own no buffer. -/
def Pc.ownsNone : Pc → Bool
  | .waitEmpty .. | .joinCompress | .joinDump | .closed => true
  | _ => false

/-- The thread has handed off the last block. -/
def Pc.joining : Pc → Bool
  | .joinCompress | .joinDump | .closed => true
  | _ => false

/-- The thread is in `CloseBufferFile`. -/
def Pc.closes : Pc → Bool
  | .idle => false
  | .spin c _ | .locked c _ | .pad c _ _ | .waitEmpty c _ | .writing c _ _ => c = .close
  | _ => true

/-- The thread has set `compress_done`. -/
def Pc.pastCompressDone : Pc → Bool
  | .setDumpDone | .signalLast | .joinCompress | .joinDump | .closed => true
  | _ => false

/-- The thread has set `dump_done`. -/
def Pc.pastDumpDone : Pc → Bool
  | .signalLast | .joinCompress | .joinDump | .closed => true
  | _ => false

/-- What of a program counter the invariant reads. -/
def Pc.attrs (pc : Pc) : Bool × Bool × Bool × Bool × Bool × Bool :=
  (pc.holds, pc.ownsNone, pc.joining, pc.closes, pc.pastCompressDone, pc.pastDumpDone)

/-- The lock, the owner of `cur_block`, and the closing thread. -/
structure Head (cfg : RingConfig) (s : RingState) : Prop where
  lock : ∀ p, (s.pc p).holds = true ↔ s.lock = some p
  waits : ∀ p, (s.pc p).ownsNone = true → s.acquired = s.handed.length
  owns : s.acquired = s.handed.length + 1 ∨ ∃ p, (s.pc p).ownsNone = true
  cur : s.curBlock = s.handed.length % cfg.cnt ∨ ∃ p, (s.pc p).joining = true
  closer : ∀ p, (s.pc p).closes = true ↔ s.closer = some p
  alone : ∀ p q, s.closer = some p → q ≠ p → s.pc q = .idle
  flags : ∀ p, s.closer = some p → s.compressDone = (s.pc p).pastCompressDone ∧
    s.dumpDone = (s.pc p).pastDumpDone
  flagsNone : s.closer = none → s.compressDone = false ∧ s.dumpDone = false
  idle : ∀ p, cfg.threads ≤ p → s.pc p = .idle

/-- A loop that has finished `n` turns is at slot `n % cnt`. -/
def LoopOk {β : Type} (cnt : Nat) (done : Bool) (n : Nat) : LoopPc β → Prop
  | .outerTest => n % cnt = 0 ∨ done = true
  | .innerTest i => i ≤ cnt ∧ i % cnt = n % cnt
  | .body i _ => i < cnt ∧ i = n % cnt
  | .finished => done = true

/-- Whether the turn in progress has passed a point of the body. -/
def LoopPc.past {β : Type} (f : β → Bool) : LoopPc β → Nat
  | .body _ b => (f b).toNat
  | _ => 0

def CompressPc.tookFilled : CompressPc → Bool
  | .waitFilled => false
  | _ => true

def CompressPc.tookEmpty : CompressPc → Bool
  | .waitFilled | .waitEmpty => false
  | _ => true

def CompressPc.signalled : CompressPc → Bool
  | .signalEmpty => true
  | _ => false

def DumpPc.tookFilled : DumpPc → Bool
  | .waitFilled => false
  | _ => true

def DumpPc.dumped : DumpPc → Bool
  | .signalEmpty => true
  | _ => false

/-- The semaphores. -/
structure Tokens (cfg : RingConfig) (s : RingState) : Prop where
  filledBuffer : Balanced cfg.cnt s.filledBuffer
    (s.squeezed + s.compressPc.past CompressPc.tookFilled) s.handed.length 0
  emptyBuffer : Balanced cfg.cnt s.emptyBuffer s.acquired s.squeezed 1
  filledCompressed : Balanced cfg.cnt s.filledCompressed
    (s.written + s.dumpPc.past DumpPc.tookFilled)
    (s.squeezed + s.compressPc.past CompressPc.signalled) 0
  emptyCompressed : Balanced cfg.cnt s.emptyCompressed
    (s.squeezed + s.compressPc.past CompressPc.tookEmpty) s.written 1

/-- The data. -/
structure Contents (cfg : RingConfig) (s : RingState) : Prop where
  pending : ∀ j, s.squeezed ≤ j → j < s.handed.length →
    s.handed[j]? = some (s.content cfg (j % cfg.cnt))
  fresh : ∀ i, s.compressPc = .body i .signalFilled →
    s.handed[s.squeezed]?.map cfg.compress = some (s.compressed i)
  ready : ∀ j, s.written ≤ j → j < s.squeezed + s.compressPc.past CompressPc.signalled →
    s.handed[j]?.map cfg.compress = some (s.compressed (j % cfg.cnt))
  file : s.file = (s.handed.take (s.written + s.dumpPc.past DumpPc.dumped)).map cfg.compress

/-- The invariant. -/
structure RingInv (cfg : RingConfig) (s : RingState) : Prop where
  head : Head cfg s
  compressLoop : LoopOk cfg.cnt s.compressDone s.squeezed s.compressPc
  dumpLoop : LoopOk cfg.cnt s.dumpDone s.written s.dumpPc
  tokens : Tokens cfg s
  contents : Contents cfg s

/-! ## `Head` -/

section

variable {cfg : RingConfig} {s s' : RingState}

theorem Head.init (buffer : Nat → Nat → UInt8) (compressed : Nat → List UInt8) :
    Head cfg (RingState.init buffer compressed) := by
  constructor <;> simp [RingState.init, Pc.holds, Pc.ownsNone, Pc.closes]

/-- Who is not idle is alone with the closing thread. -/
theorem Head.eq_closer (h : Head cfg s) {p r : Nat} (hp : s.pc p ≠ .idle)
    (hr : s.closer = some r) : r = p := by
  by_contra hne
  exact hp (h.alone r p hr fun he => hne he.symm)

theorem Head.lt_threads (h : Head cfg s) {p : Nat} (hp : s.pc p ≠ .idle) : p < cfg.threads := by
  by_contra hle
  exact hp (h.idle p (not_lt.mp hle))

/-- While a thread holds the lock, no other is inside or has handed off the last block. -/
theorem Head.ownsNone_of_holds (h : Head cfg s) {p q : Nat} (hp : (s.pc p).holds = true)
    (hq : (s.pc q).ownsNone = true) : q = p := by
  have hlock := (h.lock p).mp hp
  by_cases hqh : (s.pc q).holds = true
  · exact Option.some.inj (((h.lock q).mp hqh).symm.trans hlock)
  · have hcloses : (s.pc q).closes = true := by
      cases hpc : s.pc q <;> simp_all [Pc.holds, Pc.ownsNone, Pc.closes]
    exact h.eq_closer (by rintro he; simp [he, Pc.holds] at hp) ((h.closer q).mp hcloses)

theorem Pc.ownsNone_of_joining {pc : Pc} (h : pc.joining = true) : pc.ownsNone = true := by
  cases pc <;> simp_all [Pc.joining, Pc.ownsNone]

/-- While a thread holds the lock, no thread has handed off the last block. -/
theorem Head.cur_of_holds (h : Head cfg s) {p : Nat} (hp : (s.pc p).holds = true) :
    s.curBlock = s.handed.length % cfg.cnt := by
  refine h.cur.resolve_right ?_
  rintro ⟨q, hq⟩
  have := h.ownsNone_of_holds hp (Pc.ownsNone_of_joining hq)
  subst this
  cases hpc : s.pc q <;> simp_all [Pc.holds, Pc.joining]

/-- A thread that holds the lock and does not wait owns `cur_block`. -/
theorem Head.acquired_of_holds (h : Head cfg s) {p : Nat} (hp : (s.pc p).holds = true)
    (how : (s.pc p).ownsNone = false) : s.acquired = s.handed.length + 1 := by
  refine h.owns.resolve_right ?_
  rintro ⟨q, hq⟩
  have := h.ownsNone_of_holds hp hq
  subst this
  simp [hq] at how

/-- The closing thread, before it hands off the last block, owns `cur_block` unless it waits. -/
theorem Head.owner_of_closes (h : Head cfg s) {p : Nat} (hp : (s.pc p).closes = true)
    (how : (s.pc p).ownsNone = false) :
    s.acquired = s.handed.length + 1 ∧ s.curBlock = s.handed.length % cfg.cnt := by
  have hcloser := (h.closer p).mp hp
  have hall : ∀ q, (s.pc q).ownsNone = false := fun q => by
    by_cases hq : q = p
    · rw [hq, how]
    · rw [h.alone p q hcloser hq]; rfl
  refine ⟨h.owns.resolve_right ?_, h.cur.resolve_right ?_⟩
  · rintro ⟨q, hq⟩
    simp [hall q] at hq
  · rintro ⟨q, hq⟩
    have := Pc.ownsNone_of_joining hq
    simp [hall q] at this

/-- One thread moves; `howner` is what becomes of `cur_block` and its owner. -/
theorem Head.move (h : Head cfg s) {p : Nat} {b : Pc} (hpc : s'.pc = Function.update s.pc p b)
    (hp : p < cfg.threads) (halone : ∀ r, s.closer = some r → r = p)
    (hlock : b.holds = true ↔ s'.lock = some p)
    (hlocks : ∀ q, q ≠ p → (s'.lock = some q ↔ s.lock = some q))
    (howner : (∀ q, (s'.pc q).ownsNone = true → s'.acquired = s'.handed.length) ∧
      (s'.acquired = s'.handed.length + 1 ∨ ∃ q, (s'.pc q).ownsNone = true) ∧
      (s'.curBlock = s'.handed.length % cfg.cnt ∨ ∃ q, (s'.pc q).joining = true))
    (hcloser : s'.closer = s.closer) (hcloses : b.closes = (s.pc p).closes)
    (hflags : s.closer = some p →
      s'.compressDone = b.pastCompressDone ∧ s'.dumpDone = b.pastDumpDone)
    (hflagsNone : s.closer = none → s'.compressDone = s.compressDone ∧ s'.dumpDone = s.dumpDone) :
    Head cfg s' := by
  have hself : s'.pc p = b := by rw [hpc, Function.update_self]
  have hother : ∀ q, q ≠ p → s'.pc q = s.pc q := fun q hq => by rw [hpc, Function.update_of_ne hq]
  refine ⟨fun q => ?_, howner.1, howner.2.1, howner.2.2, fun q => ?_, fun r q hr hq => ?_,
    fun r hr => ?_, fun hn => ?_, fun q hq => ?_⟩
  · by_cases hqp : q = p
    · rw [hqp, hself, hlock]
    · rw [hother q hqp, h.lock, hlocks q hqp]
  · by_cases hqp : q = p
    · rw [hqp, hself, hcloses, hcloser, h.closer]
    · rw [hother q hqp, hcloser, h.closer]
  · rw [hcloser] at hr
    cases halone r hr
    rw [hother q hq, h.alone _ q hr hq]
  · rw [hcloser] at hr
    cases halone r hr
    rw [hself]
    exact hflags hr
  · rw [hcloser] at hn
    rw [(hflagsNone hn).1, (hflagsNone hn).2]
    exact h.flagsNone hn
  · have hqp : q ≠ p := by omega
    rw [hother q hqp, h.idle q hq]

/-- A thread that moves without effect on the owner of `cur_block`. -/
theorem Head.owner_goto (h : Head cfg s) {p : Nat} {b : Pc}
    (hnone : b.ownsNone = (s.pc p).ownsNone) (hjoin : b.joining = (s.pc p).joining) :
    (∀ q, (Function.update s.pc p b q).ownsNone = true → s.acquired = s.handed.length) ∧
      (s.acquired = s.handed.length + 1 ∨ ∃ q, (Function.update s.pc p b q).ownsNone = true) ∧
      (s.curBlock = s.handed.length % cfg.cnt ∨
        ∃ q, (Function.update s.pc p b q).joining = true) := by
  have hsame : ∀ (f : Pc → Bool), f b = f (s.pc p) → ∀ q, f (Function.update s.pc p b q) =
      f (s.pc q) := by
    intro f hf q
    by_cases hqp : q = p
    · rw [hqp, Function.update_self, hf]
    · rw [Function.update_of_ne hqp]
  simp only [hsame _ hnone, hsame _ hjoin]
  exact ⟨h.waits, h.owns, h.cur⟩

/-- A thread that moves without effect on what the invariant reads. -/
theorem Head.goto (h : Head cfg s) {p : Nat} {b : Pc} (hb : b.attrs = (s.pc p).attrs)
    (hp : p < cfg.threads) (halone : ∀ r, s.closer = some r → r = p) : Head cfg (s.goto p b) := by
  simp only [Pc.attrs, Prod.mk.injEq] at hb
  obtain ⟨hholds, hnone, hjoin, hcloses, hcd, hdd⟩ := hb
  refine h.move rfl hp halone (by rw [hholds]; exact h.lock p) (fun _ _ => Iff.rfl)
    (h.owner_goto hnone hjoin) rfl hcloses (fun hr => ?_) (fun _ => ⟨rfl, rfl⟩)
  rw [hcd, hdd]
  exact h.flags p hr

theorem Head.goto_of_ne_idle (h : Head cfg s) {p : Nat} {b : Pc} (hp : s.pc p ≠ .idle)
    (hb : b.attrs = (s.pc p).attrs) : Head cfg (s.goto p b) :=
  h.goto hb (h.lt_threads hp) fun _ hr => h.eq_closer hp hr

/-- A thread that takes the lock or releases it. -/
theorem Head.relock (h : Head cfg s) {p : Nat} {b : Pc} {lock : Option Nat} (hp : s.pc p ≠ .idle)
    (hlock : b.holds = true ↔ lock = some p)
    (hlocks : ∀ q, q ≠ p → (lock = some q ↔ s.lock = some q))
    (hb : b.attrs.2 = (s.pc p).attrs.2) : Head cfg { s.goto p b with lock := lock } := by
  simp only [Pc.attrs, Prod.mk.injEq] at hb
  obtain ⟨hnone, hjoin, hcloses, hcd, hdd⟩ := hb
  refine h.move rfl (h.lt_threads hp) (fun r hr => h.eq_closer hp hr) hlock hlocks
    (h.owner_goto hnone hjoin) rfl hcloses (fun hr => ?_) (fun _ => ⟨rfl, rfl⟩)
  rw [hcd, hdd]
  exact h.flags p hr

/-- A thread that sets a flag. -/
theorem Head.setFlags (h : Head cfg s) {p : Nat} {b : Pc} {cd dd : Bool} (hp : s.pc p ≠ .idle)
    (hc : (s.pc p).closes = true)
    (hb : b.holds = (s.pc p).holds ∧ b.ownsNone = (s.pc p).ownsNone ∧
      b.joining = (s.pc p).joining ∧ b.closes = (s.pc p).closes)
    (hcd : cd = b.pastCompressDone) (hdd : dd = b.pastDumpDone) :
    Head cfg { s.goto p b with compressDone := cd, dumpDone := dd } := by
  obtain ⟨hholds, hnone, hjoin, hcloses⟩ := hb
  refine h.move rfl (h.lt_threads hp) (fun r hr => h.eq_closer hp hr)
    (by rw [hholds]; exact h.lock p) (fun _ _ => Iff.rfl) (h.owner_goto hnone hjoin) rfl hcloses
    (fun _ => ⟨hcd, hdd⟩) (fun hn => ?_)
  have := (h.closer p).mp hc
  simp [hn] at this

/-- The call of `CloseBufferFile`. -/
theorem Head.close (h : Head cfg s) {p : Nat} (hp : p < cfg.threads) (hcloser : s.closer = none)
    (hidle : ∀ q, q < cfg.threads → s.pc q = .idle) :
    Head cfg { s.goto p (.spin .close 1) with closer := some p } := by
  have hall : ∀ q, s.pc q = .idle := fun q => by
    by_cases hq : q < cfg.threads
    · exact hidle q hq
    · exact h.idle q (not_lt.mp hq)
  have howner := h.owner_goto (p := p) (b := .spin .close 1) (by rw [hall]; rfl) (by rw [hall]; rfl)
  obtain ⟨hcd, hdd⟩ := h.flagsNone hcloser
  refine ⟨fun q => ?_, howner.1, howner.2.1, howner.2.2, fun q => ?_, fun r q hr hq => ?_,
    fun r hr => ?_, fun hn => ?_, fun q hq => ?_⟩
  · have := h.lock q
    rw [hall q] at this
    by_cases hqp : q = p <;> simpa [RingState.goto, hqp, hall, Pc.holds] using this
  · by_cases hqp : q = p
    · simp [RingState.goto, hqp, Pc.closes]
    · simp [RingState.goto, hqp, hall, Pc.closes, Ne.symm hqp]
  · cases hr
    simp [RingState.goto, hq, hall]
  · cases hr
    simp [RingState.goto, Pc.pastCompressDone, Pc.pastDumpDone, hcd, hdd]
  · cases hn
  · have hqp : q ≠ p := by omega
    simp [RingState.goto, hqp, hall]

/-- The hand-off of a full buffer, and of the last one. -/
theorem Head.handOff (h : Head cfg s) {p : Nat} {b : Pc} (hp : s.pc p ≠ .idle) (cur : Nat)
    (hlock : b.holds = true ↔ s.lock = some p) (hacq : s.acquired = s.handed.length + 1)
    (hb : b.ownsNone = true ∧ b.closes = (s.pc p).closes ∧
      b.pastCompressDone = (s.pc p).pastCompressDone ∧ b.pastDumpDone = (s.pc p).pastDumpDone)
    (hcur : cur = (s.handed.length + 1) % cfg.cnt ∨ b.joining = true) (i : Nat) :
    Head cfg { (s.handOff cfg i).goto p b with curBlock := cur } := by
  obtain ⟨hnone, hcloses, hcd, hdd⟩ := hb
  have hlen : (s.handed ++ [s.content cfg i]).length = s.handed.length + 1 := by simp
  refine h.move rfl (h.lt_threads hp) (fun r hr => h.eq_closer hp hr) hlock (fun _ _ => Iff.rfl)
    ⟨fun q _ => hacq.trans hlen.symm, Or.inr ⟨p, ?_⟩, ?_⟩ rfl hcloses (fun hr => ?_)
    (fun _ => ⟨rfl, rfl⟩)
  · simpa [RingState.goto] using hnone
  · refine hcur.imp (fun h => h.trans (by rw [← hlen]; rfl)) fun h => ⟨p, ?_⟩
    simpa [RingState.goto] using h
  · rw [hcd, hdd]
    exact h.flags p hr

/-- The next buffer is there. -/
theorem Head.takeEmpty (h : Head cfg s) {p : Nat} {c : Caller} {length : Nat}
    (hpc : s.pc p = .waitEmpty c length) (emptyBuffer : Nat → Nat) :
    Head cfg { s.goto p (.writing c 0 length) with
      emptyBuffer := emptyBuffer, offset := length, acquired := s.acquired + 1 } := by
  have hp : s.pc p ≠ .idle := by simp [hpc]
  have hholds : (s.pc p).holds = true := by simp [hpc, Pc.holds]
  have hacq : s.acquired = s.handed.length := h.waits p (by simp [hpc, Pc.ownsNone])
  refine h.move rfl (h.lt_threads hp) (fun r hr => h.eq_closer hp hr) ?_ (fun _ _ => Iff.rfl)
    ⟨fun q hq => ?_, Or.inl (by rw [hacq]; rfl), Or.inl (h.cur_of_holds hholds)⟩ rfl
    (by simp [hpc, Pc.closes]) (fun hr => ?_) (fun _ => ⟨rfl, rfl⟩)
  · simpa [RingState.goto, Pc.holds] using (h.lock p).mp hholds
  · -- no other thread is without a buffer while `p` holds the lock
    by_cases hqp : q = p
    · simp [RingState.goto, hqp, Pc.ownsNone] at hq
    · exact absurd (h.ownsNone_of_holds hholds (by simpa [RingState.goto, hqp] using hq)) hqp
  · have := h.flags p hr
    simpa [RingState.goto, hpc, Pc.pastCompressDone, Pc.pastDumpDone] using this

/-! ## `LoopOk` -/

variable {β : Type} {cnt n : Nat} {done : Bool} {pc pc' : LoopPc β}

/-- A test leaves the loop at its slot, before the first point of the body. -/
theorem LoopOk.test (h : LoopOk cnt done n pc) {first : β}
    (ht : pc.test cnt done first = some pc') :
    LoopOk cnt done n pc' ∧ ∀ f : β → Bool, f first = false → pc'.past f = pc.past f := by
  cases pc with
  | outerTest =>
    simp only [LoopPc.test, Option.some.injEq] at ht
    split_ifs at ht with hd
    · subst ht
      exact ⟨hd, fun _ _ => rfl⟩
    · subst ht
      exact ⟨⟨Nat.zero_le _, (Nat.zero_mod _).trans (h.resolve_right hd).symm⟩, fun _ _ => rfl⟩
  | innerTest i =>
    obtain ⟨hle, hmod⟩ := h
    simp only [LoopPc.test, Option.some.injEq] at ht
    split_ifs at ht with hi
    · subst ht
      rw [Nat.mod_eq_of_lt hi.1] at hmod
      exact ⟨⟨hi.1, hmod⟩, fun f hf => by simp [LoopPc.past, hf]⟩
    · subst ht
      refine ⟨?_, fun _ _ => rfl⟩
      by_cases hd : done = true
      · exact Or.inr hd
      · have he : i = cnt := by
          have : ¬ i < cnt := fun hlt => hi ⟨hlt, by simpa using hd⟩
          omega
        rw [he, Nat.mod_self] at hmod
        exact Or.inl hmod.symm
  | body i b => simp [LoopPc.test] at ht
  | finished => simp [LoopPc.test] at ht

/-- The end of a turn. -/
theorem LoopOk.next {i : Nat} {b : β} (h : LoopOk cnt done n (.body i b)) :
    LoopOk cnt done (n + 1) (.innerTest (i + 1) : LoopPc β) := by
  obtain ⟨hlt, hi⟩ := h
  refine ⟨hlt, ?_⟩
  rw [hi, Nat.mod_add_mod]

/-- The flag is set while the loop is anywhere. -/
theorem LoopOk.setDone (h : LoopOk cnt done n pc) : LoopOk cnt true n pc := by
  cases pc with
  | outerTest => exact Or.inr rfl
  | innerTest i => exact h
  | body i b => exact h
  | finished => rfl

/-- A point that implies another one is passed later. -/
theorem LoopPc.past_mono {f g : β → Bool} (h : ∀ b, f b = true → g b = true) :
    ∀ pc : LoopPc β, pc.past f ≤ pc.past g
  | .body _ b => by
    cases hf : f b with
    | false => simp [LoopPc.past, hf]
    | true => simp [LoopPc.past, hf, h b hf]
  | .outerTest | .innerTest _ | .finished => le_rfl

/-! ## `Contents` -/

theorem content_congr {i : Nat} (h : s'.buffer i = s.buffer i) :
    s'.content cfg i = s.content cfg i := by
  simp [RingState.content, h]

/-- No block handed off and not yet compressed is in the buffer of the next one. -/
theorem Tokens.slot_ne (ht : Tokens cfg s) (hcnt : 0 < cfg.cnt)
    (hacq : s.acquired = s.handed.length + 1) {j : Nat} (hj : s.squeezed ≤ j)
    (hjlt : j < s.handed.length) : j % cfg.cnt ≠ s.handed.length % cfg.cnt := by
  have := ht.emptyBuffer.taken_le_add hcnt
  exact mod_ne_of_lt hjlt (by omega)

/-- No compressed block that is not yet dumped is where the next one goes. -/
theorem Tokens.compressed_slot_ne (ht : Tokens cfg s) (hcnt : 0 < cfg.cnt)
    (hpast : s.compressPc.past CompressPc.tookEmpty = 1) {j : Nat} (hj : s.written ≤ j)
    (hjlt : j < s.squeezed) : j % cfg.cnt ≠ s.squeezed % cfg.cnt := by
  have := ht.emptyCompressed.taken_le_add hcnt
  exact mod_ne_of_lt hjlt (by omega)

/-- How far the threads are: what is dumped was handed over compressed, and that was handed off. -/
theorem Tokens.order (ht : Tokens cfg s) :
    s.written + s.dumpPc.past DumpPc.tookFilled ≤
        s.squeezed + s.compressPc.past CompressPc.signalled ∧
      s.squeezed + s.compressPc.past CompressPc.tookFilled ≤ s.handed.length ∧
      s.compressPc.past CompressPc.signalled ≤ s.compressPc.past CompressPc.tookFilled ∧
      s.dumpPc.past DumpPc.dumped ≤ s.dumpPc.past DumpPc.tookFilled := by
  refine ⟨ht.filledCompressed.taken_le, ht.filledBuffer.taken_le, ?_, ?_⟩
  · exact LoopPc.past_mono (fun b hb => by cases b <;> simp_all [CompressPc.signalled,
      CompressPc.tookFilled]) _
  · exact LoopPc.past_mono (fun b hb => by cases b <;> simp_all [DumpPc.dumped,
      DumpPc.tookFilled]) _

/-- The file does not hold more than was handed off. -/
theorem Tokens.dumped_le (ht : Tokens cfg s) :
    s.written + s.dumpPc.past DumpPc.dumped ≤ s.handed.length := by
  have := ht.order
  omega

/-- Only `cur_block` is written to. -/
theorem Contents.store (h : Contents cfg s) (ht : Tokens cfg s) (hcnt : 0 < cfg.cnt)
    (hacq : s.acquired = s.handed.length + 1)
    (hbuf : ∀ i, i ≠ s.handed.length % cfg.cnt → s'.buffer i = s.buffer i)
    (hsame : s'.handed = s.handed ∧ s'.squeezed = s.squeezed ∧ s'.written = s.written ∧
      s'.compressPc = s.compressPc ∧ s'.dumpPc = s.dumpPc ∧ s'.compressed = s.compressed ∧
      s'.file = s.file) : Contents cfg s' := by
  obtain ⟨hh, hq, hw, hc, hd, hcomp, hf⟩ := hsame
  refine ⟨?_, ?_, ?_, ?_⟩
  · rw [hh, hq]
    intro j hj hjlt
    rw [h.pending j hj hjlt, content_congr (hbuf _ (ht.slot_ne hcnt hacq hj hjlt))]
  · rw [hh, hq, hc, hcomp]
    exact h.fresh
  · rw [hh, hq, hw, hc, hcomp]
    exact h.ready
  · rw [hh, hw, hd, hf]
    exact h.file

/-- While it compresses, `CompressTrace` only writes where no block waits to be dumped. -/
theorem Contents.storeCompressed (h : Contents cfg s) (ht : Tokens cfg s) (hcnt : 0 < cfg.cnt)
    {i : Nat} (hpc : s.compressPc = .body i .compressing) (hi : i = s.squeezed % cfg.cnt)
    (l : List UInt8) {j : Nat} (hj : s.written ≤ j) (hjlt : j < s.squeezed) :
    s.handed[j]?.map cfg.compress = some (Function.update s.compressed i l (j % cfg.cnt)) := by
  have hne := ht.compressed_slot_ne hcnt (by rw [hpc]; rfl) hj hjlt
  rw [← hi] at hne
  rw [Function.update_of_ne hne]
  exact h.ready j hj (Nat.lt_add_right _ hjlt)

/-- A hand-off adds the content of `cur_block`. -/
theorem Contents.handOff (h : Contents cfg s) (ht : Tokens cfg s)
    (hsame : s'.squeezed = s.squeezed ∧ s'.written = s.written ∧
      s'.compressPc = s.compressPc ∧ s'.dumpPc = s.dumpPc ∧ s'.compressed = s.compressed ∧
      s'.file = s.file ∧ s'.buffer = s.buffer)
    (hh : s'.handed = s.handed ++ [s.content cfg (s.handed.length % cfg.cnt)]) :
    Contents cfg s' := by
  obtain ⟨hq, hw, hc, hd, hcomp, hf, hbuf⟩ := hsame
  have hcont : ∀ i, s'.content cfg i = s.content cfg i := fun i =>
    content_congr (congrFun hbuf i)
  have hold : ∀ {j : Nat} {l : List UInt8}, s.handed[j]?.map cfg.compress = some l →
      s'.handed[j]?.map cfg.compress = some l := by
    intro j l hj
    obtain ⟨b, hb, -⟩ := Option.map_eq_some_iff.mp hj
    rw [hh, List.getElem?_append_left (List.getElem?_eq_some_iff.mp hb).1]
    exact hj
  refine ⟨?_, ?_, ?_, ?_⟩
  · intro j hj hjlt
    rw [hq] at hj
    rw [hh, List.length_append, List.length_singleton] at hjlt
    rw [hcont, hh]
    by_cases hlast : j < s.handed.length
    · rw [List.getElem?_append_left hlast]
      exact h.pending j hj hlast
    · have : j = s.handed.length := by omega
      subst this
      simp
  · rw [hq, hc, hcomp]
    exact fun i hi => hold (h.fresh i hi)
  · rw [hq, hw, hc, hcomp]
    exact fun j hj hjlt => hold (h.ready j hj hjlt)
  · rw [hh, hw, hd, hf, List.take_append_of_le_length ht.dumped_le]
    exact h.file

/-! ## The steps -/

theorem nextSlot_mod {cnt : Nat} (hcnt : 0 < cnt) (n : Nat) :
    nextSlot cnt (n % cnt) = (n + 1) % cnt := by
  unfold nextSlot
  rw [← Nat.mod_add_mod n cnt 1]
  split_ifs with h
  · rw [h, Nat.mod_self]
  · have := Nat.mod_lt n hcnt
    exact (Nat.mod_eq_of_lt (by omega)).symm

theorem RingInv.init (buffer : Nat → Nat → UInt8)
    (compressed : Nat → List UInt8) : RingInv cfg (RingState.init buffer compressed) where
  head := Head.init buffer compressed
  compressLoop := Or.inl (Nat.zero_mod _)
  dumpLoop := Or.inl (Nat.zero_mod _)
  tokens := by
    refine ⟨fun i => ?_, fun i => ?_, fun i => ?_, fun i => ?_⟩
    · simp [RingState.init, LoopPc.past]
    · -- the producers start with buffer 0
      by_cases hi : i = 0
      · simp [RingState.init, hi, turns_succ]
      · simp [RingState.init, hi, turns_succ, Ne.symm hi]
    · simp [RingState.init, LoopPc.past]
    · simp [RingState.init, LoopPc.past]
  contents := by
    constructor <;> simp [RingState.init, LoopPc.past]

theorem RingInv.call (h : RingInv cfg s) {p length : Nat}
    (hstep : ringStep cfg s (.call p length) = some s') : RingInv cfg s' := by
  obtain ⟨hhead, hcl, hdl, htok, hcont⟩ := h
  simp only [ringStep] at hstep
  split_ifs at hstep with hc
  obtain ⟨hp, hcloser, hpc⟩ := hc
  cases hstep
  exact ⟨hhead.goto (by rw [hpc]; rfl) hp (by simp [hcloser]), hcl, hdl, { htok with }, { hcont with }⟩

theorem RingInv.close (h : RingInv cfg s) {p : Nat}
    (hstep : ringStep cfg s (.close p) = some s') : RingInv cfg s' := by
  obtain ⟨hhead, hcl, hdl, htok, hcont⟩ := h
  simp only [ringStep] at hstep
  split_ifs at hstep with hc
  obtain ⟨hp, hcloser, hidle⟩ := hc
  cases hstep
  exact ⟨hhead.close hp hcloser hidle, hcl, hdl, { htok with }, { hcont with }⟩

theorem RingInv.lock (h : RingInv cfg s) {p : Nat}
    (hstep : ringStep cfg s (.lock p) = some s') : RingInv cfg s' := by
  obtain ⟨hhead, hcl, hdl, htok, hcont⟩ := h
  simp only [ringStep] at hstep
  split at hstep
  · rename_i c length hpc
    split_ifs at hstep with hl
    cases hstep
    refine ⟨hhead.relock (by simp [hpc]) (by simp [Pc.holds]) (fun q hq => ?_) (by rw [hpc]; rfl),
      hcl, hdl, { htok with }, { hcont with }⟩
    simp [hl, Ne.symm hq]
  · cases hstep

theorem RingInv.testFull (h : RingInv cfg s) {p : Nat}
    (hstep : ringStep cfg s (.testFull p) = some s') : RingInv cfg s' := by
  obtain ⟨hhead, hcl, hdl, htok, hcont⟩ := h
  simp only [ringStep] at hstep
  split at hstep
  · rename_i c length hpc
    have hp : s.pc p ≠ .idle := by simp [hpc]
    split_ifs at hstep with hfull
    · cases hstep
      exact ⟨hhead.goto_of_ne_idle hp (by rw [hpc]; rfl), hcl, hdl, { htok with }, { hcont with }⟩
    · cases hstep
      exact ⟨{ hhead.goto_of_ne_idle hp (by rw [hpc]; rfl) with }, hcl, hdl, { htok with },
        { hcont with }⟩
  · cases hstep

theorem RingInv.fill (h : RingInv cfg s) (hcnt : 0 < cfg.cnt) {p i : Nat}
    (hstep : ringStep cfg s (.fill p i) = some s') : RingInv cfg s' := by
  obtain ⟨hhead, hcl, hdl, htok, hcont⟩ := h
  simp only [ringStep] at hstep
  split_ifs at hstep with hi
  -- a byte of padding goes to `cur_block`, whose owner `p` is
  have hfill : ∀ {j : Nat} {b : Pc}, (s.pc p).holds = true → (s.pc p).ownsNone = false →
      b.attrs = (s.pc p).attrs →
      RingInv cfg ((s.storeByte i j placeHolderLabel).goto p b) := by
    intro j b hholds hown hb
    have hp : s.pc p ≠ .idle := by rintro he; simp [he, Pc.holds] at hholds
    refine ⟨{ hhead.goto_of_ne_idle hp hb with }, hcl, hdl, { htok with },
      hcont.store htok hcnt (hhead.acquired_of_holds hholds hown) (fun k hk => ?_)
        ⟨rfl, rfl, rfl, rfl, rfl, rfl, rfl⟩⟩
    rw [← hhead.cur_of_holds hholds, ← hi] at hk
    simp [RingState.goto, RingState.storeByte, hk]
  split at hstep
  · rename_i c length j hpc
    split_ifs at hstep with hj
    cases hstep
    exact hfill (by rw [hpc]; rfl) (by rw [hpc]; rfl) (by rw [hpc]; rfl)
  · rename_i j hpc
    split_ifs at hstep with hj
    cases hstep
    exact hfill (by rw [hpc]; rfl) (by rw [hpc]; rfl) (by rw [hpc]; rfl)
  · cases hstep

theorem RingInv.handOff (h : RingInv cfg s) (hcnt : 0 < cfg.cnt) {p i : Nat}
    (hstep : ringStep cfg s (.handOff p i) = some s') : RingInv cfg s' := by
  obtain ⟨hhead, hcl, hdl, htok, hcont⟩ := h
  simp only [ringStep] at hstep
  split_ifs at hstep with hi
  -- the tokens and the contents, for both kinds of hand-off
  have htokens : ∀ {b : Pc} {cur : Nat}, i = s.handed.length % cfg.cnt →
      Tokens cfg { (s.handOff cfg i).goto p b with curBlock := cur } := fun hmod =>
    { htok with
      filledBuffer := by
        have hlen : (s.handed ++ [s.content cfg i]).length = s.handed.length + 1 := by simp
        show Balanced _ _ _ (s.handed ++ [s.content cfg i]).length _
        rw [hlen]
        exact htok.filledBuffer.give hmod }
  have hcontents : ∀ {b : Pc} {cur : Nat}, i = s.handed.length % cfg.cnt →
      Contents cfg { (s.handOff cfg i).goto p b with curBlock := cur } := fun hmod =>
    hcont.handOff htok ⟨rfl, rfl, rfl, rfl, rfl, rfl, rfl⟩ (by rw [← hmod]; rfl)
  split at hstep
  · rename_i c length j hpc
    split_ifs at hstep with hj
    cases hstep
    have hholds : (s.pc p).holds = true := by rw [hpc]; rfl
    have hcur := hhead.cur_of_holds hholds
    have hlock : (Pc.waitEmpty c length).holds = true ↔ s.lock = some p := by
      simpa [Pc.holds] using (hhead.lock p).mp hholds
    refine ⟨hhead.handOff (by simp [hpc]) _ hlock (hhead.acquired_of_holds hholds (by rw [hpc]; rfl))
      ⟨rfl, by rw [hpc]; rfl, by rw [hpc]; rfl, by rw [hpc]; rfl⟩ (Or.inl ?_) i, hcl, hdl,
      htokens (hi.trans hcur), hcontents (hi.trans hcur)⟩
    rw [hcur, nextSlot_mod hcnt]
  · rename_i hpc
    cases hstep
    obtain ⟨hacq, hcur⟩ := hhead.owner_of_closes (p := p) (by rw [hpc]; rfl) (by rw [hpc]; rfl)
    have hlock : Pc.joinCompress.holds = true ↔ s.lock = some p := by
      rw [← hhead.lock p, hpc]; rfl
    exact ⟨hhead.handOff (by simp [hpc]) s.curBlock hlock hacq
      ⟨rfl, by rw [hpc]; rfl, by rw [hpc]; rfl, by rw [hpc]; rfl⟩ (Or.inr rfl) i, hcl, hdl,
      htokens (hi.trans hcur), hcontents (hi.trans hcur)⟩
  · cases hstep

theorem RingInv.takeEmpty (h : RingInv cfg s) {p i : Nat}
    (hstep : ringStep cfg s (.takeEmpty p i) = some s') : RingInv cfg s' := by
  obtain ⟨hhead, hcl, hdl, htok, hcont⟩ := h
  simp only [ringStep] at hstep
  split at hstep
  · rename_i c length hpc
    split_ifs at hstep with hc
    obtain ⟨hi, hpos⟩ := hc
    cases hstep
    have hcur := hhead.cur_of_holds (p := p) (by rw [hpc]; rfl)
    have hacq := hhead.waits p (by rw [hpc]; rfl)
    exact ⟨hhead.takeEmpty hpc _, hcl, hdl,
      { htok with emptyBuffer := htok.emptyBuffer.take hpos (by rw [hi, hcur, hacq]) },
      { hcont with }⟩
  · cases hstep

theorem RingInv.store (h : RingInv cfg s) (hcnt : 0 < cfg.cnt) {p i k : Nat} {v : UInt8}
    (hstep : ringStep cfg s (.store p i k v) = some s') : RingInv cfg s' := by
  obtain ⟨hhead, hcl, hdl, htok, hcont⟩ := h
  simp only [ringStep] at hstep
  split at hstep
  · rename_i ret length hpc
    split_ifs at hstep with hc
    obtain ⟨hi, hk⟩ := hc
    cases hstep
    have hholds : (s.pc p).holds = true := by rw [hpc]; rfl
    refine ⟨{ hhead with }, hcl, hdl, { htok with },
      hcont.store htok hcnt (hhead.acquired_of_holds hholds (by rw [hpc]; rfl)) (fun j hj => ?_)
        ⟨rfl, rfl, rfl, rfl, rfl, rfl, rfl⟩⟩
    rw [← hhead.cur_of_holds hholds, ← hi] at hj
    simp [RingState.storeByte, hj]
  · cases hstep

theorem RingInv.storeEnd (h : RingInv cfg s) (hcnt : 0 < cfg.cnt) {p i : Nat}
    (hstep : ringStep cfg s (.storeEnd p i) = some s') : RingInv cfg s' := by
  obtain ⟨hhead, hcl, hdl, htok, hcont⟩ := h
  simp only [ringStep] at hstep
  split at hstep
  · rename_i ret length hpc
    split_ifs at hstep with hi
    cases hstep
    have hholds : (s.pc p).holds = true := by rw [hpc]; rfl
    refine ⟨{ hhead.goto_of_ne_idle (p := p) (b := .padEnd s.offset) (by simp [hpc]) (by rw [hpc]; rfl) with },
      hcl, hdl, { htok with },
      hcont.store htok hcnt (hhead.acquired_of_holds hholds (by rw [hpc]; rfl)) (fun j hj => ?_)
        ⟨rfl, rfl, rfl, rfl, rfl, rfl, rfl⟩⟩
    rw [← hhead.cur_of_holds hholds, ← hi] at hj
    simp [RingState.goto, RingState.storeByte, hj]
  · cases hstep

theorem RingInv.unlock (h : RingInv cfg s) {p : Nat}
    (hstep : ringStep cfg s (.unlock p) = some s') : RingInv cfg s' := by
  obtain ⟨hhead, hcl, hdl, htok, hcont⟩ := h
  simp only [ringStep] at hstep
  have hlocks : (s.pc p).holds = true → ∀ q, q ≠ p → ((none : Option Nat) = some q ↔ s.lock = some q) := by
    intro hholds q hq
    rw [(hhead.lock p).mp hholds]
    simp [Ne.symm hq]
  split at hstep
  · rename_i ret length hpc
    cases hstep
    exact ⟨hhead.relock (by simp [hpc]) (by simp [Pc.holds]) (hlocks (by rw [hpc]; rfl))
      (by rw [hpc]; rfl), hcl, hdl, { htok with }, { hcont with }⟩
  · rename_i j hpc
    split_ifs at hstep with hj
    cases hstep
    exact ⟨hhead.relock (by simp [hpc]) (by simp [Pc.holds]) (hlocks (by rw [hpc]; rfl))
      (by rw [hpc]; rfl), hcl, hdl, { htok with }, { hcont with }⟩
  · cases hstep

theorem RingInv.setCompressDone (h : RingInv cfg s) {p : Nat}
    (hstep : ringStep cfg s (.setCompressDone p) = some s') : RingInv cfg s' := by
  obtain ⟨hhead, hcl, hdl, htok, hcont⟩ := h
  simp only [ringStep] at hstep
  split at hstep
  · rename_i hpc
    cases hstep
    have hcloser : s.closer = some p := (hhead.closer p).mp (by rw [hpc]; rfl)
    have hdd : s.dumpDone = false := by rw [(hhead.flags p hcloser).2, hpc]; rfl
    exact ⟨hhead.setFlags (by simp [hpc]) (by rw [hpc]; rfl) (by rw [hpc]; decide) rfl hdd,
      hcl.setDone, hdl, { htok with }, { hcont with }⟩
  · cases hstep

theorem RingInv.setDumpDone (h : RingInv cfg s) {p : Nat}
    (hstep : ringStep cfg s (.setDumpDone p) = some s') : RingInv cfg s' := by
  obtain ⟨hhead, hcl, hdl, htok, hcont⟩ := h
  simp only [ringStep] at hstep
  split at hstep
  · rename_i hpc
    cases hstep
    have hcloser : s.closer = some p := (hhead.closer p).mp (by rw [hpc]; rfl)
    have hcd : s.compressDone = true := by rw [(hhead.flags p hcloser).1, hpc]; rfl
    exact ⟨hhead.setFlags (by simp [hpc]) (by rw [hpc]; rfl) (by rw [hpc]; decide) hcd rfl,
      hcl, hdl.setDone, { htok with }, { hcont with }⟩
  · cases hstep

theorem RingInv.joinCompress (h : RingInv cfg s) {p : Nat}
    (hstep : ringStep cfg s (.joinCompress p) = some s') : RingInv cfg s' := by
  obtain ⟨hhead, hcl, hdl, htok, hcont⟩ := h
  simp only [ringStep] at hstep
  split_ifs at hstep with hc
  obtain ⟨hpc, -⟩ := hc
  cases hstep
  exact ⟨hhead.goto_of_ne_idle (by simp [hpc]) (by rw [hpc]; rfl), hcl, hdl, { htok with },
    { hcont with }⟩

theorem RingInv.joinDump (h : RingInv cfg s) {p : Nat}
    (hstep : ringStep cfg s (.joinDump p) = some s') : RingInv cfg s' := by
  obtain ⟨hhead, hcl, hdl, htok, hcont⟩ := h
  simp only [ringStep] at hstep
  split_ifs at hstep with hc
  obtain ⟨hpc, -⟩ := hc
  cases hstep
  exact ⟨hhead.goto_of_ne_idle (by simp [hpc]) (by rw [hpc]; rfl), hcl, hdl, { htok with },
    { hcont with }⟩

theorem RingInv.compressTest (h : RingInv cfg s)
    (hstep : ringStep cfg s (.compressTest) = some s') : RingInv cfg s' := by
  obtain ⟨hhead, hcl, hdl, htok, hcont⟩ := h
  obtain ⟨pc, hpc, rfl⟩ := Option.map_eq_some_iff.mp hstep
  obtain ⟨hloop, hpast⟩ := hcl.test hpc
  have hnot : ∀ i b, b ≠ CompressPc.waitFilled → pc ≠ .body i b := by
    rintro i b hb rfl
    cases hs : s.compressPc <;> simp [hs, LoopPc.test] at hpc
    all_goals split_ifs at hpc
    all_goals simp_all
  refine ⟨{ hhead with }, hloop, hdl, ?_, ?_⟩
  · refine { htok with filledBuffer := ?_, filledCompressed := ?_, emptyCompressed := ?_ }
    · show Balanced _ _ (_ + pc.past _) _ _
      rw [hpast _ rfl]
      exact htok.filledBuffer
    · show Balanced _ _ _ (_ + pc.past _) _
      rw [hpast _ rfl]
      exact htok.filledCompressed
    · show Balanced _ _ (_ + pc.past _) _ _
      rw [hpast _ rfl]
      exact htok.emptyCompressed
  · refine { hcont with fresh := fun i hi => absurd hi (hnot i _ (by simp)), ready := ?_ }
    show ∀ j, _ → j < _ + pc.past _ → _
    rw [hpast _ rfl]
    exact hcont.ready

theorem RingInv.compressTakeFilled (h : RingInv cfg s) {i : Nat}
    (hstep : ringStep cfg s (.compressTakeFilled i) = some s') : RingInv cfg s' := by
  obtain ⟨hhead, hcl, hdl, htok, hcont⟩ := h
  simp only [ringStep] at hstep
  split_ifs at hstep with hc
  obtain ⟨hpc, hpos⟩ := hc
  cases hstep
  rw [hpc] at hcl
  obtain ⟨h₁, h₂, h₃, h₄⟩ := htok
  rw [hpc] at h₁ h₃ h₄
  refine ⟨{ hhead with }, hcl, hdl, ⟨h₁.take hpos hcl.2, h₂, h₃, h₄⟩, ?_⟩
  exact { hcont with
    fresh := fun j hj => by simp at hj
    ready := by
      have := hcont.ready
      rw [hpc] at this
      exact this }

theorem RingInv.compressTakeEmpty (h : RingInv cfg s) {i : Nat}
    (hstep : ringStep cfg s (.compressTakeEmpty i) = some s') : RingInv cfg s' := by
  obtain ⟨hhead, hcl, hdl, htok, hcont⟩ := h
  simp only [ringStep] at hstep
  split_ifs at hstep with hc
  obtain ⟨hpc, hpos⟩ := hc
  cases hstep
  rw [hpc] at hcl
  obtain ⟨h₁, h₂, h₃, h₄⟩ := htok
  rw [hpc] at h₁ h₃ h₄
  refine ⟨{ hhead with }, hcl, hdl, ⟨h₁, h₂, h₃, h₄.take hpos hcl.2⟩, ?_⟩
  exact { hcont with
    fresh := fun j hj => by simp at hj
    ready := by
      have := hcont.ready
      rw [hpc] at this
      exact this }

theorem RingInv.compressScratch (h : RingInv cfg s) (hcnt : 0 < cfg.cnt) {i : Nat}
    {l : List UInt8} (hstep : ringStep cfg s (.compressScratch i l) = some s') :
    RingInv cfg s' := by
  obtain ⟨hhead, hcl, hdl, htok, hcont⟩ := h
  simp only [ringStep] at hstep
  split_ifs at hstep with hpc
  cases hstep
  have hi : i = s.squeezed % cfg.cnt := by
    rw [hpc] at hcl
    exact hcl.2
  refine ⟨{ hhead with }, hcl, hdl, { htok with }, ?_⟩
  refine { hcont with fresh := fun j hj => ?_, ready := fun j hj hjlt => ?_ }
  · simp [hpc] at hj
  · rw [hpc] at hjlt
    exact hcont.storeCompressed htok hcnt hpc hi l hj hjlt

theorem RingInv.compressEnd (h : RingInv cfg s) (hcnt : 0 < cfg.cnt) {i : Nat}
    (hstep : ringStep cfg s (.compressEnd i) = some s') : RingInv cfg s' := by
  obtain ⟨hhead, hcl, hdl, htok, hcont⟩ := h
  simp only [ringStep] at hstep
  split_ifs at hstep with hpc
  cases hstep
  have hi : i = s.squeezed % cfg.cnt := by
    rw [hpc] at hcl
    exact hcl.2
  have hlt : s.squeezed < s.handed.length := by
    have := htok.order.2.1
    rw [hpc] at this
    exact this
  refine ⟨{ hhead with }, by rw [hpc] at hcl; exact hcl, hdl, ?_, ?_⟩
  · obtain ⟨h₁, h₂, h₃, h₄⟩ := htok
    rw [hpc] at h₁ h₃ h₄
    exact ⟨h₁, h₂, h₃, h₄⟩
  · refine { hcont with fresh := fun j hj => ?_, ready := fun j hj hjlt => ?_ }
    · -- LZ4 has read what was handed off
      obtain ⟨rfl, -⟩ : i = j ∧ True := by simpa using hj
      have := hcont.pending s.squeezed le_rfl hlt
      rw [← hi] at this
      simp [this]
    · exact hcont.storeCompressed htok hcnt hpc hi _ hj hjlt

theorem RingInv.compressSignalFilled (h : RingInv cfg s) {i : Nat}
    (hstep : ringStep cfg s (.compressSignalFilled i) = some s') : RingInv cfg s' := by
  obtain ⟨hhead, hcl, hdl, htok, hcont⟩ := h
  simp only [ringStep] at hstep
  split_ifs at hstep with hpc
  cases hstep
  rw [hpc] at hcl
  refine ⟨{ hhead with }, hcl, hdl, ?_, ?_⟩
  · obtain ⟨h₁, h₂, h₃, h₄⟩ := htok
    rw [hpc] at h₁ h₃ h₄
    exact ⟨h₁, h₂, h₃.give hcl.2, h₄⟩
  · refine { hcont with fresh := fun j hj => by simp at hj, ready := fun j hj hjlt => ?_ }
    have hjlt : j < s.squeezed + 1 := hjlt
    by_cases hlast : j < s.squeezed
    · exact hcont.ready j hj (Nat.lt_add_right _ hlast)
    · have : j = s.squeezed := by omega
      rw [this, ← hcl.2]
      exact hcont.fresh i hpc

theorem RingInv.compressSignalEmpty (h : RingInv cfg s) {i : Nat}
    (hstep : ringStep cfg s (.compressSignalEmpty i) = some s') : RingInv cfg s' := by
  obtain ⟨hhead, hcl, hdl, htok, hcont⟩ := h
  simp only [ringStep] at hstep
  split_ifs at hstep with hpc
  cases hstep
  rw [hpc] at hcl
  refine ⟨{ hhead with }, hcl.next, hdl, ?_, ?_⟩
  · obtain ⟨h₁, h₂, h₃, h₄⟩ := htok
    rw [hpc] at h₁ h₃ h₄
    exact ⟨h₁, h₂.give hcl.2, h₃, h₄⟩
  · refine ⟨fun j hj => hcont.pending j (Nat.le_of_succ_le hj), fun j hj => by simp at hj, ?_,
      hcont.file⟩
    have := hcont.ready
    rw [hpc] at this
    exact this

theorem RingInv.dumpTest (h : RingInv cfg s)
    (hstep : ringStep cfg s .dumpTest = some s') : RingInv cfg s' := by
  obtain ⟨hhead, hcl, hdl, htok, hcont⟩ := h
  obtain ⟨pc, hpc, rfl⟩ := Option.map_eq_some_iff.mp hstep
  obtain ⟨hloop, hpast⟩ := hdl.test hpc
  refine ⟨{ hhead with }, hcl, hloop, { htok with filledCompressed := ?_ },
    { hcont with file := ?_ }⟩
  · show Balanced _ _ (_ + pc.past _) _ _
    rw [hpast _ rfl]
    exact htok.filledCompressed
  · show _ = (s.handed.take (_ + pc.past _)).map _
    rw [hpast _ rfl]
    exact hcont.file

theorem RingInv.dumpTakeFilled (h : RingInv cfg s) {i : Nat}
    (hstep : ringStep cfg s (.dumpTakeFilled i) = some s') : RingInv cfg s' := by
  obtain ⟨hhead, hcl, hdl, htok, hcont⟩ := h
  simp only [ringStep] at hstep
  split_ifs at hstep with hc
  obtain ⟨hpc, hpos⟩ := hc
  cases hstep
  rw [hpc] at hdl
  have hfile := hcont.file
  have htake := htok.filledCompressed
  rw [hpc] at hfile htake
  exact ⟨{ hhead with }, hcl, hdl, { htok with filledCompressed := htake.take hpos hdl.2 },
    { hcont with file := hfile }⟩

theorem RingInv.dumpEnd (h : RingInv cfg s) {i : Nat}
    (hstep : ringStep cfg s (.dumpEnd i) = some s') : RingInv cfg s' := by
  obtain ⟨hhead, hcl, hdl, htok, hcont⟩ := h
  simp only [ringStep] at hstep
  split_ifs at hstep with hpc
  cases hstep
  have hfile := hcont.file
  have htake := htok.filledCompressed
  have hlt := htok.order.1
  rw [hpc] at hdl hfile htake hlt
  refine ⟨{ hhead with }, hcl, hdl, { htok with filledCompressed := htake },
    { hcont with file := ?_ }⟩
  -- the block dumped is the next one handed off
  obtain ⟨b, hb, hcomp⟩ := Option.map_eq_some_iff.mp (hcont.ready s.written le_rfl hlt)
  have hfile : s.file = (s.handed.take s.written).map cfg.compress := hfile
  show s.file ++ [s.compressed i] = (s.handed.take (s.written + 1)).map cfg.compress
  rw [List.take_add_one, hb, List.map_append, ← hfile, hdl.2, ← hcomp]
  rfl

theorem RingInv.dumpSignalEmpty (h : RingInv cfg s) {i : Nat}
    (hstep : ringStep cfg s (.dumpSignalEmpty i) = some s') : RingInv cfg s' := by
  obtain ⟨hhead, hcl, hdl, htok, hcont⟩ := h
  simp only [ringStep] at hstep
  split_ifs at hstep with hpc
  cases hstep
  have hfile := hcont.file
  have htake := htok.filledCompressed
  rw [hpc] at hdl hfile htake
  exact ⟨{ hhead with }, hcl, hdl.next,
    { htok with filledCompressed := htake, emptyCompressed := htok.emptyCompressed.give hdl.2 },
    ⟨hcont.pending, hcont.fresh, fun j hj => hcont.ready j (Nat.le_of_succ_le hj), hfile⟩⟩

/-- **The invariant is kept** by every action. -/
theorem RingInv.step (h : RingInv cfg s) (hcnt : 0 < cfg.cnt) {a : RingAct}
    (hstep : ringStep cfg s a = some s') : RingInv cfg s' := by
  cases a with
  | call p length => exact h.call hstep
  | close p => exact h.close hstep
  | lock p => exact h.lock hstep
  | testFull p => exact h.testFull hstep
  | fill p i => exact h.fill hcnt hstep
  | handOff p i => exact h.handOff hcnt hstep
  | takeEmpty p i => exact h.takeEmpty hstep
  | store p i k v => exact h.store hcnt hstep
  | storeEnd p i => exact h.storeEnd hcnt hstep
  | unlock p => exact h.unlock hstep
  | setCompressDone p => exact h.setCompressDone hstep
  | setDumpDone p => exact h.setDumpDone hstep
  | joinCompress p => exact h.joinCompress hstep
  | joinDump p => exact h.joinDump hstep
  | compressTest => exact h.compressTest hstep
  | compressTakeFilled i => exact h.compressTakeFilled hstep
  | compressTakeEmpty i => exact h.compressTakeEmpty hstep
  | compressScratch i l => exact h.compressScratch hcnt hstep
  | compressEnd i => exact h.compressEnd hcnt hstep
  | compressSignalFilled i => exact h.compressSignalFilled hstep
  | compressSignalEmpty i => exact h.compressSignalEmpty hstep
  | dumpTest => exact h.dumpTest hstep
  | dumpTakeFilled i => exact h.dumpTakeFilled hstep
  | dumpEnd i => exact h.dumpEnd hstep
  | dumpSignalEmpty i => exact h.dumpSignalEmpty hstep

/-- **Every reachable state** meets the invariant. -/
theorem ringInv_run (hcnt : 0 < cfg.cnt) {buffer : Nat → Nat → UInt8}
    {compressed : Nat → List UInt8} {as : List RingAct}
    (hrun : run (ringStep cfg) (RingState.init buffer compressed) as = some s) : RingInv cfg s :=
  run_invariant (fun _ _ _ h hstep => h.step hcnt hstep) (RingInv.init buffer compressed) hrun

end

end Slimmer
