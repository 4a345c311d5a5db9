import Slimmer.RingFifo
import Slimmer.Lib.Packing

/-!
# What the ring makes of the records

The threads of the traced program store their records into a shared buffer, byte by byte, each
between its own `StartAppend` and `EndAppend`. `RingFifo` says what becomes of the blocks that are
handed off; this module says what is in them.

The *history* of a run is read off the actions of the threads alone: the records whose `EndAppend`
has been executed, in that order, each as the bytes its own thread has stored. It never looks into a
buffer.

**Theorem (`ring_records`).** After every run, in every interleaving, the blocks handed off hold the
records of the history, in order and each in one piece, padded with `PlaceHolder` labels, and the
current block holds the records left. When `CloseBufferFile` has handed off the last block, that one
holds the records left and an `End` label.

The proof follows the thread that holds the lock. `Pc.Lays` says for each of its program points what
the front of the ring looks like; the other threads are outside, and what they do does not touch the
front.
-/

namespace Slimmer

/-! ## The history of a run -/

/-- What the threads have done, as their own actions tell. -/
structure History where
  /-- The length a record function has passed to `StartAppend`. -/
  asked : Nat → Option Nat := fun _ => none
  /-- The bytes a thread has stored since. -/
  stored : Nat → Nat → Option UInt8 := fun _ _ => none
  /-- The records appended; a byte that was never stored is `none`. -/
  records : List (List (Option UInt8)) := []

def History.step (h : History) : RingAct → History
  | .call p length => { h with asked := Function.update h.asked p (some length) }
  | .store p _ k v =>
    { h with stored := Function.update h.stored p (Function.update (h.stored p) k (some v)) }
  | .unlock p =>
    match h.asked p with
    | some length =>
      { asked := Function.update h.asked p none
        stored := Function.update h.stored p fun _ => none
        records := h.records ++ [(List.range length).map (h.stored p)] }
    | none => h
  | _ => h

/-- The history of a run from the start. -/
def history (as : List RingAct) : History := as.foldl History.step {}

/-- The byte is the one stored, if one was. -/
def Fits (b : UInt8) (o : Option UInt8) : Prop := ∀ v ∈ o, b = v

/-! ## The front of the ring -/

/-- What the thread that holds the lock works on. -/
structure Front where
  handed : List (List UInt8)
  /-- The bytes of `buffer[cur_block]`. -/
  block : Nat → UInt8
  offset : Nat

def RingState.front (s : RingState) : Front := ⟨s.handed, s.buffer s.curBlock, s.offset⟩

def Front.bytes (f : Front) (n : Nat) : List UInt8 := (List.range n).map f.block

/-- A full block: records and padding. -/
def blockOf (size : Nat) (records : List (List UInt8)) : List UInt8 :=
  records.flatten ++ List.replicate (size - records.flatten.length) placeHolderLabel

/-- The blocks handed off and the current one hold the packed records `q`. -/
structure Lies (size : Nat) (f : Front) (q : Packed UInt8) : Prop where
  handed : f.handed = q.done.map (blockOf size)
  bytes : f.bytes f.offset = q.cur.flatten
  le : f.offset ≤ size

/-- The current block is padded up to `j`. -/
structure PaddedTo (size : Nat) (f : Front) (q : Packed UInt8) (j : Nat) : Prop
    extends Lies size f q where
  from_le : f.offset ≤ j
  to_le : j ≤ size
  labels : ∀ k, f.offset ≤ k → k < j → f.block k = placeHolderLabel

section

variable {size : Nat} {f : Front} {q : Packed UInt8} {j n : Nat}

@[simp] theorem Front.length_bytes (f : Front) (n : Nat) : (f.bytes n).length = n := by
  simp [Front.bytes]

theorem Lies.offset_eq (h : Lies size f q) : f.offset = q.cur.flatten.length := by
  rw [← h.bytes, Front.length_bytes]

theorem Front.bytes_add (f : Front) (m n : Nat) :
    f.bytes (m + n) = f.bytes m ++ (List.range n).map fun k => f.block (m + k) := by
  rw [Front.bytes, List.range_add, List.map_append, List.map_map]
  rfl

/-- Bytes behind the first `n` do not matter to them. -/
theorem Front.bytes_congr {g : Front} (h : ∀ k, k < n → g.block k = f.block k) :
    g.bytes n = f.bytes n :=
  List.map_congr_left fun k hk => h k (List.mem_range.mp hk)

theorem Lies.init (block : Nat → UInt8) : Lies size ⟨[], block, 0⟩ {} :=
  ⟨rfl, rfl, Nat.zero_le _⟩

theorem Lies.padded (h : Lies size f q) : PaddedTo size f q f.offset :=
  { h with from_le := le_rfl, to_le := h.le, labels := fun _ h₁ h₂ => absurd h₁ (not_le.mpr h₂) }

/-- One more byte of padding. -/
theorem PaddedTo.fill (h : PaddedTo size f q j) (hj : j < size) :
    PaddedTo size { f with block := Function.update f.block j placeHolderLabel } q (j + 1) where
  handed := h.handed
  bytes := by
    refine Eq.trans (Front.bytes_congr fun k hk => ?_) h.bytes
    exact Function.update_of_ne (ne_of_lt (lt_of_lt_of_le hk h.from_le)) _ _
  le := h.le
  from_le := Nat.le_succ_of_le h.from_le
  to_le := hj
  labels k hle hlt := by
    by_cases hk : k = j
    · rw [hk]; exact Function.update_self _ _ _
    · exact (Function.update_of_ne hk _ _).trans (h.labels k hle (by omega))

/-- **A padded block** is ready to be handed off. -/
theorem PaddedTo.content (h : PaddedTo size f q size) : f.bytes size = blockOf size q.cur := by
  obtain ⟨m, hm⟩ := Nat.exists_eq_add_of_le h.le
  have hpad : (List.range m).map (fun k => f.block (f.offset + k)) =
      List.replicate m placeHolderLabel := by
    refine List.eq_replicate_iff.mpr ⟨by simp, fun b hb => ?_⟩
    obtain ⟨k, hk, rfl⟩ := List.mem_map.mp hb
    exact h.labels _ (Nat.le_add_right _ _) (by rw [List.mem_range] at hk; omega)
  have hlen : size - q.cur.flatten.length = m := by rw [← h.offset_eq]; omega
  rw [blockOf, hlen, ← h.bytes, ← hpad, ← Front.bytes_add, ← hm]

/-- **A record behind the others.** -/
theorem Lies.append {ret : Nat} {r : List UInt8}
    (h : Lies size { f with offset := ret } (q.room size r.length))
    (hoff : f.offset = ret + r.length) (hle : f.offset ≤ size)
    (hr : (List.range r.length).map (fun k => f.block (ret + k)) = r) :
    Lies size f (q.add size r) where
  handed := h.handed
  bytes := by
    show f.bytes f.offset = ((q.room size r.length).cur ++ [r]).flatten
    rw [hoff, Front.bytes_add, hr, List.flatten_append, List.flatten_singleton]
    exact congrArg (· ++ r) h.bytes
  le := hle

end

/-! ## Where the threads are -/

/-- The length of a record; `CloseBufferFile` appends none. -/
def Caller.asked : Caller → Nat → Option Nat
  | .record, n => some n
  | .close, _ => none

/-- The length of the record the thread is about to append. -/
def Pc.asked : Pc → Option Nat
  | .spin c n | .locked c n | .pad c n _ | .waitEmpty c n | .writing c _ n => c.asked n
  | _ => none

/-- What is passed to `StartAppend` fits a block, and is 1 for the `End` label. -/
def Pc.LengthOk (size : Nat) : Pc → Prop
  | .spin c n | .locked c n | .pad c n _ | .waitEmpty c n | .writing c _ n =>
    n ≤ size ∧ (c = .close → n = 1)
  | _ => True

/-- The thread stores its record. -/
def Pc.stores : Pc → Bool
  | .writing .record _ _ => true
  | _ => false

/-- The thread has written the `End` label and released the lock. -/
def Pc.sealed : Pc → Bool
  | .setCompressDone | .setDumpDone | .signalLast | .joinCompress | .joinDump | .closed => true
  | _ => false

/-- The thread is in front of the lock. -/
def Pc.outside : Pc → Bool
  | .idle | .spin .. => true
  | _ => false

/-- What the front of the ring looks like when a thread is here and `q` are the records appended so
far; `stored` is what the thread has stored. -/
def Pc.Lays (size : Nat) (f : Front) (stored : Nat → Option UInt8) (q : Packed UInt8) : Pc → Prop
  | .idle | .spin _ _ => True
  | .locked _ _ => Lies size f q
  | .pad _ length j => PaddedTo size f q j ∧ size < f.offset + length
  | .waitEmpty _ length =>
    f.handed = (q.done ++ [q.cur]).map (blockOf size) ∧ size < q.cur.flatten.length + length
  | .writing _ ret length =>
    Lies size { f with offset := ret } (q.room size length) ∧ f.offset = ret + length ∧
      f.offset ≤ size ∧ ∀ k, ∀ v ∈ stored k, f.block (ret + k) = v
  | .padEnd j => PaddedTo size f (q.add size [endEventLabel]) j
  | .setCompressDone | .setDumpDone | .signalLast =>
    PaddedTo size f (q.add size [endEventLabel]) size
  | .joinCompress | .joinDump | .closed =>
    f.handed = ((q.add size [endEventLabel]).done ++ [(q.add size [endEventLabel]).cur]).map
      (blockOf size)

theorem Pc.lays_of_outside {size : Nat} {f : Front} {stored : Nat → Option UInt8}
    {q : Packed UInt8} {pc : Pc} (h : pc.outside = true) : pc.Lays size f stored q := by
  cases pc <;> simp_all [Pc.outside, Pc.Lays]

section

variable {cfg : RingConfig} {s s' : RingState} {p q : Nat}

/-- While a thread is not idle and no other holds the lock, the others are outside. -/
theorem Head.outside (h : Head cfg s) (hp : s.pc p ≠ .idle)
    (hlock : ∀ r, s.lock = some r → r = p) (hq : q ≠ p) : (s.pc q).outside = true := by
  have hholds : (s.pc q).holds = false := by
    rw [Bool.eq_false_iff]
    exact fun hholds => hq (hlock q ((h.lock q).mp hholds))
  cases hpc : s.pc q with
  | idle | spin => rfl
  | locked | pad | waitEmpty | writing | padEnd => simp [hpc, Pc.holds] at hholds
  | setCompressDone | setDumpDone | signalLast | joinCompress | joinDump | closed =>
    exact absurd (h.eq_closer hp ((h.closer q).mp (by rw [hpc]; rfl))) hq

theorem Head.outside_of_holds (h : Head cfg s) (hp : (s.pc p).holds = true) (hq : q ≠ p) :
    (s.pc q).outside = true := by
  refine h.outside (by rintro he; simp [he, Pc.holds] at hp) (fun r hr => ?_) hq
  exact Option.some.inj (hr.symm.trans ((h.lock p).mp hp))

theorem Head.outside_of_closes (h : Head cfg s) (hp : (s.pc p).closes = true) (hq : q ≠ p) :
    (s.pc q).outside = true := by
  rw [h.alone p q ((h.closer p).mp hp) hq]
  rfl

/-! ## The invariant -/

/-- The records `rs` are those of the history, and the front of the ring is as it should be. -/
structure Recorded (cfg : RingConfig) (s : RingState) (h : History) (rs : List (List UInt8)) :
    Prop where
  records : List.Forall₂ (List.Forall₂ Fits) rs h.records
  asked : ∀ p, h.asked p = (s.pc p).asked
  length : ∀ p, (s.pc p).LengthOk cfg.size
  stored : ∀ p, (s.pc p).stores = false → h.stored p = fun _ => none
  lays : ∀ p, (s.pc p).Lays cfg.size s.front (h.stored p) (pack cfg.size rs)
  rest : s.lock = none → (∀ p, (s.pc p).sealed = false) → Lies cfg.size s.front (pack cfg.size rs)

variable {h h' : History} {rs rs' : List (List UInt8)} {b : Pc}

theorem Recorded.init (buffer : Nat → Nat → UInt8) (compressed : Nat → List UInt8) :
    Recorded cfg (RingState.init buffer compressed) {} [] where
  records := .nil
  asked _ := rfl
  length _ := trivial
  stored _ _ := rfl
  lays _ := trivial
  rest _ _ := Lies.init _

/-- **A thread moves.** The others are outside, or the front stays as it is. -/
theorem Recorded.move (hR : Recorded cfg s h rs) (hpc : s'.pc = Function.update s.pc p b)
    (hothers : (∀ q, q ≠ p → (s.pc q).outside = true) ∨ (s'.front = s.front ∧ rs' = rs))
    (hkept : ∀ q, q ≠ p → h'.asked q = h.asked q ∧ h'.stored q = h.stored q)
    (hrec : List.Forall₂ (List.Forall₂ Fits) rs' h'.records) (hasked : h'.asked p = b.asked)
    (hlen : b.LengthOk cfg.size) (hst : b.stores = false → h'.stored p = fun _ => none)
    (hlays : b.Lays cfg.size s'.front (h'.stored p) (pack cfg.size rs'))
    (hrest : s'.lock = none → (∀ q, (s'.pc q).sealed = false) →
      Lies cfg.size s'.front (pack cfg.size rs')) :
    Recorded cfg s' h' rs' := by
  have hself : s'.pc p = b := by rw [hpc, Function.update_self]
  have hother : ∀ q, q ≠ p → s'.pc q = s.pc q := fun q hq => by rw [hpc, Function.update_of_ne hq]
  refine ⟨hrec, fun q => ?_, fun q => ?_, fun q => ?_, fun q => ?_, hrest⟩
  all_goals by_cases hq : q = p
  · rw [hq, hself, hasked]
  · rw [hother q hq, (hkept q hq).1, hR.asked]
  · rw [hq, hself]; exact hlen
  · rw [hother q hq]; exact hR.length q
  · rw [hq, hself]; exact hst
  · rw [hother q hq, (hkept q hq).2]; exact hR.stored q
  · rw [hq, hself]; exact hlays
  · rw [hother q hq, (hkept q hq).2]
    rcases hothers with hout | ⟨hfront, rfl⟩
    · exact Pc.lays_of_outside (hout q hq)
    · rw [hfront]; exact hR.lays q

/-- The step of a thread that makes no history. -/
theorem Recorded.goto (hR : Recorded cfg s h rs) (hpc : s'.pc = Function.update s.pc p b)
    (hout : ∀ q, q ≠ p → (s.pc q).outside = true) (hasked : b.asked = (s.pc p).asked)
    (hlen : b.LengthOk cfg.size) (hst : b.stores = false → (s.pc p).stores = false)
    (hlays : b.Lays cfg.size s'.front (h.stored p) (pack cfg.size rs))
    (hrest : s'.lock = none → b.sealed = false → Lies cfg.size s'.front (pack cfg.size rs)) :
    Recorded cfg s' h rs := by
  refine hR.move hpc (Or.inl hout) (fun _ _ => ⟨rfl, rfl⟩) hR.records ?_ hlen
    (fun hb => hR.stored p (hst hb)) hlays fun hlock hsealed => hrest hlock ?_
  · rw [hasked]; exact hR.asked p
  · have := hsealed p
    rwa [hpc, Function.update_self] at this

/-- A step that leaves the front and the threads alone. -/
theorem Recorded.frame (hR : Recorded cfg s h rs) (hfront : s'.front = s.front)
    (hpc : s'.pc = s.pc) (hlock : s'.lock = s.lock) : Recorded cfg s' h rs where
  records := hR.records
  asked p := by rw [hpc]; exact hR.asked p
  length p := by rw [hpc]; exact hR.length p
  stored p := by rw [hpc]; exact hR.stored p
  lays p := by rw [hpc, hfront]; exact hR.lays p
  rest hnone hsealed := by
    rw [hfront]
    exact hR.rest (hlock.symm.trans hnone) fun p => by rw [← hpc]; exact hsealed p

/-! ## The steps -/

theorem Recorded.call (hR : Recorded cfg s h rs) {n : Nat} (hn : n ≤ cfg.size)
    (hstep : ringStep cfg s (.call p n) = some s') :
    Recorded cfg s' (h.step (.call p n)) rs := by
  simp only [ringStep] at hstep
  split_ifs at hstep with hc
  cases hstep
  obtain ⟨-, -, hpc⟩ := hc
  refine hR.move (p := p) (b := .spin .record n) rfl (Or.inr ⟨rfl, rfl⟩) (fun q hq => ?_) hR.records
    ?_ ⟨hn, fun hc => by cases hc⟩ (fun _ => hR.stored p (by rw [hpc]; rfl)) trivial fun hlock hsealed => ?_
  · exact ⟨Function.update_of_ne hq _ _, rfl⟩
  · exact Function.update_self _ _ _
  · refine hR.rest hlock fun q => ?_
    by_cases hq : q = p
    · rw [hq, hpc]; rfl
    · have hq' : (Function.update s.pc p (.spin .record n) q).sealed = false := hsealed q
      rwa [Function.update_of_ne hq] at hq'

theorem Recorded.close (hR : Recorded cfg s h rs) (hhead : Head cfg s) (hsize : 0 < cfg.size)
    (hstep : ringStep cfg s (.close p) = some s') : Recorded cfg s' h rs := by
  simp only [ringStep] at hstep
  split_ifs at hstep with hc
  cases hstep
  obtain ⟨hp, -, hidle⟩ := hc
  have hall : ∀ q, s.pc q = .idle := fun q => by
    by_cases hq : q < cfg.threads
    · exact hidle q hq
    · exact hhead.idle q (not_lt.mp hq)
  refine hR.goto (p := p) (b := .spin .close 1) rfl (fun q _ => by rw [hall]; rfl)
    (by rw [hall]; rfl) ⟨hsize, fun _ => rfl⟩ (fun _ => by rw [hall]; rfl) trivial fun hlock _ => ?_
  exact hR.rest hlock fun q => by rw [hall]; rfl

theorem Recorded.lock (hR : Recorded cfg s h rs) (hhead : Head cfg s)
    (hstep : ringStep cfg s (.lock p) = some s') : Recorded cfg s' h rs := by
  simp only [ringStep] at hstep
  split at hstep
  · rename_i c n hpc
    split_ifs at hstep with hlock
    cases hstep
    have hne : s.pc p ≠ .idle := by rw [hpc]; exact Pc.noConfusion
    have hout : ∀ q, q ≠ p → (s.pc q).outside = true := fun q hq =>
      hhead.outside hne (fun r hr => absurd (hlock.symm.trans hr) (by simp)) hq
    refine hR.goto (p := p) (b := .locked c n) rfl hout (by rw [hpc]; rfl) ?_
      (fun _ => by rw [hpc]; rfl) (hR.rest hlock fun q => ?_) fun hnone => absurd hnone (by simp)
    · have := hR.length p
      rwa [hpc] at this
    · by_cases hq : q = p
      · rw [hq, hpc]; rfl
      · have := hout q hq
        cases hq : s.pc q <;> simp_all [Pc.outside, Pc.sealed]
  · cases hstep

theorem Recorded.testFull (hR : Recorded cfg s h rs) (hhead : Head cfg s)
    (hstep : ringStep cfg s (.testFull p) = some s') : Recorded cfg s' h rs := by
  simp only [ringStep] at hstep
  split at hstep
  · rename_i c n hpc
    have hlays := hR.lays p
    have hlen := hR.length p
    have hlock := (hhead.lock p).mp (by rw [hpc]; rfl)
    rw [hpc] at hlays hlen
    have hout : ∀ q, q ≠ p → (s.pc q).outside = true :=
      fun q hq => hhead.outside_of_holds (by rw [hpc]; rfl) hq
    split_ifs at hstep with hfull
    · cases hstep
      exact hR.goto (p := p) (b := .pad c n s.offset) rfl hout (by rw [hpc]; rfl) hlen
        (fun _ => by rw [hpc]; rfl) ⟨hlays.padded, hfull⟩ fun hnone => absurd (hlock.symm.trans hnone) (by simp)
    · cases hstep
      have hroom : (pack cfg.size rs).room cfg.size n = pack cfg.size rs :=
        Packed.room_of_le (by rw [← hlays.offset_eq]; exact not_lt.mp hfull)
      refine hR.goto (p := p) (b := .writing c s.offset n) rfl hout (by rw [hpc]; rfl) hlen
        (fun _ => by rw [hpc]; rfl) ⟨?_, rfl, not_lt.mp hfull, fun k v hv => ?_⟩ fun hnone => absurd (hlock.symm.trans hnone) (by simp)
      · rw [hroom]; exact hlays
      · rw [hR.stored p (by rw [hpc]; rfl)] at hv
        cases hv
  · cases hstep

theorem Recorded.fill (hR : Recorded cfg s h rs) (hhead : Head cfg s) {i : Nat}
    (hstep : ringStep cfg s (.fill p i) = some s') : Recorded cfg s' h rs := by
  simp only [ringStep] at hstep
  split_ifs at hstep with hi
  subst hi
  -- the front after a byte of padding
  have hfront : ∀ (j : Nat) (pc : Pc), ((s.storeByte s.curBlock j placeHolderLabel).goto p pc).front =
      { s.front with block := Function.update s.front.block j placeHolderLabel } := fun j pc => by
    simp [RingState.front, RingState.goto, RingState.storeByte]
  have hlays := hR.lays p
  have hlen := hR.length p
  split at hstep
  · rename_i c n j hpc
    rw [hpc] at hlays hlen
    have hlock := (hhead.lock p).mp (by rw [hpc]; rfl)
    split_ifs at hstep with hj
    cases hstep
    refine hR.goto (p := p) (b := .pad c n (j + 1)) rfl
      (fun q hq => hhead.outside_of_holds (by rw [hpc]; rfl) hq) (by rw [hpc]; rfl) hlen
      (fun _ => by rw [hpc]; rfl) ?_ fun hnone => absurd (hlock.symm.trans hnone) (by simp)
    rw [hfront]
    exact ⟨hlays.1.fill hj, hlays.2⟩
  · rename_i j hpc
    rw [hpc] at hlays
    have hlock := (hhead.lock p).mp (by rw [hpc]; rfl)
    split_ifs at hstep with hj
    cases hstep
    refine hR.goto (p := p) (b := .padEnd (j + 1)) rfl
      (fun q hq => hhead.outside_of_holds (by rw [hpc]; rfl) hq) (by rw [hpc]; rfl) trivial
      (fun _ => by rw [hpc]; rfl) ?_ fun hnone => absurd (hlock.symm.trans hnone) (by simp)
    rw [hfront]
    exact PaddedTo.fill hlays hj
  · cases hstep

theorem Recorded.handOff (hR : Recorded cfg s h rs) (hhead : Head cfg s) {i : Nat}
    (hstep : ringStep cfg s (.handOff p i) = some s') : Recorded cfg s' h rs := by
  simp only [ringStep] at hstep
  split_ifs at hstep with hi
  subst hi
  have hlays := hR.lays p
  have hlen := hR.length p
  -- the block that is handed off
  have hcontent : ∀ {q : Packed UInt8}, PaddedTo cfg.size s.front q cfg.size →
      s.handed ++ [s.content cfg s.curBlock] = (q.done ++ [q.cur]).map (blockOf cfg.size) := by
    intro q hq
    rw [List.map_append, List.map_singleton, ← hq.content, ← hq.handed]
    rfl
  split at hstep
  · rename_i c n j hpc
    rw [hpc] at hlays hlen
    have hlock := (hhead.lock p).mp (by rw [hpc]; rfl)
    split_ifs at hstep with hj
    cases hstep
    obtain ⟨hpad, hfull⟩ := hlays
    have hj : j = cfg.size := le_antisymm hpad.to_le (not_lt.mp hj)
    subst hj
    refine hR.goto (p := p) (b := .waitEmpty c n) rfl
      (fun q hq => hhead.outside_of_holds (by rw [hpc]; rfl) hq) (by rw [hpc]; rfl) hlen
      (fun _ => by rw [hpc]; rfl) ⟨hcontent hpad, ?_⟩ fun hnone => absurd (hlock.symm.trans hnone) (by simp)
    rwa [← hpad.offset_eq]
  · rename_i hpc
    rw [hpc] at hlays
    cases hstep
    exact hR.goto (p := p) (b := .joinCompress) rfl
      (fun q hq => hhead.outside_of_closes (by rw [hpc]; rfl) hq) (by rw [hpc]; rfl) trivial
      (fun _ => by rw [hpc]; rfl) (hcontent hlays) fun _ hb => by simp [Pc.sealed] at hb
  · cases hstep

theorem Recorded.takeEmpty (hR : Recorded cfg s h rs) (hhead : Head cfg s) {i : Nat}
    (hstep : ringStep cfg s (.takeEmpty p i) = some s') : Recorded cfg s' h rs := by
  simp only [ringStep] at hstep
  split at hstep
  · rename_i c n hpc
    have hlays := hR.lays p
    have hlen := hR.length p
    rw [hpc] at hlays hlen
    have hlock := (hhead.lock p).mp (by rw [hpc]; rfl)
    split_ifs at hstep
    cases hstep
    obtain ⟨hhanded, hfull⟩ := hlays
    refine hR.goto (p := p) (b := .writing c 0 n) rfl
      (fun q hq => hhead.outside_of_holds (by rw [hpc]; rfl) hq) (by rw [hpc]; rfl) hlen
      (fun _ => by rw [hpc]; rfl) ⟨?_, (Nat.zero_add n).symm, hlen.1, fun k v hv => ?_⟩
      fun hnone => absurd (hlock.symm.trans hnone) (by simp)
    · rw [Packed.room_of_lt hfull]
      exact ⟨hhanded, rfl, Nat.zero_le _⟩
    · rw [hR.stored p (by rw [hpc]; rfl)] at hv
      cases hv
  · cases hstep

theorem Recorded.store (hR : Recorded cfg s h rs) (hhead : Head cfg s) {i k : Nat} {v : UInt8}
    (hstep : ringStep cfg s (.store p i k v) = some s') :
    Recorded cfg s' (h.step (.store p i k v)) rs := by
  simp only [ringStep] at hstep
  split at hstep
  · rename_i ret n hpc
    split_ifs at hstep with hc
    cases hstep
    obtain ⟨rfl, hk⟩ := hc
    have hlays := hR.lays p
    have hlen := hR.length p
    have hasked := hR.asked p
    have hlock := (hhead.lock p).mp (by rw [hpc]; rfl)
    rw [hpc] at hlays hlen hasked
    obtain ⟨hlies, hoff, hle, hst⟩ := hlays
    have hblock : (s.storeByte s.curBlock (ret + k) v).front.block =
        Function.update s.front.block (ret + k) v := by
      simp [RingState.front, RingState.storeByte]
    refine hR.move (p := p) (b := .writing .record ret n) ?_
      (Or.inl fun q hq => hhead.outside_of_holds (by rw [hpc]; rfl) hq) (fun q hq => ⟨rfl, ?_⟩)
      hR.records hasked hlen (fun hb => by simp [Pc.stores] at hb) ⟨?_, hoff, hle, ?_⟩
      fun hnone => absurd (hlock.symm.trans hnone) (by simp)
    · rw [← hpc, Function.update_eq_self]
      rfl
    · exact Function.update_of_ne hq _ _
    · refine ⟨hlies.handed, Eq.trans (Front.bytes_congr fun j hj => ?_) hlies.bytes, hlies.le⟩
      show (s.storeByte s.curBlock (ret + k) v).front.block j = _
      rw [hblock]
      exact Function.update_of_ne (ne_of_lt (lt_of_lt_of_le hj (Nat.le_add_right _ _))) _ _
    · intro j w hw
      rw [hblock]
      have hstored : (h.step (.store p s.curBlock k v)).stored p =
          Function.update (h.stored p) k (some v) := Function.update_self _ _ _
      rw [hstored] at hw
      by_cases hj : j = k
      · subst hj
        rw [Function.update_self, Option.mem_some_iff] at hw
        rw [Function.update_self, hw]
      · rw [Function.update_of_ne hj] at hw
        rw [Function.update_of_ne (by omega)]
        exact hst j w hw
  · cases hstep

theorem Recorded.storeEnd (hR : Recorded cfg s h rs) (hhead : Head cfg s) {i : Nat}
    (hstep : ringStep cfg s (.storeEnd p i) = some s') : Recorded cfg s' h rs := by
  simp only [ringStep] at hstep
  split at hstep
  · rename_i ret n hpc
    split_ifs at hstep with hi
    cases hstep
    subst hi
    have hlen := hR.length p
    rw [hpc] at hlen
    obtain rfl := hlen.2 rfl
    have hlays := hR.lays p
    have hasked := hR.asked p
    have hlock := (hhead.lock p).mp (by rw [hpc]; rfl)
    rw [hpc] at hlays hasked
    obtain ⟨hlies, hoff, hle, -⟩ := hlays
    have hblock : ((s.storeByte s.curBlock ret endEventLabel).goto p (.padEnd s.offset)).front.block =
        Function.update s.front.block ret endEventLabel := by
      simp [RingState.front, RingState.storeByte, RingState.goto]
    have hstored : h.stored p = fun _ => none := hR.stored p (by rw [hpc]; rfl)
    refine hR.move (p := p) (b := .padEnd s.offset) rfl
      (Or.inl fun q hq => hhead.outside_of_holds (by rw [hpc]; rfl) hq) (fun _ _ => ⟨rfl, rfl⟩)
      hR.records hasked trivial (fun _ => hstored) (Lies.padded ?_)
      fun hnone => absurd (hlock.symm.trans hnone) (by simp)
    refine Lies.append (r := [endEventLabel]) ⟨hlies.handed, ?_, hlies.le⟩ hoff hle ?_
    · refine Eq.trans (Front.bytes_congr fun j hj => ?_) hlies.bytes
      show ((s.storeByte s.curBlock ret endEventLabel).goto p (.padEnd s.offset)).front.block j = _
      rw [hblock]
      exact Function.update_of_ne (ne_of_lt hj) _ _
    · rw [hblock]
      simp
  · cases hstep

theorem Recorded.unlock (hR : Recorded cfg s h rs) (hhead : Head cfg s)
    (hstep : ringStep cfg s (.unlock p) = some s') :
    ∃ rs', Recorded cfg s' (h.step (.unlock p)) rs' := by
  simp only [ringStep] at hstep
  split at hstep
  · rename_i ret n hpc
    cases hstep
    have hlays := hR.lays p
    have hasked := hR.asked p
    rw [hpc] at hlays hasked
    obtain ⟨hlies, hoff, hle, hst⟩ := hlays
    have hasked : h.asked p = some n := hasked
    obtain ⟨r, hr⟩ : ∃ r, (List.range n).map (fun k => s.front.block (ret + k)) = r := ⟨_, rfl⟩
    have hlen : r.length = n := by rw [← hr]; simp
    subst hlen
    have hlies' : Lies cfg.size s.front (pack cfg.size (rs ++ [r])) := by
      rw [pack_append]
      exact hlies.append hoff hle hr
    have hhist : h.step (.unlock p) =
        { asked := Function.update h.asked p none
          stored := Function.update h.stored p fun _ => none
          records := h.records ++ [(List.range r.length).map (h.stored p)] } := by
      simp only [History.step, hasked]
    refine ⟨rs ++ [r], hR.move (p := p) (b := .idle) rfl
      (Or.inl fun q hq => hhead.outside_of_holds (by rw [hpc]; rfl) hq) (fun q hq => ?_) ?_ ?_
      trivial (fun _ => ?_) trivial fun _ _ => hlies'⟩
    · rw [hhist]
      exact ⟨Function.update_of_ne hq _ _, Function.update_of_ne hq _ _⟩
    · rw [hhist]
      refine List.rel_append hR.records (.cons ?_ .nil)
      rw [← hr, List.length_map, List.length_range]
      refine List.forall₂_map_left_iff.mpr (List.forall₂_map_right_iff.mpr ?_)
      exact List.forall₂_same.mpr fun k _ v hv => hst k v hv
    · rw [hhist]
      exact Function.update_self _ _ _
    · rw [hhist]
      exact Function.update_self _ _ _
  · rename_i j hpc
    split_ifs at hstep with hj
    cases hstep
    have hlays := hR.lays p
    have hasked := hR.asked p
    rw [hpc] at hlays hasked
    have hj : j = cfg.size := le_antisymm hlays.to_le (not_lt.mp hj)
    subst hj
    have hhist : h.step (.unlock p) = h := by
      have hasked : h.asked p = none := hasked
      simp only [History.step, hasked]
    rw [hhist]
    exact ⟨rs, hR.goto (p := p) (b := .setCompressDone) rfl
      (fun q hq => hhead.outside_of_holds (by rw [hpc]; rfl) hq) (by rw [hpc]; rfl) trivial
      (fun _ => by rw [hpc]; rfl) hlays fun _ hb => by simp [Pc.sealed] at hb⟩
  · cases hstep

/-- The steps of `CloseBufferFile` behind the `End` label, but for the hand-off. -/
theorem Recorded.closing (hR : Recorded cfg s h rs) (hhead : Head cfg s)
    (hpc : s'.pc = Function.update s.pc p b) (hfront : s'.front = s.front)
    (hp : (s.pc p).sealed = true) (hb : b.sealed = true)
    (hsame : ∀ f stored q, (s.pc p).Lays cfg.size f stored q → b.Lays cfg.size f stored q) :
    Recorded cfg s' h rs := by
  have hcloses : (s.pc p).closes = true := by
    cases hpc : s.pc p <;> simp_all [Pc.sealed, Pc.closes]
  refine hR.goto hpc (fun q hq => hhead.outside_of_closes hcloses hq) ?_ ?_ ?_ ?_ ?_
  · cases hpc : s.pc p <;> cases b <;> simp_all [Pc.sealed, Pc.asked]
  · cases b <;> simp_all [Pc.sealed, Pc.LengthOk]
  · intro _
    cases hpc : s.pc p <;> simp_all [Pc.sealed, Pc.stores]
  · rw [hfront]
    exact hsame _ _ _ (hR.lays p)
  · intro _ hno
    simp [hb] at hno

/-- **The invariant is kept** by every action, while the history grows. -/
theorem Recorded.step (hR : Recorded cfg s h rs) (hhead : Head cfg s) (hsize : 0 < cfg.size)
    {a : RingAct} (hfit : ∀ p n, a = .call p n → n ≤ cfg.size)
    (hstep : ringStep cfg s a = some s') : ∃ rs', Recorded cfg s' (h.step a) rs' := by
  cases a with
  | call p n => exact ⟨rs, hR.call (hfit p n rfl) hstep⟩
  | close p => exact ⟨rs, hR.close hhead hsize hstep⟩
  | lock p => exact ⟨rs, hR.lock hhead hstep⟩
  | testFull p => exact ⟨rs, hR.testFull hhead hstep⟩
  | fill p i => exact ⟨rs, hR.fill hhead hstep⟩
  | handOff p i => exact ⟨rs, hR.handOff hhead hstep⟩
  | takeEmpty p i => exact ⟨rs, hR.takeEmpty hhead hstep⟩
  | store p i k v => exact ⟨rs, hR.store hhead hstep⟩
  | storeEnd p i => exact ⟨rs, hR.storeEnd hhead hstep⟩
  | unlock p => exact hR.unlock hhead hstep
  | setCompressDone p =>
    simp only [ringStep] at hstep
    split at hstep
    · rename_i hpc
      cases hstep
      exact ⟨rs, hR.closing (p := p) (b := .setDumpDone) hhead rfl rfl (by rw [hpc]; rfl) rfl
        fun _ _ _ hl => by rwa [hpc] at hl⟩
    · cases hstep
  | setDumpDone p =>
    simp only [ringStep] at hstep
    split at hstep
    · rename_i hpc
      cases hstep
      exact ⟨rs, hR.closing (p := p) (b := .signalLast) hhead rfl rfl (by rw [hpc]; rfl) rfl
        fun _ _ _ hl => by rwa [hpc] at hl⟩
    · cases hstep
  | joinCompress p =>
    simp only [ringStep] at hstep
    split_ifs at hstep with hc
    cases hstep
    exact ⟨rs, hR.closing (p := p) (b := .joinDump) hhead rfl rfl (by rw [hc.1]; rfl) rfl
      fun _ _ _ hl => by rwa [hc.1] at hl⟩
  | joinDump p =>
    simp only [ringStep] at hstep
    split_ifs at hstep with hc
    cases hstep
    exact ⟨rs, hR.closing (p := p) (b := .closed) hhead rfl rfl (by rw [hc.1]; rfl) rfl
      fun _ _ _ hl => by rwa [hc.1] at hl⟩
  | compressTest | dumpTest =>
    obtain ⟨pc, -, rfl⟩ := Option.map_eq_some_iff.mp hstep
    exact ⟨rs, hR.frame rfl rfl rfl⟩
  | compressTakeFilled i | compressTakeEmpty i | compressScratch i l | compressEnd i
  | compressSignalFilled i | compressSignalEmpty i | dumpTakeFilled i | dumpEnd i
  | dumpSignalEmpty i =>
    simp only [ringStep] at hstep
    split_ifs at hstep
    cases hstep
    exact ⟨rs, hR.frame rfl rfl rfl⟩

/-- **Every reachable state** has the records of its history in its blocks. -/
theorem recorded_run (hcnt : 0 < cfg.cnt) (hsize : 0 < cfg.size) {buffer : Nat → Nat → UInt8}
    {compressed : Nat → List UInt8} {as : List RingAct}
    (hfit : ∀ p n, .call p n ∈ as → n ≤ cfg.size)
    (hrun : run (ringStep cfg) (RingState.init buffer compressed) as = some s) :
    RingInv cfg s ∧ ∃ rs, Recorded cfg s (history as) rs := by
  refine run_follows (R := fun s h => RingInv cfg s ∧ ∃ rs, Recorded cfg s h rs)
    (fun s h a s' ha hR hstep => ?_) ⟨RingInv.init _ _, [], Recorded.init _ _⟩ hrun
  obtain ⟨hinv, rs, hR⟩ := hR
  refine ⟨hinv.step hcnt hstep, hR.step hinv.head hsize (fun p n he => ?_) hstep⟩
  exact hfit p n (he ▸ ha)

/-- Who is inside is alone. -/
theorem Head.alone_inside (hhead : Head cfg s) (hp : (s.pc p).outside = false) (hq : q ≠ p) :
    (s.pc q).outside = true := by
  cases hholds : (s.pc p).holds with
  | true => exact hhead.outside_of_holds hholds hq
  | false =>
    refine hhead.outside_of_closes ?_ hq
    cases hpc : s.pc p <;> simp_all [Pc.outside, Pc.holds, Pc.closes]

theorem Pc.joining_of_outside (h : b.outside = true) : b.joining = false := by
  cases b <;> simp_all [Pc.outside, Pc.joining]

/-- The records `q` are in the blocks: `q.done` in those handed off, `q.cur` in the current one, or
in the last one when the trace is closed. -/
structure HoldsRecords (cfg : RingConfig) (s : RingState) (q : Packed UInt8) : Prop where
  handed : (∀ p, (s.pc p).joining = false) → s.handed = q.done.map (blockOf cfg.size)
  last : (∃ p, (s.pc p).joining = true) →
    s.handed = q.done.map (blockOf cfg.size) ++ [blockOf cfg.size (q.cur ++ [[endEventLabel]])]
  current : (∀ p, (s.pc p).outside = true) → s.front.bytes s.offset = q.cur.flatten
  /-- Between two blocks nothing is in the current one. -/
  between : ∀ p, (s.pc p).ownsNone = true → (s.pc p).joining = false → q.cur = []
  le : (∀ p, (s.pc p).joining = false) → q.cur.flatten.length ≤ cfg.size

/-- `HoldsRecords` when the thread `p` is inside, and so the only one. -/
theorem Recorded.holds_inside (hR : Recorded cfg s h rs) (hhead : Head cfg s)
    (hsize : 0 < cfg.size) (hp : (s.pc p).outside = false) :
    ∃ q : Packed UInt8, q.records = rs ∧ HoldsRecords cfg s q := by
  have hlays := hR.lays p
  have hlen := hR.length p
  have hroom : ∀ n, ((pack cfg.size rs).room cfg.size n).records = rs := fun n => by simp
  -- the fields from what they say of `p`
  have hholds : ∀ q : Packed UInt8, q.records = rs →
      ((s.pc p).joining = false → s.handed = q.done.map (blockOf cfg.size)) →
      ((s.pc p).joining = true →
        s.handed = q.done.map (blockOf cfg.size) ++ [blockOf cfg.size (q.cur ++ [[endEventLabel]])]) →
      ((s.pc p).ownsNone = true → (s.pc p).joining = false → q.cur = []) →
      ((s.pc p).joining = false → q.cur.flatten.length ≤ cfg.size) →
      ∃ q : Packed UInt8, q.records = rs ∧ HoldsRecords cfg s q := by
    intro q hq hopen hlast hbetween hle
    refine ⟨q, hq, fun hj => hopen (hj p), ?_, fun hout => ?_, fun r hr hj => ?_, fun hj => hle (hj p)⟩
    · rintro ⟨r, hr⟩
      by_cases hrp : r = p
      · exact hlast (hrp ▸ hr)
      · rw [Pc.joining_of_outside (hhead.alone_inside hp hrp)] at hr
        cases hr
    · rw [hout p] at hp
      cases hp
    · by_cases hrp : r = p
      · exact hbetween (hrp ▸ hr) (hrp ▸ hj)
      · have := hhead.alone_inside hp hrp
        cases hpc : s.pc r <;> simp_all [Pc.outside, Pc.ownsNone]
  cases hpc : s.pc p with
  | idle | spin => simp [hpc, Pc.outside] at hp
  | locked c n =>
    rw [hpc] at hlays hholds
    refine hholds _ (pack_records _ _) (fun _ => hlays.handed) ?_ ?_ fun _ => ?_
    · simp [Pc.joining]
    · simp [Pc.ownsNone]
    · rw [← hlays.offset_eq]; exact hlays.le
  | pad c n j =>
    rw [hpc] at hlays hholds
    refine hholds _ (pack_records _ _) (fun _ => hlays.1.handed) ?_ ?_ fun _ => ?_
    · simp [Pc.joining]
    · simp [Pc.ownsNone]
    · rw [← hlays.1.offset_eq]; exact hlays.1.le
  | waitEmpty c n =>
    rw [hpc] at hlays hholds
    have hrs := hroom n
    rw [Packed.room_of_lt hlays.2] at hrs
    refine hholds _ hrs (fun _ => hlays.1) ?_ (fun _ _ => rfl) fun _ => Nat.zero_le _
    simp [Pc.joining]
  | writing c ret n =>
    rw [hpc] at hlays hholds hlen
    refine hholds _ (hroom n) (fun _ => hlays.1.handed) ?_ ?_ fun _ => ?_
    · simp [Pc.joining]
    · simp [Pc.ownsNone]
    · exact (Nat.le_add_right _ _).trans (Packed.room_fits hlen.1)
  | padEnd | setCompressDone | setDumpDone | signalLast =>
    rw [hpc] at hlays hholds
    refine hholds _ (hroom 1) (fun _ => hlays.handed) ?_ ?_ fun _ => ?_
    · simp [Pc.joining]
    · simp [Pc.ownsNone]
    · exact (Nat.le_add_right _ _).trans (Packed.room_fits hsize)
  | joinCompress | joinDump | closed =>
    rw [hpc] at hlays hholds
    refine hholds _ (hroom 1) ?_ (fun _ => ?_) ?_ ?_
    · simp [Pc.joining]
    · refine hlays.trans ?_
      rw [List.map_append, List.map_singleton]
      rfl
    · simp [Pc.joining]
    · simp [Pc.joining]

/-- With all threads outside the front is at rest. -/
theorem Recorded.at_rest (hR : Recorded cfg s h rs) (hhead : Head cfg s)
    (hout : ∀ p, (s.pc p).outside = true) : Lies cfg.size s.front (pack cfg.size rs) := by
  refine hR.rest ?_ fun p => ?_
  · by_contra hlock
    obtain ⟨p, hp⟩ := Option.ne_none_iff_exists'.mp hlock
    have hholds := (hhead.lock p).mpr hp
    have := hout p
    cases hpc : s.pc p <;> simp_all [Pc.outside, Pc.holds]
  · have := hout p
    cases hpc : s.pc p <;> simp_all [Pc.outside, Pc.sealed]

/-- **The records of the history are in the blocks**, whatever the threads are doing. -/
theorem Recorded.holds (hR : Recorded cfg s h rs) (hhead : Head cfg s) (hsize : 0 < cfg.size) :
    ∃ q : Packed UInt8, q.records = rs ∧ HoldsRecords cfg s q := by
  by_cases hout : ∀ p, (s.pc p).outside = true
  · have hlies := hR.at_rest hhead hout
    refine ⟨_, pack_records cfg.size rs, fun _ => hlies.handed, ?_, fun _ => hlies.bytes,
      fun p hp _ => ?_, fun _ => ?_⟩
    · rintro ⟨p, hp⟩
      rw [Pc.joining_of_outside (hout p)] at hp
      cases hp
    · have := hout p
      cases hpc : s.pc p <;> simp_all [Pc.outside, Pc.ownsNone]
    · rw [← hlies.offset_eq]
      exact hlies.le
  · obtain ⟨p, hp⟩ := not_forall.mp hout
    exact hR.holds_inside hhead hsize (Bool.eq_false_iff.mpr hp)

/-- A history in which every byte was stored tells the records. -/
theorem eq_of_fits (h : List.Forall₂ (List.Forall₂ Fits) rs (rs'.map (List.map some))) : rs = rs' := by
  have hinner : ∀ {r r' : List UInt8}, List.Forall₂ Fits r (r'.map some) → r = r' := fun h => by
    rw [List.forall₂_map_right_iff] at h
    exact List.forall₂_eq_eq_eq ▸ h.imp fun b b' hb => hb b' rfl
  rw [List.forall₂_map_right_iff] at h
  exact List.forall₂_eq_eq_eq ▸ h.imp fun r r' hr => hinner hr

/-- The records of a run whose threads store every byte are in the blocks. -/
theorem holds_run (hcnt : 0 < cfg.cnt) (hsize : 0 < cfg.size) {buffer : Nat → Nat → UInt8}
    {compressed : Nat → List UInt8} {as : List RingAct} {records : List (List UInt8)}
    (hfit : ∀ p n, .call p n ∈ as → n ≤ cfg.size)
    (hrec : (history as).records = records.map (List.map some))
    (hrun : run (ringStep cfg) (RingState.init buffer compressed) as = some s) :
    RingInv cfg s ∧ ∃ q : Packed UInt8, q.records = records ∧ HoldsRecords cfg s q := by
  obtain ⟨hinv, rs, hR⟩ := recorded_run hcnt hsize hfit hrun
  have hrs := hR.records
  rw [hrec] at hrs
  obtain rfl := eq_of_fits hrs
  exact ⟨hinv, hR.holds hinv.head hsize⟩

/-- **What is in the blocks.** In every run whose threads ask for no more than a block and store
every byte of a record they append: the blocks handed off hold the records appended, in the order in
which the appends have ended, each in one piece and as its thread stored it, with padding behind
them, and what is written of the current block are the records left. The last block that
`CloseBufferFile` hands off holds the records left and the `End` label. -/
theorem ring_records (hcnt : 0 < cfg.cnt) (hsize : 0 < cfg.size) {buffer : Nat → Nat → UInt8}
    {compressed : Nat → List UInt8} {as : List RingAct} {records : List (List UInt8)}
    (hfit : ∀ p n, .call p n ∈ as → n ≤ cfg.size)
    (hrec : (history as).records = records.map (List.map some))
    (hrun : run (ringStep cfg) (RingState.init buffer compressed) as = some s) :
    ∃ (done : List (List (List UInt8))) (cur : List (List UInt8)), done.flatten ++ cur = records ∧
      ((∀ p, (s.pc p).joining = false) → s.handed = done.map (blockOf cfg.size)) ∧
      ((∃ p, (s.pc p).joining = true) →
        s.handed = done.map (blockOf cfg.size) ++ [blockOf cfg.size (cur ++ [[endEventLabel]])]) ∧
      ((∀ p, (s.pc p).outside = true) → s.front.bytes s.offset = cur.flatten) := by
  obtain ⟨-, q, hq, hholds⟩ := holds_run hcnt hsize hfit hrec hrun
  exact ⟨q.done, q.cur, hq, hholds.handed, hholds.last, hholds.current⟩

/-- Every block handed off is full. -/
theorem handed_length {buffer : Nat → Nat → UInt8} {compressed : Nat → List UInt8}
    {as : List RingAct} (hrun : run (ringStep cfg) (RingState.init buffer compressed) as = some s) :
    ∀ b ∈ s.handed, b.length = cfg.size := by
  refine run_invariant (P := fun s => ∀ b ∈ s.handed, b.length = cfg.size)
    (fun s a s' h hstep => ?_) (fun b hb => absurd hb List.not_mem_nil) hrun
  have hcontent : ∀ i, ∀ b ∈ s.handed ++ [s.content cfg i], b.length = cfg.size := by
    intro i b hb
    rcases List.mem_append.mp hb with hb | hb
    · exact h b hb
    · rw [List.mem_singleton.mp hb]
      simp [RingState.content]
  cases hparty : a.party with
  | compress => rw [(compress_frame hparty hstep).1]; exact h
  | dump => rw [(dump_frame hparty hstep).1]; exact h
  | thread =>
    cases a <;> simp only [RingAct.party, reduceCtorEq] at hparty <;> simp only [ringStep] at hstep
    all_goals
      repeat' split at hstep
      all_goals first | (cases hstep; first | exact h | exact hcontent _) | cases hstep

end

/-- Two records of two bytes and of one, the second in the next block. -/
def twoRecordsRun : List RingAct := oneBufferRun ++ [.unlock 0]

theorem ring_records_two :
    ∃ s, run (ringStep oneBuffer) (RingState.init (fun _ _ => 0) fun _ => []) twoRecordsRun =
        some s ∧
      ∃ (done : List (List (List UInt8))) (cur : List (List UInt8)),
        done.flatten ++ cur = [[7, 8], [9]] ∧
        ((∀ p, (s.pc p).joining = false) → s.handed = done.map (blockOf oneBuffer.size)) ∧
        ((∃ p, (s.pc p).joining = true) → s.handed = done.map (blockOf oneBuffer.size) ++
          [blockOf oneBuffer.size (cur ++ [[endEventLabel]])]) ∧
        ((∀ p, (s.pc p).outside = true) → s.front.bytes s.offset = cur.flatten) := by
  obtain ⟨s, hs⟩ := Option.isSome_iff_exists.mp (show (run (ringStep oneBuffer)
    (RingState.init (fun _ _ => 0) fun _ => []) twoRecordsRun).isSome = true from rfl)
  refine ⟨s, hs, ring_records (by decide) (by decide) (fun p n hn => ?_) rfl hs⟩
  simp only [twoRecordsRun, oneBufferRun, List.cons_append, List.nil_append, List.mem_cons,
    RingAct.call.injEq, reduceCtorEq, false_or, or_false, List.not_mem_nil] at hn
  show n ≤ 2
  omega

end Slimmer
