import Slimmer.SegmentTree
import Slimmer.Tables
import Slimmer.Lib.Runs
import Mathlib.Data.Finset.Image
import Mathlib.Order.Interval.Set.Defs
import Mathlib.Data.Set.BooleanAlgebra
import Mathlib.Order.CompletePartialOrder
import Mathlib.Algebra.Group.Int.Defs

/-!
# Memory dependencies

`ExtractMemoryDependency` (`tools/PrintBug/ExtractMemoryDependency.cpp`) goes through the block
trace with a segment tree of last writers. `extractMemoryDependency` is its model.

The reference is `lastWriters`: a block makes a list of accesses to sets of addresses, one after
the other, and an access depends on the last writers of what it reads.

**Theorem (`extractMemoryDependency_eq`).** For a trace without atomic instructions, the result is
the set of dependencies of the reference, with the `n`-th execution of an instruction renumbered
to `n` minus the number of the last one.

Counters are unbounded here; the 32-bit counters of the source agree with them up to `2 ^ 31`
executions of one instruction by one thread.
-/

namespace Slimmer

/-! ## Memory groups -/

/-- The conversion of a group number to a key of `Group2Addr`. -/
def groupKey (g : Int) : Nat := (g % 2 ^ 32).toNat

/-- `Addr2Group` and `Group2Addr`, as `GroupMemory` leaves them: each group number stored in
`Addr2Group` has a tree. -/
structure Groups where
  addr2Group : SegmentTree Int
  group2Addr : Nat → SegmentTree Int
  addr2Group_wf : addr2Group.WF 0 maxRange
  hasTree : ∀ x g, addr2Group.get x = some g → (group2Addr (groupKey g)).WF 0 maxRange

/-- The addresses of a group. -/
def Groups.addrs (G : Groups) (g : Int) : Set Nat :=
  {x | x < maxRange ∧ ((G.group2Addr (groupKey g)).get x).isSome}

/-- The addresses of the group of `addr`, if it has one. -/
def Groups.groupOf (G : Groups) (addr : Nat) : Option (Set Nat) :=
  (G.addr2Group.get addr).map G.addrs

/-! ## The pass -/

/-- The id of the instruction a block starts with. -/
def SmallestBlock.insID? (T : Tables) (b : SmallestBlock) : Option Nat :=
  (T.bb2Ins[b.bbID]?).bind fun bb => bb[b.start]?

/-- The variables of `ExtractMemoryDependency`; `memDep` is `_mem_dep`, as a set of pairs. -/
structure DepState where
  lastStore : SegmentTree DynamicInst := .newTree ⟨0, 0, 0⟩
  insCount : Nat × Nat → Nat := fun _ => 0
  memDep : Finset (DynamicInst × DynamicInst) := ∅

/-- Record the last writers of `[l, r)` as dependencies of `d`. -/
def DepState.depend (d : DynamicInst) (s : DepState) (l r : Nat) : Option DepState :=
  (s.lastStore.collect l r).map fun segs =>
    { s with
      memDep := segs.foldl
        (fun m j => if j.type = .coveredSegment then insert (d, j.value) m else m) s.memDep }

/-- `last_store->Set(l, r, d)`. -/
def DepState.store (d : DynamicInst) (s : DepState) (l r : Nat) : Option DepState :=
  (s.lastStore.set l r d).map fun t => { s with lastStore := t }

/-- A segment of a group: it is read, then written. -/
def DepState.touch (d : DynamicInst) (s : DepState) (i : Segment Int) : Option DepState :=
  if i.type = .coveredSegment then (s.depend d i.left i.right).bind (store d · i.left i.right)
  else some s

/-- A pointer argument of an external call. -/
def DepState.passPointer (G : Groups) (d : DynamicInst) (s : DepState) (addr : Nat) :
    Option DepState :=
  match G.addr2Group.get addr with
  | none => some s
  | some g => ((G.group2Addr (groupKey g)).collect 0 maxRange).bind (run (touch d) s)

/-- A `MemoryAccessBlock`. -/
def DepState.memoryAccess (T : Tables) (d : DynamicInst) (s : DepState) (l r : Nat) :
    Option DepState := do
  if r ≤ l then some s
  else
    let i ← T.ins[d.id]?
    if i.type = .storeInst then s.store d l r
    else if i.type = .loadInst then
      let s ← s.depend d l r
      -- the branch for atomic operations is inside the one for loads
      if i.type = .atomicInst then s.store d l r else some s
    else some s

/-- What the body of the loop does with the execution `d`. -/
def DepState.body (T : Tables) (G : Groups) (d : DynamicInst) (s : DepState) (b : SmallestBlock) :
    Option DepState :=
  match b.type with
  | .memoryAccessBlock => do s.memoryAccess T d (← b.addr[0]?) (← b.addr[1]?)
  | .memsetBlock => do
    let l ← b.addr[0]?
    let r ← b.addr[1]?
    if r ≤ l then some s else s.store d l r
  | .memmoveBlock => do
    let l ← b.addr[0]?
    let r ← b.addr[1]?
    if r ≤ l then some s
    else
      let s ← s.depend d (← b.addr[2]?) (← b.addr[3]?)
      s.store d l r
  | .externalCallBlock | .impactfulCallBlock => run (passPointer G d) s b.addr.tail
  | .normalBlock | .declareBlock => some s

/-- The block is one execution of an instruction the pass looks at. -/
def SmallestBlock.counted (b : SmallestBlock) : Bool :=
  b.type ≠ .normalBlock && b.type ≠ .declareBlock

/-- One turn of the loop. -/
def depStep (T : Tables) (G : Groups) (s : DepState) (b : SmallestBlock) : Option DepState :=
  if b.counted then do
    let insID ← b.insID? T
    let n := s.insCount (b.tid, insID)
    DepState.body T G ⟨b.tid, insID, n⟩
      { s with insCount := Function.update s.insCount (b.tid, insID) (n + 1) } b
  else some s

/-- Number the executions backward: the last one is 0. -/
def DynamicInst.renumber (count : Nat × Nat → Nat) (d : DynamicInst) : DynamicInst :=
  { d with cnt := d.cnt - ((count (d.tid, d.id) : Int) - 1) }

/-- Number both sides of a dependency backward. -/
def renumberPair (count : Nat × Nat → Nat) (p : DynamicInst × DynamicInst) :
    DynamicInst × DynamicInst :=
  (p.1.renumber count, p.2.renumber count)

/-- `ExtractMemoryDependency`: the pairs of an execution and one of its dependencies. -/
def extractMemoryDependency (T : Tables) (G : Groups) (trace : List SmallestBlock) :
    Option (Finset (DynamicInst × DynamicInst)) :=
  (run (depStep T G) {} trace).map fun s => s.memDep.image (renumberPair s.insCount)

/-! ## The reference -/

/-- An access reads a set of addresses, then writes one. -/
structure Access where
  reads : Set Nat
  writes : Set Nat

/-- What an instruction does with the addresses it accesses. -/
def InstType.accesses (range : Set Nat) : InstType → List Access
  | .loadInst => [⟨range, ∅⟩]
  | .storeInst => [⟨∅, range⟩]
  | .atomicInst => [⟨range, range⟩]
  | _ => []

/-- What the pass sees of it. -/
def InstType.accessesSeen (range : Set Nat) (t : InstType) : List Access :=
  if t = .atomicInst then [] else t.accesses range

/-- The id of the instruction a block starts with. -/
def SmallestBlock.insID (T : Tables) (b : SmallestBlock) : Nat := (b.insID? T).getD 0

/-- The type of the instruction a block starts with. -/
def SmallestBlock.insType (T : Tables) (b : SmallestBlock) : Option InstType :=
  (T.ins[b.insID T]?).map InstInfo.type

/-- `Addr[i]`. -/
def SmallestBlock.addrAt (b : SmallestBlock) (i : Nat) : Nat := b.addr.getD i 0

/-- `[Addr[0], Addr[1])`. -/
def SmallestBlock.target (b : SmallestBlock) : Set Nat := Set.Ico (b.addrAt 0) (b.addrAt 1)

/-- The accesses of a block, when an instruction that accesses `range` makes the accesses
`perform range`. -/
def SmallestBlock.accesses (perform : Set Nat → InstType → List Access) (T : Tables) (G : Groups)
    (b : SmallestBlock) : List Access :=
  match b.type with
  | .memoryAccessBlock =>
    if b.addrAt 0 < b.addrAt 1 then ((b.insType T).map (perform b.target)).getD [] else []
  | .memsetBlock => if b.addrAt 0 < b.addrAt 1 then [⟨∅, b.target⟩] else []
  | .memmoveBlock =>
    if b.addrAt 0 < b.addrAt 1 then [⟨Set.Ico (b.addrAt 2) (b.addrAt 3), b.target⟩] else []
  | .externalCallBlock | .impactfulCallBlock =>
    b.addr.tail.filterMap fun a => (G.groupOf a).map fun group => ⟨group, group⟩
  | .normalBlock | .declareBlock => []

/-- The state of the reference: the last writer of each address, the executions so far, the
dependencies. -/
structure LastWriters where
  last : Nat → Option DynamicInst := fun _ => none
  count : Nat × Nat → Nat := fun _ => 0
  deps : Set (DynamicInst × DynamicInst) := ∅

open Classical in
/-- The execution `d` makes an access. -/
noncomputable def LastWriters.access (d : DynamicInst) (w : LastWriters) (a : Access) :
    LastWriters :=
  { w with
    last := fun x => if x ∈ a.writes then some d else w.last x
    deps := w.deps ∪ {p | p.1 = d ∧ ∃ x ∈ a.reads, w.last x = some p.2} }

/-- The name of the execution of a block. -/
def LastWriters.name (T : Tables) (w : LastWriters) (b : SmallestBlock) : DynamicInst :=
  ⟨b.tid, b.insID T, w.count (b.tid, b.insID T)⟩

/-- Count an execution. -/
def LastWriters.bump (T : Tables) (w : LastWriters) (b : SmallestBlock) : LastWriters :=
  { w with count := Function.update w.count (b.tid, b.insID T) (w.count (b.tid, b.insID T) + 1) }

/-- One block. -/
noncomputable def LastWriters.step (perform : Set Nat → InstType → List Access) (T : Tables)
    (G : Groups) (w : LastWriters) (b : SmallestBlock) : LastWriters :=
  if b.counted then (b.accesses perform T G).foldl (access (w.name T b)) (w.bump T b) else w

/-- A whole trace. -/
noncomputable def lastWritersOf (perform : Set Nat → InstType → List Access) (T : Tables)
    (G : Groups) (trace : List SmallestBlock) : LastWriters :=
  trace.foldl (LastWriters.step perform T G) {}

/-- The reference: atomic instructions read and write. -/
noncomputable def lastWriters (T : Tables) (G : Groups) (trace : List SmallestBlock) :
    LastWriters := lastWritersOf InstType.accesses T G trace

/-- The dependencies, renumbered. -/
def LastWriters.dependencies (w : LastWriters) : Set (DynamicInst × DynamicInst) :=
  Set.image (renumberPair w.count) w.deps

/-! ## Accesses -/

section

variable {w : LastWriters} {d : DynamicInst}

@[simp] theorem access_count (a : Access) : (w.access d a).count = w.count := rfl

open Classical in
theorem access_last (a : Access) (x : Nat) :
    (w.access d a).last x = if x ∈ a.writes then some d else w.last x := rfl

theorem mem_access_deps {a : Access} {p : DynamicInst × DynamicInst} :
    p ∈ (w.access d a).deps ↔ p ∈ w.deps ∨ (p.1 = d ∧ ∃ x ∈ a.reads, w.last x = some p.2) :=
  Iff.rfl

@[ext] theorem LastWriters.ext' {w w' : LastWriters} (hlast : w.last = w'.last)
    (hcount : w.count = w'.count) (hdeps : w.deps = w'.deps) : w = w' := by
  cases w; cases w'
  cases hlast; cases hcount; cases hdeps
  rfl

/-- Reading and then writing is one access. -/
theorem access_reads_writes (reads writes : Set Nat) :
    (w.access d ⟨reads, ∅⟩).access d ⟨∅, writes⟩ = w.access d ⟨reads, writes⟩ := by
  refine LastWriters.ext' (funext fun x => ?_) rfl (Set.ext fun p => ?_)
  · simp [access_last]
  · simp [mem_access_deps]

/-- Accesses to disjoint sets are one access to their union. -/
theorem access_union {s t : Set Nat} (h : Disjoint s t) :
    (w.access d ⟨s, s⟩).access d ⟨t, t⟩ = w.access d ⟨s ∪ t, s ∪ t⟩ := by
  refine LastWriters.ext' (funext fun x => ?_) rfl (Set.ext fun p => ?_)
  · by_cases hs : x ∈ s <;> by_cases ht : x ∈ t <;> simp [access_last, hs, ht]
  · have hlast : ∀ x ∈ t, (w.access d ⟨s, s⟩).last x = w.last x := fun x hx => by
      rw [access_last, if_neg fun hs => Set.disjoint_left.mp h hs hx]
    simp only [mem_access_deps, Set.mem_union]
    constructor
    · rintro ((hp | ⟨hd, x, hx, hl⟩) | ⟨hd, x, hx, hl⟩)
      · exact Or.inl hp
      · exact Or.inr ⟨hd, x, Or.inl hx, hl⟩
      · exact Or.inr ⟨hd, x, Or.inr hx, hlast x hx ▸ hl⟩
    · rintro (hp | ⟨hd, x, hx | hx, hl⟩)
      · exact Or.inl (Or.inl hp)
      · exact Or.inl (Or.inr ⟨hd, x, hx, hl⟩)
      · exact Or.inr ⟨hd, x, hx, (hlast x hx).trans hl⟩

theorem access_empty : w.access d ⟨∅, ∅⟩ = w := by
  refine LastWriters.ext' (funext fun x => ?_) rfl (Set.ext fun p => ?_)
  · simp [access_last]
  · simp [mem_access_deps]

end

/-! ## The pass follows the reference -/

/-- A block whose addresses are 64-bit words and whose indices are in range. -/
structure SmallestBlock.WellFormed (T : Tables) (b : SmallestBlock) : Prop where
  inst : b.counted → ∃ insID i, b.insID? T = some insID ∧ T.ins[insID]? = some i
  word : ∀ a ∈ b.addr, a < 2 ^ 64
  range : b.type = .memoryAccessBlock ∨ b.type = .memsetBlock → 2 ≤ b.addr.length
  ranges : b.type = .memmoveBlock → 4 ≤ b.addr.length

instance (T : Tables) (b : SmallestBlock) : Decidable (b.WellFormed T) :=
  decidable_of_iff
    ((b.counted = true → ((b.insID? T).bind fun insID => T.ins[insID]?).isSome = true) ∧
      (∀ a ∈ b.addr, a < 2 ^ 64) ∧
      (b.type = .memoryAccessBlock ∨ b.type = .memsetBlock → 2 ≤ b.addr.length) ∧
      (b.type = .memmoveBlock → 4 ≤ b.addr.length))
    (by
      simp only [Option.isSome_iff_exists, Option.bind_eq_some_iff]
      constructor
      · rintro ⟨hinst, hword, hrange, hranges⟩
        refine ⟨fun hc => ?_, hword, hrange, hranges⟩
        obtain ⟨i, insID, hid, hi⟩ := hinst hc
        exact ⟨insID, i, hid, hi⟩
      · intro h
        refine ⟨fun hc => ?_, h.word, h.range, h.ranges⟩
        obtain ⟨insID, i, hid, hi⟩ := h.inst hc
        exact ⟨i, insID, hid, hi⟩)

/-- The state of the pass and the state of the reference. -/
structure Follows (s : DepState) (w : LastWriters) : Prop where
  wf : s.lastStore.WF 0 maxRange
  last : ∀ x, x < maxRange → s.lastStore.get x = w.last x
  count : s.insCount = w.count
  deps : ∀ p, p ∈ s.memDep ↔ p ∈ w.deps

section

variable {T : Tables} {G : Groups} {s : DepState} {w : LastWriters} {d : DynamicInst}
  {b : SmallestBlock} {l r : Nat}

theorem mem_foldl_insert (segs : List (Segment DynamicInst))
    (m : Finset (DynamicInst × DynamicInst)) (p : DynamicInst × DynamicInst) :
    p ∈ segs.foldl (fun m j => if j.type = .coveredSegment then insert (d, j.value) m else m) m ↔
      p ∈ m ∨ (p.1 = d ∧ ∃ j ∈ segs, j.type = .coveredSegment ∧ j.value = p.2) := by
  induction segs generalizing m with
  | nil => simp
  | cons j segs ih =>
    rw [List.foldl_cons, ih]
    obtain ⟨p₁, p₂⟩ := p
    split_ifs with hj
    · simp only [Finset.mem_insert, Prod.mk.injEq, List.exists_mem_cons_iff]
      constructor
      · rintro ((⟨rfl, rfl⟩ | hm) | ⟨rfl, hex⟩)
        · exact Or.inr ⟨rfl, Or.inl ⟨hj, rfl⟩⟩
        · exact Or.inl hm
        · exact Or.inr ⟨rfl, Or.inr hex⟩
      · rintro (hm | ⟨rfl, ⟨-, rfl⟩ | hex⟩)
        · exact Or.inl (Or.inr hm)
        · exact Or.inl (Or.inl ⟨rfl, rfl⟩)
        · exact Or.inr ⟨rfl, hex⟩
    · simp [hj]

theorem Follows.depend (h : Follows s w) (hr : r ≤ maxRange) :
    ∃ s', s.depend d l r = some s' ∧ Follows s' (w.access d ⟨Set.Ico l r, ∅⟩) := by
  obtain ⟨segs, hsegs, hcol⟩ := SegmentTree.collect_spec (l := l) h.wf hr
  rw [DepState.depend, hsegs]
  refine ⟨_, rfl, h.wf, fun x hx => ?_, h.count, fun p => ?_⟩
  · rw [access_last, if_neg (Set.notMem_empty x)]
    exact h.last x hx
  · rw [mem_foldl_insert, hcol.value_iff, mem_access_deps, h.deps]
    refine or_congr Iff.rfl (and_congr Iff.rfl (exists_congr fun x => ?_))
    constructor
    · intro hc
      obtain ⟨h₁, h₂, hget⟩ := hc
      exact ⟨⟨h₁, h₂⟩, by rw [← h.last x (by omega), hget]⟩
    · intro hc
      obtain ⟨⟨h₁, h₂⟩, hget⟩ := hc
      exact ⟨h₁, h₂, by rw [h.last x (by omega), hget]⟩

theorem Follows.store (h : Follows s w) (hlr : l < r) (hr : r ≤ maxRange) :
    ∃ s', s.store d l r = some s' ∧ Follows s' (w.access d ⟨∅, Set.Ico l r⟩) := by
  obtain ⟨t, ht, hwf, hget⟩ := SegmentTree.set_spec (v := d) h.wf hlr hr
  rw [DepState.store, ht]
  refine ⟨_, rfl, hwf, fun x hx => ?_, h.count, fun p => ?_⟩
  · have hget : t.get x = _ := hget x hx
    show t.get x = _
    rw [hget, h.last x hx, access_last]
    by_cases hin : l ≤ x ∧ x < r <;> simp [hin]
  · simp [mem_access_deps, h.deps]

/-- A range that is read, then written. -/
theorem Follows.depend_store (h : Follows s w) {l' r' : Nat} (hr : r ≤ maxRange) (hlr : l' < r')
    (hr' : r' ≤ maxRange) : ∃ s', (s.depend d l r).bind (DepState.store d · l' r') = some s' ∧
      Follows s' (w.access d ⟨Set.Ico l r, Set.Ico l' r'⟩) := by
  obtain ⟨s₁, hs₁, h₁⟩ := h.depend (d := d) (l := l) hr
  obtain ⟨s₂, hs₂, h₂⟩ := h₁.store (d := d) hlr hr'
  rw [access_reads_writes] at h₂
  exact ⟨s₂, by rw [hs₁, Option.bind_some, hs₂], h₂⟩

/-- The addresses in the covered segments of a list. -/
def covered (segs : List (Segment Int)) : Set Nat :=
  {x | ∃ i ∈ segs, i.type = .coveredSegment ∧ i.left ≤ x ∧ x < i.right}

/-- The segments of a group are read and written one after the other, but they are disjoint. -/
theorem Follows.touch (segs : List (Segment Int))
    (hsorted : segs.Pairwise fun i i' => i.right ≤ i'.left)
    (hrange : ∀ i ∈ segs, i.left < i.right ∧ i.right ≤ maxRange) (h : Follows s w) :
    ∃ s', run (DepState.touch d) s segs = some s' ∧
      Follows s' (w.access d ⟨covered segs, covered segs⟩) := by
  induction segs generalizing s w with
  | nil =>
    have hempty : covered [] = ∅ := by simp [covered]
    rw [hempty, access_empty]
    exact ⟨s, rfl, h⟩
  | cons i segs ih =>
    obtain ⟨hfirst, hsorted⟩ := List.pairwise_cons.mp hsorted
    obtain ⟨⟨hlt, hle⟩, hrange⟩ := List.forall_mem_cons.mp hrange
    have hnot : ∀ x, x < i.right → x ∉ covered segs := by
      intro x hx hc
      obtain ⟨i', hi', -, hleft, -⟩ := hc
      have := hfirst i' hi'
      omega
    by_cases hi : i.type = .coveredSegment
    · obtain ⟨s₁, hs₁, h₁⟩ := h.depend_store (d := d) (l := i.left) hle hlt hle
      obtain ⟨s₂, hs₂, h₂⟩ := ih hsorted hrange h₁
      refine ⟨s₂, ?_, ?_⟩
      · rw [run_cons, DepState.touch, if_pos hi, hs₁, Option.bind_some, hs₂]
      · rw [access_union (Set.disjoint_left.mpr fun x hx => hnot x hx.2)] at h₂
        have hunion : Set.Ico i.left i.right ∪ covered segs = covered (i :: segs) := by
          ext x
          simp [covered, hi]
        rwa [hunion] at h₂
    · obtain ⟨s₂, hs₂, h₂⟩ := ih hsorted hrange h
      refine ⟨s₂, ?_, ?_⟩
      · rw [run_cons, DepState.touch, if_neg hi, Option.bind_some, hs₂]
      · have hsame : covered segs = covered (i :: segs) := by
          ext x
          simp [covered, hi]
        rwa [hsame] at h₂

/-- The covered segments of a tree are what it covers. -/
theorem SegmentTree.Collected.covered_eq {t : SegmentTree Int} {segs : List (Segment Int)}
    (h : t.Collected 0 maxRange segs) : covered segs = {x | x < maxRange ∧ (t.get x).isSome} := by
  ext x
  constructor
  · intro hc
    obtain ⟨i, hi, htype, h₁, h₂⟩ := hc
    refine ⟨h₂.trans_le (h.range i hi).2, ?_⟩
    rw [h.agrees i hi x h₁ h₂, Segment.get, if_pos htype]
    rfl
  · intro hc
    obtain ⟨hx, hsome⟩ := hc
    obtain ⟨i, hi, h₁, h₂⟩ := h.covers x (Nat.zero_le x) hx
    rw [h.agrees i hi x h₁ h₂, Segment.get] at hsome
    refine ⟨i, hi, ?_, h₁, h₂⟩
    by_contra htype
    simp [htype] at hsome

theorem Follows.passPointer (h : Follows s w) (addr : Nat) :
    ∃ s', s.passPointer G d addr = some s' ∧ Follows s'
      (((G.groupOf addr).map fun group => w.access d ⟨group, group⟩).getD w) := by
  unfold DepState.passPointer Groups.groupOf
  cases hget : G.addr2Group.get addr with
  | none => exact ⟨s, rfl, h⟩
  | some g =>
    obtain ⟨segs, hsegs, hcol⟩ := SegmentTree.collect_spec (l := 0) (G.hasTree addr g hget) le_rfl
    obtain ⟨s', hs', h'⟩ := h.touch (d := d) segs hcol.sorted hcol.range
    rw [hcol.covered_eq] at h'
    exact ⟨s', by simp only [hsegs, Option.bind_some]; exact hs', h'⟩

theorem Follows.memoryAccess (h : Follows s w) {i : InstInfo} (hi : T.ins[d.id]? = some i)
    (hr : r ≤ maxRange) : ∃ s', s.memoryAccess T d l r = some s' ∧ Follows s'
      ((if l < r then i.type.accessesSeen (Set.Ico l r) else []).foldl (LastWriters.access d) w) := by
  unfold DepState.memoryAccess
  by_cases hlr : l < r
  · rw [if_neg (not_le.mpr hlr), if_pos hlr, hi]
    cases htype : i.type
    case loadInst =>
      obtain ⟨s', hs', h'⟩ := h.depend (d := d) (l := l) hr
      exact ⟨s', by simp [htype, hs'], h'⟩
    case storeInst =>
      obtain ⟨s', hs', h'⟩ := h.store (d := d) hlr hr
      exact ⟨s', by simp [htype, hs'], h'⟩
    all_goals exact ⟨s, by simp [htype], h⟩
  · rw [if_pos (not_lt.mp hlr), if_neg hlr]
    exact ⟨s, rfl, h⟩

/-- The list of addresses has an entry where the block reads one. -/
theorem SmallestBlock.addr_getElem? (i : Nat) (h : i < b.addr.length) :
    b.addr[i]? = some (b.addrAt i) := by
  rw [addrAt, List.getD_eq_getElem?_getD, List.getElem?_eq_getElem h, Option.getD_some]

theorem SmallestBlock.WellFormed.addrAt_le (hb : b.WellFormed T) (i : Nat) :
    b.addrAt i ≤ maxRange := by
  unfold addrAt maxRange
  by_cases hi : i < b.addr.length
  · rw [List.getD_eq_getElem?_getD, List.getElem?_eq_getElem hi, Option.getD_some]
    have := hb.word _ (List.getElem_mem hi)
    omega
  · rw [List.getD_eq_getElem?_getD, List.getElem?_eq_none (not_lt.mp hi)]
    exact Nat.zero_le _

theorem Follows.body (h : Follows s w) (hb : b.WellFormed T) {i : InstInfo}
    (hid : d.id = b.insID T) (hi : T.ins[d.id]? = some i) :
    ∃ s', s.body T G d b = some s' ∧
      Follows s' ((b.accesses InstType.accessesSeen T G).foldl (LastWriters.access d) w) := by
  have htype : b.insType T = some i.type := by rw [SmallestBlock.insType, ← hid, hi]; rfl
  unfold DepState.body SmallestBlock.accesses
  cases hkind : b.type with
  | normalBlock | declareBlock => exact ⟨s, rfl, h⟩
  | memoryAccessBlock =>
    have hlen := hb.range (Or.inl hkind)
    obtain ⟨s', hs', h'⟩ := h.memoryAccess (l := b.addrAt 0) hi (hb.addrAt_le 1)
    refine ⟨s', ?_, ?_⟩
    · simp [b.addr_getElem? 0 (by omega), b.addr_getElem? 1 (by omega), hs']
    · simpa [htype, SmallestBlock.target] using h'
  | memsetBlock =>
    have hlen := hb.range (Or.inr hkind)
    by_cases hlr : b.addrAt 0 < b.addrAt 1
    · obtain ⟨s', hs', h'⟩ := h.store (d := d) hlr (hb.addrAt_le 1)
      refine ⟨s', ?_, by simpa [hlr, SmallestBlock.target] using h'⟩
      simp [b.addr_getElem? 0 (by omega), b.addr_getElem? 1 (by omega), not_le.mpr hlr, hs']
    · refine ⟨s, ?_, by simpa [hlr] using h⟩
      simp [b.addr_getElem? 0 (by omega), b.addr_getElem? 1 (by omega), not_lt.mp hlr]
  | memmoveBlock =>
    have hlen := hb.ranges hkind
    by_cases hlr : b.addrAt 0 < b.addrAt 1
    · obtain ⟨s', hs', h'⟩ := h.depend_store (d := d) (l := b.addrAt 2) (hb.addrAt_le 3) hlr
        (hb.addrAt_le 1)
      refine ⟨s', ?_, by simpa [hlr, SmallestBlock.target] using h'⟩
      simp [b.addr_getElem? 0 (by omega), b.addr_getElem? 1 (by omega),
        b.addr_getElem? 2 (by omega), b.addr_getElem? 3 (by omega), not_le.mpr hlr, hs']
    · refine ⟨s, ?_, by simpa [hlr] using h⟩
      simp [b.addr_getElem? 0 (by omega), b.addr_getElem? 1 (by omega), not_lt.mp hlr]
  | externalCallBlock | impactfulCallBlock =>
    obtain ⟨s', hs', h'⟩ := run_simulates (R := Follows)
      (g := fun w a => ((G.groupOf a).map fun group => w.access d ⟨group, group⟩).getD w)
      (fun s w a (_ : a ∈ b.addr.tail) h => h.passPointer a) h
    refine ⟨s', hs', ?_⟩
    rw [List.foldl_filterMap]
    convert h' using 2
    funext w a
    cases G.groupOf a <;> rfl

theorem Follows.step (h : Follows s w) (hb : b.WellFormed T) : ∃ s', depStep T G s b = some s' ∧
    Follows s' (w.step InstType.accessesSeen T G b) := by
  unfold depStep LastWriters.step
  by_cases hcounted : b.counted
  · obtain ⟨insID, i, hid, hi⟩ := hb.inst hcounted
    obtain rfl : b.insID T = insID := by rw [SmallestBlock.insID, hid]; rfl
    rw [if_pos hcounted, if_pos hcounted, hid, Option.bind_eq_bind, Option.bind_some, h.count]
    exact Follows.body ⟨h.wf, h.last, rfl, h.deps⟩ hb rfl hi
  · rw [if_neg hcounted, if_neg hcounted]
    exact ⟨s, rfl, h⟩

theorem follows_init : Follows {} {} where
  wf := SegmentTree.newTree_wf _
  last _ _ := rfl
  count := rfl
  deps p := by simp

/-- The pass computes the dependencies of the reference that does not see atomic instructions. -/
theorem extract_follows (T : Tables) (G : Groups) {trace : List SmallestBlock}
    (htrace : ∀ b ∈ trace, b.WellFormed T) :
    ∃ deps, extractMemoryDependency T G trace = some deps ∧
      (deps : Set (DynamicInst × DynamicInst)) =
        (lastWritersOf InstType.accessesSeen T G trace).dependencies := by
  obtain ⟨s, hs, h⟩ : ∃ s, run (depStep T G) {} trace = some s ∧
      Follows s (lastWritersOf InstType.accessesSeen T G trace) :=
    run_simulates (fun s w b hb h => h.step (htrace b hb)) follows_init
  refine ⟨_, by rw [extractMemoryDependency, hs]; rfl, ?_⟩
  rw [Finset.coe_image, LastWriters.dependencies, h.count]
  exact congrArg _ (Set.ext fun p => h.deps p)

/-- Without atomic instructions the two references agree. -/
theorem lastWritersOf_seen {trace : List SmallestBlock}
    (hatomic : ∀ b ∈ trace, b.type = .memoryAccessBlock → b.insType T ≠ some .atomicInst) :
    lastWritersOf InstType.accessesSeen T G trace = lastWriters T G trace := by
  refine List.foldl_ext _ _ _ fun w b hb => ?_
  have haccesses : b.accesses InstType.accessesSeen T G = b.accesses InstType.accesses T G := by
    unfold SmallestBlock.accesses
    cases hkind : b.type with
    | memoryAccessBlock =>
      cases htype : b.insType T with
      | none => rfl
      | some t =>
        have hne : t ≠ .atomicInst := fun ht => hatomic b hb hkind (by rw [htype, ht])
        simp [InstType.accessesSeen, hne]
    | _ => rfl
  rw [LastWriters.step, LastWriters.step, haccesses]

/-- **`ExtractMemoryDependency` computes last writers.** For every well-formed block trace without
atomic instructions the pass returns, with the dependencies of the reference. -/
theorem extractMemoryDependency_eq (T : Tables) (G : Groups) (trace : List SmallestBlock)
    (htrace : ∀ b ∈ trace, b.WellFormed T)
    (hatomic : ∀ b ∈ trace, b.type = .memoryAccessBlock → b.insType T ≠ some .atomicInst) :
    ∃ deps, extractMemoryDependency T G trace = some deps ∧
      (deps : Set (DynamicInst × DynamicInst)) = (lastWriters T G trace).dependencies := by
  obtain ⟨deps, hdeps, heq⟩ := extract_follows T G htrace
  exact ⟨deps, hdeps, by rw [heq, lastWritersOf_seen hatomic]⟩

end

/-- A store, a load and a memmove. -/
def copyTables : Tables where
  ins := [{ type := .storeInst }, { type := .loadInst }, { type := .callInst, fn := "llvm.memmove" }]
  bb2Ins := [[0, 1, 2]]

/-- Every address is in group 1. -/
def oneGroup : Groups where
  addr2Group := .leaf .coveredSegment 1 0 maxRange
  group2Addr := fun _ => .leaf .coveredSegment 1 0 maxRange
  addr2Group_wf := .leaf (by decide) (by decide)
  hasTree := fun _ _ _ => .leaf (by decide) (by decide)

/-- A store, a memmove of half of it, and a load of the copy. -/
def copyTrace : List SmallestBlock :=
  [{ type := .memoryAccessBlock, addr := [100, 108] },
    { type := .memmoveBlock, start := 2, addr := [200, 204, 100, 104] },
    { type := .memoryAccessBlock, start := 1, addr := [202, 210] }]

theorem extractMemoryDependency_eq_copy :
    ∃ deps, extractMemoryDependency copyTables oneGroup copyTrace = some deps ∧
      (deps : Set (DynamicInst × DynamicInst)) =
        (lastWriters copyTables oneGroup copyTrace).dependencies :=
  extractMemoryDependency_eq _ _ _ (by decide) (by decide)

end Slimmer
