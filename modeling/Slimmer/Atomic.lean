import Slimmer.Executions

/-!
# Atomic instructions

An atomic instruction reads its range and writes it. `ExtractMemoryDependency` records the store
of an atomic operation inside the branch for load instructions, where the type is never
`AtomicInst`, so the pass skips atomic instructions (`DepState.memoryAccess`).

**Theorem (`atomic_recorded_iff`).** The dependencies of an atomic instruction and of the later
readers of what it writes are recorded if and only if there are none: nothing was written to its
range before, and nothing written by it is read.
-/

namespace Slimmer

section

variable {perform : Set Nat → InstType → List Access} {T : Tables} {G : Groups}
  {w : LastWriters} {b : SmallestBlock}

/-! ## The writers and the readers of a range -/

/-- The executions whose writes to `range` are still there after the blocks `pre`. -/
def writersOf (T : Tables) (G : Groups) (pre : List SmallestBlock) (range : Set Nat) :
    Set DynamicInst :=
  {e | ∃ x ∈ range, (lastWriters T G pre).last x = some e}

/-- The blocks `mid` and the accesses `as` do not write to `x`. -/
def Unwritten (T : Tables) (G : Groups) (x : Nat) (mid : List SmallestBlock) (as : List Access) :
    Prop :=
  (∀ m ∈ mid, ∀ a ∈ m.accesses InstType.accesses T G, x ∉ a.writes) ∧ ∀ a ∈ as, x ∉ a.writes

/-- The executions among `post`, the blocks behind `pre`, that read an address of `range` nothing
has written to since `pre`. -/
def readersOf (T : Tables) (G : Groups) (pre post : List SmallestBlock) (range : Set Nat) :
    Set DynamicInst :=
  {e | ∃ mid c post', post = mid ++ c :: post' ∧ e = (lastWriters T G (pre ++ mid)).name T c ∧
    ∃ as a as', c.accesses InstType.accesses T G = as ++ a :: as' ∧
      ∃ x ∈ range, x ∈ a.reads ∧ Unwritten T G x mid as}

/-- The block is an atomic instruction with a range. -/
structure SmallestBlock.Atomic (T : Tables) (b : SmallestBlock) : Prop where
  type : b.type = .memoryAccessBlock
  inst : b.insType T = some .atomicInst
  range : b.addrAt 0 < b.addrAt 1

/-- The dependencies that make the atomic instruction `b` between `pre` and `post` a read and a
write of its range are in `deps`. -/
def AtomicRecorded (T : Tables) (G : Groups) (pre : List SmallestBlock) (b : SmallestBlock)
    (post : List SmallestBlock) (deps : Set (DynamicInst × DynamicInst)) : Prop :=
  let d := (lastWriters T G pre).name T b
  let count := (lastWriters T G (pre ++ b :: post)).count
  (∀ e ∈ writersOf T G pre b.target, renumberPair count (d, e) ∈ deps) ∧
    ∀ e ∈ readersOf T G (pre ++ [b]) post b.target, renumberPair count (e, d) ∈ deps

/-! ## An atomic instruction makes no access -/

/-- An atomic instruction makes no access the pass sees, so it is absent afterwards. -/
theorem absent_atomic (hb : b.Atomic T) (pre post : List SmallestBlock) :
    Absent ((lastWriters T G pre).name T b)
      (lastWritersOf InstType.accessesSeen T G (pre ++ b :: post)) := by
  have hname : (lastWriters T G pre).name T b =
      (lastWritersOf InstType.accessesSeen T G pre).name T b := by
    unfold LastWriters.name lastWriters
    rw [lastWritersOf_count InstType.accesses InstType.accessesSeen]
  have hnone : b.accesses InstType.accessesSeen T G = [] := by
    simp [SmallestBlock.accesses, hb.type, hb.range, hb.inst, InstType.accessesSeen]
  have hpast : Past (lastWritersOf InstType.accessesSeen T G pre) := past_lastWritersOf pre
  have hrun : lastWritersOf InstType.accessesSeen T G (pre ++ b :: post) =
      post.foldl (LastWriters.step InstType.accessesSeen T G)
        (LastWriters.step InstType.accessesSeen T G
          (lastWritersOf InstType.accessesSeen T G pre) b) := by
    unfold lastWritersOf
    rw [List.foldl_append, List.foldl_cons]
  rw [hname, hrun]
  refine Absent.run post ?_
  rw [LastWriters.step, if_pos (by simp [SmallestBlock.counted, hb.type]), hnone, List.foldl_nil]
  -- the name of the execution is fresh before, and past afterwards
  exact ⟨name_named.2, fun x hx => absurd (hpast.last x _ hx).2 (lt_irrefl _),
    fun e => ⟨fun he => absurd (hpast.deps _ he).1.2 (lt_irrefl _),
      fun he => absurd (hpast.deps _ he).2.2 (lt_irrefl _)⟩⟩

/-- No dependency of an atomic instruction is ever recorded, nor any on it. -/
theorem atomic_missed {trace pre post : List SmallestBlock}
    {deps : Finset (DynamicInst × DynamicInst)} (htrace : ∀ b ∈ trace, b.WellFormed T)
    (hextract : extractMemoryDependency T G trace = some deps) (hsplit : trace = pre ++ b :: post)
    (hb : b.Atomic T) (e : DynamicInst) :
    renumberPair (lastWriters T G trace).count ((lastWriters T G pre).name T b, e) ∉ deps ∧
      renumberPair (lastWriters T G trace).count (e, (lastWriters T G pre).name T b) ∉ deps := by
  obtain ⟨deps', hdeps', heq⟩ := extract_follows T G htrace
  cases hextract.symm.trans hdeps'
  have habsent := absent_atomic (G := G) hb pre post
  rw [← hsplit] at habsent
  have hmem : ∀ p, renumberPair (lastWriters T G trace).count p ∈ deps →
      p ∈ (lastWritersOf InstType.accessesSeen T G trace).deps := by
    intro p hp
    rw [← Finset.mem_coe, heq, lastWriters,
      lastWritersOf_count InstType.accesses InstType.accessesSeen] at hp
    exact (renumberPair_injective _).mem_set_image.mp hp
  exact ⟨fun h => (habsent.deps e).1 (hmem _ h), fun h => (habsent.deps e).2 (hmem _ h)⟩

/-- **Atomic instructions are recorded only when there is nothing to record.** For every atomic
instruction of a well-formed trace: the pass records what makes it a read and a write of its range
if and only if nothing was written to the range before, and nothing reads an address of it before
it is written again. -/
theorem atomic_recorded_iff {trace pre post : List SmallestBlock}
    (htrace : ∀ b ∈ trace, b.WellFormed T) (hsplit : trace = pre ++ b :: post)
    (hb : b.Atomic T) :
    ∃ deps, extractMemoryDependency T G trace = some deps ∧
      (AtomicRecorded T G pre b post deps ↔
        writersOf T G pre b.target = ∅ ∧ readersOf T G (pre ++ [b]) post b.target = ∅) := by
  obtain ⟨deps, hdeps, -⟩ := extract_follows T G htrace
  have hmissed := atomic_missed htrace hdeps hsplit hb
  subst hsplit
  refine ⟨deps, hdeps, fun ⟨hwrites, hreads⟩ => ⟨?_, ?_⟩, fun ⟨hwrites, hreads⟩ => ⟨?_, ?_⟩⟩
  · exact Set.eq_empty_iff_forall_notMem.mpr fun e he => (hmissed e).1 (hwrites e he)
  · exact Set.eq_empty_iff_forall_notMem.mpr fun e he => (hmissed e).2 (hreads e he)
  · exact fun e he => absurd he (by rw [hwrites]; exact Set.notMem_empty e)
  · exact fun e he => absurd he (by rw [hreads]; exact Set.notMem_empty e)

end

/-! ## A compare-and-swap -/

/-- A store, a compare-and-swap and a load. -/
def casTables : Tables where
  ins := [{ type := .storeInst }, { type := .atomicInst }, { type := .loadInst }]
  bb2Ins := [[0, 1, 2]]

/-- The atomic instruction on four bytes. -/
def casBlock : SmallestBlock := { type := .memoryAccessBlock, start := 1, addr := [100, 104] }

/-- The store before it. -/
def casStore : SmallestBlock := { type := .memoryAccessBlock, addr := [100, 104] }

/-- The load behind it. -/
def casLoad : SmallestBlock := { type := .memoryAccessBlock, start := 2, addr := [100, 104] }

theorem casTrace_wellFormed : ∀ b ∈ [casStore, casBlock, casLoad], b.WellFormed casTables := by
  decide

theorem casBlock_atomic : casBlock.Atomic casTables := ⟨rfl, rfl, by decide⟩

theorem atomic_recorded_iff_cas :
    ∃ deps, extractMemoryDependency casTables oneGroup ([casStore] ++ casBlock :: [casLoad]) =
        some deps ∧
      (AtomicRecorded casTables oneGroup [casStore] casBlock [casLoad] deps ↔
        writersOf casTables oneGroup [casStore] casBlock.target = ∅ ∧
          readersOf casTables oneGroup ([casStore] ++ [casBlock]) [casLoad] casBlock.target = ∅) :=
  atomic_recorded_iff casTrace_wellFormed rfl casBlock_atomic

/-- The load behind a compare-and-swap does not depend on it. -/
theorem cas_not_recorded :
    ¬ ∀ (T : Tables) (G : Groups) (trace pre : List SmallestBlock) (b : SmallestBlock)
      (post : List SmallestBlock) (deps : Finset (DynamicInst × DynamicInst)),
      (∀ b ∈ trace, b.WellFormed T) → extractMemoryDependency T G trace = some deps →
      trace = pre ++ b :: post → b.Atomic T → AtomicRecorded T G pre b post deps := by
  intro h
  obtain ⟨deps, hdeps, -⟩ := extract_follows casTables oneGroup casTrace_wellFormed
  obtain ⟨-, hreads⟩ := h casTables oneGroup _ [casStore] casBlock [casLoad] deps
    casTrace_wellFormed hdeps rfl casBlock_atomic
  have hsplit : [casStore, casBlock, casLoad] = [casStore] ++ casBlock :: [casLoad] := rfl
  refine (atomic_missed casTrace_wellFormed hdeps hsplit casBlock_atomic _).2
    (hreads _ ⟨[], casLoad, [], rfl, rfl, [], ⟨casLoad.target, ∅⟩, [], ?_, 100, ?_, ?_, ?_⟩)
  · simp [SmallestBlock.accesses, casLoad, SmallestBlock.insType, SmallestBlock.insID,
      SmallestBlock.insID?, casTables, SmallestBlock.addrAt, InstType.accesses]
  · exact ⟨le_rfl, by decide⟩
  · exact ⟨le_rfl, by decide⟩
  · simp [Unwritten]

end Slimmer
