import Slimmer.MemoryDependency

/-!
# The executions of the reference

The reference of `ExtractMemoryDependency` numbers the executions of an instruction from 0 on.
The names it has given are *past* (`Past`): they are below the count of their instruction. Later
executions get other names, so

* an execution without an access leaves no trace in the dependencies (`Absent`);
* the dependencies of an execution are settled when its block has been processed
  (`deps_of_past`).
-/

namespace Slimmer

section

variable {perform : Set Nat → InstType → List Access} {T : Tables} {G : Groups}
  {w : LastWriters} {b : SmallestBlock}

/-! ## Counting -/

theorem foldl_access_count (d : DynamicInst) (as : List Access) (w : LastWriters) :
    (as.foldl (LastWriters.access d) w).count = w.count := by
  induction as generalizing w with
  | nil => rfl
  | cons a as ih => rw [List.foldl_cons, ih, access_count]

theorem le_bump_count (k : Nat × Nat) : w.count k ≤ (w.bump T b).count k := by
  show _ ≤ Function.update w.count _ _ k
  by_cases hk : k = (b.tid, b.insID T)
  · rw [hk, Function.update_self]
    exact Nat.le_succ _
  · rw [Function.update_of_ne hk]

/-- The executions are counted the same whatever an instruction does. -/
theorem step_count : (w.step perform T G b).count =
    if b.counted then (w.bump T b).count else w.count := by
  unfold LastWriters.step
  split_ifs
  · rw [foldl_access_count]
  · rfl

theorem lastWritersOf_count (perform perform' : Set Nat → InstType → List Access)
    (trace : List SmallestBlock) :
    (lastWritersOf perform T G trace).count = (lastWritersOf perform' T G trace).count := by
  have h : ∀ w w' : LastWriters, w.count = w'.count →
      (trace.foldl (LastWriters.step perform T G) w).count =
        (trace.foldl (LastWriters.step perform' T G) w').count := by
    induction trace with
    | nil => exact fun w w' h => h
    | cons b trace ih =>
      intro w w' h
      rw [List.foldl_cons, List.foldl_cons]
      apply ih
      rw [step_count, step_count]
      simp only [LastWriters.bump, h]
  exact h {} {} rfl

theorem renumber_injective (count : Nat × Nat → Nat) :
    Function.Injective (DynamicInst.renumber count) := by
  rintro ⟨t, i, n⟩ ⟨t', i', n'⟩ h
  simp only [DynamicInst.renumber, DynamicInst.mk.injEq] at h
  obtain ⟨rfl, rfl, hn⟩ := h
  rw [DynamicInst.mk.injEq]
  exact ⟨rfl, rfl, by omega⟩

theorem renumberPair_injective (count : Nat × Nat → Nat) :
    Function.Injective (renumberPair count) := fun _ _ h =>
  Prod.ext (renumber_injective count (congrArg Prod.fst h))
    (renumber_injective count (congrArg Prod.snd h))

/-! ## An execution that makes no access -/

/-- The execution `d` is past and has left no trace. -/
structure Absent (d : DynamicInst) (w : LastWriters) : Prop where
  past : d.cnt < w.count (d.tid, d.id)
  last : ∀ x, w.last x ≠ some d
  deps : ∀ e, (d, e) ∉ w.deps ∧ (e, d) ∉ w.deps

theorem Absent.access {d e : DynamicInst} (h : Absent d w) (hne : e ≠ d) (a : Access) :
    Absent d (w.access e a) := by
  refine ⟨h.past, fun x => ?_, fun f => ⟨?_, ?_⟩⟩
  · rw [access_last]
    split_ifs
    · exact fun he => hne (Option.some.inj he)
    · exact h.last x
  · rintro (hd | ⟨hd, -⟩)
    · exact (h.deps f).1 hd
    · exact hne hd.symm
  · rintro (hd | ⟨-, x, -, hx⟩)
    · exact (h.deps f).2 hd
    · exact h.last x hx

theorem Absent.foldl {d e : DynamicInst} (hne : e ≠ d) (as : List Access) {w : LastWriters}
    (h : Absent d w) : Absent d (as.foldl (LastWriters.access e) w) := by
  induction as generalizing w with
  | nil => exact h
  | cons a as ih => exact ih (h.access hne a)

theorem Absent.bump {d : DynamicInst} (h : Absent d w) : Absent d (w.bump T b) :=
  ⟨h.past.trans_le (Int.ofNat_le.mpr (le_bump_count _)), h.last, h.deps⟩

/-- Later executions have other names. -/
theorem Absent.step {d : DynamicInst} (h : Absent d w) : Absent d (w.step perform T G b) := by
  unfold LastWriters.step
  split_ifs
  · refine h.bump.foldl ?_ _
    rintro rfl
    exact absurd h.past (lt_irrefl _)
  · exact h

theorem Absent.run {d : DynamicInst} (post : List SmallestBlock) {w : LastWriters}
    (h : Absent d w) : Absent d (post.foldl (LastWriters.step perform T G) w) := by
  induction post generalizing w with
  | nil => exact h
  | cons b post ih => exact ih h.step

/-- `d` names an execution so far. -/
def LastWriters.Named (w : LastWriters) (d : DynamicInst) : Prop :=
  0 ≤ d.cnt ∧ d.cnt < w.count (d.tid, d.id)

/-- All names that occur are past. -/
structure Past (w : LastWriters) : Prop where
  last : ∀ x d, w.last x = some d → w.Named d
  deps : ∀ p ∈ w.deps, w.Named p.1 ∧ w.Named p.2

theorem Past.access {d : DynamicInst} (h : Past w) (hd : w.Named d) (a : Access) :
    Past (w.access d a) := by
  refine ⟨fun x e he => ?_, ?_⟩
  · rw [access_last] at he
    split_ifs at he
    · obtain rfl := Option.some.inj he
      exact hd
    · exact h.last x e he
  · rintro ⟨e, f⟩ (hp | ⟨rfl, x, -, hx⟩)
    · exact h.deps _ hp
    · exact ⟨hd, h.last x f hx⟩

theorem LastWriters.Named.bump {d : DynamicInst} (hd : w.Named d) : (w.bump T b).Named d :=
  ⟨hd.1, hd.2.trans_le (Int.ofNat_le.mpr (le_bump_count _))⟩

theorem Past.bump (h : Past w) : Past (w.bump T b) :=
  ⟨fun x d hd => (h.last x d hd).bump, fun p hp => ⟨(h.deps p hp).1.bump, (h.deps p hp).2.bump⟩⟩

/-- The execution that is just counted is past. -/
theorem name_named : (w.bump T b).Named (w.name T b) := by
  refine ⟨Int.natCast_nonneg _, ?_⟩
  show _ < ((Function.update w.count _ _ (b.tid, b.insID T) : Nat) : Int)
  rw [Function.update_self]
  exact Int.ofNat_lt.mpr (Nat.lt_succ_self _)

theorem Past.foldl {d : DynamicInst} (as : List Access) {w : LastWriters} (h : Past w)
    (hd : w.Named d) : Past (as.foldl (LastWriters.access d) w) := by
  induction as generalizing w with
  | nil => exact h
  | cons a as ih => exact ih (h.access hd a) hd

theorem Past.step (h : Past w) : Past (w.step perform T G b) := by
  unfold LastWriters.step
  split_ifs
  · exact h.bump.foldl _ name_named
  · exact h

theorem past_lastWritersOf (trace : List SmallestBlock) : Past (lastWritersOf perform T G trace) := by
  have h : ∀ w : LastWriters, Past w → Past (trace.foldl (LastWriters.step perform T G) w) := by
    induction trace with
    | nil => exact fun w h => h
    | cons b trace ih => exact fun w h => ih _ h.step
  exact h {} ⟨fun _ _ hd => (nomatch hd), fun _ hp => absurd hp (Set.notMem_empty _)⟩

/-! ## Settled dependencies -/

theorem foldl_access_deps {d e : DynamicInst} (hne : e ≠ d) (as : List Access) {w : LastWriters}
    {f : DynamicInst} (h : (d, f) ∈ (as.foldl (LastWriters.access e) w).deps) :
    (d, f) ∈ w.deps := by
  induction as generalizing w with
  | nil => exact h
  | cons a as ih =>
    obtain h | ⟨hd, -⟩ := ih h
    · exact h
    · exact absurd hd.symm hne

/-- The dependencies of a past execution do not change. -/
theorem deps_of_past {d f : DynamicInst} (post : List SmallestBlock) {w : LastWriters}
    (hd : d.cnt < w.count (d.tid, d.id))
    (h : (d, f) ∈ (post.foldl (LastWriters.step perform T G) w).deps) : (d, f) ∈ w.deps := by
  induction post generalizing w with
  | nil => exact h
  | cons b post ih =>
    have hstep : d.cnt < (w.step perform T G b).count (d.tid, d.id) := by
      rw [step_count]
      split_ifs
      · exact hd.trans_le (Int.ofNat_le.mpr (le_bump_count _))
      · exact hd
    have h := ih hstep h
    unfold LastWriters.step at h
    split_ifs at h
    · have hne : w.name T b ≠ d := by
        rintro rfl
        exact lt_irrefl _ hd
      exact foldl_access_deps hne (w := w.bump T b) _ h
    · exact h

/-! ## The number of executions -/

/-- How often the blocks `l` execute the instruction. -/
def foreCount (T : Tables) (l : List SmallestBlock) (key : Nat × Nat) : Nat :=
  l.countP fun b => b.counted && decide ((b.tid, b.insID T) = key)

theorem foreCount_cons (b : SmallestBlock) (l : List SmallestBlock) (key : Nat × Nat) :
    foreCount T (b :: l) key = foreCount T l key +
      if b.counted && decide ((b.tid, b.insID T) = key) then 1 else 0 := List.countP_cons ..

theorem foldl_step_count (l : List SmallestBlock) (w : LastWriters) (key : Nat × Nat) :
    (l.foldl (LastWriters.step perform T G) w).count key = w.count key + foreCount T l key := by
  induction l generalizing w with
  | nil => rfl
  | cons b l ih =>
    rw [List.foldl_cons, ih, step_count, foreCount_cons]
    by_cases hb : b.counted
    · rw [if_pos hb]
      by_cases hkey : (b.tid, b.insID T) = key
      · simp only [LastWriters.bump, hkey, Function.update_self, hb, Bool.true_and, decide_true,
          if_true]
        omega
      · simp [LastWriters.bump, Function.update_of_ne (Ne.symm hkey), hb, hkey]
    · simp [hb]

theorem lastWritersOf_count_eq (l : List SmallestBlock) (key : Nat × Nat) :
    (lastWritersOf perform T G l).count key = foreCount T l key := by
  rw [lastWritersOf, foldl_step_count]
  exact Nat.zero_add _

theorem foreCount_append (l l' : List SmallestBlock) (key : Nat × Nat) :
    foreCount T (l ++ l') key = foreCount T l key + foreCount T l' key := List.countP_append

end

end Slimmer
