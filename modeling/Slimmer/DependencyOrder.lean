import Slimmer.Naming
import Mathlib.Logic.Relation

/-!
# Memory dependencies and the order of the trace

An execution reads the last writers of what it accesses. These are executions of blocks before its
own, unless it has written itself in the meantime: an external call reads and writes the group of
each pointer argument in turn, and two arguments may have groups with a common address
(`GroupsApart` excludes it).

**Theorem (`dependencies_backward_iff`).** All dependencies lead to earlier blocks iff no external
call receives two such pointers, and then, and only then, is there no cycle among them. Otherwise
the call depends on itself.
-/

namespace Slimmer

/-- The block at place `i` is the execution `d`, as the reference numbers it. -/
def Runs (T : Tables) (l : List SmallestBlock) (i : Nat) (d : DynamicInst) : Prop :=
  ∃ b, l[i]? = some b ∧ b.counted ∧
    d = ⟨b.tid, b.insID T, foreCount T (l.take i) (b.tid, b.insID T)⟩

/-- No access reads what an access before it has written. -/
def ReadsApart (as : List Access) : Prop := as.Pairwise fun a a' => Disjoint a.writes a'.reads

/-- An external call does not receive two pointers whose groups have a common address. -/
def GroupsApart (G : Groups) (b : SmallestBlock) : Prop :=
  b.type = .externalCallBlock ∨ b.type = .impactfulCallBlock →
    b.addr.tail.Pairwise fun a a' => ∀ A A', G.groupOf a = some A → G.groupOf a' = some A' →
      Disjoint A A'

section

variable {perform : Set Nat → InstType → List Access} {T : Tables} {G : Groups}
  {l l' : List SmallestBlock} {b : SmallestBlock} {d e c : DynamicInst} {i j : Nat}
  {w : LastWriters} {as : List Access}

/-! ## Places -/

theorem Runs.lt (h : Runs T l i d) : i < l.length := by
  rcases h with ⟨b, hb, -, -⟩
  exact (List.getElem?_eq_some_iff.mp hb).1

theorem Runs.append (h : Runs T l i d) (l' : List SmallestBlock) : Runs T (l ++ l') i d := by
  have hlt := h.lt
  rcases h with ⟨b, hb, hc, rfl⟩
  refine ⟨b, by rw [List.getElem?_append_left hlt, hb], hc, ?_⟩
  rw [List.take_append_of_le_length hlt.le]

/-- The count of an instruction goes up behind each of its executions. -/
theorem foreCount_take_lt (hi : l[i]? = some b) (hb : b.counted) (hij : i < j) :
    foreCount T (l.take i) (b.tid, b.insID T) < foreCount T (l.take j) (b.tid, b.insID T) := by
  have hlt := (List.getElem?_eq_some_iff.mp hi).1
  have hsplit : l.take j = l.take i ++ b :: (l.take j).drop (i + 1) := by
    have htake : (l.take j).take i = l.take i := by
      rw [List.take_take, min_eq_left hij.le]
    have hdrop : (l.take j).drop i = b :: (l.take j).drop (i + 1) := by
      have hget : (l.take j)[i]? = some b := by rw [List.getElem?_take_of_lt hij, hi]
      rw [List.drop_eq_getElem?_toList_append, hget]
      rfl
    conv_lhs => rw [← List.take_append_drop i (l.take j), htake, hdrop]
  rw [hsplit, foreCount_append, foreCount_cons]
  simp [hb]

theorem Runs.unique (h : Runs T l i d) (h' : Runs T l j d) : i = j := by
  rcases h with ⟨b, hb, hc, rfl⟩
  rcases h' with ⟨b', hb', hc', heq⟩
  rw [DynamicInst.mk.injEq] at heq
  rcases heq with ⟨htid, hid, hcnt⟩
  rcases lt_trichotomy i j with hij | rfl | hij
  · have hlt := foreCount_take_lt (T := T) hb hc hij
    rw [← htid, ← hid] at hcnt
    omega
  · rfl
  · have hlt := foreCount_take_lt (T := T) hb' hc' hij
    rw [← htid, ← hid] at hlt hcnt
    omega

/-- The last block of a list. -/
theorem runs_last (hw : w.count = foreCount T l) (hb : b.counted) :
    Runs T (l ++ [b]) l.length (w.name T b) := by
  refine ⟨b, List.getElem?_concat_length, hb, ?_⟩
  rw [LastWriters.name, hw, List.take_left]

/-! ## The accesses of an execution -/

/-- What the execution reads was written before it, unless it has written it itself. -/
theorem deps_of_foldl (h : (c, e) ∈ (as.foldl (LastWriters.access d) w).deps) :
    (c, e) ∈ w.deps ∨ (c = d ∧ ((∃ a ∈ as, ∃ x ∈ a.reads, w.last x = some e) ∨
      (e = d ∧ ¬ ReadsApart as))) := by
  induction as generalizing w with
  | nil => exact Or.inl h
  | cons a as ih =>
    rcases ih h with hdeps | ⟨hc, hread | ⟨he, hown⟩⟩
    · rcases mem_access_deps.mp hdeps with hdeps | ⟨hc, x, hx, hlast⟩
      · exact Or.inl hdeps
      · exact Or.inr ⟨hc, Or.inl ⟨a, List.mem_cons_self, x, hx, hlast⟩⟩
    · rcases hread with ⟨a', ha', x, hx, hlast⟩
      rw [access_last] at hlast
      split_ifs at hlast with hwrite
      · refine Or.inr ⟨hc, Or.inr ⟨(Option.some.inj hlast).symm, fun happart => ?_⟩⟩
        have hdisj := (List.pairwise_cons.mp happart).1 a' ha'
        exact Set.disjoint_left.mp hdisj hwrite hx
      · exact Or.inr ⟨hc, Or.inl ⟨a', List.mem_cons_of_mem a ha', x, hx, hlast⟩⟩
    · exact Or.inr ⟨hc, Or.inr ⟨he, fun happart => hown (List.pairwise_cons.mp happart).2⟩⟩

theorem deps_subset_foldl : w.deps ⊆ (as.foldl (LastWriters.access d) w).deps := by
  induction as generalizing w with
  | nil => exact fun p hp => hp
  | cons a as ih => exact fun p hp => ih (mem_access_deps.mpr (Or.inl hp))

/-- The execution reads what it has written. -/
theorem self_dep_of_last {a : Access} {x : Nat} (ha : a ∈ as) (hx : x ∈ a.reads)
    (hlast : w.last x = some d) : (d, d) ∈ (as.foldl (LastWriters.access d) w).deps := by
  induction as generalizing w with
  | nil => cases ha
  | cons a' as ih =>
    rw [List.foldl_cons]
    rcases List.mem_cons.mp ha with rfl | ha
    · have hread : (d, d) ∈ (w.access d a).deps := mem_access_deps.mpr (Or.inr ⟨rfl, x, hx, hlast⟩)
      exact deps_subset_foldl hread
    · apply ih ha
      rw [access_last]
      split_ifs
      · rfl
      · exact hlast

/-- **An execution that reads what it has written** depends on itself. -/
theorem self_dep_of_not_apart (h : ¬ ReadsApart as) :
    (d, d) ∈ (as.foldl (LastWriters.access d) w).deps := by
  induction as generalizing w with
  | nil => exact absurd .nil h
  | cons a as ih =>
    rw [List.foldl_cons]
    by_cases happart : ReadsApart as
    · have hex : ∃ a' ∈ as, ¬ Disjoint a.writes a'.reads := by
        by_contra hnone
        exact h (List.pairwise_cons.mpr ⟨fun a' ha' => not_not.mp fun hd => hnone ⟨a', ha', hd⟩,
          happart⟩)
      rcases hex with ⟨a', ha', hdisj⟩
      rcases Set.not_disjoint_iff.mp hdisj with ⟨x, hwrite, hread⟩
      have hlast : (w.access d a).last x = some d := by rw [access_last, if_pos hwrite]
      exact self_dep_of_last ha' hread hlast
    · exact ih happart

/-! ## A trace -/

/-- Where the names in the reference occur in the blocks `l`. -/
structure Placed (perform : Set Nat → InstType → List Access) (T : Tables) (G : Groups)
    (l : List SmallestBlock) (w : LastWriters) : Prop where
  last : ∀ x d, w.last x = some d → ∃ i, Runs T l i d
  deps : ∀ d e, (d, e) ∈ w.deps → ∃ i j, Runs T l i e ∧ Runs T l j d ∧
    (i < j ∨ (i = j ∧ ∃ b, l[j]? = some b ∧ ¬ ReadsApart (b.accesses perform T G)))
  self : ∀ j b, l[j]? = some b → b.counted → ¬ ReadsApart (b.accesses perform T G) →
    ∃ d, Runs T l j d ∧ (d, d) ∈ w.deps

theorem Placed.skip (h : Placed perform T G l w) (hb : ¬ b.counted) :
    Placed perform T G (l ++ [b]) w := by
  refine ⟨fun x d hd => ?_, fun d e he => ?_, fun j c hj hc hown => ?_⟩
  · rcases h.last x d hd with ⟨i, hi⟩
    exact ⟨i, hi.append [b]⟩
  · rcases h.deps d e he with ⟨i, j, hi, hj, hlt | ⟨hij, c, hc, hown⟩⟩
    · exact ⟨i, j, hi.append [b], hj.append [b], Or.inl hlt⟩
    · refine ⟨i, j, hi.append [b], hj.append [b], Or.inr ⟨hij, c, ?_, hown⟩⟩
      rw [List.getElem?_append_left hj.lt, hc]
  · by_cases hlt : j < l.length
    · rw [List.getElem?_append_left hlt] at hj
      rcases h.self j c hj hc hown with ⟨d, hd, hdeps⟩
      exact ⟨d, hd.append [b], hdeps⟩
    · rw [List.getElem?_append_right (not_lt.mp hlt), List.getElem?_singleton] at hj
      split_ifs at hj
      cases hj
      exact absurd hc hb

theorem Placed.step (h : Placed perform T G l w) (hw : w.count = foreCount T l) :
    Placed perform T G (l ++ [b]) (w.step perform T G b) := by
  unfold LastWriters.step
  split_ifs with hb
  · have hname := runs_last hw hb
    refine ⟨fun x d hd => ?_, fun d e he => ?_, fun j c hj hc hown => ?_⟩
    · -- an address is written by the new execution, or as before
      have hlast : ∀ (as : List Access) (u : LastWriters),
          (∀ x d, u.last x = some d → ∃ i, Runs T (l ++ [b]) i d) →
          ∀ x d, (as.foldl (LastWriters.access (w.name T b)) u).last x = some d →
            ∃ i, Runs T (l ++ [b]) i d := by
        intro as
        induction as with
        | nil => exact fun u hu => hu
        | cons a as ih =>
          refine fun u hu => ih _ fun x d hd => ?_
          rw [access_last] at hd
          split_ifs at hd
          · cases hd
            exact ⟨_, hname⟩
          · exact hu x d hd
      refine hlast _ (w.bump T b) (fun x d hd => ?_) x d hd
      rcases h.last x d hd with ⟨i, hi⟩
      exact ⟨i, hi.append [b]⟩
    · rcases deps_of_foldl he with hdeps | ⟨rfl, ⟨a, -, x, -, hlast⟩ | ⟨rfl, hown⟩⟩
      · rcases h.deps d e hdeps with ⟨i, j, hi, hj, hlt | ⟨hij, c, hc, hown⟩⟩
        · exact ⟨i, j, hi.append [b], hj.append [b], Or.inl hlt⟩
        · refine ⟨i, j, hi.append [b], hj.append [b], Or.inr ⟨hij, c, ?_, hown⟩⟩
          rw [List.getElem?_append_left hj.lt, hc]
      · rcases h.last x e hlast with ⟨i, hi⟩
        exact ⟨i, l.length, hi.append [b], hname, Or.inl hi.lt⟩
      · exact ⟨_, _, hname, hname, Or.inr ⟨rfl, b, List.getElem?_concat_length, hown⟩⟩
    · by_cases hlt : j < l.length
      · rw [List.getElem?_append_left hlt] at hj
        rcases h.self j c hj hc hown with ⟨d, hd, hdeps⟩
        exact ⟨d, hd.append [b], deps_subset_foldl hdeps⟩
      · rw [List.getElem?_append_right (not_lt.mp hlt), List.getElem?_singleton] at hj
        split_ifs at hj with hzero
        cases hj
        have hj : j = l.length := by omega
        rw [hj]
        exact ⟨_, hname, self_dep_of_not_apart hown⟩
  · exact h.skip hb

theorem placed (perform : Set Nat → InstType → List Access) (T : Tables) (G : Groups)
    (l : List SmallestBlock) : Placed perform T G l (lastWritersOf perform T G l) := by
  induction l using List.reverseRecOn with
  | nil =>
    exact ⟨fun x d hd => (nomatch hd), fun d e he => absurd he (Set.notMem_empty _),
      fun j b hj => (nomatch hj)⟩
  | append_singleton l b ih =>
    rw [lastWritersOf, List.foldl_append]
    exact ih.step (funext fun key => lastWritersOf_count_eq l key)

/-! ## The pass -/

theorem readsApart_iff :
    ReadsApart (b.accesses InstType.accessesSeen T G) ↔ GroupsApart G b := by
  have hone : ∀ a : Access, ReadsApart [a] := fun a => List.pairwise_singleton _ a
  have hcall : ReadsApart (b.addr.tail.filterMap fun a => (G.groupOf a).map fun A => ⟨A, A⟩) ↔
      b.addr.tail.Pairwise fun a a' => ∀ A A', G.groupOf a = some A → G.groupOf a' = some A' →
        Disjoint A A' := by
    rw [ReadsApart, List.pairwise_filterMap]
    refine List.Pairwise.iff fun a a' => ⟨fun h A A' hA hA' => ?_, fun h c hc c' hc' => ?_⟩
    · exact h ⟨A, A⟩ (by rw [hA]; rfl) ⟨A', A'⟩ (by rw [hA']; rfl)
    · rcases Option.map_eq_some_iff.mp hc with ⟨A, hA, rfl⟩
      rcases Option.map_eq_some_iff.mp hc' with ⟨A', hA', rfl⟩
      exact h A A' hA hA'
  -- no other block makes two accesses
  have hother : b.type ≠ .externalCallBlock → b.type ≠ .impactfulCallBlock →
      ReadsApart (b.accesses InstType.accessesSeen T G) → (ReadsApart
        (b.accesses InstType.accessesSeen T G) ↔ GroupsApart G b) :=
    fun h h' hreads => iff_of_true hreads fun hc => absurd hc (not_or.mpr ⟨h, h'⟩)
  unfold SmallestBlock.accesses at hother ⊢
  cases htype : b.type with
  | externalCallBlock =>
    exact hcall.trans ⟨fun h _ => h, fun h => h (Or.inl htype)⟩
  | impactfulCallBlock =>
    exact hcall.trans ⟨fun h _ => h, fun h => h (Or.inr htype)⟩
  | memoryAccessBlock =>
    simp only [htype] at hother ⊢
    apply hother (by decide) (by decide)
    split_ifs
    · cases b.insType T with
      | none => exact .nil
      | some t =>
        cases t with
        | loadInst => exact hone _
        | storeInst => exact hone _
        | _ => exact .nil
    · exact .nil
  | memsetBlock =>
    simp only [htype] at hother ⊢
    apply hother (by decide) (by decide)
    split_ifs
    · exact hone _
    · exact .nil
  | memmoveBlock =>
    simp only [htype] at hother ⊢
    apply hother (by decide) (by decide)
    split_ifs
    · exact hone _
    · exact .nil
  | normalBlock =>
    simp only [htype] at hother ⊢
    exact hother (by decide) (by decide) .nil
  | declareBlock =>
    simp only [htype] at hother ⊢
    exact hother (by decide) (by decide) .nil

/-- The block at place `i` is the execution that the pass calls `d`. -/
def ExecutedAt (T : Tables) (G : Groups) (trace : List SmallestBlock) (i : Nat)
    (d : DynamicInst) : Prop :=
  ∃ b, (trace)[i]? = some b ∧ b.counted ∧
    forwardName T G (trace.take i) b (trace.drop (i + 1)) = some d

variable {trace : List SmallestBlock}

theorem executedAt_iff (htrace : ∀ b ∈ trace, b.WellFormed T) : ExecutedAt T G trace i d ↔
    ∃ c, Runs T trace i c ∧ d = c.renumber (foreCount T trace) := by
  have hname : ∀ b, (trace)[i]? = some b →
      forwardName T G (trace.take i) b (trace.drop (i + 1)) = some (DynamicInst.renumber
        (foreCount T trace) ⟨b.tid, b.insID T, foreCount T (trace.take i) (b.tid, b.insID T)⟩) := by
    intro b hb
    refine forwardName_eq htrace ?_
    rw [← List.singleton_append, ← Option.toList_some, ← hb, ← List.drop_eq_getElem?_toList_append,
      List.take_append_drop]
  constructor
  · intro h
    rcases h with ⟨b, hb, hc, hd⟩
    rw [hname b hb, Option.some.injEq] at hd
    exact ⟨_, ⟨b, hb, hc, rfl⟩, hd.symm⟩
  · intro h
    rcases h with ⟨c, ⟨b, hb, hc, rfl⟩, rfl⟩
    exact ⟨b, hb, hc, hname b hb⟩

theorem ExecutedAt.unique (htrace : ∀ b ∈ trace, b.WellFormed T) (h : ExecutedAt T G trace i d)
    (h' : ExecutedAt T G trace j d) : i = j := by
  rcases (executedAt_iff htrace).mp h with ⟨c, hc, rfl⟩
  rcases (executedAt_iff htrace).mp h' with ⟨c', hc', heq⟩
  rw [← renumber_injective _ heq] at hc'
  exact hc.unique hc'

/-- Every dependency is the execution of an earlier block. -/
def PointsBackward (T : Tables) (G : Groups) (trace : List SmallestBlock)
    (deps : Finset (DynamicInst × DynamicInst)) : Prop :=
  ∀ d e, e ∈ dependenciesOf deps d →
    ∃ i j, ExecutedAt T G trace i e ∧ ExecutedAt T G trace j d ∧ i < j

/-- No execution depends on itself, be it through others. -/
def NoCycle (deps : Finset (DynamicInst × DynamicInst)) : Prop :=
  ∀ d, ¬ Relation.TransGen (fun d e => e ∈ dependenciesOf deps d) d d

/-- The place of an execution is the rank. -/
theorem PointsBackward.noCycle {deps : Finset (DynamicInst × DynamicInst)}
    (htrace : ∀ b ∈ trace, b.WellFormed T) (h : PointsBackward T G trace deps) : NoCycle deps := by
  have hpath : ∀ d e, Relation.TransGen (fun d e => e ∈ dependenciesOf deps d) d e →
      ∃ i j, ExecutedAt T G trace i e ∧ ExecutedAt T G trace j d ∧ i < j := by
    intro d e hde
    induction hde with
    | single hstep => exact h _ _ hstep
    | tail _ hstep ih =>
      rcases ih with ⟨i, j, hi, hj, hij⟩
      rcases h _ _ hstep with ⟨k, i', hk, hi', hki⟩
      rw [hi'.unique htrace hi] at hki
      exact ⟨k, j, hk, hj, hki.trans hij⟩
  intro d hd
  rcases hpath d d hd with ⟨i, j, hi, hj, hij⟩
  exact absurd (hi.unique htrace hj) hij.ne

theorem pointsBackward_of_apart {deps : Finset (DynamicInst × DynamicInst)}
    (htrace : ∀ b ∈ trace, b.WellFormed T)
    (hextract : extractMemoryDependency T G trace = some deps)
    (happart : ∀ b ∈ trace, GroupsApart G b) : PointsBackward T G trace deps := by
  intro d e he
  rcases exists_of_dependency htrace hextract he with ⟨⟨c, f⟩, hp, rfl, rfl⟩
  rcases (placed _ T G trace).deps c f hp with ⟨i, j, hi, hj, hij | ⟨rfl, b, hb, hown⟩⟩
  · exact ⟨i, j, (executedAt_iff htrace).mpr ⟨f, hi, rfl⟩,
      (executedAt_iff htrace).mpr ⟨c, hj, rfl⟩, hij⟩
  · exact absurd (readsApart_iff.mpr (happart b (List.mem_of_getElem? hb))) hown

/-- An external call that receives two pointers into one group depends on itself. -/
theorem self_dependency {deps : Finset (DynamicInst × DynamicInst)}
    (htrace : ∀ b ∈ trace, b.WellFormed T)
    (hextract : extractMemoryDependency T G trace = some deps) (hb : b ∈ trace)
    (hown : ¬ GroupsApart G b) : ∃ d, d ∈ dependenciesOf deps d := by
  have hc : b.counted := by
    by_contra hc
    refine hown fun htype => absurd ?_ hc
    rcases htype with htype | htype
    · simp [SmallestBlock.counted, htype]
    · simp [SmallestBlock.counted, htype]
  rcases List.mem_iff_getElem?.mp hb with ⟨j, hj⟩
  rcases (placed InstType.accessesSeen T G trace).self j b hj hc
    fun h => hown (readsApart_iff.mp h) with ⟨d, -, hd⟩
  rcases extract_follows T G htrace with ⟨deps', hdeps', heq⟩
  cases hextract.symm.trans hdeps'
  refine ⟨d.renumber (lastWritersOf InstType.accessesSeen T G trace).count, ?_⟩
  rw [mem_dependenciesOf, ← Finset.mem_coe, heq]
  exact ⟨(d, d), hd, rfl⟩

/-- **Memory dependencies point backward** iff no external call receives two pointers whose groups
have a common address; and then, and only then, no execution depends on itself, be it through
others. -/
theorem dependencies_backward_iff {deps : Finset (DynamicInst × DynamicInst)}
    (htrace : ∀ b ∈ trace, b.WellFormed T)
    (hextract : extractMemoryDependency T G trace = some deps) :
    (PointsBackward T G trace deps ↔ ∀ b ∈ trace, GroupsApart G b) ∧
      (NoCycle deps ↔ ∀ b ∈ trace, GroupsApart G b) := by
  have hself : NoCycle deps → ∀ b ∈ trace, GroupsApart G b := by
    intro hno b hb
    by_contra hown
    rcases self_dependency htrace hextract hb hown with ⟨d, hd⟩
    exact hno d (.single hd)
  have hback : (∀ b ∈ trace, GroupsApart G b) → PointsBackward T G trace deps :=
    pointsBackward_of_apart htrace hextract
  exact ⟨⟨fun h => hself (h.noCycle htrace), hback⟩, ⟨hself, fun h => (hback h).noCycle htrace⟩⟩

end

/-! ## A call of `strcpy` -/

def strcpyTables : Tables where
  ins := [{ type := .externalCallInst, fn := "strcpy" }]
  bb2Ins := [[0]]

/-- A call with some pointers. -/
def strcpyCall (pointers : List Nat) : SmallestBlock :=
  { type := .externalCallBlock, stop := 1, addr := 0 :: pointers }

/-- Called twice with one pointer into the group, the second call depends on the first. -/
theorem dependencies_backward_strcpy : ∃ deps : Finset (DynamicInst × DynamicInst),
    extractMemoryDependency strcpyTables oneGroup [strcpyCall [100], strcpyCall [200]] = some deps ∧
      ⟨0, 0, -1⟩ ∈ dependenciesOf deps ⟨0, 0, 0⟩ ∧
      PointsBackward strcpyTables oneGroup [strcpyCall [100], strcpyCall [200]] deps ∧
      NoCycle deps := by
  have hdeps : extractMemoryDependency strcpyTables oneGroup [strcpyCall [100], strcpyCall [200]] =
      some {(⟨0, 0, 0⟩, ⟨0, 0, -1⟩)} := by
    decide +kernel
  have happart : ∀ b ∈ [strcpyCall [100], strcpyCall [200]], GroupsApart oneGroup b := by
    intro b hb _
    rw [List.mem_cons, List.mem_singleton] at hb
    rcases hb with rfl | rfl
    · exact List.pairwise_singleton _ _
    · exact List.pairwise_singleton _ _
  rcases dependencies_backward_iff (by decide) hdeps with ⟨hback, hcycle⟩
  exact ⟨_, hdeps, by decide, hback.mpr happart, hcycle.mpr happart⟩

/-- Called with two pointers into one group, it depends on itself. -/
theorem strcpy_depends_on_itself : ¬ ∀ (T : Tables) (G : Groups) (trace : List SmallestBlock)
    (deps : Finset (DynamicInst × DynamicInst)), (∀ b ∈ trace, b.WellFormed T) →
      extractMemoryDependency T G trace = some deps → PointsBackward T G trace deps := by
  intro h
  have htrace : ∀ b ∈ [strcpyCall [100, 200]], b.WellFormed strcpyTables := by decide
  have hback := h strcpyTables oneGroup [strcpyCall [100, 200]] {(⟨0, 0, 0⟩, ⟨0, 0, 0⟩)} htrace
    (by decide +kernel)
  exact hback.noCycle htrace ⟨0, 0, 0⟩ (.single (by decide))

end Slimmer
