import Slimmer.Naming

/-!
# The reported set and the memory dependencies

In the main loop `mem_depended` holds the executions that are depended on and still to be met, so a
needed execution never has a dependency in `unneeded_di`. `OneBlock` finds executions late. It looks
for their dependencies among the executions of the same basic block that it comes to afterwards, but
a dependency in a callee or in another thread has been sorted before and is not looked at again.

**Theorem (`found_memory_closed`).** In a run in which the dependencies of what `OneBlock` finds are
all looked at again or are not in `unneeded_di` (`WritersRevisited`), no dependency of an execution
passed to `OneInstruction` is in `unneeded_di`.

The invariant is `SetsClosed`. Within a scan, a dependency may be in `unneeded_di` as long as it is
in `mem_depended` and lies ahead (`ScanClosed`).
-/

namespace Slimmer

section

variable {I : PassInput} {s s' : PassState} {t t' : PassSets} {b : SmallestBlock}
  {d e : DynamicInst} {ids : List Nat} {k : Nat}

/-! ## The condition -/

/-- The execution of the instruction `id` that `OneBlock` looks at when it is called in the state
`t` for the terminator `d`. -/
def rescanned (b : SmallestBlock) (t : PassSets) (d : DynamicInst) (id : Nat) : DynamicInst :=
  scanName b (cntDiff t d b) t id

/-- What `OneBlock` finds: the terminator `d`, at place 0, and of the instructions `ids` it goes
through those that are depended on, or that something found before depends on. -/
inductive Wanted (I : PassInput) (b : SmallestBlock) (t : PassSets) (d : DynamicInst)
    (ids : List Nat) : Nat → DynamicInst → Prop
  | terminator : Wanted I b t d ids 0 d
  | depended {k id : Nat} (hid : ids[k]? = some id) (hmem : rescanned b t d id ∈ t.memDepended) :
      Wanted I b t d ids (k + 1) (rescanned b t d id)
  | memory {k j id : Nat} {e : DynamicInst} (hid : ids[k]? = some id) (hj : j ≤ k)
      (he : Wanted I b t d ids j e) (hmem : rescanned b t d id ∈ I.memDependencies e) :
      Wanted I b t d ids (k + 1) (rescanned b t d id)
  | operand {k j id : Nat} {e : DynamicInst} {i : InstInfo} (hid : ids[k]? = some id) (hj : j ≤ k)
      (he : Wanted I b t d ids j e) (hi : I.tables.ins[e.id]? = some i)
      (hop : id ∈ i.ssaInsts ++ (i.phiInst b.lastBBID).toList) :
      Wanted I b t d ids (k + 1) (rescanned b t d id)

/-- `OneBlock` looks at `w` at a place after `k`. -/
def Ahead (b : SmallestBlock) (t : PassSets) (d : DynamicInst) (ids : List Nat) (k : Nat)
    (w : DynamicInst) : Prop :=
  ∃ j id, k ≤ j ∧ ids[j]? = some id ∧ w = rescanned b t d id

/-- When `OneBlock` is called during the turn for `b`, every unneeded dependency of what it finds is
an execution it comes to afterwards. -/
def WritersRevisited (I : PassInput) (s : PassState) (b : SmallestBlock) : Prop :=
  ∀ t d nextBBID bb, OneBlockCall I s b t d nextBBID → I.tables.bb2Ins[nextBBID]? = some bb →
    ∀ k e, Wanted I b t d bb.reverse k e → ∀ w ∈ I.memDependencies e, w ∈ t.unneededDI →
      Ahead b t d bb.reverse k w

/-- What `OneBlock` comes to is wanted at its own place only. -/
theorem Wanted.place {t : PassSets} (h : Wanted I b t d ids k e) :
    (d :: ids.map (rescanned b t d))[k]? = some e := by
  cases h with
  | terminator => rfl
  | depended hid | memory hid | operand hid =>
    rw [List.getElem?_cons_succ, List.getElem?_map, hid]
    rfl

/-- Whether the condition is met whatever `OneBlock` finds. -/
def checkWriters (I : PassInput) (s : PassState) (b : SmallestBlock) : Bool :=
  (oneBlockCalls I s b).all fun c => (I.tables.bb2Ins[c.2.2]?).all fun bb =>
    (c.2.1 :: bb.reverse.map (rescanned b c.1 c.2.1)).zipIdx.all fun p =>
      decide (∀ w ∈ I.memDependencies p.1, w ∈ c.1.unneededDI →
        w ∈ (bb.reverse.map (rescanned b c.1 c.2.1)).drop p.2)

theorem writersRevisited_of_check (h : checkWriters I s b = true) : WritersRevisited I s b := by
  intro t d nextBBID bb hcall hbb k e he w hw hun
  have hc := List.all_eq_true.mp h _ (mem_oneBlockCalls hcall)
  simp only [hbb, Option.all_some] at hc
  have hp := List.all_eq_true.mp hc (e, k) (List.mem_zipIdx_iff_getElem?.mpr he.place)
  obtain ⟨j, hj⟩ := List.mem_iff_getElem?.mp (of_decide_eq_true hp w hw hun)
  rw [List.getElem?_drop, List.getElem?_map] at hj
  obtain ⟨id, hid, rfl⟩ := Option.map_eq_some_iff.mp hj
  exact ⟨k + j, id, Nat.le_add_right k j, hid, rfl⟩

/-! ## The invariant -/

/-- A dependency of what was found is not unneeded, and depended on unless it has been met. -/
structure SetsClosed (I : PassInput) (t : PassSets) : Prop where
  visited : ∀ d ∈ t.unneededDI, t.Visited d
  found : ∀ f ∈ t.found, ∀ w ∈ I.memDependencies f.inst,
    w ∉ t.unneededDI ∧ (¬ t.Visited w → w ∈ t.memDepended)

/-- The terminators to be checked have been met. -/
def PassState.TerminatorsVisited (s : PassState) : Prop :=
  ∀ tid, ∀ e ∈ s.terminatorStack tid, e.2.2 = false →
    e.2.1.tid = tid ∧ s.toPassSets.Visited e.2.1

/-! ## A scan -/

/-- What a scan has found before place `k + 1` is wanted. -/
structure ScanWanted (I : PassInput) (b : SmallestBlock) (t : PassSets) (d : DynamicInst)
    (ids : List Nat) (k : Nat) (sc : Finset (Nat × Nat) × PassSets) : Prop where
  instCount : sc.2.instCount = t.instCount
  operands : ∀ id, (b.tid, id) ∈ sc.1 → ∃ j ≤ k, ∃ e i, Wanted I b t d ids j e ∧
    I.tables.ins[e.id]? = some i ∧ id ∈ i.ssaInsts ++ (i.phiInst b.lastBBID).toList
  depended : ∀ w ∈ sc.2.memDepended, w ∈ t.memDepended ∨
    ∃ j ≤ k, ∃ e, Wanted I b t d ids j e ∧ w ∈ I.memDependencies e
  found : ∃ new, sc.2.found = new ++ t.found ∧ ∀ f ∈ new, ∃ j, Wanted I b t d ids j f.inst

theorem ScanWanted.init : ScanWanted I b t d ids 0 (∅, t) :=
  ⟨rfl, fun _ h => absurd h (Finset.notMem_empty _), fun _ h => Or.inl h, [], rfl, by simp⟩

/-- A scan finds `e`. -/
theorem ScanWanted.find {pos k' : Nat} {sc sc' : Finset (Nat × Nat) × PassSets}
    (h : ScanWanted I b t d ids k sc) (hk : k ≤ k') (hwanted : Wanted I b t d ids k' e)
    (hstep : scanFound I b pos e sc = some sc') : ScanWanted I b t d ids k' sc' := by
  rcases scanFound_cases hstep with ⟨hone, -, hfound, hcount, -⟩
  rcases mem_oneInstruction hone with ⟨hmem, -, i, hi, -, hkeys⟩
  refine ⟨hcount.trans h.instCount, ?_, ?_, ?_⟩
  · intro id hid
    rcases hkeys _ hid with ⟨-, hid⟩ | ⟨id', hop, hkey⟩
    · rcases h.operands id hid with ⟨j, hj, hrest⟩
      exact ⟨j, hj.trans hk, hrest⟩
    · rw [show id = id' from congrArg Prod.snd hkey]
      exact ⟨k', le_rfl, e, i, hwanted, hi, hop⟩
  · intro w hw
    rcases (hmem w).mp hw with ⟨-, hw⟩ | hw
    · rcases h.depended w hw with hw | ⟨j, hj, hrest⟩
      · exact Or.inl hw
      · exact Or.inr ⟨j, hj.trans hk, hrest⟩
    · exact Or.inr ⟨k', le_rfl, e, hwanted, hw⟩
  · rcases h.found with ⟨new, hnew, hall⟩
    refine ⟨_ :: new, by rw [hfound, hnew]; rfl, fun f hf => ?_⟩
    rcases List.mem_cons.mp hf with rfl | hf
    · exact ⟨k', hwanted⟩
    · exact hall f hf

theorem ScanWanted.name {id : Nat} {sc : Finset (Nat × Nat) × PassSets}
    (h : ScanWanted I b t d ids k sc) :
    scanName b (cntDiff t d b) sc.2 id = rescanned b t d id := by
  unfold rescanned scanName
  rw [h.instCount]

/-- What is found at the next place is wanted. -/
theorem ScanWanted.wanted {id : Nat} {sc : Finset (Nat × Nat) × PassSets}
    (h : ScanWanted I b t d ids k sc) (hid : ids[k]? = some id)
    (hfind : (b.tid, id) ∈ sc.1 ∨ rescanned b t d id ∈ sc.2.memDepended) :
    Wanted I b t d ids (k + 1) (rescanned b t d id) := by
  rcases hfind with hkey | hmem
  · rcases h.operands id hkey with ⟨j, hj, e, i, he, hi, hop⟩
    exact .operand hid hj he hi hop
  · rcases h.depended _ hmem with hmem | ⟨j, hj, e, he, hmem⟩
    · exact .depended hid hmem
    · exact .memory hid hj he hmem

/-- The next place. -/
theorem ScanWanted.succ {sc : Finset (Nat × Nat) × PassSets} (h : ScanWanted I b t d ids k sc) :
    ScanWanted I b t d ids (k + 1) sc := by
  refine ⟨h.instCount, fun id hid => ?_, fun w hw => ?_, h.found⟩
  · rcases h.operands id hid with ⟨j, hj, hrest⟩
    exact ⟨j, hj.trans (Nat.le_succ k), hrest⟩
  · rcases h.depended w hw with hw | ⟨j, hj, hrest⟩
    · exact Or.inl hw
    · exact Or.inr ⟨j, hj.trans (Nat.le_succ k), hrest⟩

theorem ScanWanted.next {pos id : Nat} {sc sc' : Finset (Nat × Nat) × PassSets}
    (h : ScanWanted I b t d ids k sc) (hid : ids[k]? = some id)
    (hstep : scanInst I b pos (cntDiff t d b) sc id = some sc') :
    ScanWanted I b t d ids (k + 1) sc' := by
  rcases scanInst_cases hstep with ⟨-, -, rfl⟩ | ⟨hfind, hstep⟩
  · exact h.succ
  · rw [h.name] at hfind hstep
    exact h.find (Nat.le_succ k) (h.wanted hid hfind) hstep

/-- The first instruction of the rest of a list. -/
theorem getElem?_of_drop {k id : Nat} {ids rest : List Nat} (h : ids.drop k = id :: rest) :
    ids[k]? = some id ∧ ids.drop (k + 1) = rest := by
  constructor
  · have := congrArg List.head? h
    simpa [List.head?_drop] using this
  · rw [← List.tail_drop, h, List.tail_cons]

theorem ScanWanted.rest {pos : Nat} {rest : List Nat} {sc sc' : Finset (Nat × Nat) × PassSets}
    (h : ScanWanted I b t d ids k sc) (hrest : ids.drop k = rest)
    (hrun : run (scanInst I b pos (cntDiff t d b)) sc rest = some sc') :
    ∃ k', ScanWanted I b t d ids k' sc' := by
  induction rest generalizing k sc with
  | nil =>
    cases hrun
    exact ⟨k, h⟩
  | cons id rest ih =>
    rcases run_cons_eq_some.mp hrun with ⟨sc₁, hstep, hrun⟩
    rcases getElem?_of_drop hrest with ⟨hid, hrest'⟩
    exact ih (h.next hid hstep) hrest' hrun

/-- **What `OneBlock` finds** is wanted. -/
theorem oneBlock_wanted {pos nextBBID : Nat} (hstep : oneBlock I pos t d b nextBBID = some t') :
    ∃ bb new, I.tables.bb2Ins[nextBBID]? = some bb ∧ t'.found = new ++ t.found ∧
      ∀ f ∈ new, ∃ k, Wanted I b t d bb.reverse k f.inst := by
  rcases oneBlock_cases hstep with ⟨bb, sc, sc', hbb, hfound, hrun, rfl⟩
  have hfirst : ScanWanted I b t d bb.reverse 0 sc := ScanWanted.init.find le_rfl .terminator hfound
  rcases hfirst.rest rfl hrun with ⟨k, h⟩
  rcases h.found with ⟨new, hnew, hall⟩
  exact ⟨bb, new, hbb, hnew, hall⟩

/-- `SetsClosed` within a scan, before place `k + 1`. -/
structure ScanClosed (I : PassInput) (b : SmallestBlock) (t : PassSets) (d : DynamicInst)
    (ids : List Nat) (k : Nat) (sc : Finset (Nat × Nat) × PassSets) : Prop
    extends ScanWanted I b t d ids k sc where
  unneeded : sc.2.unneededDI ⊆ t.unneededDI
  kept : ∀ w ∈ t.memDepended, ¬ t.Visited w → w ∈ sc.2.memDepended
  closed : ∃ new, sc.2.found = new ++ t.found ∧ ∀ f ∈ new, ∀ w ∈ I.memDependencies f.inst,
    (w ∈ sc.2.unneededDI → w ∈ sc.2.memDepended ∧ Ahead b t d ids k w) ∧
      (¬ t.Visited w → w ∈ sc.2.memDepended)

theorem ScanClosed.init : ScanClosed I b t d ids 0 (∅, t) :=
  ⟨.init, Finset.Subset.refl _, fun _ h _ => h, [], rfl, by simp⟩

/-- A scan finds `e`. -/
theorem ScanClosed.find {pos k' : Nat} {sc sc' : Finset (Nat × Nat) × PassSets}
    (h : ScanClosed I b t d ids k sc) (hk : k ≤ k') (hwanted : Wanted I b t d ids k' e)
    (hvisited : t.Visited e) (hahead : ∀ w, w ≠ e → Ahead b t d ids k w → Ahead b t d ids k' w)
    (hwriters : ∀ w ∈ I.memDependencies e, w ∈ t.unneededDI → Ahead b t d ids k' w)
    (hstep : scanFound I b pos e sc = some sc') : ScanClosed I b t d ids k' sc' := by
  obtain ⟨hone, hun, hfound, -, -⟩ := scanFound_cases hstep
  obtain ⟨hmem, -⟩ := mem_oneInstruction hone
  have hkeep : ∀ w, ¬ t.Visited w → w ∈ sc.2.memDepended → w ∈ sc'.2.memDepended := by
    intro w hw hw'
    refine (hmem w).mpr (Or.inl ⟨?_, hw'⟩)
    rintro rfl
    exact hw hvisited
  refine ⟨h.toScanWanted.find hk hwanted hstep, ?_, fun w hw hv => hkeep w hv (h.kept w hw hv), ?_⟩
  · rw [hun]
    exact (Finset.erase_subset _ _).trans h.unneeded
  · obtain ⟨new, hnew, hclosed⟩ := h.closed
    refine ⟨_ :: new, by rw [hfound, hnew]; rfl, fun f hf w hw => ?_⟩
    rw [hun]
    obtain rfl | hf := List.mem_cons.mp hf
    · -- the dependencies of what is found now are depended on, and lie ahead
      have hdep : w ∈ sc'.2.memDepended := (hmem w).mpr (Or.inr hw)
      exact ⟨fun hw' => ⟨hdep, hwriters w hw (h.unneeded (Finset.mem_of_mem_erase hw'))⟩,
        fun _ => hdep⟩
    · obtain ⟨h₁, h₂⟩ := hclosed f hf w hw
      refine ⟨fun hw' => ?_, fun hv => hkeep w hv (h₂ hv)⟩
      obtain ⟨hne, hw'⟩ := Finset.mem_erase.mp hw'
      exact ⟨(hmem w).mpr (Or.inl ⟨hne, (h₁ hw').1⟩), hahead w hne (h₁ hw').2⟩

/-- A scan comes to the next instruction. -/
theorem ScanClosed.next {pos id : Nat} {sc sc' : Finset (Nat × Nat) × PassSets}
    (h : ScanClosed I b t d ids k sc) (hid : ids[k]? = some id) (hdiff : 0 < cntDiff t d b)
    (hwriters : ∀ k e, Wanted I b t d ids k e → ∀ w ∈ I.memDependencies e, w ∈ t.unneededDI →
      Ahead b t d ids k w)
    (hstep : scanInst I b pos (cntDiff t d b) sc id = some sc') :
    ScanClosed I b t d ids (k + 1) sc' := by
  have hahead : ∀ w, w ≠ rescanned b t d id → Ahead b t d ids k w → Ahead b t d ids (k + 1) w := by
    rintro w hne ⟨j, id', hj, hid', rfl⟩
    refine ⟨j, id', Nat.lt_of_le_of_ne hj ?_, hid', rfl⟩
    rintro rfl
    rw [hid] at hid'
    exact hne (by rw [Option.some.inj hid'])
  obtain ⟨-, hnot, rfl⟩ | ⟨hfind, hstep⟩ := scanInst_cases hstep
  · -- what is not found is not depended on
    rw [h.name] at hnot
    obtain ⟨new, hnew, hclosed⟩ := h.closed
    refine ⟨h.succ, h.unneeded, h.kept, new, hnew, ?_⟩
    intro f hf w hw
    obtain ⟨h₁, h₂⟩ := hclosed f hf w hw
    refine ⟨fun hw' => ⟨(h₁ hw').1, hahead w ?_ (h₁ hw').2⟩, h₂⟩
    rintro rfl
    exact hnot (h₁ hw').1
  · rw [h.name] at hfind hstep
    have hwanted := h.wanted hid hfind
    have hvisited : t.Visited (rescanned b t d id) := by
      show -(t.instCount (b.tid, id) : Int) < cntDiff t d b - t.instCount (b.tid, id)
      omega
    exact h.find (Nat.le_succ k) hwanted hvisited hahead (hwriters _ _ hwanted) hstep

theorem ScanClosed.rest {pos : Nat} {rest : List Nat} {sc sc' : Finset (Nat × Nat) × PassSets}
    (h : ScanClosed I b t d ids k sc) (hrest : ids.drop k = rest) (hdiff : 0 < cntDiff t d b)
    (hwriters : ∀ k e, Wanted I b t d ids k e → ∀ w ∈ I.memDependencies e, w ∈ t.unneededDI →
      Ahead b t d ids k w)
    (hrun : run (scanInst I b pos (cntDiff t d b)) sc rest = some sc') :
    ∃ k', ids.length ≤ k' ∧ ScanClosed I b t d ids k' sc' := by
  induction rest generalizing k sc with
  | nil =>
    cases hrun
    exact ⟨k, List.drop_eq_nil_iff.mp hrest, h⟩
  | cons id rest ih =>
    obtain ⟨sc₁, hstep, hrun⟩ := run_cons_eq_some.mp hrun
    obtain ⟨hid, hrest'⟩ := getElem?_of_drop hrest
    exact ih (h.next hid hdiff hwriters hstep) hrest' hrun

/-- **`OneBlock`** keeps the invariant when the dependencies of what it finds are revisited. -/
theorem SetsClosed.rescan {pos nextBBID : Nat} (h : SetsClosed I t) (htid : d.tid = b.tid)
    (hvisited : t.Visited d)
    (hwriters : ∀ bb, I.tables.bb2Ins[nextBBID]? = some bb → ∀ k e,
      Wanted I b t d bb.reverse k e → ∀ w ∈ I.memDependencies e, w ∈ t.unneededDI →
        Ahead b t d bb.reverse k w)
    (hstep : oneBlock I pos t d b nextBBID = some t') : SetsClosed I t' := by
  obtain ⟨bb, sc, sc', hbb, hfound, hrun, rfl⟩ := oneBlock_cases hstep
  have hwriters := hwriters bb hbb
  have hdiff : 0 < cntDiff t d b := by
    have : -(t.instCount (d.tid, d.id) : Int) < d.cnt := hvisited
    unfold cntDiff
    rw [← htid]
    omega
  have hsc : ScanClosed I b t d bb.reverse 0 sc :=
    ScanClosed.init.find le_rfl .terminator hvisited (fun _ _ h => h)
      (hwriters 0 d .terminator) hfound
  obtain ⟨k, hk, hclosed⟩ := hsc.rest rfl hdiff hwriters hrun
  obtain ⟨new, hnew, hall⟩ := hclosed.closed
  have hv : ∀ w, PassSets.Visited { sc'.2 with needed := sc'.2.needed ∪ sc'.1 } w ↔ t.Visited w := by
    intro w
    unfold PassSets.Visited
    rw [← hclosed.instCount]
  refine ⟨fun d hd => (hv d).mpr (h.visited d (hclosed.unneeded hd)), fun f hf w hw => ?_⟩
  rw [hv]
  obtain hf | hf := List.mem_append.mp (hnew ▸ hf)
  · obtain ⟨h₁, h₂⟩ := hall f hf w hw
    refine ⟨fun hw' => ?_, h₂⟩
    -- nothing lies ahead at the end of the scan
    obtain ⟨-, j, id, hj, hid, -⟩ := h₁ hw'
    obtain ⟨hlt, -⟩ := List.getElem?_eq_some_iff.mp hid
    omega
  · obtain ⟨h₁, h₂⟩ := h.found f hf w hw
    exact ⟨fun hw' => h₁ (hclosed.unneeded hw'), fun hw' => hclosed.kept w (h₂ hw') hw'⟩

/-! ## A turn -/

/-- The names of the forward pass fit: an execution in a `NormalBlock` is not part of a dependency,
and the dependencies of any other are still to be met. -/
structure NamesFit (I : PassInput) (s : PassState) (b : SmallestBlock) : Prop where
  normal : b.kind I.tables = .normal → ∀ d, ∀ w ∈ I.memDependencies d, ∀ id ∈ b.named I.tables,
    (b.tid, id) ≠ d.key ∧ (b.tid, id) ≠ w.key
  counted : b.kind I.tables = .counted →
    ∀ w ∈ I.memDependencies (s.toPassSets.name b.tid (b.insID I.tables)),
      ¬ s.toPassSets.Visited w

/-- The invariant of the main loop. -/
structure MemClosed (I : PassInput) (s : PassState) : Prop where
  sets : SetsClosed I s.toPassSets
  terminators : s.TerminatorsVisited

/-- The main loop meets an execution. -/
theorem SetsClosed.visit {id : Nat} {n : Bool} (h : SetsClosed I s.toPassSets)
    (hvisit : Visit I b s id s' n)
    (hnormal : b.type = .normalBlock → ∀ d, ∀ w ∈ I.memDependencies d,
      (b.tid, id) ≠ d.key ∧ (b.tid, id) ≠ w.key)
    (hcounted : b.type ≠ .normalBlock → ∀ w ∈ I.memDependencies (s.toPassSets.name b.tid id),
      ¬ s.toPassSets.Visited w) : SetsClosed I s'.toPassSets := by
  obtain ⟨report, hreport, hsets⟩ := hvisit.sets
  obtain ⟨-, hcases⟩ := PassSets.visit_cases hreport hsets
  have hnew : ¬ s.toPassSets.Visited (s.toPassSets.name b.tid id) := lt_irrefl _
  obtain ⟨-, hun, hfound, hone⟩ | ⟨rfl, -, hun, hfound, -, hdep⟩ := hcases
  · -- needed: its dependencies are to be met
    obtain ⟨hmem, -⟩ := mem_oneInstruction hone
    refine ⟨fun e he => hvisit.visited.mpr (Or.inl (h.visited e (hun ▸ he))), fun f hf w hw => ?_⟩
    rw [hun, hmem, hvisit.visited]
    obtain rfl | hf := List.mem_cons.mp (hfound ▸ hf)
    · have hv : ¬ s.toPassSets.Visited w := by
        by_cases htype : b.type = .normalBlock
        · exact absurd rfl (hnormal htype _ w hw).1
        · exact hcounted htype w hw
      exact ⟨fun hw' => hv (h.visited w hw'), fun _ => Or.inr hw⟩
    · obtain ⟨h₁, h₂⟩ := h.found f hf w hw
      refine ⟨h₁, fun hv => ?_⟩
      rw [not_or] at hv
      exact Or.inl ⟨hv.2, h₂ hv.1⟩
  · -- not needed: it is not depended on
    refine ⟨fun e he => hvisit.visited.mpr ?_, fun f hf w hw => ?_⟩
    · obtain rfl | he := hun e he
      · exact Or.inr rfl
      · exact Or.inl (h.visited e he)
    · rw [hdep, hvisit.visited, not_or]
      obtain ⟨h₁, h₂⟩ := h.found f (hfound ▸ hf) w hw
      refine ⟨fun hw' => ?_, fun hv => h₂ hv.1⟩
      obtain rfl | hw' := hun w hw'
      · by_cases htype : b.type = .normalBlock
        · exact (hnormal htype _ _ hw).2 rfl
        · exact absurd (hvisit.isDepended htype (h₂ hnew)) (by simp)
      · exact h₁ hw'

theorem Visit.terminators {id : Nat} {n : Bool} (hvisit : Visit I b s id s' n)
    (h : s.TerminatorsVisited) : s'.TerminatorsVisited := by
  have hold : ∀ tid, ∀ e ∈ s.terminatorStack tid, e.2.2 = false →
      e.2.1.tid = tid ∧ s'.toPassSets.Visited e.2.1 := fun tid e he hn =>
    ⟨(h tid e he hn).1, hvisit.visited.mpr (Or.inl (h tid e he hn).2)⟩
  intro tid e he hn
  obtain ⟨hstack, -⟩ | ⟨-, -, e', l, hl, hstack⟩ := hvisit.terminatorStack
  · rw [hstack] at he
    exact hold tid e he hn
  · rw [hstack] at he
    by_cases ht : tid = b.tid
    · subst ht
      rw [Function.update_self] at he
      obtain rfl | he := List.mem_cons.mp he
      · exact ⟨rfl, hvisit.visited.mpr (Or.inr rfl)⟩
      · exact hold _ e (by rw [hl]; exact List.mem_cons_of_mem _ he) hn
    · rw [Function.update_of_ne ht] at he
      exact hold tid e he hn

theorem Visits.terminators {ids : List Nat} {su su' : PassState × Bool}
    (hvisits : Visits I b su ids su') (h : su.1.TerminatorsVisited) : su'.1.TerminatorsVisited := by
  induction hvisits with
  | nil => exact h
  | cons hvisit _ ih => exact ih (hvisit.terminators h)

/-- The top of `terminator_stack` is replaced or pushed, and it is not to be checked. -/
theorem PassState.TerminatorsVisited.update {tid : Nat} {l : List (Nat × DynamicInst × Bool)}
    (h : s.TerminatorsVisited) (hl : ∀ e ∈ l, e.2.2 = true ∨ e ∈ s.terminatorStack tid)
    (hcount : s'.instCount = s.instCount)
    (hstack : s'.terminatorStack = Function.update s.terminatorStack tid l) :
    s'.TerminatorsVisited := by
  have hold : ∀ tid, ∀ e ∈ s.terminatorStack tid, e.2.2 = false →
      e.2.1.tid = tid ∧ s'.toPassSets.Visited e.2.1 := by
    unfold PassSets.Visited
    rw [hcount]
    exact h
  intro tid' e he hn
  rw [hstack] at he
  by_cases ht : tid' = tid
  · subst ht
    rw [Function.update_self] at he
    obtain he' | he' := hl e he
    · rw [hn] at he'
      cases he'
    · exact hold _ e he' hn
  · rw [Function.update_of_ne ht] at he
    exact hold _ e he hn

theorem PassState.TerminatorsVisited.check {call : PassSets → DynamicInst → Nat → Prop}
    {nextBBID : Nat} (h : s.TerminatorsVisited) (hcheck : Check I b call nextBBID s s') :
    s'.TerminatorsVisited := by
  cases hcheck with
  | needed => exact h
  | @scan e l sets _ _ hsets _ =>
    intro tid e' he' hn
    rcases h tid e' he' hn with ⟨h₁, h₂⟩
    refine ⟨h₁, ?_⟩
    show -(sets.instCount e'.2.1.key : Int) < _
    rw [(oneBlock_scanned hsets).instCount]
    exact h₂

theorem PassState.TerminatorsVisited.enter (h : s.TerminatorsVisited) (htype : b.type ≠ .declareBlock)
    (henter : s.enter I b = some s') : s'.TerminatorsVisited := by
  rcases PassState.enter_cases htype henter with ⟨-, rfl⟩ | ⟨-, rfl, -⟩ |
    ⟨-, nextBBID, l, s₁, -, -, hcheck, hset⟩
  · refine h.update (fun e he => ?_) rfl rfl
    rcases List.mem_cons.mp he with rfl | he
    · exact Or.inl rfl
    · exact Or.inr he
  · exact h
  · have h₁ := h.check hcheck
    rcases PassState.setTerminator_cases hset with ⟨e, l', hl', rfl⟩
    refine h₁.update (fun e he => ?_) rfl rfl
    rcases List.mem_cons.mp he with rfl | he
    · exact Or.inl rfl
    · exact Or.inr (by rw [hl']; exact List.mem_cons_of_mem _ he)

theorem PassState.TerminatorsVisited.leaves {call : PassSets → DynamicInst → Nat → Prop}
    (h : s.TerminatorsVisited) (hleave : Leaves I b call s s') : s'.TerminatorsVisited := by
  cases hleave with
  | stay => exact h
  | @pop needed s₂ _ e l _ _ _ hcheck hpop =>
    have h₂ : s₂.TerminatorsVisited := by
      rcases hcheck with ⟨-, rfl⟩ | ⟨-, hcheck⟩
      · exact h
      · exact PassState.TerminatorsVisited.check (s := { s with needed := needed }) h hcheck
    rcases PassState.pop_cases hpop with ⟨n, ns, t, ts, -, hterm, hsets, -, -, hstack⟩
    refine h₂.update (fun e he => Or.inr ?_) (by rw [hsets]) hstack
    rw [hterm]
    exact List.mem_cons_of_mem _ he

/-- The terminators to be checked have been met, after every turn. -/
theorem PassState.TerminatorsVisited.step (h : s.TerminatorsVisited)
    (hstep : extractStep I s b = some s') : s'.TerminatorsVisited := by
  rcases extractStep_cases hstep with ⟨-, rfl⟩ | ⟨htype, s₁, henter, hrest⟩
  · exact h
  have h₁ := h.enter htype henter
  rcases hrest with ⟨-, rfl⟩ | ⟨-, s₂, used, s₃, s₄, hvisits, hmark, hleave, rfl⟩
  · exact h₁
  have h₂ : s₂.TerminatorsVisited := hvisits.terminators h₁
  have h₃ : s₃.TerminatorsVisited := by
    rcases PassState.mark_cases hmark with ⟨e, l, -, rfl⟩
    exact h₂
  have h₄ : s₄.TerminatorsVisited := h₃.leaves hleave
  exact h₄

theorem MemClosed.visits {used : Bool} {su : PassState × Bool} (h : MemClosed I s)
    (hnames : NamesFit I s b) (hvisits : Visits I b (s, used) (b.named I.tables).reverse su) :
    MemClosed I su.1 := by
  cases hkind : b.kind I.tables with
  | normal =>
    have htype : b.type = .normalBlock := by
      unfold SmallestBlock.kind at hkind
      split at hkind
      · assumption
      · cases hkind
      · split_ifs at hkind
    have hall : ∀ id ∈ (b.named I.tables).reverse, ∀ d, ∀ w ∈ I.memDependencies d,
        (b.tid, id) ≠ d.key ∧ (b.tid, id) ≠ w.key := fun id hid d w hw =>
      hnames.normal hkind d w hw id (List.mem_reverse.mp hid)
    clear hnames
    generalize (b.named I.tables).reverse = ids at hvisits hall
    generalize hsu : (s, used) = su₀ at hvisits
    induction hvisits generalizing s used with
    | nil =>
      obtain rfl := hsu
      exact h
    | cons hvisit _ ih =>
      obtain ⟨rfl, rfl⟩ := Prod.mk.inj hsu
      obtain ⟨hid, hall⟩ := List.forall_mem_cons.mp hall
      exact ih ⟨h.sets.visit hvisit (fun _ => hid) (fun hne => absurd htype hne),
        hvisit.terminators h.terminators⟩ hall rfl
  | counted =>
    have htype : b.type ≠ .normalBlock := by
      intro htype
      simp [SmallestBlock.kind, htype] at hkind
    have hnamed : (b.named I.tables).reverse = [b.insID I.tables] := by
      simp [SmallestBlock.named, hkind]
    rw [hnamed] at hvisits
    cases hvisits with
    | cons hvisit hrest =>
      cases hrest
      exact ⟨h.sets.visit hvisit (fun he => absurd he htype) fun _ => hnames.counted hkind,
        hvisit.terminators h.terminators⟩
  | skipped | declare =>
    have hnamed : (b.named I.tables).reverse = [] := by simp [SmallestBlock.named, hkind]
    rw [hnamed] at hvisits
    cases hvisits
    exact h

/-- The terminator on the stack is checked. -/
theorem MemClosed.check {s₀ : PassState} {nextBBID : Nat} (h : MemClosed I s)
    (hwriters : WritersRevisited I s₀ b)
    (hcheck : Check I b (OneBlockCall I s₀ b) nextBBID s s') : MemClosed I s' := by
  cases hcheck with
  | needed => exact h
  | @scan e l sets hterm hneeded hsets hcall =>
    obtain ⟨htid, hvisited⟩ := h.terminators b.tid e (by rw [hterm]; exact List.mem_cons_self)
      hneeded
    exact ⟨h.sets.rescan htid hvisited (fun bb hbb => hwriters _ _ _ bb hcall hbb) hsets,
      h.terminators.check (.scan hterm hneeded hsets hcall)⟩

theorem MemClosed.enter (h : MemClosed I s) (htype : b.type ≠ .declareBlock)
    (hwriters : WritersRevisited I s b) (henter : s.enter I b = some s') : MemClosed I s' := by
  refine ⟨?_, h.terminators.enter htype henter⟩
  exact PassState.enter_sets htype henter h.sets fun _ _ _ _ _ _ hcheck =>
    (h.check hwriters hcheck).sets

theorem MemClosed.leaves {s₀ : PassState} (h : MemClosed I s) (hwriters : WritersRevisited I s₀ b)
    (hleave : Leaves I b (OneBlockCall I s₀ b) s s') : MemClosed I s' := by
  have hneeded : ∀ needed, MemClosed I { s with needed := needed } :=
    fun needed => ⟨⟨h.sets.1, h.sets.2⟩, h.terminators⟩
  refine ⟨?_, h.terminators.leaves hleave⟩
  exact hleave.sets (fun needed _ => (hneeded needed).sets) fun needed _ _ _ hcheck =>
    ((hneeded needed).check hwriters hcheck).sets

/-- **A turn** keeps the invariant. -/
theorem MemClosed.step (h : MemClosed I s) (hwriters : WritersRevisited I s b)
    (hnames : NamesFit I s b) (hstep : extractStep I s b = some s') : MemClosed I s' := by
  obtain ⟨-, rfl⟩ | ⟨htype, s₁, henter, hrest⟩ := extractStep_cases hstep
  · exact ⟨h.sets, h.terminators⟩
  have h₁ := h.enter htype hwriters henter
  have hnames₁ : NamesFit I s₁ b := by
    refine ⟨hnames.normal, fun hkind w hw => ?_⟩
    have hcount := (PassState.enter_scanned htype henter).1.instCount
    unfold PassSets.name at hw
    unfold PassSets.Visited
    rw [hcount] at hw ⊢
    exact hnames.counted hkind w hw
  obtain ⟨-, rfl⟩ | ⟨-, s₂, used, s₃, s₄, hvisits, hmark, hleave, rfl⟩ := hrest
  · exact ⟨h₁.sets, h₁.terminators⟩
  have h₂ : MemClosed I s₂ := h₁.visits hnames₁ hvisits
  have h₃ : MemClosed I s₃ := by
    obtain ⟨e, l, -, rfl⟩ := PassState.mark_cases hmark
    exact ⟨h₂.sets, h₂.terminators⟩
  have h₄ := h₃.leaves hwriters hleave
  exact ⟨h₄.sets, h₄.terminators⟩

/-! ## A run -/

/-- The input of the backward pass when the dependencies are those of the forward pass. -/
def passInput (T : Tables) (postDominator : Nat → Finset Nat)
    (deps : Finset (DynamicInst × DynamicInst)) : PassInput :=
  ⟨T, postDominator, dependenciesOf deps⟩

/-- In every state of a run the names fit. -/
theorem namesFit_of_run {T : Tables} {G : Groups} {postDominator : Nat → Finset Nat}
    {trace pre post : List SmallestBlock} {deps : Finset (DynamicInst × DynamicInst)}
    (htrace : ∀ b ∈ trace, b.WellFormed T) (hkinds : KindsAgree T trace)
    (hextract : extractMemoryDependency T G trace = some deps)
    (hsplit : trace.reverse = pre ++ b :: post)
    (hrun : run (extractStep (passInput T postDominator deps)) {} pre = some s) :
    NamesFit (passInput T postDominator deps) s b := by
  have hb : b ∈ trace := List.mem_reverse.mp (by rw [hsplit]; simp)
  have hcount : s.instCount = backCount T pre := funext fun key => run_instCount hrun
  refine ⟨fun hkind d w hw id hid => ?_, fun hkind w hw => ?_⟩
  · exact normal_no_dependency htrace hkinds hextract hb hkind hw id hid
  · unfold PassSets.name at hw
    unfold PassSets.Visited
    rw [hcount] at hw ⊢
    exact not_lt.mpr (dependency_unmet htrace hkinds hextract hsplit hkind hw)

/-- **The reported set is closed under memory dependencies** as far as `OneBlock` looks at the
dependencies of what it finds. For every well-formed block trace in which all blocks of one
instruction have the same kind, and every run of the backward pass over its blocks from the last
one on, with the dependencies of the forward pass: if every turn meets `WritersRevisited`, then no
dependency of an execution that was passed to `OneInstruction` is in `unneeded_di`. -/
theorem found_memory_closed {T : Tables} {G : Groups} {postDominator : Nat → Finset Nat}
    {trace pre post : List SmallestBlock} {deps : Finset (DynamicInst × DynamicInst)}
    (htrace : ∀ b ∈ trace, b.WellFormed T) (hkinds : KindsAgree T trace)
    (hextract : extractMemoryDependency T G trace = some deps)
    (hsplit : trace.reverse = pre ++ post)
    (hok : RunOk (extractStep (passInput T postDominator deps))
      (WritersRevisited (passInput T postDominator deps)) {} pre)
    (hrun : run (extractStep (passInput T postDominator deps)) {} pre = some s) :
    ∀ f ∈ s.found, ∀ w ∈ dependenciesOf deps f.inst, w ∉ s.unneededDI := by
  have hok' : RunOk (extractStep (passInput T postDominator deps))
      (fun s b => WritersRevisited (passInput T postDominator deps) s b ∧
        NamesFit (passInput T postDominator deps) s b) {} pre := by
    intro pre' b post' s' hpre hrun'
    have hsplit' : trace.reverse = pre' ++ b :: (post' ++ post) := by
      rw [hsplit, hpre, List.append_assoc, List.cons_append]
    exact ⟨hok pre' b post' s' hpre hrun',
      namesFit_of_run htrace hkinds hextract hsplit' hrun'⟩
  have hclosed : MemClosed (passInput T postDominator deps) s := by
    refine run_invariant_of (fun s b s' hC h hstep => h.step hC.1 hC.2 hstep) hok' ?_ hrun
    exact ⟨⟨fun d hd => absurd hd (Finset.notMem_empty d), fun f hf => (nomatch hf)⟩,
      fun tid e he => (nomatch he)⟩
  exact fun f hf w hw => (hclosed.sets.found f hf w hw).1

end

/-! ## Two runs -/

/-- A store, a load, a call with an effect outside, and a branch on what is loaded. -/
def writeTables : Tables where
  ins := [{ type := .storeInst }, { type := .loadInst }, { type := .externalCallInst, fn := "write" },
    { type := .terminatorInst, ssaDependencies := [(.inst, 1)], successors := [1] },
    { type := .returnInst, code := "ret void" }]
  bb2Ins := [[0, 1, 2, 3], [4]]

/-- A store and a load of what is stored. -/
def storeLoad (tid isLast : Nat) : List SmallestBlock :=
  [{ type := .memoryAccessBlock, tid := tid, stop := 1, addr := [100, 104], isFirst := 2,
     lastBBID := -1 },
    { type := .memoryAccessBlock, tid := tid, start := 1, stop := 2, addr := [100, 104],
      isLast := isLast, lastBBID := -1 }]

/-- Thread 0 goes on to the second basic block and returns; thread 1 has come to the load. -/
def writeTrace : List SmallestBlock :=
  storeLoad 0 0 ++
    { type := .impactfulCallBlock, start := 2, stop := 3, addr := [0], lastBBID := -1 } ::
    { type := .normalBlock, start := 3, stop := 4, lastBBID := -1 } ::
    { type := .normalBlock, bbID := 1, stop := 1, isLast := 2 } :: storeLoad 1 2

/-- Block 1 is behind block 0 in every run. -/
def writePostDominator (bbID : Nat) : Finset Nat := if bbID = 0 then {1} else ∅

/-- The loads depend on the stores. -/
def writeDeps : Finset (DynamicInst × DynamicInst) :=
  {(⟨0, 1, 0⟩, ⟨0, 0, 0⟩), (⟨1, 1, 0⟩, ⟨1, 0, 0⟩)}

def writeInput : PassInput := passInput writeTables writePostDominator writeDeps

/-- `f` stores, its caller loads behind the call and branches on what is loaded; the branch may be
left out. -/
def lateTables : Tables where
  ins := [{ type := .callInst, fn := "f" }, { type := .loadInst },
    { type := .terminatorInst, ssaDependencies := [(.inst, 1)], successors := [2, 3] },
    { type := .storeInst }, { type := .returnInst, code := "ret void" },
    { type := .returnInst, code := "ret void" }]
  bb2Ins := [[0, 1, 2], [3, 4], [5]]

/-- A run of the program: block 0 calls `f`, block 1, and jumps to block 2. -/
def lateTrace : List SmallestBlock :=
  [{ type := .normalBlock, stop := 1, isFirst := 2, lastBBID := -1 },
    { type := .memoryAccessBlock, bbID := 1, stop := 1, addr := [100, 104], isFirst := 1,
      lastBBID := -1 },
    { type := .normalBlock, bbID := 1, start := 1, stop := 2, isLast := 1, lastBBID := -1 },
    { type := .memoryAccessBlock, start := 1, stop := 2, addr := [100, 104], lastBBID := -1 },
    { type := .normalBlock, start := 2, stop := 3, lastBBID := -1 },
    { type := .normalBlock, bbID := 2, stop := 1, isLast := 2 }]

/-- Block 2 is behind block 0 in every run. -/
def latePostDominator (bbID : Nat) : Finset Nat := if bbID = 0 then {2} else ∅

theorem writeTrace_wellFormed : ∀ b ∈ writeTrace, b.WellFormed writeTables := by decide

theorem writeTrace_kinds : KindsAgree writeTables writeTrace := by
  unfold KindsAgree
  decide +kernel

/-- At the first block of thread 0 the pass calls `OneBlock`, which finds the branch, the load and,
because it is ahead, the store, although both accesses have been reported. -/
theorem found_memory_closed_write :
    ∃ s, run (extractStep writeInput) {} writeTrace.reverse = some s ∧
      (⟨⟨0, 1, 0⟩, -1, true, 6⟩ : Found) ∈ s.found ∧ s.unneededDI = {⟨1, 0, 0⟩, ⟨1, 1, 0⟩} ∧
      ∀ f ∈ s.found, ∀ w ∈ writeInput.memDependencies f.inst, w ∉ s.unneededDI := by
  obtain ⟨s, hs⟩ := Option.isSome_iff_exists.mp
    (show (run (extractStep writeInput) {} writeTrace.reverse).isSome = true by decide +kernel)
  have hend : (run (extractStep writeInput) {} writeTrace.reverse).all (fun s =>
      decide ((⟨⟨0, 1, 0⟩, -1, true, 6⟩ : Found) ∈ s.found ∧
        s.unneededDI = {⟨1, 0, 0⟩, ⟨1, 1, 0⟩})) = true := by decide +kernel
  rw [hs, Option.all_some, decide_eq_true_eq] at hend
  have hok : RunOk (extractStep writeInput) (WritersRevisited writeInput) {} writeTrace.reverse :=
    runOk_of_check (fun _ _ => writersRevisited_of_check)
      (show checkRun (extractStep writeInput) (checkWriters writeInput) {} writeTrace.reverse = true by
        decide +kernel)
  exact ⟨s, hs, hend.1, hend.2, found_memory_closed (G := oneGroup) writeTrace_wellFormed
    writeTrace_kinds (by decide +kernel) (List.append_nil _).symm hok hs⟩

/-- The load is found late, because the terminator is, and then the store has been reported. -/
theorem late_store_reported :
    ¬ ∀ (T : Tables) (G : Groups) (postDominator : Nat → Finset Nat) (trace : List SmallestBlock)
      (deps : Finset (DynamicInst × DynamicInst)) (s : PassState),
      (∀ b ∈ trace, b.WellFormed T) → KindsAgree T trace →
      extractMemoryDependency T G trace = some deps →
      run (extractStep (passInput T postDominator deps)) {} trace.reverse = some s →
      ∀ f ∈ s.found, ∀ w ∈ dependenciesOf deps f.inst, w ∉ s.unneededDI := by
  intro h
  obtain ⟨s, hs⟩ := Option.isSome_iff_exists.mp (show (run (extractStep
    (passInput lateTables latePostDominator {(⟨0, 1, 0⟩, ⟨0, 3, 0⟩)})) {}
    lateTrace.reverse).isSome = true by decide +kernel)
  have hfound : (run (extractStep (passInput lateTables latePostDominator
      {(⟨0, 1, 0⟩, ⟨0, 3, 0⟩)})) {} lateTrace.reverse).all (fun s =>
        decide ((⟨⟨0, 1, 0⟩, -1, true, 5⟩ : Found) ∈ s.found ∧ ⟨0, 3, 0⟩ ∈ s.unneededDI)) = true := by
    decide +kernel
  rw [hs, Option.all_some, decide_eq_true_eq] at hfound
  have hkinds : KindsAgree lateTables lateTrace := by
    unfold KindsAgree
    decide
  exact h lateTables oneGroup latePostDominator lateTrace _ s (by decide) hkinds (by decide +kernel) hs _
    hfound.1 ⟨0, 3, 0⟩ (by decide) hfound.2

end Slimmer
