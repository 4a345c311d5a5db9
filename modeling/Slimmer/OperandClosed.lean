import Slimmer.FrameEntries
import Mathlib.Data.List.Pairwise

/-!
# The operands of what is found

An instruction that is found needed puts the instructions of its operands into `needed`, which holds
pairs of a thread and an instruction. The next execution that is met backward takes the entry, be it
of the activation the operand belongs to or not.

**Theorem (`operand_not_reported`).** The execution that supplies an operand of an instruction found
needed is not reported, as long as no other activation executes the instruction of the operand in
between, and `OneBlock` gives the instructions of a basic block the names of the execution that has
been passed (`RescansOwn`).

The invariant (`OperandsClosed`) says for every operand that its supplier has not been met and the
entry is there, or the supplier has been met and is not reported.
-/

namespace Slimmer

/-- The instructions among the operands of the instruction `id`. -/
def Tables.operands (T : Tables) (id : Nat) : List Nat :=
  ((T.ins[id]?).map InstInfo.ssaInsts).getD []

/-- No call that is skipped is the first block of an activation, and whenever `OneBlock` goes through
a basic block for its terminator `d`, `cnt_diff` makes the names of the execution `d` belongs to. -/
def RescansOwn (I : PassInput) (trace : List SmallestBlock) (r : Reading) : Prop :=
  RunOk (extractStep I)
    (fun s b => b.type ≠ .declareBlock → (b.skipped I.tables = some true → b.isFirst = 0) ∧
      ∀ sets d nextBBID, OneBlockCall I s b sets d nextBBID →
        ∀ t ∈ r.insts, t.inst = d → ∀ i ∈ r.insts, i.inst.tid = d.tid → i.exec = t.exec →
          i.inst = scanName b (cntDiff sets d b) sets i.inst.id)
    {} trace.reverse

section

variable {I : PassInput} {T : Tables} {trace : List SmallestBlock} {t t' : PassSets}
  {s s' : PassState} {r r' : Reading} {b : SmallestBlock} {d : DynamicInst} {bb : List Nat}
  {f : Frame} {fs : List Frame} {tid : Nat}

/-! ## Lists of distinct instructions -/

theorem pair_sublist_cons {α : Type} {x y a : α} {l : List α} :
    [x, y].Sublist (a :: l) ↔ [x, y].Sublist l ∨ (x = a ∧ y ∈ l) := by
  rw [List.sublist_cons_iff]
  refine or_congr_right ⟨fun h => ?_, fun h => ?_⟩
  · rcases h with ⟨rest, heq, hsub⟩
    cases heq
    exact ⟨rfl, List.singleton_sublist.mp hsub⟩
  · exact ⟨[y], by rw [h.1], List.singleton_sublist.mpr h.2⟩

/-- Distinct elements have one order. -/
theorem not_pair_sublist {α : Type} {x y : α} {l : List α} (hl : l.Nodup)
    (h : [x, y].Sublist l) : ¬ [y, x].Sublist l := by
  induction l with
  | nil => cases h
  | cons a l ih =>
    rcases List.nodup_cons.mp hl with ⟨ha, hl⟩
    intro h'
    rcases pair_sublist_cons.mp h with hxy | ⟨hxa, hy⟩
    · rcases pair_sublist_cons.mp h' with hyx | ⟨hya, -⟩
      · exact ih hl hxy hyx
      · rw [← hya] at ha
        exact ha (hxy.subset (List.mem_cons_of_mem _ List.mem_cons_self))
    · rw [← hxa] at ha
      rcases pair_sublist_cons.mp h' with hyx | ⟨-, hx⟩
      · exact ha (hyx.subset (List.mem_cons_of_mem _ List.mem_cons_self))
      · exact ha hx

/-- An instruction belongs to one basic block. -/
theorem bb_unique (hnodup : T.bb2Ins.flatten.Nodup) {bb' : List Nat} (hbb : bb ∈ T.bb2Ins)
    (hbb' : bb' ∈ T.bb2Ins) {id : Nat} (hid : id ∈ bb) (hid' : id ∈ bb') : bb = bb' := by
  by_contra hne
  have hsymm : Std.Symm (fun l l' : List Nat => l.Disjoint l') := ⟨fun _ _ h => h.symm⟩
  have hdisjoint := (List.nodup_flatten.mp hnodup).2.forall hbb hbb' hne
  exact hdisjoint hid hid'

/-- Instances of one execution have been met in the order of the basic block. -/
theorem MetAfter.sublist (hnodup : T.bb2Ins.flatten.Nodup) (hbb : bb ∈ T.bb2Ins) {i j : Instance}
    (h : MetAfter T i j) (htid : i.inst.tid = j.inst.tid) (hexec : i.exec = j.exec)
    (hid : i.inst.id ∈ bb ∨ j.inst.id ∈ bb) : [i.inst.id, j.inst.id].Sublist bb := by
  rcases (h.2 htid).2 hexec with ⟨bb', hbb', hsub⟩
  have heq : bb = bb' := by
    rcases hid with hid | hid
    · exact bb_unique hnodup hbb hbb' hid (hsub.subset (by simp))
    · exact bb_unique hnodup hbb hbb' hid (hsub.subset (by simp))
  rw [heq]
  exact hsub

/-! ## The scan of a basic block -/

/-- The scan of the basic block `bb` has come past the instructions `done`. Each operand of what it
has found is either in `this_needed`, or has been passed and is not reported. -/
structure ScanSupplied (T : Tables) (b : SmallestBlock) (diff : Int) (t : PassSets) (bb done : List Nat)
    (sc : Finset (Nat × Nat) × PassSets) : Prop where
  count : sc.2.instCount = t.instCount
  new : ∃ new, sc.2.found = new ++ t.found ∧ ∀ g ∈ new, g.inst = scanName b diff t g.inst.id ∧
    (g.inst.id ∈ done ∨ (done = [] ∧ bb.getLast? = some g.inst.id)) ∧
    ∀ sid ∈ T.operands g.inst.id,
      ([sid, g.inst.id].Sublist done → scanName b diff t sid ∉ sc.2.unneededDI) ∧
      (¬ [sid, g.inst.id].Sublist done → (b.tid, sid) ∈ sc.1)

theorem operands_mem {needed needed' : Finset (Nat × Nat)}
    {memDepended memDepended' : Finset DynamicInst} {lastBBID : Int}
    (h : oneInstruction I d lastBBID needed memDepended = some (needed', memDepended')) :
    ∀ sid ∈ I.tables.operands d.id, (d.tid, sid) ∈ needed' := by
  rcases mem_oneInstruction h with ⟨-, -, i, hi, hssa, -⟩
  intro sid hsid
  apply hssa
  rw [Tables.operands, hi] at hsid
  exact hsid

/-- The scan begins with the terminator. -/
theorem ScanSupplied.init {pos : Nat} {sc : Finset (Nat × Nat) × PassSets} (htid : d.tid = b.tid)
    (hlast : bb.getLast? = some d.id) (h : scanFound I b pos d (∅, t) = some sc) :
    ScanSupplied I.tables b (cntDiff t d b) t bb [] sc := by
  rcases scanFound_cases h with ⟨hone, -, hfound, hcount, -⟩
  refine ⟨hcount, [⟨d, b.lastBBID, true, pos⟩], hfound, fun g hg => ?_⟩
  rw [List.mem_singleton.mp hg]
  refine ⟨?_, Or.inr ⟨rfl, hlast⟩, fun sid hsid => ⟨fun hsub => absurd hsub (by simp), fun _ => ?_⟩⟩
  · rcases d with ⟨tid, id, cnt⟩
    cases htid
    simp only [scanName, cntDiff, DynamicInst.mk.injEq, true_and]
    omega
  · rw [← htid]
    exact operands_mem hone sid hsid

/-- The scan comes past one more instruction. -/
theorem ScanSupplied.step {pos id : Nat} {diff : Int} {rest done : List Nat}
    {sc sc' : Finset (Nat × Nat) × PassSets} (hnodup : bb.Nodup) (hbb : bb = rest ++ id :: done)
    (h : ScanSupplied I.tables b diff t bb done sc)
    (hstep : scanInst I b pos diff sc id = some sc') :
    ScanSupplied I.tables b diff t bb (id :: done) sc' := by
  rcases h.new with ⟨new, hnew, hall⟩
  have hname : ∀ id, scanName b diff sc.2 id = scanName b diff t id := by
    intro id
    rw [scanName, h.count]
    rfl
  have hid : id ∉ done := by
    rw [hbb] at hnodup
    exact (List.nodup_cons.mp (List.nodup_append.mp hnodup).2.1).1
  -- where the finds so far lie
  have hdone : ∀ g ∈ new, g.inst.id ∈ id :: done := by
    intro g hg
    rcases (hall g hg).2.1 with hmem | ⟨rfl, hlast⟩
    · exact List.mem_cons_of_mem _ hmem
    · rw [hbb, List.getLast?_append] at hlast
      cases hlast
      exact List.mem_cons_self
  rcases scanInst_cases hstep with ⟨hkey, -, rfl⟩ | ⟨-, hfound⟩
  · refine ⟨h.count, new, hnew, fun g hg => ⟨(hall g hg).1, Or.inl (hdone g hg), fun sid hsid => ?_⟩⟩
    rcases (hall g hg).2.2 sid hsid with ⟨hin, hout⟩
    refine ⟨fun hsub => ?_, fun hsub => hout fun hs => hsub (hs.cons id)⟩
    rcases pair_sublist_cons.mp hsub with hsub | ⟨rfl, hmem⟩
    · exact hin hsub
    · exact absurd (hout fun hs => hid (hs.subset (by simp))) hkey
  · rcases scanFound_cases hfound with ⟨hone, hun, hfound, hcount, -⟩
    rw [hname] at hone hun hfound
    have hkeep := (mem_oneInstruction hone).2.1
    refine ⟨hcount.trans h.count, ⟨scanName b diff t id, b.lastBBID, true, pos⟩ :: new,
      by rw [hfound, hnew]; rfl, fun g hg => ?_⟩
    rcases List.mem_cons.mp hg with rfl | hg
    · refine ⟨rfl, Or.inl List.mem_cons_self, fun sid hsid => ⟨fun hsub => ?_, fun _ => ?_⟩⟩
      · rcases pair_sublist_cons.mp hsub with hsub | ⟨-, hmem⟩
        · exact absurd (hsub.subset (by simp [scanName])) hid
        · exact absurd hmem hid
      · exact operands_mem hone sid hsid
    · refine ⟨(hall g hg).1, Or.inl (hdone g hg), fun sid hsid => ?_⟩
      rcases (hall g hg).2.2 sid hsid with ⟨hin, hout⟩
      rw [hun]
      refine ⟨fun hsub hmem => ?_, fun hsub => ?_⟩
      · rcases pair_sublist_cons.mp hsub with hsub | ⟨rfl, -⟩
        · exact hin hsub (Finset.mem_of_mem_erase hmem)
        · exact Finset.notMem_erase _ _ hmem
      · by_cases hsid' : sid = id
        · -- only the terminator itself, which is found once more
          have hg' : g.inst.id = id := by
            rcases List.mem_cons.mp (hdone g hg) with heq | hmem
            · exact heq
            · exact absurd (pair_sublist_cons.mpr (Or.inr ⟨hsid', hmem⟩)) hsub
          rw [hg'] at hsid
          exact operands_mem hone sid hsid
        · refine hkeep _ (hout fun hs => hsub (hs.cons id)) fun hkey => hsid' ?_
          exact (Prod.mk.inj hkey).2

/-- The scan comes past the rest of the basic block. -/
theorem ScanSupplied.rest {pos : Nat} {diff : Int} (rest : List Nat) {done : List Nat}
    {sc sc' : Finset (Nat × Nat) × PassSets} (hnodup : bb.Nodup) (hbb : bb = rest ++ done)
    (h : ScanSupplied I.tables b diff t bb done sc)
    (hrun : run (scanInst I b pos diff) sc rest.reverse = some sc') :
    ScanSupplied I.tables b diff t bb bb sc' := by
  induction rest using List.reverseRecOn generalizing sc done with
  | nil =>
    cases hrun
    rw [List.nil_append] at hbb
    rw [← hbb] at h
    exact h
  | append_singleton rest id ih =>
    rw [List.reverse_append, List.reverse_singleton, List.singleton_append] at hrun
    rcases run_cons_eq_some.mp hrun with ⟨sc₁, hstep, hrun⟩
    have hbb' : bb = rest ++ id :: done := by rw [hbb, List.append_assoc, List.singleton_append]
    exact ih hbb' (h.step hnodup hbb' hstep) hrun

/-- **What `OneBlock` finds**: the operands before an instruction in the basic block are not
reported, the others are in `needed`. -/
theorem oneBlock_supplied {pos nextBBID : Nat} (hbb : I.tables.bb2Ins[nextBBID]? = some bb)
    (hnodup : bb.Nodup) (htid : d.tid = b.tid) (hlast : bb.getLast? = some d.id)
    (h : oneBlock I pos t d b nextBBID = some t') :
    ∃ new, t'.found = new ++ t.found ∧ ∀ g ∈ new, g.inst = scanName b (cntDiff t d b) t g.inst.id ∧
      g.inst.id ∈ bb ∧ ∀ sid ∈ I.tables.operands g.inst.id,
        ([sid, g.inst.id].Sublist bb → scanName b (cntDiff t d b) t sid ∉ t'.unneededDI) ∧
        (¬ [sid, g.inst.id].Sublist bb → (b.tid, sid) ∈ t'.needed) := by
  rcases oneBlock_cases h with ⟨bb', sc, sc', hbb', hfound, hrun, rfl⟩
  cases hbb.symm.trans hbb'
  have hscan := (ScanSupplied.init htid hlast hfound).rest bb hnodup (List.append_nil bb).symm hrun
  rcases hscan.new with ⟨new, hnew, hall⟩
  refine ⟨new, hnew, fun g hg => ⟨(hall g hg).1, ?_, fun sid hsid => ?_⟩⟩
  · rcases (hall g hg).2.1 with hmem | ⟨rfl, hl⟩
    · exact hmem
    · exact List.mem_of_getLast? hl
  · rcases (hall g hg).2.2 sid hsid with ⟨hin, hout⟩
    exact ⟨hin, fun hsub => Finset.mem_union_right _ (hout hsub)⟩

/-! ## The invariant -/

/-- The operand `sid` of the instance `d`, of which the instances `before` have been met after `d`:
it is still to be met and needed, or has been met and is not reported. -/
structure Supplied (T : Tables) (trace : List SmallestBlock) (t : PassSets) (before : List Instance)
    (d : Instance) (sid : Nat) : Prop where
  unmet : (∀ i ∈ before, i.inst.key ≠ (d.inst.tid, sid)) →
    (d.inst.tid, sid) ∈ t.needed ∨ SkippedIn T trace sid
  met : ∀ pre i mid, before = pre ++ i :: mid → i.inst.key = (d.inst.tid, sid) → i.act = d.act →
    (∀ j ∈ mid, j.inst.key ≠ (d.inst.tid, sid)) → i.inst ∉ t.unneededDI

structure OperandsClosed (T : Tables) (trace : List SmallestBlock) (t : PassSets)
    (insts : List Instance) : Prop where
  known : ∀ g ∈ t.found, t.Visited g.inst ∨ SkippedIn T trace g.inst.id
  supplied : ∀ g ∈ t.found, ∀ before d after, insts = before ++ d :: after → d.inst = g.inst →
    ∀ sid ∈ T.operands g.inst.id, Supplied T trace t before d sid

theorem Supplied.mono {before : List Instance} {d : Instance} {sid : Nat}
    (h : Supplied T trace t before d sid) (hneeded : t.needed ⊆ t'.needed)
    (hun : t'.unneededDI ⊆ t.unneededDI) : Supplied T trace t' before d sid := by
  refine ⟨fun hall => ?_, fun pre i mid hsplit hkey hact hmid hmem => ?_⟩
  · rcases h.unmet hall with hmem | hskip
    · exact Or.inl (hneeded hmem)
    · exact Or.inr hskip
  · exact h.met pre i mid hsplit hkey hact hmid (hun hmem)

/-- An operand stays supplied when the execution `w` is met before. If it is `w` that supplies the
operand, it is needed, and so not reported. -/
theorem Supplied.visit {id sid : Nat} {n : Bool} {w d : Instance} {before after : List Instance}
    (hvisit : Visit I b s id s' n) (hmet : Met s r) (hid : ¬ SkippedIn I.tables trace id)
    (hw : w.inst = s.toPassSets.name b.tid id) (hsplit : r.insts = before ++ d :: after)
    (h : Supplied I.tables trace s.toPassSets before d sid) :
    Supplied I.tables trace s'.toPassSets (w :: before) d sid := by
  have hkeyw : w.inst.key = (b.tid, id) := by
    rw [hw]
    rfl
  rcases hvisit.sets with ⟨report, hreport, hsets⟩
  have hcases := (PassSets.visit_cases hreport hsets).2
  refine ⟨fun hall => ?_, fun pre j mid hpre hkey hact hmid hmem => ?_⟩
  · have hne : (d.inst.tid, sid) ≠ (b.tid, id) := by
      rw [← hkeyw]
      exact (hall w List.mem_cons_self).symm
    rcases h.unmet fun j hj => hall j (List.mem_cons_of_mem _ hj) with hneeded | hskip
    · left
      rcases hcases with ⟨-, -, -, hone⟩ | ⟨-, -, -, -, hneeded', -⟩
      · exact (mem_oneInstruction hone).2.1 _ hneeded hne
      · rw [hneeded']
        exact hneeded
    · exact Or.inr hskip
  · cases pre with
    | nil =>
      rcases List.cons.inj hpre with ⟨rfl, rfl⟩
      rw [hkeyw] at hkey
      have hn : n = true := by
        rcases h.unmet hmid with hneeded | hskip
        · rw [← hkey] at hneeded
          exact hvisit.isNeeded hneeded
        · rw [← (Prod.mk.inj hkey).2] at hskip
          exact absurd hskip hid
      rcases hvisit.unneeded_cases hmem with hmem | ⟨hno, -⟩
      · exact (hmet.unneeded _ hmem).ne_name b.tid id hw
      · rw [hn] at hno
        cases hno
    | cons i' pre =>
      rcases List.cons.inj hpre with ⟨rfl, rfl⟩
      rcases hvisit.unneeded_cases hmem with hmem | ⟨-, heq⟩
      · exact h.met pre j mid rfl hkey hact hmid hmem
      · rw [hmet.name] at heq
        have hmem' : j ∈ r.insts := by
          rw [hsplit]
          simp
        exact hmet.named.fresh hmem' _ _ heq

/-- The operands of an execution that is reported when it is met are in `Needed`. -/
theorem Visit.operands_needed {id : Nat} (hvisit : Visit I b s id s' true) :
    ∀ sid ∈ I.tables.operands id, (b.tid, sid) ∈ s'.needed := by
  rcases hvisit.sets with ⟨report, hreport, hsets⟩
  rcases (PassSets.visit_cases hreport hsets).2 with ⟨-, -, -, hone⟩ | ⟨hn, -⟩
  · exact operands_mem hone
  · cases hn

/-- **Meeting an execution.** -/
theorem OperandsClosed.visit {id : Nat} {n : Bool} (hvisit : Visit I b s id s' n) (hmet : Met s r)
    (hid : ¬ SkippedIn I.tables trace id) (h : OperandsClosed I.tables trace s.toPassSets r.insts) :
    OperandsClosed I.tables trace s'.toPassSets (r.meet b.tid f id).insts := by
  have hname := hmet.name b.tid id
  -- what has been found before is not the execution that is met
  have hold : ∀ g ∈ s.found, g.inst ≠ s.toPassSets.name b.tid id := by
    intro g hg heq
    rcases h.known g hg with hv | hskip
    · exact hv.ne_name b.tid id heq
    · rw [heq] at hskip
      exact hid hskip
  constructor
  · intro g hg
    rw [hvisit.visited]
    rcases hvisit.found_cases hg with hg | ⟨-, heq⟩
    · rcases h.known g hg with hv | hskip
      · exact Or.inl (Or.inl hv)
      · exact Or.inr hskip
    · exact Or.inl (Or.inr heq)
  · intro g hg before d after hsplit hd sid hsid
    cases before with
    | nil =>
      -- the execution that is met
      rcases List.cons.inj hsplit with ⟨hd', -⟩
      rw [← hd', ← hname] at hd
      replace hd : s.toPassSets.name b.tid id = g.inst := hd
      rcases hvisit.found_cases hg with hg | ⟨rfl, -⟩
      · exact absurd hd.symm (hold g hg)
      refine ⟨fun _ => Or.inl ?_, fun pre i mid hnil => absurd hnil (by simp)⟩
      rw [← hd] at hsid
      rw [← hd']
      exact hvisit.operands_needed sid hsid
    | cons w before =>
      rcases List.cons.inj hsplit with ⟨rfl, hold'⟩
      replace hold' : r.insts = before ++ d :: after := hold'
      have hg : g ∈ s.found := by
        rcases hvisit.found_cases hg with hg | ⟨-, heq⟩
        · exact hg
        · rw [heq, hname] at hd
          have hmem : d ∈ r.insts := by
            rw [hold']
            simp
          exact absurd hd (hmet.named.fresh hmem _ _)
      exact (h.supplied g hg before d after hold' hd sid hsid).visit hvisit hmet hid hname.symm hold'

/-- Of one execution, what is earlier in the basic block has been met before. -/
theorem Reading.Arranged.mem_before (harranged : r.Arranged T trace)
    (hnodup : T.bb2Ins.flatten.Nodup) (hbb : bb ∈ T.bb2Ins) {before after : List Instance}
    {i x : Instance} (hsplit : r.insts = before ++ x :: after) (hi : i ∈ r.insts)
    (htid : i.inst.tid = x.inst.tid) (hexec : i.exec = x.exec)
    (hsub : [i.inst.id, x.inst.id].Sublist bb) : i ∈ before := by
  have hdistinct : bb.Nodup := (List.nodup_flatten.mp hnodup).1 bb hbb
  rw [hsplit] at hi
  rcases List.mem_append.mp hi with hi | hi
  · exact hi
  rcases List.mem_cons.mp hi with rfl | hi
  · exact absurd hsub (not_pair_sublist hdistinct hsub)
  · have hafter : MetAfter T x i :=
      harranged.metAfter (hsplit.trans (List.append_cons before x after)) (by simp) hi
    have hsub' := hafter.sublist hnodup hbb htid.symm hexec.symm
      (Or.inl (hsub.subset (by simp)))
    exact absurd hsub' (not_pair_sublist hdistinct hsub)

/-- What has been met before an instance of the frame's execution, by the same activation, belongs
to that execution. -/
theorem FrameHolds.exec_of_before (hframe : FrameHolds T trace r tid f bb)
    (harranged : r.Arranged T trace) {before after : List Instance} {i x : Instance}
    (hsplit : r.insts = before ++ x :: after) (hi : i ∈ before) (hx : x.inst.tid = tid)
    (hexec : x.exec = f.exec) (htid : i.inst.tid = x.inst.tid) (hact : i.act = x.act) :
    i.exec = x.exec := by
  have himem : i ∈ r.insts := by
    rw [hsplit]
    exact List.mem_append_left _ hi
  have hxmem : x ∈ r.insts := by
    rw [hsplit]
    simp
  have hxact : x.act = f.act := (hframe.within x hxmem hx hexec).2
  have hbefore : MetAfter T i x := harranged.metAfter hsplit hi List.mem_cons_self
  refine Nat.le_antisymm ?_ ((hbefore.2 htid).1 hact)
  rw [hexec]
  exact hframe.latest i himem (htid.trans hx) (hact.trans hxact)

/-- An instance that has the name `OneBlock` makes for an instruction of the basic block belongs to
the execution of the frame `f`. -/
theorem FrameHolds.exec_of_name (hframe : FrameHolds T trace r b.tid f bb)
    (hkinds : KindsAgree T trace) (harranged : r.Arranged T trace) (hstart : f.start = 0)
    {diff : Int} (hown : ∀ i ∈ r.insts, i.inst.tid = b.tid → i.exec = f.exec →
      i.inst = scanName b diff t i.inst.id) {x : Instance} (hx : x ∈ r.insts)
    (hid : x.inst.id ∈ bb) (hname : x.inst = scanName b diff t x.inst.id) :
    x.inst.tid = b.tid ∧ x.exec = f.exec := by
  have hdrop : x.inst.id ∈ bb.drop f.start := by
    rw [hstart]
    exact hid
  rcases hframe.covered _ hdrop with hskip | ⟨i, hi, hitid, hiid, hiexec⟩
  · exact absurd hskip (harranged.not_skipped hkinds hx)
  · have hinst : i.inst = x.inst := by
      rw [hown i hi hitid hiexec, hiid, ← hname]
    rw [← harranged.eq_of_inst hi hx hinst]
    exact ⟨hitid, hiexec⟩

/-- **`OneBlock`** keeps the invariant when it names the executions of the frame `f`, of which all
instructions have been met. -/
theorem OperandsClosed.rescan {pos nextBBID : Nat} (hnodup : I.tables.bb2Ins.flatten.Nodup)
    (hkinds : KindsAgree I.tables trace) (harranged : r.Arranged I.tables trace)
    (hcount : t.instCount = r.count) (hbb : I.tables.bb2Ins[nextBBID]? = some bb)
    (hframe : FrameHolds I.tables trace r b.tid f bb) (hstart : f.start = 0)
    (htid : d.tid = b.tid) (hlast : bb.getLast? = some d.id)
    (hown : ∀ i ∈ r.insts, i.inst.tid = b.tid → i.exec = f.exec →
      i.inst = scanName b (cntDiff t d b) t i.inst.id)
    (h : OperandsClosed I.tables trace t r.insts)
    (hone : oneBlock I pos t d b nextBBID = some t') :
    OperandsClosed I.tables trace t' r.insts := by
  have hmem : bb ∈ I.tables.bb2Ins := List.mem_of_getElem? hbb
  have hdistinct : bb.Nodup := (List.nodup_flatten.mp hnodup).1 bb hmem
  have hscanned := oneBlock_scanned hone
  rcases oneBlock_supplied hbb hdistinct htid hlast hone with ⟨new, hnew, hall⟩
  have hcovered : ∀ id ∈ bb, SkippedIn I.tables trace id ∨
      ∃ i ∈ r.insts, i.inst.tid = b.tid ∧ i.inst.id = id ∧ i.exec = f.exec := by
    intro id hid
    apply hframe.covered
    rw [hstart]
    exact hid
  have hvisited : ∀ {w : DynamicInst}, t.Visited w → t'.Visited w := by
    intro w hw
    unfold PassSets.Visited
    rw [hscanned.instCount]
    exact hw
  constructor
  · intro g hg
    rw [hnew] at hg
    rcases List.mem_append.mp hg with hg | hg
    · rcases hall g hg with ⟨hname, hid, -⟩
      rcases hcovered _ hid with hskip | ⟨i, hi, hitid, hiid, hiexec⟩
      · exact Or.inr hskip
      · left
        apply hvisited
        rw [hname, ← hiid, ← hown i hi hitid hiexec]
        unfold PassSets.Visited
        rw [hcount]
        exact (harranged.named i hi).1
    · rcases h.known g hg with hv | hskip
      · exact Or.inl (hvisited hv)
      · exact Or.inr hskip
  · intro g hg before x after hsplit hx sid hsid
    rw [hnew] at hg
    rcases List.mem_append.mp hg with hg | hg
    swap
    · exact (h.supplied g hg before x after hsplit hx sid hsid).mono hscanned.needed
        hscanned.unneeded
    rcases hall g hg with ⟨hname, hid, hoperands⟩
    rcases hoperands sid hsid with ⟨hin, hout⟩
    have hxmem : x ∈ r.insts := by
      rw [hsplit]
      simp
    rw [← hx] at hname hid hin hout
    rcases hframe.exec_of_name hkinds harranged hstart hown hxmem hid hname with ⟨hxtid, hxexec⟩
    refine ⟨fun hno => ?_, fun pre i mid hpre hkey hact hmid => ?_⟩
    · rw [hxtid] at hno ⊢
      by_cases hsub : [sid, x.inst.id].Sublist bb
      swap
      · exact Or.inl (hout hsub)
      rcases hcovered sid (hsub.subset (by simp)) with hskip | ⟨i, hi, hitid, hiid, hiexec⟩
      · exact Or.inr hskip
      · -- the operand has been met in this execution, so before `x`
        rw [← hiid] at hsub
        have hbefore := harranged.mem_before hnodup hmem hsplit hi (hitid.trans hxtid.symm)
          (hiexec.trans hxexec.symm) hsub
        exact absurd (Prod.ext hitid hiid) (hno i hbefore)
    · have hi : i ∈ before := by
        rw [hpre]
        simp
      have himem : i ∈ r.insts := by
        rw [hsplit]
        exact List.mem_append_left _ hi
      have hitid : i.inst.tid = x.inst.tid := (Prod.mk.inj hkey).1
      have hiid : i.inst.id = sid := (Prod.mk.inj hkey).2
      have hiexec := hframe.exec_of_before harranged hsplit hi hxtid hxexec hitid hact
      have hbefore : MetAfter I.tables i x := harranged.metAfter hsplit hi List.mem_cons_self
      have hsub := hbefore.sublist hnodup hmem hitid hiexec (Or.inr hid)
      rw [hown i himem (hitid.trans hxtid) (hiexec.trans hxexec), hiid]
      rw [hiid] at hsub
      exact hin hsub

/-- A terminator is checked whose execution has been met as a whole. -/
theorem OperandsClosed.check (P : Program) (hI : I.tables = P.toTables)
    (hnodup : I.tables.bb2Ins.flatten.Nodup) (hkinds : KindsAgree I.tables trace)
    {s₀ : PassState} {nextBBID : Nat} {e : Nat × DynamicInst × Bool}
    (harranged : r.Arranged I.tables trace) (hmet : Met s r)
    (hbb : I.tables.bb2Ins[nextBBID]? = some bb)
    (hframe : FrameHolds I.tables trace r b.tid f bb) (hstart : f.start = 0)
    (hterm : s.terminatorStack b.tid = e :: es)
    (htop : e.2.2 = false → TerminatorOf I.tables r.insts b.tid f e.2.1)
    (hown : ∀ sets d nextBBID, OneBlockCall I s₀ b sets d nextBBID → ∀ t ∈ r.insts, t.inst = d →
      ∀ i ∈ r.insts, i.inst.tid = d.tid → i.exec = t.exec →
        i.inst = scanName b (cntDiff sets d b) sets i.inst.id)
    (h : OperandsClosed I.tables trace s.toPassSets r.insts)
    (hcheck : Check I b (OneBlockCall I s₀ b) nextBBID s s') :
    OperandsClosed I.tables trace s'.toPassSets r.insts := by
  cases hcheck with
  | needed => exact h
  | scan hterm' hneeded hsets hcall =>
    cases hterm.symm.trans hterm'
    have hlast := (htop hneeded).last P hI hbb hframe hstart
    rcases htop hneeded with ⟨t, ht, hd, htid, hexec, -⟩
    rw [← hd] at hsets hcall htid hlast
    refine h.rescan hnodup hkinds harranged hmet.count hbb hframe hstart htid hlast ?_ hsets
    intro i hi hitid hiexec
    exact hown _ _ _ hcall t ht rfl i hi (hitid.trans htid.symm) (hiexec.trans hexec.symm)

/-! ## A turn -/

/-- The invariant between two turns. -/
structure Answered (T : Tables) (trace : List SmallestBlock) (s : PassState) (r : Reading) :
    Prop where
  met : Met s r
  closed : OperandsClosed T trace s.toPassSets r.insts
  entries : ∀ tid, Entries T r.insts tid (r.frames tid) (s.nextBBUsed tid) (s.terminatorStack tid)

theorem Answered.followed (h : Answered T trace s r) : Followed T s r := ⟨h.met, h.entries⟩

/-- The turn comes to a frame: the terminator of the execution before may be checked. -/
theorem Answered.enter (P : Program) (hI : I.tables = P.toTables)
    (hnodup : I.tables.bb2Ins.flatten.Nodup) (hkinds : KindsAgree I.tables trace)
    (h : Answered I.tables trace s r) (hordered : r.Ordered I.tables)
    (harranged : r.Arranged I.tables trace) (hopens : Opens I.tables r bb b f fs)
    (henter : s.enter I b = some s') (htype : b.type ≠ .declareBlock)
    (hown : ∀ sets d nextBBID, OneBlockCall I s b sets d nextBBID → ∀ t ∈ r.insts, t.inst = d →
      ∀ i ∈ r.insts, i.inst.tid = d.tid → i.exec = t.exec →
        i.inst = scanName b (cntDiff sets d b) sets i.inst.id) :
    OperandsClosed I.tables trace s'.toPassSets r.insts := by
  refine PassState.enter_sets (Q := fun sets => OperandsClosed I.tables trace sets r.insts) htype
    henter h.closed fun nextBBID l s₁ hlast hnext hne hcheck => ?_
  cases hopens with
  | activation hlast' => omega
  | @execution f₀ fs _ hframes hstart =>
    have hentries := h.entries b.tid
    rw [hframes] at hentries
    rcases hentries.cases_top with ⟨n, ns, e, es, hnext', hterm, htop, -⟩
    cases hnext.symm.trans hnext'
    have hbbID : nextBBID = f₀.bbID := htop.bbID
    have hmem : f₀ ∈ r.frames b.tid := by
      rw [hframes]
      exact List.mem_cons_self
    rcases hordered.frames b.tid f₀ hmem with ⟨-, -, bb₀, hbb₀, -⟩
    have hframe := harranged.frames b.tid f₀ hmem bb₀ hbb₀
    rw [← hbbID] at hbb₀
    exact h.closed.check P hI hnodup hkinds harranged h.met hbb₀ hframe hstart hterm
      htop.terminator hown hcheck
  | @part f₀ fs _ hframes _ hbbID =>
    have hentries := h.entries b.tid
    rw [hframes] at hentries
    rcases hentries.cases_top with ⟨n, ns, e, es, hnext', -, htop, -⟩
    cases hnext.symm.trans hnext'
    have hn : nextBBID = f₀.bbID := htop.bbID
    exact absurd (hn.trans hbbID.symm) hne

/-- The executions of the block are visited. -/
theorem OperandsClosed.visits {su su' : PassState × Bool} {ids : List Nat}
    (hvisits : Visits I b su ids su') (hmet : Met su.1 r)
    (hskip : ∀ id ∈ ids, ¬ SkippedIn I.tables trace id)
    (h : OperandsClosed I.tables trace su.1.toPassSets r.insts) :
    OperandsClosed I.tables trace su'.1.toPassSets (ids.foldl (Reading.meet b.tid f) r).insts := by
  induction hvisits generalizing r with
  | nil => exact h
  | cons hvisit _ ih =>
    apply ih
    · exact hmet.visit hvisit
    · exact fun id hid => hskip id (List.mem_cons_of_mem _ hid)
    · exact h.visit hvisit hmet (hskip _ List.mem_cons_self)

/-- At the first block of an activation its frame is left. -/
theorem Answered.leaves (P : Program) (hI : I.tables = P.toTables)
    (hnodup : I.tables.bb2Ins.flatten.Nodup) (hkinds : KindsAgree I.tables trace)
    {s₀ : PassState} (h : Answered I.tables trace s r) (harranged : r.Arranged I.tables trace)
    (hframes : r.frames b.tid = f :: fs) (hbbID : f.bbID = b.bbID)
    (hbb : I.tables.bb2Ins[b.bbID]? = some bb) (hstart : 0 < b.isFirst → f.start = 0)
    (hown : ∀ sets d nextBBID, OneBlockCall I s₀ b sets d nextBBID → ∀ t ∈ r.insts, t.inst = d →
      ∀ i ∈ r.insts, i.inst.tid = d.tid → i.exec = t.exec →
        i.inst = scanName b (cntDiff sets d b) sets i.inst.id)
    (hleave : Leaves I b (OneBlockCall I s₀ b) s s') :
    OperandsClosed I.tables trace s'.toPassSets r.insts := by
  have hmore : ∀ needed, s.needed ⊆ needed → OperandsClosed I.tables trace
      { s.toPassSets with needed := needed } r.insts := by
    intro needed hneeded
    refine ⟨h.closed.known, fun g hg before d after hsplit hd sid hsid => ?_⟩
    exact (h.closed.supplied g hg before d after hsplit hd sid hsid).mono hneeded
      (Finset.Subset.refl _)
  refine hleave.sets (Q := fun sets => OperandsClosed I.tables trace sets r.insts) hmore
    fun needed s₁ hneeded hfirst hcheck => ?_
  have hentries := h.entries b.tid
  rw [hframes] at hentries
  rcases hentries.cases_top with ⟨n, ns, t, ts, -, hterm, htop, -⟩
  have hmem : f ∈ r.frames b.tid := by
    rw [hframes]
    exact List.mem_cons_self
  have hframe := harranged.frames b.tid f hmem bb (by rw [hbbID]; exact hbb)
  have hmet' : Met { s with needed := needed } r :=
    ⟨h.met.pos, h.met.count, h.met.named, h.met.unneeded, h.met.found⟩
  have hterm' : ({ s with needed := needed } : PassState).terminatorStack b.tid = t :: ts := hterm
  have hclosed : OperandsClosed I.tables trace ({ s with needed := needed } : PassState).toPassSets
      r.insts := hmore needed hneeded
  exact hclosed.check P hI hnodup hkinds harranged hmet' hbb hframe (hstart hfirst) hterm'
    htop.terminator hown hcheck

/-- **A turn** keeps the invariant. -/
theorem Answered.step (P : Program) (hI : I.tables = P.toTables)
    (hnodup : I.tables.bb2Ins.flatten.Nodup) (hkinds : KindsAgree I.tables trace)
    (h : Answered I.tables trace s r) (hordered : r.Ordered I.tables)
    (harranged : r.Arranged I.tables trace) (hb : b ∈ trace)
    (hcond : b.type ≠ .declareBlock → (b.skipped I.tables = some true → b.isFirst = 0) ∧
      ∀ sets d nextBBID, OneBlockCall I s b sets d nextBBID →
        ∀ t ∈ r'.insts, t.inst = d → ∀ i ∈ r'.insts, i.inst.tid = d.tid → i.exec = t.exec →
          i.inst = scanName b (cntDiff sets d b) sets i.inst.id)
    (hstep : extractStep I s b = some s') (hread : readStep I.tables r b = some r') :
    Answered I.tables trace s' r' := by
  rcases extractStep_cases hstep with ⟨htype, rfl⟩ | ⟨htype, s₁, henter, hrest⟩
  · rcases readStep_cases hread with ⟨-, rfl⟩ | ⟨hne, -⟩
    · exact ⟨h.followed.tick.met, h.closed, h.entries⟩
    · exact absurd htype hne
  rcases hcond htype with ⟨hfirst, hown⟩
  have hfollowed := h.followed.step hfirst hstep hread
  refine ⟨hfollowed.met, ?_, hfollowed.entries⟩
  rcases readStep_cases hread with ⟨he, -⟩ | ⟨-, bb, f, fs, hbb, hfits, hopens, hstart, rfl⟩
  · exact absurd he htype
  replace hown : ∀ sets d nextBBID, OneBlockCall I s b sets d nextBBID →
      ∀ t ∈ (r.meets I.tables f b).insts, t.inst = d → ∀ i ∈ (r.meets I.tables f b).insts,
        i.inst.tid = d.tid → i.exec = t.exec →
          i.inst = scanName b (cntDiff sets d b) sets i.inst.id := hown
  have hsub : r.insts ⊆ (r.meets I.tables f b).insts := (foldl_meet_suffix _ _).subset
  have hentered : OperandsClosed I.tables trace (s₁, false).1.toPassSets r.insts :=
    h.enter P hI hnodup hkinds hordered harranged hopens henter htype
      fun sets d n hcall t ht htd i hi => hown sets d n hcall t (hsub ht) htd i (hsub hi)
  rcases hrest with ⟨hskip, rfl⟩ | ⟨-, s₂, used, s₃, s₄, hvisits, hmark, hleave, rfl⟩
  · show OperandsClosed I.tables trace s₁.toPassSets (r.meets I.tables f b).insts
    rw [(h.followed.skip hfits hopens htype henter hskip).1]
    exact hentered
  · have hvisited := hentered.visits (f := f) hvisits (h.followed.enter hopens henter htype).met
      fun id hid => hkinds.not_skipped hb (List.mem_reverse.mp hid)
    have hmarked : Answered I.tables trace s₃ ((r.meets I.tables f b).inside b.tid f fs) := by
      have hbody := h.followed.body hbb hfits hopens htype henter hvisits hmark
      refine ⟨hbody.met, ?_, hbody.entries⟩
      rcases PassState.mark_cases hmark with ⟨e, l, -, rfl⟩
      exact hvisited
    have hinside := harranged.meets hordered hb htype hbb hfits hopens
    have hleft := hmarked.leaves P hI hnodup hkinds hinside inside_frames_self hopens.bbID.1 hbb
      hstart hown hleave
    exact hleft


/-- **The operands of what is found needed are not reported**, when no other activation executes
their instruction in between. -/
theorem operand_not_reported (P : Program) (hI : I.tables = P.toTables)
    (hnodup : I.tables.bb2Ins.flatten.Nodup) (hkinds : KindsAgree I.tables trace)
    (hcomplete : Complete I.tables trace r) (hown : RescansOwn I trace r)
    (hrun : run (extractStep I) {} trace.reverse = some s) {g : Found} (hg : g ∈ s.found)
    {pre mid after : List Instance} {x y : Instance} (hsplit : r.insts = pre ++ x :: mid ++ y :: after)
    (hy : y.inst = g.inst) {sid : Nat} (hsid : sid ∈ I.tables.operands g.inst.id)
    (hx : x.inst.key = (y.inst.tid, sid)) (hact : x.act = y.act)
    (hlatest : ∀ i ∈ mid, i.inst.key = x.inst.key → i.act ≠ y.act)
    (hothers : ∀ i ∈ mid, i.inst.key = x.inst.key → i.act = y.act) : x.inst ∉ s.unneededDI := by
  have hanswered : Answered I.tables trace s r := by
    refine run_related (R := Answered I.tables trace) ?_ ?_ hrun hcomplete.1
    · exact ⟨⟨rfl, rfl, fun _ hi => (nomatch hi), fun _ hd => absurd hd (Finset.notMem_empty _),
        fun _ hg => (nomatch hg)⟩, ⟨fun _ hg => (nomatch hg), fun _ hg => (nomatch hg)⟩, fun _ => .nil⟩
    · intro pre b post s₁ s₂ r₁ r₂ htrace hs hr h hstep hread
      have hmem : ∀ b' ∈ pre ++ [b], b' ∈ trace := by
        intro b' hb'
        rw [← List.mem_reverse, htrace]
        rcases List.mem_append.mp hb' with hb' | hb'
        · exact List.mem_append_left _ hb'
        · exact List.mem_append_right _ (List.mem_singleton.mp hb' ▸ List.mem_cons_self)
      have hsub : r₂.insts ⊆ r.insts := by
        have hrest := hcomplete.1
        rw [htrace] at hrest
        rcases run_append_eq_some.mp hrest with ⟨r₁', hr₁', hrest⟩
        cases hr.symm.trans hr₁'
        rcases run_cons_eq_some.mp hrest with ⟨r₂', hr₂', hrest⟩
        cases hread.symm.trans hr₂'
        exact (insts_suffix hrest).subset
      refine h.step P hI hnodup hkinds (ordered_of_run hr)
        (arranged_of_run (fun b' hb' => hmem b' (List.mem_append_left _ hb')) hr)
        (hmem b (by simp)) (fun htype => ?_) hstep hread
      rcases hown pre b post s₁ htrace hs htype with ⟨hfirst, hown⟩
      exact ⟨hfirst, fun sets d n hcall t ht htd i hi => hown sets d n hcall t (hsub ht) htd i (hsub hi)⟩
  have hsupplied := hanswered.closed.supplied g hg (pre ++ x :: mid) y after hsplit hy sid hsid
  refine hsupplied.met pre x mid rfl hx hact fun i hi hkey => ?_
  rw [← hx] at hkey
  exact hlatest i hi hkey (hothers i hi hkey)

end

/-! ## A recursive function -/

/-- `s = ...; if (...) { f(); return s; } else return s;`. -/
def recursionTables : Tables where
  ins := [{ type := .normalInst }, { type := .terminatorInst, successors := [1, 2] },
    { type := .callInst, fn := "f" }, { type := .returnInst, ssaDependencies := [(.inst, 0)] },
    { type := .returnInst, ssaDependencies := [(.inst, 0)] }]
  bb2Ins := [[0, 1], [2, 3], [4]]

/-- No basic block of `f` has a post-dominator. -/
def recursionInput : PassInput := ⟨recursionTables, fun _ => ∅, fun _ => ∅⟩

def recursionProgram : Program where
  toTables := recursionTables
  block_ne := by decide
  ids_lt := by decide
  ends := by
    intro bb hbb k id i hid hi
    simp only [recursionTables, List.mem_cons, List.not_mem_nil, or_false] at hbb
    rcases hbb with rfl | rfl | rfl
    · match k, hid with
      | 0, hid =>
        cases hid
        cases hi
        decide
      | 1, hid =>
        cases hid
        cases hi
        decide
    · match k, hid with
      | 0, hid =>
        cases hid
        cases hi
        decide
      | 1, hid =>
        cases hid
        cases hi
        decide
    · match k, hid with
      | 0, hid =>
        cases hid
        cases hi
        decide
  length_le := by decide

/-- The first basic block of `f`. -/
def recursionEntry : SmallestBlock :=
  { type := .normalBlock, stop := 2, isFirst := 2, lastBBID := -1 }

/-- `f` returns at once. -/
def directTrace : List SmallestBlock :=
  [recursionEntry, { type := .normalBlock, bbID := 2, stop := 1, isLast := 2, lastBBID := 0 }]

/-- `f` calls itself once. -/
def recursiveTrace : List SmallestBlock :=
  [recursionEntry, { type := .normalBlock, bbID := 1, stop := 1, lastBBID := 0 },
    { type := .normalBlock, stop := 2, isFirst := 1, caller := 2, lastBBID := -1 },
    { type := .normalBlock, bbID := 2, stop := 1, isLast := 1, caller := 2, lastBBID := 0 },
    { type := .normalBlock, bbID := 1, start := 1, stop := 2, isLast := 2, lastBBID := 0 }]

/-- The terminator is needed when it is met, so `OneBlock` is not called. -/
theorem directTrace_rescansOwn (r : Reading) : RescansOwn recursionInput directTrace r := by
  refine .cons (fun _ => ⟨fun h => absurd h (by decide), ?_⟩) fun s hs => .cons (fun _ =>
    ⟨fun h => absurd h (by decide), ?_⟩) fun s _ => .nil s
  · intro sets d n hcall
    cases hcall with
    | finished _ hlast => cases hlast
    | first _ _ _ _ hfirst => cases hfirst
  · intro sets d n hcall
    cases hcall with
    | @finished _ _ e l _ _ _ _ hterm hneeded =>
      have hstack := congrArg (Option.map fun s => s.terminatorStack 0) hs
      rw [show (extractStep recursionInput {} _).map (fun s => s.terminatorStack 0) =
        some [(2, ⟨0, 0, 0⟩, true)] by decide +kernel, Option.map_some] at hstack
      cases hterm.symm.trans (Option.some.inj hstack).symm
      cases hneeded
    | @first s₁ s₂ s₃ _ _ e l _ henter _ hbody _ hcaller _ hterm hneeded =>
      have hstack := congrArg (Option.bind · fun s => (s.enter recursionInput recursionEntry).bind
        fun s => (s.body recursionInput recursionEntry).bind fun s =>
          (s.needCaller recursionEntry).map fun s => s.terminatorStack 0) hs
      simp only [Option.bind_some, henter, hbody, hcaller, Option.map_some] at hstack
      have hone := hstack.symm.trans (show _ = some [(0, ⟨0, 1, 0⟩, true)] by decide +kernel)
      have hone : s₃.terminatorStack 0 = [(0, ⟨0, 1, 0⟩, true)] := Option.some.inj hone
      cases hterm.symm.trans hone
      cases hneeded

theorem directTrace_kinds : KindsAgree recursionTables directTrace := by
  unfold KindsAgree
  decide

theorem recursiveTrace_kinds : KindsAgree recursionTables recursiveTrace := by
  unfold KindsAgree
  decide

theorem operand_not_reported_direct : ∃ r s, Complete recursionTables directTrace r ∧
    run (extractStep recursionInput) {} directTrace.reverse = some s ∧
      (⟨⟨0, 0, 0⟩, 0, 1⟩ : Instance) ∈ r.insts ∧ ⟨0, 0, 0⟩ ∉ s.unneededDI := by
  rcases Option.isSome_iff_exists.mp (show (run (extractStep recursionInput) {}
    directTrace.reverse).isSome = true by decide +kernel) with ⟨s, hs⟩
  have hfound : (run (extractStep recursionInput) {} directTrace.reverse).all (fun s =>
      decide ((⟨⟨0, 4, 0⟩, 0, false, 0⟩ : Found) ∈ s.found)) = true := by decide +kernel
  rw [hs, Option.all_some, decide_eq_true_eq] at hfound
  have hcomplete : ∃ r, Complete recursionTables directTrace r ∧
      r.insts = [⟨⟨0, 0, 0⟩, 0, 1⟩, ⟨⟨0, 1, 0⟩, 0, 1⟩, ⟨⟨0, 4, 0⟩, 0, 0⟩] := by
    refine ⟨_, ⟨rfl, fun tid => ?_⟩, rfl⟩
    by_cases ht : tid = 0
    · rw [ht]
      rfl
    · simp [recursionEntry, Function.update_of_ne ht]
  rcases hcomplete with ⟨r, hr, hinsts⟩
  refine ⟨r, s, hr, hs, by rw [hinsts]; decide, ?_⟩
  exact operand_not_reported recursionProgram rfl (by decide) directTrace_kinds hr
    (directTrace_rescansOwn r) hs hfound
    (show r.insts = [] ++ (⟨⟨0, 0, 0⟩, 0, 1⟩ : Instance) :: [⟨⟨0, 1, 0⟩, 0, 1⟩] ++
      (⟨⟨0, 4, 0⟩, 0, 0⟩ : Instance) :: [] from hinsts) rfl (by decide) rfl rfl
    (fun i hi hkey => by
      rw [List.mem_singleton.mp hi] at hkey
      cases hkey)
    (fun i hi hkey => by
      rw [List.mem_singleton.mp hi] at hkey
      cases hkey)

/-- The inner activation takes the entry for the operand of the outer one. -/
theorem recursive_reported :
    ¬ ∀ (I : PassInput) (P : Program) (trace : List SmallestBlock) (r : Reading) (s : PassState),
      I.tables = P.toTables → I.tables.bb2Ins.flatten.Nodup → KindsAgree I.tables trace →
      Complete I.tables trace r → run (extractStep I) {} trace.reverse = some s →
      ∀ g ∈ s.found, ∀ (pre mid after : List Instance) (x y : Instance),
        r.insts = pre ++ x :: mid ++ y :: after → y.inst = g.inst →
        ∀ sid ∈ I.tables.operands g.inst.id, x.inst.key = (y.inst.tid, sid) → x.act = y.act →
          (∀ i ∈ mid, i.inst.key = x.inst.key → i.act ≠ y.act) → x.inst ∉ s.unneededDI := by
  intro h
  rcases Option.isSome_iff_exists.mp (show (run (extractStep recursionInput) {}
    recursiveTrace.reverse).isSome = true by decide +kernel) with ⟨s, hs⟩
  have hfound : (run (extractStep recursionInput) {} recursiveTrace.reverse).all (fun s =>
      decide ((⟨⟨0, 3, 0⟩, 0, false, 0⟩ : Found) ∈ s.found ∧ ⟨0, 0, -1⟩ ∈ s.unneededDI)) = true := by
    decide +kernel
  rw [hs, Option.all_some, decide_eq_true_eq] at hfound
  have hcomplete : ∃ r, Complete recursionTables recursiveTrace r ∧
      r.insts = [] ++ (⟨⟨0, 0, -1⟩, 0, 4⟩ : Instance) ::
        [⟨⟨0, 1, -1⟩, 0, 4⟩, ⟨⟨0, 2, 0⟩, 0, 0⟩, ⟨⟨0, 0, 0⟩, 1, 2⟩, ⟨⟨0, 1, 0⟩, 1, 2⟩,
          ⟨⟨0, 4, 0⟩, 1, 1⟩] ++ (⟨⟨0, 3, 0⟩, 0, 0⟩ : Instance) :: [] := by
    refine ⟨_, ⟨rfl, fun tid => ?_⟩, rfl⟩
    by_cases ht : tid = 0
    · rw [ht]
      rfl
    · simp [recursionEntry, Function.update_of_ne ht]
  rcases hcomplete with ⟨r, hr, hinsts⟩
  refine h recursionInput recursionProgram recursiveTrace r s rfl (by decide) recursiveTrace_kinds
    hr hs _ hfound.1 _ _ _ _ _ hinsts rfl 0 (by decide) rfl rfl ?_ hfound.2
  decide

end Slimmer
