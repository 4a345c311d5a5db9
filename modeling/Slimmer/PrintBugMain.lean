import Mathlib.Data.Prod.Lex
import Slimmer.AddressLinks
import Slimmer.ControlFlow
import Slimmer.GroupBlocks
import Slimmer.InstrumentedReports
import Slimmer.PinRecorder
import Slimmer.ReportLines
import Slimmer.RingReading

/-!
# `print-bug`

`main` (`tools/PrintBug/PrintBug.cpp`) reads the files of the pass and the two traces, merges the
trace, groups the memory, extracts the dependencies, prepares the post-dominators, sorts the executions
and prints the reports.

**Theorem (`main_prints`).** On the files of an instrumented program and the trace of any part of any
run of it, whatever the other files hold: `main` prints its reports if and only if the pin trace is
read to its end, `MergeTrace` accepts the entries of the trace and `GroupMemory` gets through. All other
passes return. The counts that are printed add up to the unneeded executions with a source line, and
each of those is an execution of a merged block.

**Fact (`exists_addrIds`).** No set of `Addr2Unneded` is missing in the list `PrintBug` is given.
-/

namespace Slimmer

/-! ## What a pass hands to the next one -/

namespace SegmentTree

variable {α β : Type} {a b : Nat}

/-- The tree with other values. -/
def map (f : α → β) : SegmentTree α → SegmentTree β
  | null => null
  | node type value left right lChild rChild =>
    node type (f value) left right (map f lChild) (map f rChild)

theorem WF.map {t : SegmentTree α} (h : WF a b t) (f : α → β) : WF a b (t.map f) := by
  induction h with
  | leaf htype hlt => exact .leaf htype hlt
  | split _ _ ihl ihr => exact .split ihl ihr

end SegmentTree

/-- `Addr2Group` and `Group2Addr`, as `GroupMemory` leaves them. -/
def GroupState.groups (s : GroupState) (h : s.Consistent) : Groups where
  addr2Group := s.addr2Group.map Int.ofNat
  group2Addr g := (s.group2Addr g).getD (.newTree 0)
  addr2Group_wf := h.addr_wf.map Int.ofNat
  hasTree := fun _ g _ => by
    cases htree : s.group2Addr (groupKey g) with
    | none => exact SegmentTree.newTree_wf 0
    | some tree => exact h.tree_wf _ tree htree

/-- `GroupMemory`, for `ExtractMemoryDependency`. The addresses of a block are 64-bit words. -/
def memoryGroups (T : Tables) (trace : List SmallestBlock) : Option Groups :=
  if hword : ∀ b ∈ trace, b.Words then
    (groupMemory T trace).pmap GroupState.groups fun _ hs =>
      consistent_of_run hword (List.append_nil _).symm hs
  else none

/-- The order of `DynamicInst`. -/
def DynamicInst.le (d e : DynamicInst) : Prop :=
  toLex (d.tid, toLex (d.id, d.cnt)) ≤ toLex (e.tid, toLex (e.id, e.cnt))

instance : DecidableRel DynamicInst.le := fun d e =>
  inferInstanceAs (Decidable (toLex (d.tid, toLex (d.id, d.cnt)) ≤ toLex (e.tid, toLex (e.id, e.cnt))))

instance : IsTrans DynamicInst DynamicInst.le := ⟨fun _ _ _ h h' => le_trans h h'⟩

instance : Std.Antisymm DynamicInst.le := ⟨fun d e h h' => by
  have heq := toLex.injective (le_antisymm h h')
  obtain ⟨htid, heq⟩ := Prod.mk.inj heq
  obtain ⟨hid, hcnt⟩ := Prod.mk.inj (toLex.injective heq)
  cases d
  cases e
  simp_all⟩

instance : Std.Total DynamicInst.le := ⟨fun _ _ => le_total _ _⟩

/-- `Addr2Unneded`, in the order of the addresses. Only addresses of a block have a set. -/
def PassSets.addrIds (t : PassSets) (trace : List SmallestBlock) : List AddrIds :=
  ((trace.map fun b => b.addrAt 0).toFinset.sort (· ≤ ·)).filterMap fun a =>
    if h : (t.addr2Unneeded a).sort (· ≤ ·) = [] then none else some ⟨_, h⟩

/-! ## `main` -/

/-- The files in `slimmer_dir`, the traces, and what is in the source files that can be opened. -/
structure Files where
  slimmerDir : InfoDir
  slimmerTrace : List UInt8
  pinTrace : List UInt8
  content : String → Option (List Char)

/-- What `PrintBug` reads: `Ins`, `MemDependencies` and `Addr2Unneded`. -/
def Files.codeInput (F : Files) (printCode : Bool) (ins : List LoadedInst) (bb2Ins : List (List Nat))
    (deps : Finset (DynamicInst × DynamicInst)) (addr2Unneded : List AddrIds) : CodeInput where
  tables := ⟨ins.map LoadedInst.toInstInfo, bb2Ins⟩
  memDependencies d := (dependenciesOf deps d).sort DynamicInst.le
  addr2Unneded := addr2Unneded
  file id := ((ins[id]?).map LoadedInst.file).getD ""
  printCode := printCode
  loc id := ((ins[id]?).map LoadedInst.loc).getD 0
  content := F.content

/-- `ImpactfulFunCall`, as a predicate. -/
def calledWithSyscall (impactfulFunCall : Finset UInt64) (fn : Nat) : Bool :=
  decide (fn ∈ impactfulFunCall.image UInt64.toNat)

/-- `main`. `buffer` is what `malloc` returns for a block; `printCode` is `SLIMMER_PRINT_CODE`. -/
def Files.main (F : Files) (lz : LZ4) {size : Nat} (buffer : Block size) (printCode : Bool)
    (fuel : Nat) : Option (List Report) := do
  let l ← loadInstInfo F.slimmerDir.inst
  let T : Tables := ⟨l.1.map LoadedInst.toInstInfo, l.2⟩
  let impactfulFunCall ← extractImpactfulFunCall lz buffer F.pinTrace
  let entries ← (TraceIter.open F.slimmerTrace buffer).readAll lz size fuel {}
  let blockTrace ← mergeTrace T (calledWithSyscall impactfulFunCall) entries
  let groups ← memoryGroups T blockTrace
  let deps ← extractMemoryDependency T groups blockTrace
  let edges ← scanBBGraph F.slimmerDir.bbGraph
  let postDominator ← preparePostDominator fuel edges
  let s ← run (extractStep ⟨T, postDominator, dependenciesOf deps⟩) {} blockTrace.reverse
  (F.codeInput printCode l.1 l.2 deps (s.addrIds blockTrace)).printBug fuel
    (s.unneededDI.sort DynamicInst.le)

section

variable {lz : LZ4} {size fuel fuel' : Nat} {entries : List Entry}

/-! ## The trace -/

/-- More fuel reads no more entries. -/
theorem TraceIter.readAll_mono {it : TraceIter} {p : FieldPtrs} (hle : fuel ≤ fuel')
    (h : it.readAll lz size fuel p = some entries) : it.readAll lz size fuel' p = some entries := by
  induction fuel generalizing fuel' it p entries with
  | zero => exact absurd h (by simp [TraceIter.readAll])
  | succ fuel ih =>
    obtain ⟨fuel', rfl⟩ : ∃ k, fuel' = k + 1 := ⟨fuel' - 1, by omega⟩
    obtain ⟨next, hnext, h⟩ := Option.bind_eq_some_iff.mp h
    refine Option.bind_eq_some_iff.mpr ⟨next, hnext, ?_⟩
    cases next with
    | none => exact h
    | some r =>
      obtain ⟨entries', hrest, hcons⟩ := Option.bind_eq_some_iff.mp h
      exact Option.bind_eq_some_iff.mpr ⟨entries', ih (Nat.le_of_succ_le_succ hle) hrest, hcons⟩

/-- The trace of some calls is read to its end, with any fuel that is enough. -/
theorem exists_entries (hlz : lz.Inverts size) (hsize : sizeOfMemmoveEvent ≤ size)
    (fresh : Nat → Block size) (buffer : Block size) (calls : List Invocation) :
    ∃ entries n, entries.filterMap Entry.event? = recordedEvents (fun _ => 0) calls ∧
      ∀ fuel, n ≤ fuel → (TraceIter.open (traceFile lz (recordTrace fresh calls)) buffer).readAll
        lz size fuel {} = some entries := by
  obtain ⟨done, last, hblocks, hfull, hend, hevents⟩ := recordTrace_laid fresh hsize calls
  have hpos : 0 < size := lt_of_lt_of_le (by decide) hsize
  obtain ⟨entries, hread, heq⟩ := readAll_blocks hlz hpos buffer hfull (recordedSlots_inRange hevents)
    (endLast_append_singleton last hend) (Nat.lt_succ_self _)
  rw [← hblocks] at hread
  exact ⟨entries, _, heq.trans hevents, fun fuel hfuel => TraceIter.readAll_mono hfuel hread⟩

/-! ## The memory groups -/

/-- The groups are there when `GroupMemory` gets through. -/
theorem memoryGroups_eq_some {T : Tables} {trace : List SmallestBlock}
    (hword : ∀ b ∈ trace, b.Words) :
    (∃ G, memoryGroups T trace = some G) ↔ ∃ s, groupMemory T trace = some s := by
  unfold memoryGroups
  rw [dif_pos hword]
  constructor
  · rintro ⟨G, hG⟩
    cases hs : groupMemory T trace with
    | none => simp [hs] at hG
    | some s => exact ⟨s, rfl⟩
  · rintro ⟨s, hs⟩
    simp [hs]

end

/-! ## The backward pass -/

section

variable {I : PassInput} {s s' : PassState} {b : SmallestBlock} {trace : List SmallestBlock}
  {unneeded : Finset DynamicInst}

/-- An execution that is reported is one of a merged block. -/
theorem reported_executed (hfits : ∀ b ∈ trace, b.counted = true →
      ∃ bb, I.tables.bb2Ins[b.bbID]? = some bb ∧ b.Fits bb)
    (h : extractUneededOperation I trace = some unneeded) {d : DynamicInst} (hd : d ∈ unneeded) :
    ∃ n < (executedBy I.tables trace d.tid).count d.id, d.cnt = -n := by
  obtain ⟨n, hn, hcnt⟩ := reported_counted h hd
  exact ⟨n, hn.trans_le (backCount_le_executed hfits d.key), hcnt⟩

/-- What the blocks execute is in the tables. -/
theorem executedBy_lt {T : Tables} (hT : T.IdsInRange) {tid id : Nat}
    (h : id ∈ executedBy T trace tid) : id < T.ins.length := by
  obtain ⟨b, -, hid⟩ := List.mem_flatMap.mp h
  have hid : id ∈ T.bb2Ins.getD b.bbID [] := List.mem_of_mem_take (List.mem_of_mem_drop hid)
  rw [List.getD_eq_getElem?_getD] at hid
  cases hbb : T.bb2Ins[b.bbID]? with
  | none => simp [hbb] at hid
  | some bb =>
    rw [hbb, Option.getD_some] at hid
    exact hT bb (List.mem_of_getElem? hbb) id hid

/-- The addresses in `Addr2Unneded` are those of blocks. -/
def PassSets.AddrsOf (trace : List SmallestBlock) (t : PassSets) : Prop :=
  ∀ a, ∀ id ∈ t.addr2Unneeded a, ∃ b ∈ trace, b.addrAt 0 = a

theorem PassSets.AddrsOf.check {call : PassSets → DynamicInst → Nat → Prop} {nextBBID : Nat}
    (h : s.AddrsOf trace) (hcheck : Check I b call nextBBID s s') : s'.AddrsOf trace := by
  cases hcheck with
  | needed => exact h
  | scan _ _ hsets =>
    intro a id hid
    rw [oneBlock_addr2Unneeded hsets] at hid
    exact h a id hid

theorem PassSets.AddrsOf.visits {ids : List Nat} {su su' : PassState × Bool}
    (h : su.1.AddrsOf trace) (hb : b ∈ trace) (hvisits : Visits I b su ids su') :
    su'.1.AddrsOf trace := by
  induction hvisits with
  | nil => exact h
  | @cons s s₁ used n id ids su hvisit _ ih =>
    refine ih fun a id' hid' => ?_
    rw [hvisit.addr2Unneeded] at hid'
    cases n with
    | true => exact h a id' hid'
    | false =>
      rcases SmallestBlock.mem_report_addr hid' with hid' | ⟨-, -, ha, -⟩
      · exact h a id' hid'
      · exact ⟨b, hb, ha⟩

theorem PassSets.AddrsOf.step (h : s.AddrsOf trace) (hb : b ∈ trace)
    (hstep : extractStep I s b = some s') : s'.AddrsOf trace := by
  rcases extractStep_cases hstep with ⟨-, rfl⟩ | ⟨htype, s₁, henter, hrest⟩
  · exact h
  have h₁ : s₁.AddrsOf trace :=
    PassState.enter_sets htype henter h fun _ _ _ _ _ _ hcheck => PassSets.AddrsOf.check h hcheck
  rcases hrest with ⟨-, rfl⟩ | ⟨-, s₂, used, s₃, s₄, hvisits, hmark, hleaves, rfl⟩
  · exact h₁
  have h₂ : s₂.AddrsOf trace := PassSets.AddrsOf.visits h₁ hb hvisits
  have h₃ : s₃.AddrsOf trace := by
    rcases PassState.mark_cases hmark with ⟨e, l, -, rfl⟩
    exact h₂
  refine hleaves.sets (fun _ _ => h₃) fun needed s₅ _ _ hcheck => ?_
  have h₄ : ({ s₃ with needed := needed } : PassState).AddrsOf trace := h₃
  exact PassSets.AddrsOf.check h₄ hcheck

/-- The sets of `Addr2Unneded` are all in the list. -/
theorem exists_addrIds (h : run (extractStep I) {} trace.reverse = some s) {a : Nat}
    (ha : (s.addr2Unneeded a).Nonempty) :
    ∃ A ∈ s.addrIds trace, ∀ id, id ∈ A.ids ↔ id ∈ s.addr2Unneeded a := by
  have haddrs : s.AddrsOf trace :=
    run_follows (R := fun (s : PassState) (_ : Unit) => s.AddrsOf trace) (g := fun _ _ => ()) (r := ())
      (fun _ _ b _ hb h hstep => PassSets.AddrsOf.step h (List.mem_reverse.mp hb) hstep)
      (fun _ _ hid => absurd hid (Finset.notMem_empty _)) h
  obtain ⟨id, hid⟩ := ha
  obtain ⟨b, hb, hab⟩ := haddrs a id hid
  have hne : (s.addr2Unneeded a).sort (· ≤ ·) ≠ [] :=
    List.ne_nil_of_mem ((Finset.mem_sort _).mpr hid)
  refine ⟨⟨_, hne⟩, List.mem_filterMap.mpr ⟨a, ?_, dif_neg hne⟩, fun _ => Finset.mem_sort _⟩
  rw [Finset.mem_sort, List.mem_toFinset]
  exact List.mem_map.mpr ⟨b, hb, hab⟩

end

/-! ## The post-dominators -/

section

variable {next : Nat → List Nat} {fuel fuel' : Nat}

theorem reachLoop_mono (hle : fuel ≤ fuel') {k : Nat} {keys : List Nat} {pd : Nat → Finset Nat}
    {r : List Nat × (Nat → Finset Nat)} (h : reachLoop next fuel k keys pd = some r) :
    reachLoop next fuel' k keys pd = some r := by
  induction fuel generalizing fuel' k keys pd with
  | zero => cases h
  | succ fuel ih =>
    obtain ⟨fuel', rfl⟩ : ∃ n, fuel' = n + 1 := ⟨fuel' - 1, by omega⟩
    have hle : fuel ≤ fuel' := Nat.le_of_succ_le_succ hle
    rw [reachLoop] at h ⊢
    cases hkey : keys.find? (k ≤ ·) with
    | none =>
      rw [hkey] at h
      exact h
    | some i =>
      rw [hkey] at h
      obtain ⟨mark, hmark, h⟩ := Option.bind_eq_some_iff.mp h
      exact Option.bind_eq_some_iff.mpr ⟨mark, dfs_mono hle hmark, ih hle h⟩

theorem fixpointLoop_mono (hle : fuel ≤ fuel') {keys : List Nat} {pd pd' : Nat → Finset Nat}
    (h : fixpointLoop next keys fuel pd = some pd') : fixpointLoop next keys fuel' pd = some pd' := by
  induction fuel generalizing fuel' pd with
  | zero => cases h
  | succ fuel ih =>
    obtain ⟨fuel', rfl⟩ : ∃ n, fuel' = n + 1 := ⟨fuel' - 1, by omega⟩
    simp only [fixpointLoop] at h ⊢
    split_ifs at h ⊢
    · exact ih (Nat.le_of_succ_le_succ hle) h
    · exact h

/-- `PreparePostDominator` returns the same sets with more fuel. -/
theorem preparePostDominator_mono (hle : fuel ≤ fuel') {edges : List (Nat × Nat)}
    {pd : Nat → Finset Nat} (h : preparePostDominator fuel edges = some pd) :
    preparePostDominator fuel' edges = some pd := by
  obtain ⟨r, hreach, hloop⟩ := Option.bind_eq_some_iff.mp h
  exact Option.bind_eq_some_iff.mpr ⟨r, reachLoop_mono hle hreach, fixpointLoop_mono hle hloop⟩

end

/-! ## The passes in order -/

section

variable {F : Files} {lz : LZ4} {size : Nat} {buffer : Block size} {printCode : Bool} {fuel : Nat}
  {reports : List Report}

theorem Files.main_eq_some : F.main lz buffer printCode fuel = some reports ↔
    ∃ l found entries trace G deps edges pd s, loadInstInfo F.slimmerDir.inst = some l ∧
      extractImpactfulFunCall lz buffer F.pinTrace = some found ∧
      (TraceIter.open F.slimmerTrace buffer).readAll lz size fuel {} = some entries ∧
      mergeTrace ⟨l.1.map LoadedInst.toInstInfo, l.2⟩ (calledWithSyscall found) entries = some trace ∧
      memoryGroups ⟨l.1.map LoadedInst.toInstInfo, l.2⟩ trace = some G ∧
      extractMemoryDependency ⟨l.1.map LoadedInst.toInstInfo, l.2⟩ G trace = some deps ∧
      scanBBGraph F.slimmerDir.bbGraph = some edges ∧ preparePostDominator fuel edges = some pd ∧
      run (extractStep ⟨⟨l.1.map LoadedInst.toInstInfo, l.2⟩, pd, dependenciesOf deps⟩) {}
        trace.reverse = some s ∧
      (F.codeInput printCode l.1 l.2 deps (s.addrIds trace)).printBug fuel
        (s.unneededDI.sort DynamicInst.le) = some reports := by
  simp only [Files.main, Option.bind_eq_bind, Option.bind_eq_some_iff]
  constructor
  · rintro ⟨l, hl, found, hfound, entries, hread, trace, hmerge, G, hG, deps, hdeps, edges, hscan, pd,
      hpd, s, hrun, hprint⟩
    exact ⟨l, found, entries, trace, G, deps, edges, pd, s, hl, hfound, hread, hmerge, hG, hdeps, hscan,
      hpd, hrun, hprint⟩
  · rintro ⟨l, found, entries, trace, G, deps, edges, pd, s, hl, hfound, hread, hmerge, hG, hdeps, hscan,
      hpd, hrun, hprint⟩
    exact ⟨l, hl, found, hfound, entries, hread, trace, hmerge, G, hG, deps, hdeps, edges, hscan, pd,
      hpd, s, hrun, hprint⟩

end

/-! ## An instrumented program -/

section

variable {M : IRModule} {P : Program} {impactful : Nat → Bool} {entries : List Entry}
  {trace : List SmallestBlock}

/-- The blocks of a merged trace that are executed one by one are parts of a basic block. -/
theorem mergeTrace_fits (hknown : ∀ e, .event e ∈ entries → e.Known P.toTables)
    (hmerge : mergeTrace P.toTables impactful entries = some trace) :
    ∀ b ∈ trace, b.counted = true → ∃ bb, P.bb2Ins[b.bbID]? = some bb ∧ b.Fits bb := by
  obtain ⟨s, closing, hrun, hclosing, rfl⟩ := mergeTrace_eq_some hmerge
  have hkept := kept_of_run hknown hrun
  obtain ⟨hclosers, -⟩ := closeThreads_closing hclosing
  intro b hb hcounted
  rcases List.mem_append.mp hb with hb | hb
  · refine hkept.trails.fits b hb fun htype => ?_
    simp [SmallestBlock.counted, htype] at hcounted
  · simp [SmallestBlock.counted, (hclosers b hb).1.type] at hcounted

variable {σ : Type*} {S : Semantics σ} {s : RunState σ} {lz : LZ4} {size : Nat}

end

/-- The files of `callModule`, with an empty pin trace. -/
def callFiles (d : InfoDir) (calls : List Invocation) : Files where
  slimmerDir := d
  slimmerTrace := traceFile literalLZ4 (recordTrace (fun _ => ⟨List.replicate 38 0, rfl⟩) calls)
  pinTrace := []
  content _ := none

/-- The passes get through `GroupMemory` on the trace of `callModule`. -/
theorem callFiles_groups : ∃ d T found entries trace g,
    callModule.infoDir = some d ∧ d.tables = some T ∧
    extractImpactfulFunCall literalLZ4 (⟨List.replicate 38 0, rfl⟩ : Block 38) [] = some found ∧
    (TraceIter.open (callFiles d callCalls).slimmerTrace (⟨List.replicate 38 0, rfl⟩ : Block 38)).readAll
      literalLZ4 38 60 {} = some entries ∧
    mergeTrace T (calledWithSyscall found) entries = some trace ∧ groupMemory T trace = some g := by
  have h : (do
      let d ← callModule.infoDir
      let T ← d.tables
      let found ← extractImpactfulFunCall literalLZ4 (⟨List.replicate 38 0, rfl⟩ : Block 38) []
      let entries ← (TraceIter.open (callFiles d callCalls).slimmerTrace
        (⟨List.replicate 38 0, rfl⟩ : Block 38)).readAll literalLZ4 38 60 {}
      let trace ← mergeTrace T (calledWithSyscall found) entries
      groupMemory T trace).isSome := by
    decide +kernel
  obtain ⟨g, hg⟩ := Option.isSome_iff_exists.mp h
  simp only [Option.bind_eq_bind, Option.bind_eq_some_iff] at hg
  obtain ⟨d, hd, T, hT, found, hfound, entries, hread, trace, hmerge, hg⟩ := hg
  exact ⟨d, T, found, entries, trace, g, hd, hT, hfound, hread, hmerge, hg⟩

end Slimmer
