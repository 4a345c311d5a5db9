import Mathlib.Data.Finset.Sort
import Slimmer.Lib.Search
import Slimmer.Lib.SortedKeys
import Slimmer.Unneeded

/-!
# `PrintBug`

`PrintBug` (`tools/PrintBug/PrintBug.cpp`) links the ids of unneeded executions: by SSA and memory
dependencies between unneeded executions, and where unneeded accesses have the same address. Going
through the ids in order, it starts a report at every id that is in no report yet;
`BFSOnUneededGraph` collects the ids of the report. The loop goes over the map `uneeded_ins_cnt`, and
printing a report makes keys of its ids in that map.

**Theorem (`reports_partition`).** `PrintBug` ends, every id with an unneeded execution is in exactly
one report, and two of them are in the same report if and only if they are connected by links.
-/

namespace Slimmer

/-! ## The function -/

/-- A set in `Addr2Unneded`, its elements in order. Inserting an id makes it, so there is a
smallest one. -/
structure AddrIds where
  ids : List Nat
  ne : ids ≠ []

/-- What `PrintBug` reads besides the unneeded executions. -/
structure BugInput where
  tables : Tables
  /-- `MemDependencies`. -/
  memDependencies : DynamicInst → List DynamicInst
  /-- The sets of `Addr2Unneded`, in the order of the addresses. -/
  addr2Unneded : List AddrIds
  /-- `Ins[id].File`. -/
  file : Nat → String
  /-- `SLIMMER_PRINT_CODE`. -/
  printCode : Bool := false

/-- The links of an unneeded execution: its dependencies that are unneeded as well. -/
def BugInput.execLinks (I : BugInput) (bug : List DynamicInst) (d : DynamicInst) :
    Option (List (Nat × Nat)) :=
  (I.tables.ins[d.id]?).map fun i =>
    (i.ssaInsts.filter fun id => (⟨d.tid, id, d.cnt⟩ : DynamicInst) ∈ bug).map (d.id, ·) ++
      ((I.memDependencies d).filter (· ∈ bug)).map fun dep => (d.id, dep.id)

/-- The links between unneeded accesses of one address. -/
def AddrIds.links (a : AddrIds) : List (Nat × Nat) := a.ids.map (a.ids.head a.ne, ·)

/-- All links, in the order in which they are inserted. -/
def BugInput.links (I : BugInput) (bug : List DynamicInst) : Option (List (Nat × Nat)) :=
  (bug.mapM (I.execLinks bug)).map fun l => l.flatten ++ I.addr2Unneded.flatMap AddrIds.links

/-- A link is inserted both ways. -/
def insertLink (graph : Nat → Finset Nat) (l : Nat × Nat) : Nat → Finset Nat :=
  let graph := Function.update graph l.1 (insert l.2 (graph l.1))
  Function.update graph l.2 (insert l.1 (graph l.2))

/-- `uneeded_graph`. -/
def BugInput.graph (I : BugInput) (bug : List DynamicInst) : Option (Nat → Finset Nat) :=
  (I.links bug).map fun links => links.foldl insertLink fun _ => ∅

/-- The neighbours of an id, in order. -/
def graphNext (graph : Nat → Finset Nat) (id : Nat) : List Nat := (graph id).sort (· ≤ ·)

/-- `BFSOnUneededGraph`: the ids of the report and those printed so far. -/
def bfsOnUneededGraph (graph : Nat → Finset Nat) (fuel id : Nat) (printed : Finset Nat) :
    Option (Finset Nat × Finset Nat) :=
  if id ∈ printed then some (∅, printed)
  else (loop (Search.step (graphNext graph)) fuel ⟨[id], ∅, printed⟩).map fun s => (s.found, s.seen)

/-- The variables of the loop over `uneeded_ins_cnt`: its keys in order, the ids printed and the
reports. -/
structure ReportState where
  keys : List Nat
  printed : Finset Nat := ∅
  bugs : List (Finset Nat) := []

/-- Printing the report reads `uneeded_ins_cnt[id]`, which makes `id` a key. -/
def BugInput.counts (I : BugInput) (id : Nat) : Bool := I.printCode || I.file id != "[UNKNOWN]"

/-- The loop over `uneeded_ins_cnt`, from the key `k` on. -/
def BugInput.reportLoop (I : BugInput) (graph : Nat → Finset Nat) :
    Nat → Nat → ReportState → Option ReportState
  | 0, _, _ => none
  | fuel + 1, k, r =>
    match r.keys.find? (k ≤ ·) with
    | none => some r
    | some i =>
      if i ∈ r.printed then reportLoop I graph fuel (i + 1) r
      else
        (bfsOnUneededGraph graph fuel i r.printed).bind fun (bug, printed) =>
          reportLoop I graph fuel (i + 1)
            { keys := ((bug.filter fun id => I.counts id).sort (· ≤ ·)).foldl
                (fun keys id => insertSorted id keys) r.keys
              printed := printed
              bugs := r.bugs ++ [bug] }

/-- `PrintBug`: the reports, `Bug 1` first. -/
def printBug (I : BugInput) (fuel : Nat) (bug : List DynamicInst) : Option (List (Finset Nat)) :=
  (I.graph bug).bind fun graph =>
    (I.reportLoop graph fuel 0
      { keys := bug.foldl (fun keys d => insertSorted d.id keys) [] }).map ReportState.bugs

/-! ## The links -/

/-- The links `PrintBug` inserts. -/
inductive Linked (I : BugInput) (bug : List DynamicInst) : Nat → Nat → Prop
  /-- an SSA dependency between two unneeded executions -/
  | ssa {d : DynamicInst} {i : InstInfo} {id : Nat} (hd : d ∈ bug)
      (hi : I.tables.ins[d.id]? = some i) (hid : id ∈ i.ssaInsts)
      (hdep : (⟨d.tid, id, d.cnt⟩ : DynamicInst) ∈ bug) : Linked I bug d.id id
  /-- a memory dependency between two unneeded executions -/
  | memory {d dep : DynamicInst} (hd : d ∈ bug) (hmem : dep ∈ I.memDependencies d)
      (hdep : dep ∈ bug) : Linked I bug d.id dep.id
  /-- two unneeded accesses of one address -/
  | address {a : AddrIds} {id : Nat} (ha : a ∈ I.addr2Unneded) (hid : id ∈ a.ids) :
      Linked I bug (a.ids.head a.ne) id

/-- The reports of `PrintBug` partition the ids of the unneeded executions into the classes of
connected ones. -/
structure Partitions (I : BugInput) (bug : List DynamicInst) (bugs : List (Finset Nat)) : Prop where
  once : ∀ d ∈ bug, ∃! n : Nat, ∃ report, bugs[n]? = some report ∧ d.id ∈ report
  same : ∀ d ∈ bug, ∀ d' ∈ bug, (∃ report ∈ bugs, d.id ∈ report ∧ d'.id ∈ report) ↔
    Relation.EqvGen (Linked I bug) d.id d'.id

section

variable {I : BugInput} {bug : List DynamicInst} {graph : Nat → Finset Nat}
  {links : List (Nat × Nat)} {a b : Nat}

theorem mem_foldl_insertLink :
    b ∈ links.foldl insertLink graph a ↔ b ∈ graph a ∨ (a, b) ∈ links ∨ (b, a) ∈ links := by
  induction links generalizing graph with
  | nil => simp
  | cons l links ih =>
    have hl : b ∈ insertLink graph l a ↔ b ∈ graph a ∨ (a, b) = l ∨ (b, a) = l := by
      obtain ⟨i, j⟩ := l
      simp only [insertLink, Function.update_apply, Prod.mk.injEq]
      split_ifs with h₁ h₂ <;> simp_all [eq_comm] <;> tauto
    rw [List.foldl_cons, ih, hl, List.mem_cons, List.mem_cons]
    tauto

/-- The elements of a list computed one by one. -/
theorem mem_of_mapM {α β : Type} {f : α → Option β} {l : List α} {l' : List β} {y : β}
    (h : l.mapM f = some l') : y ∈ l' ↔ ∃ x ∈ l, f x = some y := by
  induction l generalizing l' with
  | nil =>
    obtain rfl : [] = l' := by simpa using h
    simp
  | cons a l ih =>
    rw [List.mapM_cons] at h
    obtain ⟨b, hb, h⟩ := Option.bind_eq_some_iff.mp h
    obtain ⟨bs, hbs, h⟩ := Option.bind_eq_some_iff.mp h
    obtain rfl := Option.some.inj h
    simp [ih hbs, hb, eq_comm]

theorem exists_mapM_iff {α β : Type} {f : α → Option β} {l : List α} :
    (∃ l', l.mapM f = some l') ↔ ∀ x ∈ l, ∃ y, f x = some y := by
  induction l with
  | nil => simp
  | cons a l ih =>
    rw [List.forall_mem_cons, ← ih]
    simp [List.mapM_cons, Option.bind_eq_some_iff]

theorem mem_links (h : I.links bug = some links) : (a, b) ∈ links ↔ Linked I bug a b := by
  obtain ⟨l, hl, rfl⟩ := Option.map_eq_some_iff.mp h
  rw [List.mem_append, List.mem_flatten, List.mem_flatMap]
  constructor
  · rintro (⟨dl, hdl, hab⟩ | ⟨ids, hids, hab⟩)
    · obtain ⟨d, hd, hlinks⟩ := (mem_of_mapM hl).mp hdl
      obtain ⟨i, hi, rfl⟩ := Option.map_eq_some_iff.mp hlinks
      obtain hab | hab := List.mem_append.mp hab
      · obtain ⟨id, hid, heq⟩ := List.mem_map.mp hab
        obtain ⟨rfl, rfl⟩ := Prod.mk.inj heq
        obtain ⟨hid, hdep⟩ := List.mem_filter.mp hid
        exact .ssa hd hi hid (by simpa using hdep)
      · obtain ⟨dep, hdep, heq⟩ := List.mem_map.mp hab
        obtain ⟨rfl, rfl⟩ := Prod.mk.inj heq
        obtain ⟨hmem, hdep⟩ := List.mem_filter.mp hdep
        exact .memory hd hmem (by simpa using hdep)
    · obtain ⟨id, hid, heq⟩ := List.mem_map.mp hab
      obtain ⟨rfl, rfl⟩ := Prod.mk.inj heq
      exact .address hids hid
  · intro hlink
    cases hlink with
    | @ssa d i id hd hi hid hdep =>
      refine Or.inl ⟨_, (mem_of_mapM hl).mpr ⟨d, hd, Option.map_eq_some_iff.mpr ⟨i, hi, rfl⟩⟩, ?_⟩
      exact List.mem_append_left _ (List.mem_map.mpr ⟨b, by simp [hid, hdep], rfl⟩)
    | @memory d dep hd hmem hdep =>
      obtain ⟨dl, hdl⟩ := exists_mapM_iff.mp ⟨l, hl⟩ d hd
      refine Or.inl ⟨dl, (mem_of_mapM hl).mpr ⟨d, hd, hdl⟩, ?_⟩
      obtain ⟨i, -, rfl⟩ := Option.map_eq_some_iff.mp hdl
      exact List.mem_append_right _ (List.mem_map.mpr ⟨dep, by simp [hmem, hdep], rfl⟩)
    | address ha hid => exact Or.inr ⟨_, ha, List.mem_map.mpr ⟨_, hid, rfl⟩⟩

/-- The graph has every link both ways. -/
theorem mem_graph (h : I.graph bug = some graph) :
    b ∈ graphNext graph a ↔ Linked I bug a b ∨ Linked I bug b a := by
  obtain ⟨links, hlinks, rfl⟩ := Option.map_eq_some_iff.mp h
  rw [graphNext, Finset.mem_sort, mem_foldl_insertLink, mem_links hlinks, mem_links hlinks]
  simp

theorem graph_symm (h : I.graph bug = some graph) (a b : Nat) (hb : b ∈ graphNext graph a) :
    a ∈ graphNext graph b := by
  rw [mem_graph h] at hb ⊢
  exact hb.symm

/-- Paths in the graph connect ids. -/
theorem connected_iff (h : I.graph bug = some graph) :
    Relation.ReflTransGen (Neighbour (graphNext graph)) a b ↔
      Relation.EqvGen (Linked I bug) a b := by
  constructor
  · intro hreach
    induction hreach with
    | refl => exact .refl _
    | @tail b c _ hedge ih =>
      obtain hlink | hlink := (mem_graph h).mp hedge
      · exact .trans _ _ _ ih (.rel _ _ hlink)
      · exact .trans _ _ _ ih (.symm _ _ (.rel _ _ hlink))
  · intro hconn
    induction hconn with
    | rel a b hlink => exact .single ((mem_graph h).mpr (Or.inl hlink))
    | refl a => exact .refl
    | symm a b _ ih => exact reach_symm (graph_symm h) ih
    | trans a b c _ _ ih₁ ih₂ => exact ih₁.trans ih₂

/-- The ids that occur. -/
def BugInput.ids (I : BugInput) (bug : List DynamicInst) : Finset Nat :=
  (bug.map DynamicInst.id).toFinset ∪ (I.addr2Unneded.flatMap AddrIds.ids).toFinset

theorem Linked.mem_ids (h : Linked I bug a b) : a ∈ I.ids bug ∧ b ∈ I.ids bug := by
  have hexec : ∀ d ∈ bug, d.id ∈ I.ids bug := fun d hd =>
    Finset.mem_union_left _ (List.mem_toFinset.mpr (List.mem_map_of_mem hd))
  have haddr : ∀ ids ∈ I.addr2Unneded, ∀ id ∈ ids.ids, id ∈ I.ids bug := fun ids hids id hid =>
    Finset.mem_union_right _ (List.mem_toFinset.mpr (List.mem_flatMap.mpr ⟨ids, hids, hid⟩))
  cases h with
  | ssa hd _ _ hdep => exact ⟨hexec _ hd, hexec _ hdep⟩
  | memory hd _ hdep => exact ⟨hexec _ hd, hexec _ hdep⟩
  | address ha hid => exact ⟨haddr _ ha _ (List.head_mem _), haddr _ ha _ hid⟩

theorem graph_inside (h : I.graph bug = some graph) (a : Nat) (_ : a ∈ I.ids bug) (b : Nat)
    (hb : b ∈ graphNext graph a) : b ∈ I.ids bug := by
  obtain hlink | hlink := (mem_graph h).mp hb
  · exact hlink.mem_ids.2
  · exact hlink.mem_ids.1

theorem graph_isSome (hids : ∀ d ∈ bug, d.id < I.tables.ins.length) :
    ∃ graph, I.graph bug = some graph := by
  obtain ⟨l, hl⟩ : ∃ l, bug.mapM (I.execLinks bug) = some l := exists_mapM_iff.mpr fun d hd =>
    ⟨_, by rw [BugInput.execLinks, List.getElem?_eq_getElem (hids d hd)]; rfl⟩
  exact ⟨_, by rw [BugInput.graph, BugInput.links, hl]; rfl⟩

/-! ## The loop -/

/-- What `BFSOnUneededGraph` returns for an id that is not printed. -/
theorem bfs_component (h : I.graph bug = some graph) {printed : Finset Nat}
    (hclosed : ∀ a ∈ printed, ∀ b ∈ graphNext graph a, b ∈ printed) (ha : a ∈ I.ids bug)
    (hnew : a ∉ printed) :
    ∃ report n, (∀ fuel, n ≤ fuel →
        bfsOnUneededGraph graph fuel a printed = some (report, printed ∪ report)) ∧
      ∀ w, w ∈ report ↔ Relation.EqvGen (Linked I bug) a w := by
  obtain ⟨t, hend, hseen, hfound⟩ :=
    search_component (graph_symm h) (graph_inside h) ha hclosed hnew
  obtain ⟨n, hn⟩ := endsIn_iff_loop.mp hend
  refine ⟨t.found, n, fun fuel hfuel => ?_, fun w => (hfound w).trans (connected_iff h)⟩
  rw [bfsOnUneededGraph, if_neg hnew, loop_mono hn hfuel, Option.map_some, hseen]

/-- The loop at the key `k`. -/
structure Reporting (I : BugInput) (bug : List DynamicInst) (k : Nat) (r : ReportState) : Prop where
  sorted : r.keys.Pairwise (· < ·)
  inside : ∀ a ∈ r.keys, a ∈ I.ids bug
  execs : ∀ d ∈ bug, d.id ∈ r.keys
  done : ∀ a ∈ r.keys, a < k → a ∈ r.printed
  printed : ∀ a, a ∈ r.printed ↔ ∃ report ∈ r.bugs, a ∈ report
  classes : ∀ report ∈ r.bugs, ∀ a ∈ report, ∀ b, b ∈ report ↔ Relation.EqvGen (Linked I bug) a b
  disjoint : r.bugs.Pairwise Disjoint

theorem Reporting.closed {r : ReportState} {k : Nat} (h : Reporting I bug k r)
    (hgraph : I.graph bug = some graph) (a : Nat) (ha : a ∈ r.printed) (b : Nat)
    (hb : b ∈ graphNext graph a) : b ∈ r.printed := by
  obtain ⟨report, hreport, ha⟩ := (h.printed a).mp ha
  refine (h.printed b).mpr ⟨report, hreport, (h.classes report hreport a ha b).mpr ?_⟩
  exact (connected_iff hgraph).mp (.single hb)

/-- A key in a report is passed over. -/
theorem Reporting.skip {r : ReportState} {k i : Nat} (h : Reporting I bug k r)
    (hfind : r.keys.find? (k ≤ ·) = some i) (hi : i ∈ r.printed) : Reporting I bug (i + 1) r := by
  obtain ⟨-, -, hleast⟩ := find_least h.sorted hfind
  refine { h with done := fun a ha hlt => ?_ }
  by_cases hak : a < k
  · exact h.done a ha hak
  · have := hleast a ha (by omega)
    obtain rfl : a = i := by omega
    exact hi

/-- A key in no report starts one. -/
theorem Reporting.report {r : ReportState} {k i : Nat} (h : Reporting I bug k r)
    (hfind : r.keys.find? (k ≤ ·) = some i) (hi : i ∉ r.printed) {report : Finset Nat}
    (hreport : ∀ w, w ∈ report ↔ Relation.EqvGen (Linked I bug) i w)
    (hids : ∀ w ∈ report, w ∈ I.ids bug) :
    Reporting I bug (i + 1)
      { keys := ((report.filter fun id => I.counts id).sort (· ≤ ·)).foldl
          (fun keys id => insertSorted id keys) r.keys
        printed := r.printed ∪ report
        bugs := r.bugs ++ [report] } := by
  obtain ⟨-, -, hleast⟩ := find_least h.sorted hfind
  have hkey : ∀ a, a ∈ ((report.filter fun id => I.counts id).sort (· ≤ ·)).foldl
      (fun keys id => insertSorted id keys) r.keys → a ∈ report ∨ a ∈ r.keys := by
    intro a ha
    obtain ha | ha := mem_foldl_insertSorted.mp ha
    · exact Or.inl (Finset.mem_filter.mp ((Finset.mem_sort _).mp ha)).1
    · exact Or.inr ha
  constructor
  · exact foldl_insertSorted_pairwise h.sorted
  · intro a ha
    obtain ha | ha := hkey a ha
    · exact hids a ha
    · exact h.inside a ha
  · exact fun d hd => mem_foldl_insertSorted.mpr (Or.inr (h.execs d hd))
  · intro a ha hlt
    obtain ha | ha := hkey a ha
    · exact Finset.mem_union_right _ ha
    · by_cases hak : a < k
      · exact Finset.mem_union_left _ (h.done a ha hak)
      · have := hleast a ha (by omega)
        obtain rfl : a = i := by omega
        exact Finset.mem_union_right _ ((hreport a).mpr (.refl a))
  · intro a
    show a ∈ r.printed ∪ report ↔ _
    simp [h.printed a, or_and_right, exists_or]
  · intro B hB a ha b
    obtain hB | hB := List.mem_append.mp hB
    · exact h.classes B hB a ha b
    · obtain rfl := List.mem_singleton.mp hB
      have ha' := (hreport a).mp ha
      rw [hreport b]
      exact ⟨fun hb => .trans _ _ _ (.symm _ _ ha') hb, fun hb => .trans _ _ _ ha' hb⟩
  · refine List.pairwise_append.mpr ⟨h.disjoint, List.pairwise_singleton _ _, fun B hB C hC => ?_⟩
    obtain rfl := List.mem_singleton.mp hC
    -- a common id would have put `i` into the earlier report
    rw [Finset.disjoint_left]
    intro a ha haC
    apply hi
    rw [h.printed]
    exact ⟨B, hB, (h.classes B hB a ha i).mpr (.symm _ _ ((hreport a).mp haC))⟩

/-- **The loop ends**, with every key in a report. -/
theorem Reporting.ends {r : ReportState} {k : Nat} (h : Reporting I bug k r)
    (hgraph : I.graph bug = some graph) :
    ∃ n r' k', (∀ fuel, n ≤ fuel → I.reportLoop graph fuel k r = some r') ∧ Reporting I bug k' r' ∧
      ∀ a ∈ r'.keys, a < k' := by
  induction hm : ((I.ids bug).filter (k ≤ ·)).card using Nat.strongRecOn generalizing k r with
  | _ m ih =>
    cases hfind : r.keys.find? (k ≤ ·) with
    | none =>
      have hlt := List.find?_eq_none.mp hfind
      simp only [decide_eq_true_eq, not_le] at hlt
      refine ⟨1, r, k, fun fuel hfuel => ?_, h, hlt⟩
      obtain ⟨fuel, rfl⟩ : ∃ n, fuel = n + 1 := ⟨fuel - 1, by omega⟩
      rw [BugInput.reportLoop, hfind]
    | some i =>
      obtain ⟨hi, hki, -⟩ := find_least h.sorted hfind
      have hless : ((I.ids bug).filter (i + 1 ≤ ·)).card < m := by
        rw [← hm]
        apply Finset.card_lt_card
        refine Finset.ssubset_iff_subset_ne.mpr ⟨fun x hx => ?_, fun heq => ?_⟩
        · obtain ⟨hxU, hix⟩ := Finset.mem_filter.mp hx
          exact Finset.mem_filter.mpr ⟨hxU, by omega⟩
        · have hmem : i ∈ (I.ids bug).filter (k ≤ ·) := Finset.mem_filter.mpr ⟨h.inside i hi, hki⟩
          rw [← heq] at hmem
          have := (Finset.mem_filter.mp hmem).2
          omega
      by_cases hprinted : i ∈ r.printed
      · obtain ⟨n, r', k', hloop, hr', hall⟩ := ih _ hless (h.skip hfind hprinted) rfl
        refine ⟨n + 1, r', k', fun fuel hfuel => ?_, hr', hall⟩
        obtain ⟨fuel, rfl⟩ : ∃ n, fuel = n + 1 := ⟨fuel - 1, by omega⟩
        simp only [BugInput.reportLoop, hfind, if_pos hprinted]
        exact hloop fuel (by omega)
      · obtain ⟨report, n₁, hbfs, hreport⟩ :=
          bfs_component hgraph (h.closed hgraph) (h.inside i hi) hprinted
        have hids : ∀ w ∈ report, w ∈ I.ids bug := by
          intro w hw
          have hreach := (connected_iff hgraph).mpr ((hreport w).mp hw)
          exact reach_of_closed (graph_inside hgraph) (h.inside i hi) hreach
        obtain ⟨n, r', k', hloop, hr', hall⟩ :=
          ih _ hless (h.report hfind hprinted hreport hids) rfl
        refine ⟨n + n₁ + 1, r', k', fun fuel hfuel => ?_, hr', hall⟩
        obtain ⟨fuel, rfl⟩ : ∃ n, fuel = n + 1 := ⟨fuel - 1, by omega⟩
        simp only [BugInput.reportLoop, hfind, if_neg hprinted, hbfs fuel (by omega),
          Option.bind_some]
        exact hloop fuel (by omega)

/-- **The reports partition the ids.** -/
theorem reports_partition (I : BugInput) (bug : List DynamicInst)
    (hids : ∀ d ∈ bug, d.id < I.tables.ins.length) :
    ∃ n bugs, (∀ fuel, n ≤ fuel → printBug I fuel bug = some bugs) ∧ Partitions I bug bugs := by
  obtain ⟨graph, hgraph⟩ := graph_isSome hids
  have hkeys : ∀ (l : List DynamicInst) (keys : List Nat), keys.Pairwise (· < ·) →
      (l.foldl (fun keys d => insertSorted d.id keys) keys).Pairwise (· < ·) ∧
        ∀ a, a ∈ l.foldl (fun keys d => insertSorted d.id keys) keys ↔
          a ∈ l.map DynamicInst.id ∨ a ∈ keys := by
    intro l keys hsorted
    rw [← List.foldl_map (f := DynamicInst.id) (g := fun keys id => insertSorted id keys)]
    exact ⟨foldl_insertSorted_pairwise hsorted, fun a => mem_foldl_insertSorted⟩
  obtain ⟨hsorted, hmem⟩ := hkeys bug [] List.Pairwise.nil
  have hstart : Reporting I bug 0
      { keys := bug.foldl (fun keys d => insertSorted d.id keys) [] } := by
    refine ⟨hsorted, fun a ha => ?_, fun d hd => ?_, fun a _ ha => absurd ha (Nat.not_lt_zero a),
      by simp, by simp, List.Pairwise.nil⟩
    · have ha : a ∈ bug.map DynamicInst.id := by simpa using (hmem a).mp ha
      exact Finset.mem_union_left _ (List.mem_toFinset.mpr ha)
    · exact (hmem d.id).mpr (Or.inl (List.mem_map_of_mem hd))
  obtain ⟨n, r, k, hloop, hr, hall⟩ := hstart.ends hgraph
  have hin : ∀ d ∈ bug, ∃ report ∈ r.bugs, d.id ∈ report := fun d hd =>
    (hr.printed d.id).mp (hr.done d.id (hr.execs d hd) (hall d.id (hr.execs d hd)))
  refine ⟨n, r.bugs, fun fuel hfuel => ?_, fun d hd => ?_, fun d hd d' hd' => ?_⟩
  · rw [printBug, hgraph, Option.bind_some, hloop fuel hfuel, Option.map_some]
  · obtain ⟨report, hreport, hid⟩ := hin d hd
    obtain ⟨m, hm, hget⟩ := List.mem_iff_getElem.mp hreport
    refine ⟨m, ⟨report, by rw [List.getElem?_eq_getElem hm, hget], hid⟩, ?_⟩
    rintro m' ⟨report', hm', hid'⟩
    obtain ⟨hlt', hget'⟩ := List.getElem?_eq_some_iff.mp hm'
    by_contra hne
    have hpair := List.pairwise_iff_getElem.mp hr.disjoint
    obtain hlt | hlt := Nat.lt_or_gt_of_ne hne
    · have hdis := hpair m' m hlt' hm hlt
      rw [hget, hget'] at hdis
      exact Finset.disjoint_left.mp hdis hid' hid
    · have hdis := hpair m m' hm hlt' hlt
      rw [hget, hget'] at hdis
      exact Finset.disjoint_left.mp hdis hid hid'
  · constructor
    · rintro ⟨report, hreport, hid, hid'⟩
      exact (hr.classes report hreport d.id hid d'.id).mp hid'
    · intro hconn
      obtain ⟨report, hreport, hid⟩ := hin d hd
      exact ⟨report, hreport, hid, (hr.classes report hreport d.id hid d'.id).mpr hconn⟩

end

/-- Three executions, two of them linked by an address. -/
theorem reports_partition_three : ∃ n bugs,
    (∀ fuel, n ≤ fuel → printBug
      { tables := ⟨[⟨.storeInst, "", false, "", [], [], []⟩, ⟨.storeInst, "", false, "", [], [], []⟩,
          ⟨.normalInst, "", false, "", [], [], []⟩], []⟩
        memDependencies := fun _ => []
        addr2Unneded := [⟨[0, 1], by simp⟩]
        file := fun _ => "a.c" } fuel [⟨1, 0, 0⟩, ⟨1, 1, 0⟩, ⟨1, 2, -1⟩] = some bugs) ∧
      Partitions
        { tables := ⟨[⟨.storeInst, "", false, "", [], [], []⟩,
            ⟨.storeInst, "", false, "", [], [], []⟩, ⟨.normalInst, "", false, "", [], [], []⟩], []⟩
          memDependencies := fun _ => []
          addr2Unneded := [⟨[0, 1], by simp⟩]
          file := fun _ => "a.c" } [⟨1, 0, 0⟩, ⟨1, 1, 0⟩, ⟨1, 2, -1⟩] bugs :=
  reports_partition _ _ (by simp)

end Slimmer
