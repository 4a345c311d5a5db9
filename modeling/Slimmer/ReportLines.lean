import Mathlib.Algebra.BigOperators.Group.Finset.Piecewise
import Mathlib.Algebra.GroupWithZero.Nat
import Mathlib.Data.String.Basic
import Slimmer.BugReports

/-!
# The lines `PrintBug` prints

For each report `PrintBug` (`tools/PrintBug/PrintBug.cpp`) prints the source lines around its
instructions, file by file, each line with the number of its unneeded executions. A line that `GetCode`
has no text for is left out, and so are instructions without a file.

**Theorem (`reports_account`).** The numbers printed in all reports add up to the unneeded executions
that have a source line with a text: none is lost or counted twice. Each of them has its line printed,
and the lines of a file come in order.

Counters are unbounded here; those of the source are 32-bit ones.
-/

namespace Slimmer

/-! ## The functions -/

/-- What printing a report reads besides: `Ins[id].LoC`, and what is in the source files that can be
opened. -/
structure CodeInput extends BugInput where
  loc : Nat → Int
  content : String → Option (List Char)

/-- The lines of a source file in `CodeCahe`. -/
def CodeInput.codeLines (I : CodeInput) (path : String) : List (List Char) :=
  (I.content path).elim [] (List.splitOn '\n')

/-- `GetCode`. -/
def CodeInput.getCode (I : CodeInput) (path : String) (loc : Nat) : List Char :=
  if loc = 0 ∨ (I.codeLines path).length < loc then [] else (I.codeLines path).getD (loc - 1) []

/-- `uneeded_ins_cnt[id]`. -/
def uneededInsCnt (bug : List DynamicInst) (id : Nat) : Nat := bug.countP fun d => d.id = id

/-- `used_code[path]`: the lines around the instructions of the report. -/
def CodeInput.usedCode (I : CodeInput) (report : Finset Nat) (path : String) : Finset Int :=
  (report.filter fun j => I.file j = path).biUnion fun j =>
    (Finset.range 7).image fun i : Nat => I.loc j + ((i : Int) - 3)

/-- The keys of `used_code`. -/
def CodeInput.usedFiles (I : CodeInput) (report : Finset Nat) : Finset String :=
  (report.filter fun j => I.file j ≠ "[UNKNOWN]").image I.file

/-- `code_cnt[make_pair(path, l)]`. -/
def CodeInput.codeCnt (I : CodeInput) (bug : List DynamicInst) (report : Finset Nat) (path : String)
    (l : Int) : Nat :=
  ∑ j ∈ report with I.file j = path ∧ I.loc j = l, uneededInsCnt bug j

/-- What is printed for a file: an empty line where lines are left out, or a line with its count. The
count 0 is not printed. -/
inductive Printed
  | gap
  | line (count : Nat) (number : Int) (code : List Char)

/-- The loop over the lines of a file; `last` is `last_line`. -/
def CodeInput.printLines (I : CodeInput) (path : String) (cnt : Int → Nat) :
    Int → List Int → List Printed
  | _, [] => []
  | last, l :: ls =>
    if l < 0 then printLines I path cnt last ls
    else
      (if last ≠ l - 1 then [.gap] else []) ++
        ((if I.getCode path l.toNat ≠ [] then [.line (cnt l) l (I.getCode path l.toNat)] else []) ++
          printLines I path cnt l ls)

/-- What is printed for a report: the instructions with their counts, if `SLIMMER_PRINT_CODE` is set,
and the lines of each file. -/
structure Report where
  ir : List (Nat × Nat × String)
  code : List (String × List Printed)

/-- A turn of the loop over `uneeded_ins_cnt` prints its report. -/
def CodeInput.printReport (I : CodeInput) (bug : List DynamicInst) (report : Finset Nat) : Report where
  ir :=
    if I.printCode then
      (report.sort (· ≤ ·)).map fun j =>
        (uneededInsCnt bug j, j, ((I.tables.ins[j]?).map InstInfo.code).getD "")
    else []
  code := ((I.usedFiles report).sort (· ≤ ·)).map fun path =>
    (path, I.printLines path (I.codeCnt bug report path) (-1)
      ((I.usedCode report path).sort (· ≤ ·)))

/-- `PrintBug`, with what it prints. -/
def CodeInput.printBug (I : CodeInput) (fuel : Nat) (bug : List DynamicInst) : Option (List Report) :=
  (Slimmer.printBug I.toBugInput fuel bug).map (List.map (I.printReport bug))

/-! ## What is printed -/

/-- The count of a line. -/
def Printed.count : Printed → Nat
  | .gap => 0
  | .line count _ _ => count

/-- The number of a line. -/
def Printed.number : Printed → Option Int
  | .gap => none
  | .line _ number _ => some number

/-- The numbers printed in a report, added up. -/
def Report.total (r : Report) : Nat := (r.code.map fun f => (f.2.map Printed.count).sum).sum

/-- The line is printed where it is used. -/
def CodeInput.Visible (I : CodeInput) (path : String) (l : Int) : Prop :=
  0 ≤ l ∧ I.getCode path l.toNat ≠ []

/-- The instruction has a source line with a text. -/
def CodeInput.Shown (I : CodeInput) (id : Nat) : Prop :=
  I.file id ≠ "[UNKNOWN]" ∧ I.Visible (I.file id) (I.loc id)

instance (I : CodeInput) (path : String) (l : Int) : Decidable (I.Visible path l) :=
  inferInstanceAs (Decidable (_ ∧ _))

instance (I : CodeInput) (id : Nat) : Decidable (I.Shown id) :=
  inferInstanceAs (Decidable (_ ∧ _))

section

variable {I : CodeInput} {bug : List DynamicInst} {report : Finset Nat} {path : String}
  {cnt : Int → Nat} {last l : Int} {ls : List Int}

/-- The lines of a file that are printed. -/
theorem mem_printLines {p : Printed} : p ∈ I.printLines path cnt last ls → p = .gap ∨
    ∃ l ∈ ls, I.Visible path l ∧ p = .line (cnt l) l (I.getCode path l.toNat) := by
  induction ls generalizing last with
  | nil => exact fun h => absurd h List.not_mem_nil
  | cons l ls ih =>
    have hrest : ∀ {last}, p ∈ I.printLines path cnt last ls → p = .gap ∨
        ∃ l' ∈ l :: ls, I.Visible path l' ∧ p = .line (cnt l') l' (I.getCode path l'.toNat) := by
      intro last h
      rcases ih h with h | ⟨l', hl', h⟩
      · exact Or.inl h
      · exact Or.inr ⟨l', List.mem_cons_of_mem _ hl', h⟩
    unfold CodeInput.printLines
    split_ifs with hl hgap hcode hcode
    · exact hrest
    all_goals
      simp only [List.mem_append, List.mem_singleton, List.not_mem_nil, false_or]
    · rintro (rfl | rfl | h)
      · exact Or.inl rfl
      · exact Or.inr ⟨l, List.mem_cons_self, ⟨not_lt.mp hl, hcode⟩, rfl⟩
      · exact hrest h
    · rintro (rfl | h)
      · exact Or.inl rfl
      · exact hrest h
    · rintro (rfl | h)
      · exact Or.inr ⟨l, List.mem_cons_self, ⟨not_lt.mp hl, hcode⟩, rfl⟩
      · exact hrest h
    · exact hrest

/-- A line of the loop is printed if it is visible. -/
theorem line_mem_printLines (hl : l ∈ ls) (hvisible : I.Visible path l) :
    Printed.line (cnt l) l (I.getCode path l.toNat) ∈ I.printLines path cnt last ls := by
  induction ls generalizing last with
  | nil => cases hl
  | cons l' ls ih =>
    unfold CodeInput.printLines
    rcases List.mem_cons.mp hl with rfl | hl
    · rw [if_neg (not_lt.mpr hvisible.1), if_pos hvisible.2]
      simp
    · split_ifs
      · exact ih hl
      all_goals simp [ih hl]

/-- The numbers of the lines printed. -/
theorem numbers_printLines : (I.printLines path cnt last ls).filterMap Printed.number =
    ls.filter fun l => I.Visible path l := by
  induction ls generalizing last with
  | nil => rfl
  | cons l ls ih =>
    unfold CodeInput.printLines
    by_cases hl : l < 0
    · have hnot : ¬ I.Visible path l := fun h => not_le.mpr hl h.1
      simp [hl, hnot, ih]
    · have hiff : I.Visible path l ↔ I.getCode path l.toNat ≠ [] :=
        ⟨And.right, fun h => ⟨not_lt.mp hl, h⟩⟩
      rw [if_neg hl, List.filterMap_append, List.filterMap_append, ih, List.filter_cons]
      simp only [decide_eq_true_eq, hiff]
      split_ifs <;> simp [Printed.number]

/-- The counts of the lines printed. -/
theorem sum_printLines : ((I.printLines path cnt last ls).map Printed.count).sum =
    ((ls.filter fun l => I.Visible path l).map cnt).sum := by
  induction ls generalizing last with
  | nil => rfl
  | cons l ls ih =>
    unfold CodeInput.printLines
    by_cases hl : l < 0
    · have hnot : ¬ I.Visible path l := fun h => not_le.mpr hl h.1
      simp [hl, hnot, ih]
    · have hiff : I.Visible path l ↔ I.getCode path l.toNat ≠ [] :=
        ⟨And.right, fun h => ⟨not_lt.mp hl, h⟩⟩
      rw [if_neg hl, List.map_append, List.map_append, List.sum_append, List.sum_append, ih,
        List.filter_cons]
      simp only [decide_eq_true_eq, hiff]
      split_ifs <;> simp [Printed.count]

/-! ## A report -/

/-- A sum over the elements of a set in order. -/
theorem sum_sort_filter {α : Type} [LinearOrder α] (s : Finset α) (p : α → Prop) [DecidablePred p]
    (f : α → Nat) : (((s.sort (· ≤ ·)).filter fun a => p a).map f).sum = ∑ a ∈ s with p a, f a := by
  rw [← List.sum_toFinset f ((Finset.sort_nodup s (· ≤ ·)).filter _), List.toFinset_filter,
    Finset.sort_toFinset]
  simp only [decide_eq_true_eq]

/-- The line of an instruction is used. -/
theorem loc_mem_usedCode {j : Nat} (hj : j ∈ report) (hfile : I.file j = path) :
    I.loc j ∈ I.usedCode report path := by
  refine Finset.mem_biUnion.mpr ⟨j, Finset.mem_filter.mpr ⟨hj, hfile⟩, ?_⟩
  exact Finset.mem_image.mpr ⟨3, by simp, by simp⟩

/-- The counts of a file. -/
theorem sum_codeCnt (path : String) :
    ∑ l ∈ I.usedCode report path with I.Visible path l, I.codeCnt bug report path l =
      ∑ j ∈ report with I.file j = path ∧ I.Visible path (I.loc j), uneededInsCnt bug j := by
  have hmaps : ∀ j ∈ report.filter fun j => I.file j = path ∧ I.Visible path (I.loc j),
      I.loc j ∈ (I.usedCode report path).filter fun l => I.Visible path l := by
    intro j hj
    obtain ⟨hj, hfile, hvisible⟩ := Finset.mem_filter.mp hj
    exact Finset.mem_filter.mpr ⟨loc_mem_usedCode hj hfile, hvisible⟩
  rw [← Finset.sum_fiberwise_of_maps_to hmaps]
  refine Finset.sum_congr rfl fun l hl => ?_
  rw [CodeInput.codeCnt, Finset.filter_filter]
  have hvisible := (Finset.mem_filter.mp hl).2
  refine Finset.sum_congr (Finset.filter_congr fun j _ => ?_) fun _ _ => rfl
  constructor
  · rintro ⟨hfile, rfl⟩
    exact ⟨⟨hfile, hvisible⟩, rfl⟩
  · rintro ⟨⟨hfile, -⟩, hloc⟩
    exact ⟨hfile, hloc⟩

/-- **The counts of a report** are those of its instructions with a source line. -/
theorem total_printReport :
    (I.printReport bug report).total = ∑ j ∈ report with I.Shown j, uneededInsCnt bug j := by
  have hfile : ∀ path, ((I.printLines path (I.codeCnt bug report path) (-1)
      ((I.usedCode report path).sort (· ≤ ·))).map Printed.count).sum =
      ∑ j ∈ report with I.file j = path ∧ I.Visible path (I.loc j), uneededInsCnt bug j := by
    intro path
    rw [sum_printLines, sum_sort_filter, sum_codeCnt]
  have hmaps : ∀ j ∈ report.filter fun j => I.Shown j, I.file j ∈ I.usedFiles report := by
    intro j hj
    obtain ⟨hj, hknown, -⟩ := Finset.mem_filter.mp hj
    exact Finset.mem_image_of_mem _ (Finset.mem_filter.mpr ⟨hj, hknown⟩)
  rw [Report.total, CodeInput.printReport, List.map_map, ← Finset.sum_fiberwise_of_maps_to hmaps,
    ← List.sum_toFinset _ (Finset.sort_nodup _ _), Finset.sort_toFinset]
  refine Finset.sum_congr rfl fun path hpath => ?_
  rw [Function.comp_apply, hfile, Finset.filter_filter]
  have hknown : path ≠ "[UNKNOWN]" := by
    obtain ⟨j, hj, rfl⟩ := Finset.mem_image.mp hpath
    exact (Finset.mem_filter.mp hj).2
  refine Finset.sum_congr (Finset.filter_congr fun j _ => ?_) fun _ _ => rfl
  constructor
  · rintro ⟨rfl, hvisible⟩
    exact ⟨⟨hknown, hvisible⟩, rfl⟩
  · rintro ⟨⟨-, hvisible⟩, rfl⟩
    exact ⟨rfl, hvisible⟩

/-- The executions of the instructions in a set. -/
theorem sum_uneededInsCnt (s : Finset Nat) (bug : List DynamicInst) :
    ∑ j ∈ s, uneededInsCnt bug j = bug.countP fun d => d.id ∈ s := by
  induction bug with
  | nil => simp [uneededInsCnt]
  | cons d bug ih =>
    have hcons : ∀ j, uneededInsCnt (d :: bug) j =
        uneededInsCnt bug j + if d.id = j then 1 else 0 := by
      intro j
      simp [uneededInsCnt, List.countP_cons]
    simp only [hcons, Finset.sum_add_distrib, ih, Finset.sum_ite_eq, List.countP_cons,
      decide_eq_true_eq]

/-! ## All reports -/

/-- An element of one of several disjoint sets is in one of them. -/
theorem countP_mem_of_disjoint {α : Type} [DecidableEq α] {sets : List (Finset α)} {a : α}
    (hdisjoint : sets.Pairwise Disjoint) (ha : ∃ s ∈ sets, a ∈ s) :
    sets.countP (fun s => a ∈ s) = 1 := by
  induction sets with
  | nil =>
    obtain ⟨s, hs, -⟩ := ha
    cases hs
  | cons s sets ih =>
    obtain ⟨hs, hdisjoint⟩ := List.pairwise_cons.mp hdisjoint
    rw [List.countP_cons]
    by_cases hmem : a ∈ s
    · have hnone : sets.countP (fun s => a ∈ s) = 0 := by
        refine List.countP_eq_zero.mpr fun s' hs' hmem' => ?_
        exact Finset.disjoint_left.mp (hs s' hs') hmem (by simpa using hmem')
      simp [hnone, hmem]
    · obtain ⟨s', hs', ha⟩ := ha
      rcases List.mem_cons.mp hs' with rfl | hs'
      · exact absurd ha hmem
      · simp [ih hdisjoint ⟨s', hs', ha⟩, hmem]

theorem sum_map_indicator {α : Type} (l : List α) (p : α → Bool) :
    (l.map fun a => if p a then 1 else 0).sum = l.countP p := by
  induction l with
  | nil => rfl
  | cons a l ih => rw [List.map_cons, List.sum_cons, List.countP_cons, ih, Nat.add_comm]

/-- What is counted in disjoint sets is counted once. -/
theorem sum_countP_of_disjoint {sets : List (Finset Nat)} (hdisjoint : sets.Pairwise Disjoint)
    (p : Nat → Prop) [DecidablePred p] (bug : List DynamicInst)
    (hin : ∀ d ∈ bug, ∃ s ∈ sets, d.id ∈ s) :
    (sets.map fun s => bug.countP fun d => d.id ∈ s.filter p).sum = bug.countP fun d => p d.id := by
  induction bug with
  | nil => simp
  | cons d bug ih =>
    obtain ⟨hd, hin⟩ := List.forall_mem_cons.mp hin
    have hsplit : (sets.map fun s => (d :: bug).countP fun d => d.id ∈ s.filter p) =
        sets.map fun s => (bug.countP fun d => d.id ∈ s.filter p) +
          if d.id ∈ s.filter p then 1 else 0 := by
      refine List.map_congr_left fun s _ => ?_
      rw [List.countP_cons]
      simp only [decide_eq_true_eq]
    have hone : (sets.map fun s => if d.id ∈ s.filter p then 1 else 0).sum =
        if p d.id then 1 else 0 := by
      by_cases hp : p d.id
      · rw [if_pos hp]
        refine Eq.trans ?_ (countP_mem_of_disjoint hdisjoint hd)
        rw [← sum_map_indicator]
        simp [hp]
      · simp [hp]
    rw [hsplit, List.sum_map_add, ih hin, hone, List.countP_cons]
    simp only [decide_eq_true_eq]

/-- The reports are disjoint, and every id with an unneeded execution is in one. -/
theorem exists_reports (I : BugInput) (bug : List DynamicInst)
    (hids : ∀ d ∈ bug, d.id < I.tables.ins.length) :
    ∃ n bugs, (∀ fuel, n ≤ fuel → printBug I fuel bug = some bugs) ∧ bugs.Pairwise Disjoint ∧
      ∀ d ∈ bug, ∃ report ∈ bugs, d.id ∈ report := by
  obtain ⟨graph, hgraph⟩ := graph_isSome hids
  have hkeys : ∀ a, a ∈ bug.foldl (fun keys d => insertSorted d.id keys) [] ↔
      a ∈ bug.map DynamicInst.id := by
    intro a
    rw [← List.foldl_map (f := DynamicInst.id) (g := fun keys id => insertSorted id keys),
      mem_foldl_insertSorted]
    simp
  have hstart : Reporting I bug 0
      { keys := bug.foldl (fun keys d => insertSorted d.id keys) [] } := by
    refine ⟨?_, fun a ha => ?_, fun d hd => (hkeys d.id).mpr (List.mem_map_of_mem hd),
      fun a _ ha => absurd ha (Nat.not_lt_zero a), by simp, by simp, List.Pairwise.nil⟩
    · rw [← List.foldl_map (f := DynamicInst.id) (g := fun keys id => insertSorted id keys)]
      exact foldl_insertSorted_pairwise List.Pairwise.nil
    · exact Finset.mem_union_left _ (List.mem_toFinset.mpr ((hkeys a).mp ha))
  obtain ⟨n, r, k, hloop, hr, hall⟩ := hstart.ends hgraph
  refine ⟨n, r.bugs, fun fuel hfuel => ?_, hr.disjoint, fun d hd => ?_⟩
  · rw [printBug, hgraph, Option.bind_some, hloop fuel hfuel, Option.map_some]
  · exact (hr.printed d.id).mp (hr.done d.id (hr.execs d hd) (hall d.id (hr.execs d hd)))

/-- What is printed for the reports accounts for the unneeded executions. -/
structure Accounts (I : CodeInput) (bug : List DynamicInst) (bugs : List (Finset Nat)) : Prop where
  /-- the numbers printed add up to the executions with a source line -/
  total : (bugs.map fun report => (I.printReport bug report).total).sum =
    bug.countP fun d => I.Shown d.id
  /-- a number printed is that of the executions of the line in the report -/
  count : ∀ report ∈ bugs, ∀ f ∈ (I.printReport bug report).code, ∀ count number code,
    Printed.line count number code ∈ f.2 →
      count = bug.countP fun d => d.id ∈ report ∧ I.file d.id = f.1 ∧ I.loc d.id = number
  /-- the line of an execution is printed in its report -/
  printed : ∀ d ∈ bug, I.Shown d.id → ∃ report ∈ bugs, d.id ∈ report ∧
    ∃ f ∈ (I.printReport bug report).code, f.1 = I.file d.id ∧
      ∃ count code, 0 < count ∧ Printed.line count (I.loc d.id) code ∈ f.2
  /-- the files and the lines of a file come in order, each once -/
  ordered : ∀ report ∈ bugs, ((I.printReport bug report).code.map Prod.fst).Pairwise (· < ·) ∧
    ∀ f ∈ (I.printReport bug report).code, (f.2.filterMap Printed.number).Pairwise (· < ·)

theorem codeCnt_eq (path : String) (l : Int) : I.codeCnt bug report path l =
    bug.countP fun d => d.id ∈ report ∧ I.file d.id = path ∧ I.loc d.id = l := by
  rw [CodeInput.codeCnt, sum_uneededInsCnt]
  simp only [Finset.mem_filter]

/-- What is printed adds up when the reports are disjoint and every unneeded execution is in one. -/
theorem accounts_of_reports {bugs : List (Finset Nat)} (hdisjoint : bugs.Pairwise Disjoint)
    (hin : ∀ d ∈ bug, ∃ report ∈ bugs, d.id ∈ report) : Accounts I bug bugs := by
  refine ⟨?_, ?_, ?_, ?_⟩
  · rw [← sum_countP_of_disjoint hdisjoint (fun id => I.Shown id) bug hin]
    refine congrArg List.sum (List.map_congr_left fun report _ => ?_)
    rw [total_printReport, sum_uneededInsCnt]
  · intro report _ f hf count number code hline
    obtain ⟨path, -, rfl⟩ := List.mem_map.mp hf
    rcases mem_printLines hline with h | ⟨l, -, -, h⟩
    · cases h
    · cases h
      exact codeCnt_eq path number
  · intro d hd hshown
    obtain ⟨report, hreport, hid⟩ := hin d hd
    have hpath : I.file d.id ∈ (I.usedFiles report).sort (· ≤ ·) := by
      rw [Finset.mem_sort]
      exact Finset.mem_image_of_mem _ (Finset.mem_filter.mpr ⟨hid, hshown.1⟩)
    have hpos : 0 < I.codeCnt bug report (I.file d.id) (I.loc d.id) := by
      rw [codeCnt_eq, List.countP_pos_iff]
      exact ⟨d, hd, by simpa using hid⟩
    refine ⟨report, hreport, hid, _, List.mem_map.mpr ⟨_, hpath, rfl⟩, rfl, _, _, hpos,
      line_mem_printLines ?_ hshown.2⟩
    rw [Finset.mem_sort]
    exact loc_mem_usedCode hid rfl
  · intro report _
    constructor
    · rw [CodeInput.printReport, List.map_map]
      show (((I.usedFiles report).sort (· ≤ ·)).map fun path => path).Pairwise (· < ·)
      rw [List.map_id']
      exact (Finset.sortedLT_sort _).pairwise
    · intro f hf
      obtain ⟨path, -, rfl⟩ := List.mem_map.mp hf
      rw [numbers_printLines]
      exact (Finset.sortedLT_sort _).pairwise.filter _

/-- **The reports account for what is unneeded.** For every set of unneeded executions, `PrintBug`
ends, and what it prints adds up. -/
theorem reports_account (I : CodeInput) (bug : List DynamicInst)
    (hids : ∀ d ∈ bug, d.id < I.tables.ins.length) :
    ∃ n bugs, (∀ fuel, n ≤ fuel → I.printBug fuel bug = some (bugs.map (I.printReport bug))) ∧
      Accounts I bug bugs := by
  obtain ⟨n, bugs, hloop, hdisjoint, hin⟩ := exists_reports I.toBugInput bug hids
  refine ⟨n, bugs, fun fuel hfuel => ?_, accounts_of_reports hdisjoint hin⟩
  rw [CodeInput.printBug, hloop fuel hfuel, Option.map_some]

end

/-- Two executions of line 2 of a source file, in different reports. -/
def twoReports : CodeInput where
  tables := ⟨[⟨.storeInst, "", false, "", [], [], []⟩, ⟨.loadInst, "", false, "", [], [], []⟩], []⟩
  memDependencies := fun _ => []
  addr2Unneded := []
  file := fun _ => "a.c"
  loc := fun _ => 2
  content := fun _ => some "int a;\na = 1;\n".toList

theorem reports_account_two : ∃ n bugs, (∀ fuel, n ≤ fuel →
    twoReports.printBug fuel [⟨1, 0, 0⟩, ⟨1, 1, 0⟩] =
      some (bugs.map (twoReports.printReport [⟨1, 0, 0⟩, ⟨1, 1, 0⟩]))) ∧
    Accounts twoReports [⟨1, 0, 0⟩, ⟨1, 1, 0⟩] bugs :=
  reports_account _ _ (by decide)

end Slimmer
