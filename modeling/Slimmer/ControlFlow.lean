import Slimmer.BugReports
import Slimmer.InstrumentedTraces
import Slimmer.PostDominatorRight

/-!
# The control flow graph, from the pass to `PreparePostDominator`

The pass writes the edges between basic blocks to the file `BBGraph` and the names of the instrumented
functions to `InstrumentedFun`. `PreparePostDominator` reads the one with `fscanf` (`scanBBGraph`), the
Pin tool the other one with `>>` (`loadInstrumentedFun`).

* `infoDir_reads_back`: both files read back to what the pass has written, and the edges are those of
  the control flow graph of the module.
* `post_dominators_of_module`: from the file, `PreparePostDominator` computes for every block a set that
  holds all blocks on every path from it to a block without successors, and only blocks that can be
  reached.
-/

namespace Slimmer

/-! ## Reading -/

/-- `while (fscanf(f, "%d%d", &a, &b) != EOF)`. The text may end behind the first of two numbers, and
then `b` is the one before. When the text goes on with something else than a number, or a number is no
`int`, the loop does not end or is undefined. Each turn reads a character at least. -/
def scanEdges : Nat → Option Int → List Char → Option (List (Nat × Nat))
  | 0, _, _ => none
  | fuel + 1, b, s =>
    if s.dropWhile isSpace = [] then some []
    else (readInt s).bind fun (a, s) =>
      if s.dropWhile isSpace = [] then b.map fun b => [(toUInt32 a, toUInt32 b)]
      else (readInt s).bind fun (b, s) =>
        (scanEdges fuel (some b) s).map fun edges => (toUInt32 a, toUInt32 b) :: edges

/-- The edges `PreparePostDominator` reads. -/
def scanBBGraph (s : List Char) : Option (List (Nat × Nat)) := scanEdges (s.length + 1) none s

/-- `while (file >> name)`; each turn reads a character at least. -/
def loadNames : Nat → List Char → List String
  | 0, _ => []
  | fuel + 1, s =>
    match readWord s with
    | none => []
    | some (w, s) => String.ofList w :: loadNames fuel s

/-- `LoadInstrumentedFun`: the names that are inserted. -/
def loadInstrumentedFun (s : List Char) : List String := loadNames (s.length + 1) s

section

variable {edges : List (Nat × Nat)} {e : Nat × Nat} {s : List Char} {b : Option Int} {fuel : Nat}

theorem toUInt32_natCast {n : Nat} (h : n < 2 ^ 31) : toUInt32 (n : Int) = n := by
  unfold toUInt32
  omega

/-- A text that goes on with a number. -/
theorem dropWhile_number (n : Nat) (s : List Char) :
    (Nat.toDigits 10 n ++ s).dropWhile isSpace ≠ [] := by
  rw [dropWhile_word isWord_toDigits Nat.toDigits_ne_nil]
  simp [Nat.toDigits_ne_nil]

theorem dropWhile_space_number {c : Char} (hc : isSpace c = true) (n : Nat) (s : List Char) :
    (c :: (Nat.toDigits 10 n ++ s)).dropWhile isSpace ≠ [] := by
  rw [dropWhile_space hc]
  exact dropWhile_number n s

/-- An edge is read back, behind the end of the line before. -/
theorem scanEdges_print (h₁ : e.1 < 2 ^ 31) (h₂ : e.2 < 2 ^ 31) :
    scanEdges (fuel + 1) b (printEdge e ++ s) =
        (scanEdges fuel (some (e.2 : Int)) ('\n' :: s)).map (e :: ·) ∧
      scanEdges (fuel + 1) b ('\n' :: (printEdge e ++ s)) =
        (scanEdges fuel (some (e.2 : Int)) ('\n' :: s)).map (e :: ·) := by
  have htext : printEdge e ++ s =
      Nat.toDigits 10 e.1 ++ ' ' :: (Nat.toDigits 10 e.2 ++ '\n' :: s) := by
    simp [printEdge]
  have hfirst : readInt (printEdge e ++ s) =
      some ((e.1 : Int), ' ' :: (Nat.toDigits 10 e.2 ++ '\n' :: s)) := by
    rw [htext, readInt_decimal (spaceFirst_cons (by decide)), if_pos h₁]
  have hsecond : readInt (' ' :: (Nat.toDigits 10 e.2 ++ '\n' :: s)) =
      some ((e.2 : Int), '\n' :: s) := by
    rw [readInt_space (by decide), readInt_decimal (spaceFirst_cons (by decide)), if_pos h₂]
  have hmore : ¬ (' ' :: (Nat.toDigits 10 e.2 ++ '\n' :: s)).dropWhile isSpace = [] :=
    dropWhile_space_number (by decide) _ _
  have hstart : ¬ (printEdge e ++ s).dropWhile isSpace = [] := by
    rw [htext]
    exact dropWhile_number _ _
  have hedge : (toUInt32 (e.1 : Int), toUInt32 (e.2 : Int)) = e := by
    rw [toUInt32_natCast h₁, toUInt32_natCast h₂]
  constructor
  · simp only [scanEdges, if_neg hstart, hfirst, Option.bind_some, if_neg hmore, hsecond, hedge]
  · rw [scanEdges, dropWhile_space (by decide), if_neg hstart, readInt_space (by decide)]
    simp only [hfirst, Option.bind_some, if_neg hmore, hsecond, hedge]

/-- **The edges** are read back when their blocks have numbers an `int` can hold. -/
theorem scanBBGraph_print (hedges : ∀ e ∈ edges, e.1 < 2 ^ 31 ∧ e.2 < 2 ^ 31) :
    scanBBGraph (edges.flatMap printEdge) = some edges := by
  -- behind the first line, each line starts with the end of the one before
  have hlines : ∀ (edges : List (Nat × Nat)) (b : Option Int) (fuel : Nat),
      (∀ e ∈ edges, e.1 < 2 ^ 31 ∧ e.2 < 2 ^ 31) → edges.length < fuel →
        scanEdges fuel b ('\n' :: edges.flatMap printEdge) = some edges := by
    intro edges
    induction edges with
    | nil =>
      intro b fuel _ hfuel
      obtain ⟨fuel, rfl⟩ : ∃ n, fuel = n + 1 := ⟨fuel - 1, by simp at hfuel; omega⟩
      rfl
    | cons e edges ih =>
      intro b fuel hedges hfuel
      obtain ⟨⟨h₁, h₂⟩, hedges⟩ := List.forall_mem_cons.mp hedges
      rw [List.length_cons] at hfuel
      obtain ⟨fuel, rfl⟩ : ∃ n, fuel = n + 1 := ⟨fuel - 1, by omega⟩
      rw [List.flatMap_cons, (scanEdges_print h₁ h₂).2, ih _ _ hedges (by omega)]
      rfl
  cases edges with
  | nil => rfl
  | cons e edges =>
    obtain ⟨⟨h₁, h₂⟩, hedges⟩ := List.forall_mem_cons.mp hedges
    have hlong : ∀ edges : List (Nat × Nat), edges.length ≤ (edges.flatMap printEdge).length := by
      intro edges
      induction edges with
      | nil => exact Nat.le_refl 0
      | cons e edges ih =>
        rw [List.flatMap_cons, List.length_append, List.length_cons, printEdge, List.length_append,
          List.length_cons]
        omega
    have hlen := hlong (e :: edges)
    rw [List.length_cons] at hlen
    rw [scanBBGraph, List.flatMap_cons, (scanEdges_print h₁ h₂).1]
    rw [List.flatMap_cons] at hlen
    rw [hlines edges _ _ hedges (by omega)]
    rfl

/-- **The names** are read back when they are words. -/
theorem loadInstrumentedFun_print {names : List String}
    (hnames : ∀ name ∈ names, IsWord name.toList ∧ name ≠ "") :
    loadInstrumentedFun (names.flatMap fun name => name.toList ++ ['\n']) = names := by
  have hlines : ∀ (names : List String) (fuel : Nat),
      (∀ name ∈ names, IsWord name.toList ∧ name ≠ "") → names.length < fuel →
        loadNames fuel ('\n' :: names.flatMap fun name => name.toList ++ ['\n']) = names := by
    intro names
    induction names with
    | nil =>
      intro fuel _ hfuel
      obtain ⟨fuel, rfl⟩ : ∃ n, fuel = n + 1 := ⟨fuel - 1, by simp at hfuel; omega⟩
      rfl
    | cons name names ih =>
      intro fuel hnames hfuel
      obtain ⟨⟨hword, hne⟩, hnames⟩ := List.forall_mem_cons.mp hnames
      rw [List.length_cons] at hfuel
      obtain ⟨fuel, rfl⟩ : ∃ n, fuel = n + 1 := ⟨fuel - 1, by omega⟩
      have hne : name.toList ≠ [] := fun h => hne (String.toList_eq_nil_iff.mp h)
      have hread : readWord ('\n' :: (name.toList ++ ['\n'] ++
          names.flatMap fun name => name.toList ++ ['\n'])) =
          some (name.toList, '\n' :: names.flatMap fun name => name.toList ++ ['\n']) := by
        rw [readWord_space (by decide), List.append_assoc]
        exact readWord_word hword hne (spaceFirst_cons (by decide))
      rw [List.flatMap_cons, loadNames, hread]
      show String.ofList name.toList :: loadNames fuel _ = _
      rw [String.ofList_toList, ih _ hnames (by omega)]
  have hspace : ∀ s : List Char, ∀ fuel, loadNames fuel ('\n' :: s) = loadNames fuel s := by
    intro s fuel
    cases fuel with
    | zero => rfl
    | succ fuel => rw [loadNames, loadNames, readWord_space (by decide)]
  have hlong : ∀ names : List String,
      names.length ≤ (names.flatMap fun name => name.toList ++ ['\n']).length := by
    intro names
    induction names with
    | nil => exact Nat.le_refl 0
    | cons name names ih =>
      rw [List.flatMap_cons, List.length_append, List.length_cons, List.length_append]
      simp only [List.length_singleton]
      omega
  rw [loadInstrumentedFun, ← hspace]
  exact hlines names _ hnames (Nat.lt_succ_of_le (hlong names))

end

/-! ## The graph of a module -/

/-- Control can go from one basic block to the other. -/
def IRModule.Goes (M : IRModule) (r r' : Nat) : Prop :=
  ∃ b ∈ M.blocks, b.ref = r ∧ ∃ i ∈ b.insts, ∃ operands successors,
    i.op = .terminator operands successors ∧ r' ∈ successors

section

variable {M : IRModule} {rs : List InstRecord} {d : InfoDir} {r r' i j : Nat}

/-- The blocks an instruction can go to. -/
theorem mem_successors {op : IROp} {cls : InstClass} (h : M.instClass op = some cls) :
    j ∈ cls.successors ↔
      ∃ operands successors, op = .terminator operands successors ∧
        ∃ r' ∈ successors, M.bbID r' = some j := by
  have hother : cls.successors = [] → (∀ operands successors, op ≠ .terminator operands successors) →
      (j ∈ cls.successors ↔ ∃ operands successors, op = .terminator operands successors ∧
        ∃ r' ∈ successors, M.bbID r' = some j) := by
    intro hnil hop
    rw [hnil]
    refine iff_of_false List.not_mem_nil ?_
    rintro ⟨operands, successors, heq, -⟩
    exact hop _ _ heq
  cases op with
  | terminator operands successors =>
    obtain ⟨l, hl, rfl⟩ := Option.map_eq_some_iff.mp h
    rw [InstClass.successors, mem_of_mapM hl]
    constructor
    · exact fun hmem => ⟨operands, successors, rfl, hmem⟩
    · rintro ⟨_, _, heq, hmem⟩
      cases heq
      exact hmem
  | phi incoming =>
    obtain ⟨l, -, rfl⟩ := Option.map_eq_some_iff.mp h
    exact hother rfl fun _ _ h => nomatch h
  | _ =>
    cases h
    exact hother rfl fun _ _ h => nomatch h

/-- **The edges the pass writes** are those of the graph, with the ids of the blocks. -/
theorem mem_bbEdges (hM : M.Verified) (hrs : M.records = some rs) :
    (i, j) ∈ bbEdges rs ↔ ∃ r r', M.Goes r r' ∧ M.bbID r = some i ∧ M.bbID r' = some j := by
  have hnumbered : ∀ p, p ∈ M.numbered ↔ ∃ b, M.blocks[p.1]? = some b ∧ p.2 ∈ b.traced := by
    rintro ⟨bb, inst⟩
    rw [numbered_eq, grouped, List.mem_flatMap]
    constructor
    · rintro ⟨⟨b, bb'⟩, hb, hp⟩
      obtain ⟨inst', hinst, heq⟩ := List.mem_map.mp hp
      cases heq
      exact ⟨b, List.mem_zipIdx_iff_getElem?.mp hb, hinst⟩
    · rintro ⟨b, hb, hinst⟩
      exact ⟨(b, bb), List.mem_zipIdx_iff_getElem?.mpr hb, List.mem_map.mpr ⟨inst, hinst, rfl⟩⟩
  unfold bbEdges
  rw [List.mem_flatMap]
  constructor
  · rintro ⟨rec, hrec, hedge⟩
    obtain ⟨j', hj, heq⟩ := List.mem_map.mp hedge
    cases heq
    obtain ⟨⟨bb, inst⟩, hp, hrecord⟩ := (mem_of_mapM hrs).mp hrec
    obtain ⟨b, hb, hinst⟩ := (hnumbered _).mp hp
    obtain ⟨cls, hcls, rfl⟩ := Option.map_eq_some_iff.mp hrecord
    obtain ⟨operands, successors, hop, r', hr', hj⟩ := (mem_successors hcls).mp hj
    exact ⟨b.ref, r', ⟨b, List.mem_of_getElem? hb, rfl, inst, (mem_traced.mp hinst).1, operands,
      successors, hop, hr'⟩, hM.bbID_of_getElem? hb, hj⟩
  · rintro ⟨r, r', ⟨b, hb, rfl, inst, hinst, operands, successors, hop, hr'⟩, hi, hj⟩
    obtain ⟨bb, hbb⟩ := List.mem_iff_getElem?.mp hb
    obtain rfl : bb = i := Option.some.inj ((hM.bbID_of_getElem? hbb).symm.trans hi)
    have htraced : inst ∈ b.traced :=
      mem_traced.mpr ⟨hinst, notTraced_of_isTerminator (by rw [hop]; rfl)⟩
    have hmem : (bb, inst) ∈ M.numbered := (hnumbered _).mpr ⟨b, hbb, htraced⟩
    obtain ⟨rec, hrec⟩ := exists_mapM_iff.mp ⟨rs, hrs⟩ _ hmem
    have hrec' : M.record bb inst = some rec := hrec
    obtain ⟨cls, hcls, rfl⟩ := Option.map_eq_some_iff.mp hrec'
    refine ⟨_, (mem_of_mapM hrs).mpr ⟨_, hmem, hrec⟩, List.mem_map.mpr ⟨j, ?_, rfl⟩⟩
    exact (mem_successors hcls).mpr ⟨operands, successors, hop, r', hr', hj⟩

/-- Every block has an instruction that is traced, so there are no more blocks than ids. -/
theorem length_blocks_le (hM : M.Verified) : M.blocks.length ≤ M.insts.length := by
  have hne : ∀ b ∈ M.blocks, 1 ≤ b.traced.length := by
    intro b hb
    obtain ⟨body, last, htraced, -⟩ := hM.traced_eq hb
    rw [htraced, List.length_append]
    exact Nat.le_add_left 1 _
  unfold IRModule.insts
  generalize M.blocks = bs at hne
  induction bs with
  | nil => exact Nat.le_refl 0
  | cons b bs ih =>
    obtain ⟨hb, hbs⟩ := List.forall_mem_cons.mp hne
    have := ih hbs
    rw [List.length_cons, List.flatMap_cons, List.length_append]
    omega

/-- The numbers of the edges can be read. -/
theorem bbEdges_inRange (hM : M.Verified) (hrs : M.records = some rs)
    (hin : InRange M.instrumentedFun rs) : ∀ e ∈ bbEdges rs, e.1 < 2 ^ 31 ∧ e.2 < 2 ^ 31 := by
  have hlen : M.blocks.length ≤ 2 ^ 31 := by
    have hle := length_blocks_le hM
    rw [← length_records hrs] at hle
    by_contra hlt
    obtain ⟨rec, hrec⟩ : ∃ rec, rs[2 ^ 31]? = some rec :=
      ⟨_, List.getElem?_eq_getElem (by omega)⟩
    exact absurd (hin _ rec hrec).1.id_lt (lt_irrefl _)
  have hid : ∀ {r id : Nat}, M.bbID r = some id → id < 2 ^ 31 := by
    intro r id h
    obtain ⟨hlt, -⟩ := List.findIdx?_eq_some_iff_getElem.mp h
    omega
  rintro ⟨i, j⟩ he
  obtain ⟨r, r', -, hi, hj⟩ := (mem_bbEdges hM hrs).mp he
  exact ⟨hid hi, hid hj⟩

/-- The edges of a module, as `PreparePostDominator` reads them. -/
theorem exists_bbEdges (hM : M.Verified) (hd : M.infoDir = some d) (hread : M.Readable) :
    ∃ rs, M.records = some rs ∧ scanBBGraph d.bbGraph = some (bbEdges rs) := by
  obtain ⟨-, -, hd⟩ := Option.bind_eq_some_iff.mp hd
  obtain ⟨rs, hrs, rfl⟩ := Option.map_eq_some_iff.mp hd
  exact ⟨rs, hrs, scanBBGraph_print (bbEdges_inRange hM hrs (hread rs hrs).1)⟩

/-- **The files of the pass read back.** For every module whose numbers and names can be read:
`LoadInstrumentedFun` gets the instrumented functions, and `PreparePostDominator` gets the edges of the
control flow graph, with the ids of the blocks. -/
theorem infoDir_reads_back (hM : M.Verified) (hd : M.infoDir = some d) (hread : M.Readable)
    (hnames : ∀ name ∈ M.instrumentedFun, IsWord name.toList ∧ name ≠ "") :
    loadInstrumentedFun d.instrumentedFun = M.instrumentedFun ∧
      ∃ edges, scanBBGraph d.bbGraph = some edges ∧
        ∀ i j, (i, j) ∈ edges ↔ ∃ r r', M.Goes r r' ∧ M.bbID r = some i ∧ M.bbID r' = some j := by
  constructor
  · obtain ⟨-, -, hd⟩ := Option.bind_eq_some_iff.mp hd
    obtain ⟨rs, -, rfl⟩ := Option.map_eq_some_iff.mp hd
    exact loadInstrumentedFun_print hnames
  · obtain ⟨rs, hrs, hscan⟩ := exists_bbEdges hM hd hread
    exact ⟨bbEdges rs, hscan, fun i j => mem_bbEdges hM hrs⟩

/-! ## Post-dominators of a module -/

theorem bbID_injective {k : Nat} (h : M.bbID r = some k) (h' : M.bbID r' = some k) : r = r' := by
  obtain ⟨_, hr, -⟩ := List.findIdx?_eq_some_iff_getElem.mp h
  obtain ⟨_, hr', -⟩ := List.findIdx?_eq_some_iff_getElem.mp h'
  rw [decide_eq_true_eq] at hr hr'
  exact hr.symm.trans hr'

/-- The graph of the ids and the graph of the module. -/
structure GraphOf (M : IRModule) (E : Nat → Nat → Prop) : Prop where
  edge : ∀ r r' i, M.Goes r r' → M.bbID r = some i → ∃ j, M.bbID r' = some j ∧ E i j
  back : ∀ r i j, E i j → M.bbID r = some i → ∃ r', M.bbID r' = some j ∧ M.Goes r r'
  inside : ∀ i j, E i j → ∃ r, M.bbID r = some i

theorem graphOf_bbEdges (hM : M.Verified) (hrs : M.records = some rs) :
    GraphOf M (BBEdge (bbEdges rs)) := by
  refine ⟨fun r r' i hgoes hi => ?_, fun r i j hedge hi => ?_, fun i j hedge => ?_⟩
  · obtain ⟨j, hj⟩ : ∃ j, M.bbID r' = some j := by
      -- the terminator has a record, so its successors have ids
      obtain ⟨b, hb, -, inst, hinst, operands, successors, hop, hr'⟩ := hgoes
      have htraced : inst ∈ b.traced :=
        mem_traced.mpr ⟨hinst, notTraced_of_isTerminator (by rw [hop]; rfl)⟩
      obtain ⟨id, hid⟩ := List.mem_iff_getElem?.mp
        (show inst ∈ M.insts from List.mem_flatMap.mpr ⟨b, hb, htraced⟩)
      obtain ⟨p, hp, rfl⟩ : ∃ p, p ∈ M.numbered ∧ p.2 = inst := by
        rw [← map_snd_numbered] at hid
        exact List.mem_map.mp (List.mem_of_getElem? hid)
      obtain ⟨rec, hrec⟩ := exists_mapM_iff.mp ⟨rs, hrs⟩ p hp
      have hrec' : M.record p.1 p.2 = some rec := hrec
      obtain ⟨cls, hcls, -⟩ := Option.map_eq_some_iff.mp hrec'
      rw [hop] at hcls
      obtain ⟨l, hl, -⟩ := Option.map_eq_some_iff.mp hcls
      exact exists_mapM_iff.mp ⟨l, hl⟩ r' hr'
    exact ⟨j, hj, (mem_bbEdges hM hrs).mpr ⟨r, r', hgoes, hi, hj⟩⟩
  · obtain ⟨r₀, r', hgoes, hi₀, hj⟩ := (mem_bbEdges hM hrs).mp hedge
    obtain rfl := bbID_injective hi hi₀
    exact ⟨r', hj, hgoes⟩
  · obtain ⟨r, -, -, hi, -⟩ := (mem_bbEdges hM hrs).mp hedge
    exact ⟨r, hi⟩

section

variable {E : Nat → Nat → Prop} {q k : Nat}

theorem GraphOf.isEnd (h : GraphOf M E) (hi : M.bbID r = some i) : IsEnd E i ↔ IsEnd M.Goes r := by
  constructor
  · intro hend r' hgoes
    obtain ⟨j, -, hedge⟩ := h.edge r r' i hgoes hi
    exact hend j hedge
  · intro hend j hedge
    obtain ⟨r', -, hgoes⟩ := h.back r i j hedge hi
    exact hend r' hgoes

theorem GraphOf.path (h : GraphOf M E) (hi : M.bbID r = some i)
    (hpath : Relation.ReflTransGen M.Goes r q) : ∃ k, M.bbID q = some k ∧ Relation.ReflTransGen E i k := by
  induction hpath with
  | refl => exact ⟨i, hi, .refl⟩
  | tail _ hgoes ih =>
    obtain ⟨k, hk, hpath⟩ := ih
    obtain ⟨j, hj, hedge⟩ := h.edge _ _ k hgoes hk
    exact ⟨j, hj, hpath.tail hedge⟩

theorem GraphOf.path_back (h : GraphOf M E) (hi : M.bbID r = some i)
    (hpath : Relation.ReflTransGen E i k) : ∃ q, M.bbID q = some k ∧ Relation.ReflTransGen M.Goes r q := by
  induction hpath with
  | refl => exact ⟨r, hi, .refl⟩
  | tail _ hedge ih =>
    obtain ⟨q, hq, hpath⟩ := ih
    obtain ⟨q', hq', hgoes⟩ := h.back q _ _ hedge hq
    exact ⟨q', hq', hpath.tail hgoes⟩

/-- A path of the ids that avoids a block is a path of the module that does. -/
theorem GraphOf.avoids (h : GraphOf M E) (hk : M.bbID q = some k) (havoids : Avoids E k i)
    (hi : M.bbID r = some i) : Avoids M.Goes q r := by
  have hne : ∀ {r' j}, M.bbID r' = some j → j ≠ k → r' ≠ q := by
    rintro r' j hj hjk rfl
    exact hjk (Option.some.inj (hj.symm.trans hk))
  induction havoids generalizing r with
  | last hedge hend hjk =>
    obtain ⟨r', hr', hgoes⟩ := h.back r _ _ hedge hi
    exact .last hgoes ((h.isEnd hr').mp hend) (hne hr' hjk)
  | step hedge hjk _ ih =>
    obtain ⟨r', hr', hgoes⟩ := h.back r _ _ hedge hi
    exact .step hgoes (hne hr' hjk) (ih hr')

/-- A block without successors can be reached. -/
theorem GraphOf.exit (h : GraphOf M E) (hexit : ∀ r i, M.bbID r = some i →
      ∃ e, Relation.ReflTransGen M.Goes r e ∧ IsEnd M.Goes e) (i : Nat) :
    ∃ e, Relation.ReflTransGen E i e ∧ IsEnd E e := by
  by_cases hend : IsEnd E i
  · exact ⟨i, .refl, hend⟩
  · obtain ⟨j, hedge⟩ : ∃ j, E i j := by
      unfold IsEnd at hend
      push Not at hend
      exact hend
    obtain ⟨r, hi⟩ := h.inside i j hedge
    obtain ⟨e, hpath, he⟩ := hexit r i hi
    obtain ⟨k, hk, hpath⟩ := h.path hi hpath
    exact ⟨k, hpath, (h.isEnd hk).mpr he⟩

end

/-- What `PreparePostDominator` leaves: all post-dominators, and blocks that can be reached. -/
theorem preparePostDominator_keeps {edges : List (Nat × Nat)} {fuel : Nat} {pd : Nat → Finset Nat}
    (hexit : ∀ i, ∃ e, Relation.ReflTransGen (BBEdge edges) i e ∧ IsEnd (BBEdge edges) e)
    (hpd : preparePostDominator fuel edges = some pd) (hi : ¬ IsEnd (BBEdge edges) i) (k : Nat) :
    (¬ Avoids (BBEdge edges) k i → k ∈ pd i) ∧
      (k ∈ pd i → Relation.ReflTransGen (BBEdge edges) i k) := by
  rw [mem_iff_not_dropped hpd hi]
  exact ⟨fun havoids hdropped => havoids (hdropped.avoids hexit hi),
    fun hkept => not_not.mp fun hnot => hkept (.unreached hnot)⟩

/-- **The post-dominators of a module.** For every module whose numbers can be read and in which every
block can reach one without successors: from its file `BBGraph`, `PreparePostDominator` ends, and the
set of a block holds the id of every block that all paths from it to the end of the function come to,
and nothing but ids of blocks that can be reached. -/
theorem post_dominators_of_module (hM : M.Verified) (hd : M.infoDir = some d) (hread : M.Readable)
    (hexit : ∀ r i, M.bbID r = some i → ∃ e, Relation.ReflTransGen M.Goes r e ∧ IsEnd M.Goes e) :
    ∃ edges n, scanBBGraph d.bbGraph = some edges ∧ ∀ fuel, n ≤ fuel →
      ∃ pd, preparePostDominator fuel edges = some pd ∧
        ∀ r i, M.bbID r = some i → ¬ IsEnd M.Goes r →
          (∀ q k, M.bbID q = some k → (∀ l e, List.IsChain M.Goes (r :: l) →
            (r :: l).getLast? = some e → IsEnd M.Goes e → q ∈ l) → k ∈ pd i) ∧
          ∀ k ∈ pd i, ∃ q, M.bbID q = some k ∧ Relation.ReflTransGen M.Goes r q := by
  obtain ⟨rs, hrs, hscan⟩ := exists_bbEdges hM hd hread
  have hgraph := graphOf_bbEdges hM hrs
  obtain ⟨n, hends⟩ := preparePostDominator_isSome (bbEdges rs)
  refine ⟨bbEdges rs, n, hscan, fun fuel hfuel => ?_⟩
  obtain ⟨pd, hpd⟩ := hends fuel hfuel
  refine ⟨pd, hpd, fun r i hi hr => ?_⟩
  have hkeeps := preparePostDominator_keeps (hgraph.exit hexit) hpd
    (fun hend => hr ((hgraph.isEnd hi).mp hend))
  constructor
  · intro q k hk hpaths
    apply (hkeeps k).1
    intro havoids
    exact (not_avoids_iff hr).mpr hpaths (hgraph.avoids hk havoids hi)
  · intro k hmem
    exact hgraph.path_back hi ((hkeeps k).2 hmem)

end

/-! ## A branch -/

/-- `main` branches to its second block or to its third one, and both ways meet in the last one. -/
def branchModule : IRModule where
  globals := []
  functions := [⟨"main", [⟨10, [{ ref := 11, op := .terminator [.const 1] [20, 30] }]⟩,
    ⟨20, [{ ref := 21, op := .terminator [] [30] }]⟩, ⟨30, [{ ref := 31, op := .ret none }]⟩]⟩]

theorem branchModule_ops : ∀ b ∈ branchModule.blocks, ∀ i ∈ b.insts,
    i.op = .terminator [.const 1] [20, 30] ∨ i.op = .terminator [] [30] ∨ i.op = .ret none := by
  decide

theorem branchModule_verified : branchModule.Verified where
  insts_nodup := by decide
  blocks_nodup := by decide
  ends b hb := by
    have hblocks : b ∈ [_, _, _] := hb
    rw [List.mem_cons, List.mem_cons, List.mem_singleton] at hblocks
    rcases hblocks with rfl | rfl | rfl
    all_goals exact ⟨[], _, rfl, rfl, by decide⟩
  entries f hf e he b hb i hi operands successors hop := by
    have hf : f ∈ [_] := hf
    rw [List.mem_singleton.mp hf] at he
    cases he
    rcases branchModule_ops b hb i hi with h | h | h <;> cases h.symm.trans hop
    · decide
    · decide
  names b hb i hi name args fn hop := by
    rcases branchModule_ops b hb i hi with h | h | h <;> cases h.symm.trans hop
  args b hb i hi := by
    rcases branchModule_ops b hb i (mem_traced.mp hi).1 with h | h | h <;> rw [h] <;> trivial

theorem branchModule_readable : branchModule.Readable := by
  intro rs hrs
  have hrs' : branchModule.records = some [{ bb := 0, operands := [.constant], cls := .terminator [1, 2] },
      { bb := 1, cls := .terminator [2] }, { bb := 2, cls := .ret true [] }] := by decide
  obtain rfl := Option.some.inj (hrs.symm.trans hrs')
  refine ⟨fun i r hr => ?_, by decide⟩
  rcases i with _ | _ | _ | i <;> cases hr
  all_goals
    refine ⟨⟨by decide, by decide, ⟨by decide, by simp, by decide⟩, ⟨?_, fits_nil⟩⟩, fun _ h => by
      rcases h with h | h <;> cases h⟩
    exact ⟨by decide, by decide⟩

/-- The edges of `branchModule`. -/
theorem branchModule_goes (r r' : Nat) : branchModule.Goes r r' ↔
    (r = 10 ∧ r' = 20) ∨ (r = 10 ∧ r' = 30) ∨ (r = 20 ∧ r' = 30) := by
  constructor
  · rintro ⟨b, hb, rfl, i, hi, operands, successors, hop, hr'⟩
    have hblocks : b ∈ [_, _, _] := hb
    rw [List.mem_cons, List.mem_cons, List.mem_singleton] at hblocks
    rcases hblocks with rfl | rfl | rfl <;> obtain rfl := List.mem_singleton.mp hi <;> cases hop
    · simpa using hr'
    · simpa using hr'
  · rintro (⟨rfl, rfl⟩ | ⟨rfl, rfl⟩ | ⟨rfl, rfl⟩)
    · exact ⟨_, List.mem_cons_self, rfl, _, List.mem_cons_self, _, _, rfl, by decide⟩
    · exact ⟨_, List.mem_cons_self, rfl, _, List.mem_cons_self, _, _, rfl, by decide⟩
    · exact ⟨_, List.mem_cons_of_mem _ List.mem_cons_self, rfl, _, List.mem_cons_self, _, _, rfl,
        by decide⟩

theorem infoDir_reads_back_branch : ∃ d, branchModule.infoDir = some d ∧
    loadInstrumentedFun d.instrumentedFun = branchModule.instrumentedFun ∧
    ∃ edges, scanBBGraph d.bbGraph = some edges ∧ ∀ i j, (i, j) ∈ edges ↔
      ∃ r r', branchModule.Goes r r' ∧ branchModule.bbID r = some i ∧ branchModule.bbID r' = some j := by
  obtain ⟨d, hd⟩ : ∃ d, branchModule.infoDir = some d := ⟨_, rfl⟩
  exact ⟨d, hd, infoDir_reads_back branchModule_verified hd branchModule_readable (by decide)⟩

theorem post_dominators_of_module_branch : ∃ d edges n, branchModule.infoDir = some d ∧
    scanBBGraph d.bbGraph = some edges ∧ ∀ fuel, n ≤ fuel →
      ∃ pd, preparePostDominator fuel edges = some pd ∧
        ∀ r i, branchModule.bbID r = some i → ¬ IsEnd branchModule.Goes r →
          (∀ q k, branchModule.bbID q = some k → (∀ l e, List.IsChain branchModule.Goes (r :: l) →
            (r :: l).getLast? = some e → IsEnd branchModule.Goes e → q ∈ l) → k ∈ pd i) ∧
          ∀ k ∈ pd i, ∃ q, branchModule.bbID q = some k ∧
            Relation.ReflTransGen branchModule.Goes r q := by
  obtain ⟨d, hd⟩ : ∃ d, branchModule.infoDir = some d := ⟨_, rfl⟩
  have hend : IsEnd branchModule.Goes 30 := by
    intro r' h
    rw [branchModule_goes] at h
    omega
  have hgoes : ∀ r i, branchModule.bbID r = some i → r = 10 ∨ r = 20 ∨ r = 30 := by
    intro r i h
    obtain ⟨hlt, href, -⟩ := List.findIdx?_eq_some_iff_getElem.mp h
    rw [decide_eq_true_eq] at href
    rw [← href]
    have hlt : i < 3 := hlt
    have hall : ∀ i : Fin 3, (branchModule.blocks.get i).ref = 10 ∨
        (branchModule.blocks.get i).ref = 20 ∨ (branchModule.blocks.get i).ref = 30 := by decide
    exact hall ⟨i, hlt⟩
  obtain ⟨edges, n, h⟩ := post_dominators_of_module branchModule_verified hd branchModule_readable
    fun r i hi => by
      refine ⟨30, ?_, hend⟩
      rcases hgoes r i hi with rfl | rfl | rfl
      · exact .single ((branchModule_goes _ _).mpr (by omega))
      · exact .single ((branchModule_goes _ _).mpr (by omega))
      · exact .refl
  exact ⟨d, edges, n, hd, h⟩

end Slimmer
