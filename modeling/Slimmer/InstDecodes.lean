import Slimmer.InstFile

/-!
# What the `Inst` file decodes to

**Theorem (`decodes_iff`).** The file decodes to what the pass wrote if and only if there is no
`NormalInst` in it, all numbers fit an `int`, and no function but that of the last record has an
empty name.

The reader compares the type with `Inst`, where the pass writes `NormalInst`; a `NormalInst` becomes
the default. Every record is read by itself (`readInst_print`), and what is not read as it was
written shows in the record in which it stands.
-/

namespace Slimmer

/-! ## What was written -/

/-- The dependency an operand is written as. -/
def Operand.dep : Operand → DepType × Nat
  | .inst id => (.inst, id.getD 0)
  | .argument true no => (.pointerArg, no)
  | .argument false no => (.arg, no)
  | .constant => (.constant, 0)

def IncomingValue.dep : IncomingValue → DepType × Nat
  | .inst id => (.inst, id)
  | .argument no => (.arg, no)
  | .constant => (.constant, 0)

/-- The operands that are written. -/
def InstRecord.written (r : InstRecord) : List Operand := r.operands.filter Operand.isTraced

def InstClass.tail (instrumented : List String) (c : InstClass) : InstTail where
  fn := c.fn instrumented
  successors := c.successors
  phiDependencies := c.incoming.map fun p => (p.1, p.2.dep)

/-- The record of the instruction, but for its type and what is behind it. -/
def InstRecord.loaded (id : Nat) (r : InstRecord) (type : InstType) (tail : InstTail) :
    LoadedInst where
  type := type
  fn := tail.fn
  isPointer := r.isPointer
  code := decodeWord r.cls.codeWord
  ssaDependencies := r.written.map Operand.dep
  successors := tail.successors
  phiDependencies := tail.phiDependencies
  id := id
  bb := r.bb
  loc := (r.debug.map fun l => (l.line : Int)).getD (-1)
  file := (r.debug.map fun l => ofBytes l.path).getD "[UNKNOWN]"

/-- **What the pass wrote.** -/
def InstRecord.info (instrumented : List String) (id : Nat) (r : InstRecord) : LoadedInst :=
  r.loaded id (r.cls.type instrumented) (r.cls.tail instrumented)

/-- The numbers of a record that come before its type are in range. -/
structure InstRecord.HeadFits (r : InstRecord) : Prop where
  bb : r.bb < 2 ^ 32
  line : ∀ l ∈ r.debug, l.line < 2 ^ 31
  operands : r.written.length < 2 ^ 31 ∧ ∀ o ∈ r.written, o.dep.2 < 2 ^ 31

/-- The numbers behind the type are in range. -/
structure InstClass.TailFits (c : InstClass) : Prop where
  successors : c.successors.length < 2 ^ 31 ∧ ∀ bb ∈ c.successors, bb < 2 ^ 31
  incoming : c.incoming.length < 2 ^ 31 ∧ ∀ p ∈ c.incoming, p.1 < 2 ^ 31 ∧ p.2.dep.2 < 2 ^ 31

theorem fits_nil {α : Type} {p : α → Prop} :
    ([] : List α).length < 2 ^ 31 ∧ ∀ a ∈ ([] : List α), p a :=
  ⟨Nat.two_pow_pos 31, fun _ ha => nomatch ha⟩

section

variable {instrumented : List String} {r : InstRecord} {rs : List InstRecord} {c : InstClass}
  {id n : Nat} {w s : List Char}

/-! ## Lines -/

theorem readWord_line (hw : IsWord w) (hne : w ≠ []) :
    readWord ('\n' :: (printLine w ++ s)) = some (w, '\n' :: s) := by
  rw [readWord_space (by decide), printLine, List.cons_append, readWord_space (by decide),
    List.append_assoc]
  exact readWord_word hw hne (spaceFirst_cons (by decide))

theorem readUInt32_line :
    readUInt32 ('\n' :: (printLine (Nat.toDigits 10 n) ++ s)) =
      if n < 2 ^ 32 then some (n, '\n' :: s) else none := by
  rw [readUInt32_space (by decide), printLine, List.cons_append, readUInt32_space (by decide),
    List.append_assoc]
  exact readUInt32_decimal (spaceFirst_cons (by decide))

theorem readInt_line :
    readInt ('\n' :: (printLine (Nat.toDigits 10 n) ++ s)) =
      if n < 2 ^ 31 then some ((n : Int), '\n' :: s) else none := by
  rw [readInt_space (by decide), printLine, List.cons_append, readInt_space (by decide),
    List.append_assoc]
  exact readInt_decimal (spaceFirst_cons (by decide))

theorem readBool_line (p : Bool) :
    readBool ('\n' :: (printLine (Nat.toDigits 10 p.toNat) ++ s)) = some (p, '\n' :: s) := by
  rw [readBool_space (by decide), printLine, List.cons_append, readBool_space (by decide),
    List.append_assoc]
  have hnum : readNum (Nat.toDigits 10 p.toNat ++ (['\n'] ++ s)) =
      some (false, p.toNat, '\n' :: s) := readNum_decimal (spaceFirst_cons (by decide))
  rw [readBool, hnum]
  cases p
  · rfl
  · rfl

/-- A list on a line of its own. -/
theorem readList_line {α β : Type*} {read : List Char → Option (β × List Char)}
    {print : α → List Char} {value : α → β} {ok : α → Prop} [DecidablePred ok] (as : List α)
    (hread : ∀ a ∈ as, ∀ s, read (' ' :: (print a ++ s)) =
      if ok a then some (value a, ' ' :: s) else none) :
    readList read ('\n' :: (printList print as ++ s)) =
      if as.length < 2 ^ 31 ∧ ∀ a ∈ as, ok a then some (as.map value, ' ' :: '\n' :: s)
      else none := by
  have h := readList_print as ('\n' :: s) hread
  unfold readList at h ⊢
  rw [readInt_space (by decide), printList, List.cons_append, readInt_space (by decide),
    List.append_assoc, List.cons_append, List.append_assoc]
  exact h

/-! ## The elements of the lists -/

theorem toUInt32_of_lt (h : n < 2 ^ 31) : toUInt32 n = n := by
  unfold toUInt32
  omega

/-- A word with a number behind it. -/
theorem readDep_word {t : DepType} (hw : IsWord w) (hne : w ≠ []) (ht : DepType.ofWord w = t) :
    readDep (' ' :: (printDep w n ++ s)) =
      if n < 2 ^ 31 then some ((t, n), ' ' :: s) else none := by
  rw [readDep, readWord_space (by decide), printDep, List.append_assoc, List.cons_append,
    List.append_assoc, readWord_word hw hne (spaceFirst_cons (by decide)), Option.bind_some]
  show Option.map _ (readInt (' ' :: (Nat.toDigits 10 n ++ ' ' :: s))) = _
  rw [readInt_space (by decide), readInt_decimal (spaceFirst_cons (by decide)), ht]
  split_ifs with hn
  · show some ((t, toUInt32 n), ' ' :: s) = _
    rw [toUInt32_of_lt hn]
  · rfl

theorem readDep_print {o : Operand} (ho : o.isTraced = true) :
    readDep (' ' :: (o.print ++ s)) =
      if o.dep.2 < 2 ^ 31 then some (o.dep, ' ' :: s) else none := by
  match o, ho with
  | .inst (some id), _ => exact readDep_word (by decide) (by decide) (by decide)
  | .argument true no, _ => exact readDep_word (by decide) (by decide) (by decide)
  | .argument false no, _ => exact readDep_word (by decide) (by decide) (by decide)
  | .constant, _ => exact readDep_word (by decide) (by decide) (by decide)

theorem readDep_incoming (v : IncomingValue) :
    readDep (' ' :: (v.print ++ s)) =
      if v.dep.2 < 2 ^ 31 then some (v.dep, ' ' :: s) else none := by
  cases v with
  | inst id => exact readDep_word (by decide) (by decide) (by decide)
  | argument no => exact readDep_word (by decide) (by decide) (by decide)
  | constant => exact readDep_word (by decide) (by decide) (by decide)

theorem readSuccessor_print (bb : Nat) :
    readSuccessor (' ' :: (printSuccessor bb ++ s)) =
      if bb < 2 ^ 31 then some (bb, ' ' :: s) else none := by
  rw [readSuccessor, printSuccessor, readInt_space (by decide), List.append_assoc]
  show Option.map _ (readInt (Nat.toDigits 10 bb ++ ' ' :: s)) = _
  rw [readInt_decimal (spaceFirst_cons (by decide))]
  split_ifs with hn
  · show some (toUInt32 bb, ' ' :: s) = _
    rw [toUInt32_of_lt hn]
  · rfl

/-- A basic block, and what `readDep` reads. -/
theorem readIncoming_eq (s : List Char) :
    readIncoming s = (readInt s).bind fun (a, s) => (readDep s).map fun (dep, s) =>
      ((toUInt32 a, dep), s) := by
  unfold readIncoming readDep
  cases readInt s with
  | none => rfl
  | some p =>
    simp only [Option.bind_some]
    cases readWord p.2 with
    | none => rfl
    | some q =>
      simp only [Option.bind_some, Option.map_map]
      rfl

theorem readIncoming_print (p : Nat × IncomingValue) :
    readIncoming (' ' :: (printIncoming p ++ s)) =
      if p.1 < 2 ^ 31 ∧ p.2.dep.2 < 2 ^ 31 then some ((p.1, p.2.dep), ' ' :: s) else none := by
  rw [readIncoming_eq, printIncoming, List.cons_append, readInt_space (by decide),
    readInt_space (by decide), List.append_assoc, List.cons_append,
    readInt_decimal (spaceFirst_cons (by decide))]
  by_cases hbb : p.1 < 2 ^ 31
  · rw [if_pos hbb, Option.bind_some]
    show Option.map _ (readDep (' ' :: (p.2.print ++ s))) = _
    rw [readDep_incoming]
    by_cases hdep : p.2.dep.2 < 2 ^ 31
    · rw [if_pos hdep, if_pos ⟨hbb, hdep⟩]
      show some ((toUInt32 p.1, p.2.dep), ' ' :: s) = _
      rw [toUInt32_of_lt hbb]
    · rw [if_neg hdep, if_neg fun h => hdep h.2]
      rfl
  · rw [if_neg hbb, if_neg fun h => hbb h.1]
    rfl

/-! ## What is behind the type -/

/-- The type a word is read as. -/
def InstType.read (t : InstType) : InstType := if t = .normalInst then .varArg else t

theorem ofWord_word (t : InstType) : InstType.ofWord t.word = t.read := by
  cases t <;> decide

theorem word_ne_nil (t : InstType) : t.word ≠ [] := by
  cases t <;> decide

theorem isWord_word (t : InstType) : IsWord t.word := by
  cases t <;> decide

/-- A name stands behind these types. -/
def InstType.IsCall (t : InstType) : Prop := t = .callInst ∨ t = .externalCallInst

/-- The white space that is left behind a record. -/
def InstClass.gap (instrumented : List String) (c : InstClass) : List Char :=
  match c.type instrumented with
  | .returnInst | .terminatorInst | .phiNode => [' ', '\n']
  | _ => ['\n']

/-- What a record has behind its type. -/
inductive TailCases (instrumented : List String) (c : InstClass) : Prop
  | call (htype : (c.type instrumented).IsCall) (hsucc : c.successors = [])
      (hin : c.incoming = [])
  | successors (htype : c.type instrumented = .returnInst ∨ c.type instrumented = .terminatorInst)
      (hfn : c.fn instrumented = "") (hin : c.incoming = [])
  | phi (htype : c.type instrumented = .phiNode) (hfn : c.fn instrumented = "")
      (hsucc : c.successors = [])
  | none (htype : ∀ s, readTail (c.type instrumented).read s = some ({}, s))
      (hprint : c.printTail instrumented = []) (hgap : c.gap instrumented = ['\n'])
      (hfn : c.fn instrumented = "") (hsucc : c.successors = []) (hin : c.incoming = [])

theorem tailCases (instrumented : List String) (c : InstClass) : TailCases instrumented c := by
  cases c with
  | load => exact .none (fun _ => rfl) rfl rfl rfl rfl rfl
  | store => exact .none (fun _ => rfl) rfl rfl rfl rfl rfl
  | atomicRMW => exact .none (fun _ => rfl) rfl rfl rfl rfl rfl
  | atomicCmpXchg => exact .none (fun _ => rfl) rfl rfl rfl rfl rfl
  | ret => exact .successors (Or.inl rfl) rfl rfl
  | terminator => exact .successors (Or.inr rfl) rfl rfl
  | phi => exact .phi rfl rfl rfl
  | alloca => exact .none (fun _ => rfl) rfl rfl rfl rfl rfl
  | other => exact .none (fun _ => rfl) rfl rfl rfl rfl rfl
  | call callee =>
    cases callee with
    | unknown => exact .call (Or.inl rfl) rfl rfl
    | intrinsic => exact .call (Or.inl rfl) rfl rfl
    | function name =>
      have htype : (InstClass.call (.function name)).type instrumented =
        if name ∈ allocFunctions then .allocaInst
        else if name ∈ instrumented then .callInst else .externalCallInst := rfl
      by_cases halloc : name ∈ allocFunctions
      · rw [if_pos halloc] at htype
        refine .none (fun _ => ?_) ?_ ?_ ?_ rfl rfl
        · rw [htype]
          rfl
        · rw [InstClass.printTail, htype]
        · rw [InstClass.gap, htype]
        · rw [InstClass.fn, if_pos htype]
      · rw [if_neg halloc] at htype
        by_cases hmem : name ∈ instrumented
        · rw [if_pos hmem] at htype
          exact .call (Or.inl htype) rfl rfl
        · rw [if_neg hmem] at htype
          exact .call (Or.inr htype) rfl rfl

theorem readTail_call (htype : (c.type instrumented).IsCall) (s : List Char) :
    readTail (c.type instrumented).read s =
      some ({ fn := String.ofList (nextWord s).1 }, (nextWord s).2) := by
  rcases htype with htype | htype
  · rw [htype]
    rfl
  · rw [htype]
    rfl

theorem printTail_call (htype : (c.type instrumented).IsCall) :
    c.printTail instrumented = printLine (c.fn instrumented).toList ∧
      c.gap instrumented = ['\n'] := by
  unfold InstClass.printTail InstClass.gap
  rcases htype with htype | htype
  · rw [htype]
    exact ⟨rfl, rfl⟩
  · rw [htype]
    exact ⟨rfl, rfl⟩

theorem readTail_successors
    (htype : c.type instrumented = .returnInst ∨ c.type instrumented = .terminatorInst) :
    c.printTail instrumented = printList printSuccessor c.successors ∧
      c.gap instrumented = [' ', '\n'] ∧
      ∀ s, readTail (c.type instrumented).read s =
        (readList readSuccessor s).map fun p => ({ successors := p.1 }, p.2) := by
  unfold InstClass.printTail InstClass.gap
  rcases htype with htype | htype
  · rw [htype]
    exact ⟨rfl, rfl, fun _ => rfl⟩
  · rw [htype]
    exact ⟨rfl, rfl, fun _ => rfl⟩

theorem readTail_phi (htype : c.type instrumented = .phiNode) :
    c.printTail instrumented = printList printIncoming c.incoming ∧
      c.gap instrumented = [' ', '\n'] ∧
      ∀ s, readTail (c.type instrumented).read s =
        (readList readIncoming s).map fun p => ({ phiDependencies := p.1 }, p.2) := by
  unfold InstClass.printTail InstClass.gap
  rw [htype]
  exact ⟨rfl, rfl, fun _ => rfl⟩

/-- **What is behind the type** is read back when its numbers are in range. -/
theorem readTail_print (hw : IsWord (c.fn instrumented).toList)
    (hne : (c.type instrumented).IsCall → c.fn instrumented ≠ "") [Decidable c.TailFits] :
    readTail (c.type instrumented).read ('\n' :: (c.printTail instrumented ++ s)) =
      if c.TailFits then some (c.tail instrumented, c.gap instrumented ++ s) else none := by
  cases tailCases instrumented c with
  | call htype hsucc hin =>
    have hfits : c.TailFits := ⟨by rw [hsucc]; exact fits_nil, by rw [hin]; exact fits_nil⟩
    have hnil : (c.fn instrumented).toList ≠ [] := fun h => hne htype (String.toList_eq_nil_iff.mp h)
    rcases printTail_call htype with ⟨hprint, hgap⟩
    have hword : nextWord ('\n' :: (printLine (c.fn instrumented).toList ++ s)) =
        ((c.fn instrumented).toList, '\n' :: s) := by
      rw [nextWord_space (by decide), printLine, List.cons_append, nextWord_space (by decide),
        List.append_assoc]
      exact nextWord_word hw hnil (spaceFirst_cons (by decide))
    rw [readTail_call htype, hprint, hgap, if_pos hfits, hword, InstClass.tail, hsucc, hin,
      String.ofList_toList]
    rfl
  | successors htype hfn hin =>
    have hfits : c.TailFits ↔
        c.successors.length < 2 ^ 31 ∧ ∀ bb ∈ c.successors, bb < 2 ^ 31 :=
      ⟨fun h => h.successors, fun h => ⟨h, by rw [hin]; exact fits_nil⟩⟩
    have hread := readList_line (s := s) c.successors fun bb _ s => readSuccessor_print bb
    rcases readTail_successors htype with ⟨hprint, hgap, htail⟩
    rw [htail, hprint, hgap, hread, InstClass.tail, hfn, hin, List.map_id']
    by_cases hf : c.successors.length < 2 ^ 31 ∧ ∀ bb ∈ c.successors, bb < 2 ^ 31
    · rw [if_pos hf, if_pos (hfits.mpr hf)]
      rfl
    · rw [if_neg hf, if_neg fun h => hf (hfits.mp h)]
      rfl
  | phi htype hfn hsucc =>
    have hfits : c.TailFits ↔
        c.incoming.length < 2 ^ 31 ∧ ∀ p ∈ c.incoming, p.1 < 2 ^ 31 ∧ p.2.dep.2 < 2 ^ 31 :=
      ⟨fun h => h.incoming, fun h => ⟨by rw [hsucc]; exact fits_nil, h⟩⟩
    have hread := readList_line (s := s) c.incoming fun p _ s => readIncoming_print p
    rcases readTail_phi htype with ⟨hprint, hgap, htail⟩
    rw [htail, hprint, hgap, hread, InstClass.tail, hfn, hsucc]
    by_cases hf : c.incoming.length < 2 ^ 31 ∧ ∀ p ∈ c.incoming, p.1 < 2 ^ 31 ∧ p.2.dep.2 < 2 ^ 31
    · rw [if_pos hf, if_pos (hfits.mpr hf)]
      rfl
    · rw [if_neg hf, if_neg fun h => hf (hfits.mp h)]
      rfl
  | none htype hprint hgap hfn hsucc hin =>
    have hfits : c.TailFits := ⟨by rw [hsucc]; exact fits_nil, by rw [hin]; exact fits_nil⟩
    rw [htype, hprint, hgap, if_pos hfits, InstClass.tail, hfn, hsucc, hin]
    rfl

/-! ## A record -/

theorem isSpace_base64 {ch : Char} (h : isBase64 ch = true ∨ ch = '=') :
    isSpace ch = false ∧ ch ≠ '[' := by
  have hchar : isSpace ch = true ∨ ch = '[' → isBase64 ch = false ∧ ch ≠ '=' := by
    intro hsp
    rcases hsp with hsp | rfl
    swap
    · decide
    simp only [isSpace, Bool.or_eq_true, decide_eq_true_eq, Bool.and_eq_true] at hsp
    rcases hsp with rfl | hrange
    · decide
    · have hch : ch = Char.ofNat ch.toNat := (Char.ofNat_toNat ch).symm
      have hn : ch.toNat = 9 ∨ ch.toNat = 10 ∨ ch.toNat = 11 ∨ ch.toNat = 12 ∨ ch.toNat = 13 := by
        omega
      rcases hn with hn | hn | hn | hn | hn
      all_goals
        rw [hch, hn]
        decide
  constructor
  · by_contra hsp
    have hno := hchar (Or.inl (by simpa using hsp))
    rcases h with h | h
    · rw [h] at hno
      cases hno.1
    · exact hno.2 h
  · intro hb
    have hno := hchar (Or.inr hb)
    rcases h with h | h
    · rw [h] at hno
      cases hno.1
    · exact hno.2 h

theorem isWord_base64 (bytes : List UInt8) : IsWord (base64Encode bytes) :=
  fun _ hc => (isSpace_base64 (mem_base64Encode hc)).1

theorem decodeWord_base64 (bytes : List UInt8) :
    decodeWord (base64Encode bytes) = ofBytes bytes := by
  have hne : base64Encode bytes ≠ unknownWord := by
    intro he
    have hmem : '[' ∈ base64Encode bytes := by
      rw [he]
      decide
    exact (isSpace_base64 (mem_base64Encode hmem)).2 rfl
  rw [decodeWord, if_neg hne, base64Decode_encode]

theorem path_ne_nil (l : DebugLoc) : l.path ≠ [] := by
  unfold DebugLoc.path
  split_ifs with h
  · intro hnil
    rw [hnil] at h
    cases h
  · simp

/-- Line and path. -/
theorem read_debug {α : Type*} (d : Option DebugLoc) [Decidable (∀ l ∈ d, l.line < 2 ^ 31)]
    (k : Int → List Char → List Char → Option α) :
    ((readInt ('\n' :: (printDebug d ++ s))).bind fun p => (readWord p.2).bind fun q => k p.1 q.1 q.2) =
      if ∀ l ∈ d, l.line < 2 ^ 31 then
        k ((d.map fun l => (l.line : Int)).getD (-1))
          ((d.map fun l => base64Encode l.path).getD unknownWord) ('\n' :: s)
      else none := by
  cases d with
  | none =>
    have hint : readInt ('\n' :: (printLine "-1".toList ++ (printLine unknownWord ++ s))) =
        some (-1, '\n' :: (printLine unknownWord ++ s)) := rfl
    have hword : readWord ('\n' :: (printLine unknownWord ++ s)) = some (unknownWord, '\n' :: s) :=
      readWord_line (by decide) (by decide)
    have hall : ∀ l ∈ (none : Option DebugLoc), l.line < 2 ^ 31 := fun _ h => nomatch h
    rw [printDebug, List.append_assoc, hint, if_pos hall, Option.bind_some, hword]
    rfl
  | some l =>
    rw [printDebug, List.append_assoc, readInt_line]
    by_cases hline : l.line < 2 ^ 31
    · have hall : ∀ l' ∈ some l, l'.line < 2 ^ 31 := by
        intro l' hl'
        cases hl'
        exact hline
      rw [if_pos hline, if_pos hall, Option.bind_some,
        readWord_line (isWord_base64 _) (base64Encode_ne_nil (path_ne_nil l)), Option.bind_some]
      rfl
    · rw [if_neg hline, if_neg fun h => hline (h l rfl)]
      rfl

/-- The record behind its id. -/
def InstRecord.body (instrumented : List String) (r : InstRecord) : List Char :=
  printLine (Nat.toDigits 10 r.bb) ++ (printLine (Nat.toDigits 10 r.isPointer.toNat) ++
    (printDebug r.debug ++ (printLine r.cls.codeWord ++ (printList Operand.print r.written ++
      (printLine (r.cls.type instrumented).word ++ r.cls.printTail instrumented)))))

theorem print_eq (r : InstRecord) (id : Nat) (s : List Char) :
    r.print instrumented id ++ s =
      Nat.toDigits 10 id ++ '\n' :: (r.body instrumented ++ s) := by
  simp only [InstRecord.print, InstRecord.commonInfo, InstClass.print, InstRecord.body,
    InstRecord.written, List.append_assoc, List.cons_append, List.nil_append]

theorem codeWord_spec (c : InstClass) : IsWord c.codeWord ∧ c.codeWord ≠ [] := by
  unfold InstClass.codeWord
  split
  · decide
  · decide

/-- What `readInst` reads behind the debug information. -/
def readBehindDebug (id bb : Nat) (isPointer : Bool) (loc : Int) (file s : List Char) :
    Option (LoadedInst × List Char) :=
  (readWord s).bind fun (code, s) => (readList readDep s).bind fun (deps, s) =>
  (readWord s).bind fun (word, s) => (readTail (.ofWord word) s).map fun (tail, s) =>
    ({ type := .ofWord word, fn := tail.fn, isPointer, code := decodeWord code
       ssaDependencies := deps, successors := tail.successors
       phiDependencies := tail.phiDependencies, id, bb, loc, file := decodeWord file }, s)

/-- **A record** is read back up to its type when its numbers are in range. -/
theorem readInst_body [Decidable r.HeadFits] :
    readInst id ('\n' :: (r.body instrumented ++ s)) =
      if r.HeadFits then
        (readTail (r.cls.type instrumented).read
          ('\n' :: (r.cls.printTail instrumented ++ s))).map fun p =>
            (r.loaded id (r.cls.type instrumented).read p.1, p.2)
      else none := by
  simp only [InstRecord.body, List.append_assoc]
  rw [readInst, readUInt32_line]
  by_cases hbb : r.bb < 2 ^ 32
  swap
  · rw [if_neg hbb, if_neg fun h => hbb h.bb]
    rfl
  rw [if_pos hbb, Option.bind_some]
  simp only []
  rw [readBool_line, Option.bind_some]
  simp only []
  have hdebug := read_debug (s := printLine r.cls.codeWord ++ (printList Operand.print r.written ++
      (printLine (r.cls.type instrumented).word ++ (r.cls.printTail instrumented ++ s)))) r.debug
    (readBehindDebug id r.bb r.isPointer)
  refine hdebug.trans ?_
  by_cases hline : ∀ l ∈ r.debug, l.line < 2 ^ 31
  swap
  · rw [if_neg hline, if_neg fun h => hline h.line]
  rcases codeWord_spec r.cls with ⟨hcode, hcode'⟩
  have hdeps := readList_line (s := printLine (r.cls.type instrumented).word ++
    (r.cls.printTail instrumented ++ s)) r.written fun o ho s =>
      readDep_print (s := s) (List.of_mem_filter ho)
  rw [if_pos hline, readBehindDebug, readWord_line hcode hcode', Option.bind_some]
  simp only []
  rw [hdeps]
  by_cases hops : r.written.length < 2 ^ 31 ∧ ∀ o ∈ r.written, o.dep.2 < 2 ^ 31
  swap
  · rw [if_neg hops, if_neg fun h => hops h.operands]
    rfl
  rw [if_pos hops, if_pos ⟨hbb, hline, hops⟩, Option.bind_some]
  simp only []
  rw [readWord_space (by decide), readWord_line (isWord_word _) (word_ne_nil _), Option.bind_some]
  simp only []
  rw [ofWord_word]
  have hfile : decodeWord ((r.debug.map fun l => base64Encode l.path).getD unknownWord) =
      (r.debug.map fun l => ofBytes l.path).getD "[UNKNOWN]" := by
    cases r.debug with
    | none => decide
    | some l => exact decodeWord_base64 l.path
  rw [hfile]
  rfl

/-! ## `bb2ins` -/

theorem pushBB_some (id : Nat) {bb2Ins : List (List Nat)} {bb : Nat} (hbb : bb + 1 < 2 ^ 32)
    (hlen : bb2Ins.length < 2 ^ 32) :
    ∃ l, pushBB bb2Ins bb id = some l ∧ l.length < 2 ^ 32 ∧
      ∀ b, l.getD b [] = bb2Ins.getD b [] ++ if bb = b then [id] else [] := by
  -- the resized vector
  have hresized : ∃ l : List (List Nat), pushBB bb2Ins bb id = (l[bb]?).map (fun ids =>
      l.set bb (ids ++ [id])) ∧ bb < l.length ∧ l.length < 2 ^ 32 ∧
      ∀ b, l.getD b [] = bb2Ins.getD b [] := by
    by_cases hle : bb2Ins.length ≤ bb
    · refine ⟨bb2Ins ++ List.replicate (bb + 1 - bb2Ins.length) [], ?_, ?_, ?_, fun b => ?_⟩
      · rw [pushBB, if_pos hle, Nat.mod_eq_of_lt hbb, List.take_of_length_le (by simp; omega)]
      · simp
        omega
      · simp
        omega
      · simp only [List.getD_eq_getElem?_getD, List.getElem?_append]
        split_ifs with hb
        · rfl
        · rw [List.getElem?_eq_none (Nat.le_of_not_lt hb)]
          by_cases hrep : b - bb2Ins.length < bb + 1 - bb2Ins.length
          · rw [List.getElem?_replicate_of_lt hrep]
            rfl
          · rw [List.getElem?_eq_none (by simp; omega)]
    · exact ⟨bb2Ins, by rw [pushBB, if_neg hle], by omega, hlen, fun _ => rfl⟩
  rcases hresized with ⟨l, hpush, hlt, hl, hget⟩
  refine ⟨l.set bb (l[bb] ++ [id]), ?_, by rw [List.length_set]; exact hl, fun b => ?_⟩
  · rw [hpush, List.getElem?_eq_getElem hlt]
    rfl
  · rw [← hget b]
    by_cases hb : bb = b
    · rw [if_pos hb, ← hb]
      simp [List.getD_eq_getElem?_getD, hlt]
    · rw [if_neg hb, List.append_nil]
      simp [List.getD_eq_getElem?_getD, List.getElem?_set_ne hb]

/-- `bb + 1` wraps around for the last `uint32_t`. -/
theorem lt_of_pushBB {bb2Ins l : List (List Nat)} {bb : Nat} (hlen : bb2Ins.length < 2 ^ 32)
    (hbb : bb < 2 ^ 32) (h : pushBB bb2Ins bb id = some l) : bb + 1 < 2 ^ 32 := by
  by_contra hno
  have hmod : (bb + 1) % 2 ^ 32 = 0 := by omega
  rw [pushBB, if_pos (by omega), hmod] at h
  cases h

/-! ## The file -/

/-- The numbers of the record with this id are in range. -/
structure InstRecord.InRange (id : Nat) (r : InstRecord) : Prop where
  id_lt : id < 2 ^ 31
  bb_lt : r.bb + 1 < 2 ^ 32
  head : r.HeadFits
  tail : r.cls.TailFits

/-- The name of the called function is not empty. -/
def InstRecord.NameOk (instrumented : List String) (r : InstRecord) : Prop :=
  (r.cls.type instrumented).IsCall → r.cls.fn instrumented ≠ ""

/-- The records with the ids from `id` on can be read. -/
def InRangeFrom (instrumented : List String) : Nat → List InstRecord → Prop
  | _, [] => True
  | id, r :: rs =>
    r.InRange id ∧ (rs ≠ [] → r.NameOk instrumented) ∧ InRangeFrom instrumented (id + 1) rs

/-- The record as it is read. -/
def InstRecord.read (instrumented : List String) (id : Nat) (r : InstRecord) : LoadedInst :=
  r.loaded id (r.cls.type instrumented).read (r.cls.tail instrumented)

/-- The records as read. -/
def readFrom (instrumented : List String) (id : Nat) (rs : List InstRecord) : List LoadedInst :=
  (rs.zipIdx id).map fun p => p.1.read instrumented p.2

/-- The records as written. -/
def infosFrom (instrumented : List String) (id : Nat) (rs : List InstRecord) : List LoadedInst :=
  (rs.zipIdx id).map fun p => p.1.info instrumented p.2

/-- The instructions of a basic block. -/
def idsFrom (id : Nat) (rs : List InstRecord) (bb : Nat) : List Nat :=
  ((rs.zipIdx id).filter fun p => p.1.bb = bb).map Prod.snd

def AllSpace (g : List Char) : Prop := ∀ ch ∈ g, isSpace ch = true

instance (g : List Char) : Decidable (AllSpace g) :=
  List.decidableBAll (fun ch => isSpace ch = true) g

theorem readInt_allSpace {g : List Char} (hg : AllSpace g) : readInt (g ++ s) = readInt s := by
  induction g with
  | nil => rfl
  | cons ch g ih =>
    rcases List.forall_mem_cons.mp hg with ⟨hch, hg⟩
    rw [List.cons_append, readInt_space hch]
    exact ih hg

theorem allSpace_gap (c : InstClass) : AllSpace (c.gap instrumented) := by
  unfold InstClass.gap
  split <;> decide

theorem InstType.read_eq {t : InstType} : t.read = t ↔ t ≠ .normalInst := by
  cases t <;> decide

/-- Behind an empty name the reader takes the next word. -/
theorem readTail_unnamed (htype : (c.type instrumented).IsCall) (hfn : c.fn instrumented = "") :
    readTail (c.type instrumented).read ('\n' :: (c.printTail instrumented ++ s)) =
      some ({ fn := String.ofList (nextWord s).1 }, (nextWord s).2) := by
  rw [readTail_call htype, (printTail_call htype).1, hfn]
  show some (({ fn := String.ofList (nextWord ('\n' :: '\t' :: '\n' :: s)).1 } : InstTail),
    (nextWord ('\n' :: '\t' :: '\n' :: s)).2) = _
  rw [nextWord_space (by decide), nextWord_space (by decide), nextWord_space (by decide)]

theorem tail_unnamed (htype : (c.type instrumented).IsCall) (hfn : c.fn instrumented = "") :
    c.tail instrumented = {} ∧ c.TailFits := by
  have hlists : c.successors = [] ∧ c.incoming = [] := by
    cases tailCases instrumented c with
    | call _ hsucc hin => exact ⟨hsucc, hin⟩
    | none _ _ _ _ hsucc hin => exact ⟨hsucc, hin⟩
    | successors ht => rcases htype with h | h <;> rcases ht with ht | ht <;> cases h.symm.trans ht
    | phi ht => rcases htype with h | h <;> cases h.symm.trans ht
  constructor
  · rw [InstClass.tail, hfn, hlists.1, hlists.2]
    rfl
  · exact ⟨by rw [hlists.1]; exact fits_nil, by rw [hlists.2]; exact fits_nil⟩

/-- **A record is read back**, whatever follows it. -/
theorem readInst_print (hw : IsWord (r.cls.fn instrumented).toList)
    (hr : r.InRange id) (hname : rs ≠ [] → r.NameOk instrumented) :
    ∃ g, AllSpace g ∧
      readInst id ('\n' :: (r.body instrumented ++ printInsts instrumented (id + 1) rs)) =
        some (r.read instrumented id, g ++ printInsts instrumented (id + 1) rs) := by
  classical
  by_cases hok : r.NameOk instrumented
  · have hgap : AllSpace (r.cls.gap instrumented) := allSpace_gap r.cls
    refine ⟨_, hgap, ?_⟩
    rw [readInst_body, if_pos hr.head, readTail_print hw hok, if_pos hr.tail]
    rfl
  · have hrs : rs = [] := by
      by_contra hne
      exact hok (hname hne)
    have hcall : (r.cls.type instrumented).IsCall ∧ r.cls.fn instrumented = "" := by
      by_contra hno
      exact hok fun hcall hfn => hno ⟨hcall, hfn⟩
    refine ⟨[], by decide, ?_⟩
    rw [readInst_body, if_pos hr.head, readTail_unnamed hcall.1 hcall.2, hrs,
      InstRecord.read, (tail_unnamed hcall.1 hcall.2).1]
    rfl

theorem length_le_printInsts (id : Nat) (rs : List InstRecord) :
    rs.length ≤ (printInsts instrumented id rs).length := by
  induction rs generalizing id with
  | nil => exact Nat.le_refl _
  | cons r rs ih =>
    have hone : 0 < (r.print instrumented id).length := by
      have h : r.print instrumented id ++ [] = _ := print_eq r id []
      rw [List.append_nil] at h
      rw [h, List.length_append, List.length_cons]
      omega
    have := ih (id + 1)
    rw [printInsts, List.length_append, List.length_cons]
    omega

/-- **The file is read**, from any record on. -/
theorem loadInsts_print {fuel : Nat} {info : List LoadedInst} {bb2Ins : List (List Nat)}
    {g : List Char} (hg : AllSpace g) (hw : ∀ r ∈ rs, IsWord (r.cls.fn instrumented).toList)
    (hrs : InRangeFrom instrumented id rs) (hid : info.length = id)
    (hlen : bb2Ins.length < 2 ^ 32) (hfuel : rs.length < fuel) :
    ∃ l, loadInsts fuel (info, bb2Ins) (g ++ printInsts instrumented id rs) =
        some (info ++ readFrom instrumented id rs, l) ∧
      ∀ bb, l.getD bb [] = bb2Ins.getD bb [] ++ idsFrom id rs bb := by
  induction rs generalizing id info bb2Ins g fuel with
  | nil =>
    cases fuel with
    | zero => exact absurd hfuel (Nat.not_lt_zero _)
    | succ fuel =>
      refine ⟨bb2Ins, ?_, fun bb => (List.append_nil _).symm⟩
      have hnone : readInt (g ++ printInsts instrumented id []) = none := readInt_allSpace hg
      rw [loadInsts, hnone]
      exact congrArg (fun i => some (i, bb2Ins)) (List.append_nil info).symm
  | cons r rs ih =>
    cases fuel with
    | zero => exact absurd hfuel (Nat.not_lt_zero _)
    | succ fuel =>
      rcases hrs with ⟨hr, hname, hrest⟩
      rcases List.forall_mem_cons.mp hw with ⟨hwr, hw⟩
      have hint : readInt (g ++ printInsts instrumented id (r :: rs)) =
          some ((id : Int), '\n' :: (r.body instrumented ++ printInsts instrumented (id + 1) rs)) := by
        rw [readInt_allSpace hg, printInsts, print_eq,
          readInt_decimal (spaceFirst_cons (by decide)), if_pos hr.id_lt]
      rcases readInst_print hwr hr hname with ⟨g', hg', hinst⟩
      rcases pushBB_some id hr.bb_lt hlen with ⟨l, hpush, hl, hget⟩
      have hid' : (info ++ [r.read instrumented id]).length = id + 1 := by
        rw [List.length_append, hid]
        rfl
      rcases ih hg' hw hrest hid' hl (Nat.lt_of_succ_lt_succ hfuel) with ⟨l', hload, hget'⟩
      refine ⟨l', ?_, fun bb => ?_⟩
      · rw [loadInsts, hint]
        simp only []
        rw [toUInt32_of_lt hr.id_lt, hinst, Option.bind_some]
        show ((pushBB bb2Ins r.bb id).bind fun bb2Ins => if info.length = id then _ else _) = _
        rw [hpush, Option.bind_some, if_pos hid, hload, List.append_assoc]
        rfl
      · rw [hget', hget, List.append_assoc]
        congr 1
        unfold idsFrom
        rw [List.zipIdx_cons, List.filter_cons]
        by_cases hbb : r.bb = bb
        · simp [hbb]
        · simp [hbb]

/-! ## What is not read back -/

/-- The records read so far stay. -/
theorem loadInsts_prefix {fuel : Nat} {info info' : List LoadedInst} {bb2Ins l : List (List Nat)}
    (h : loadInsts fuel (info, bb2Ins) s = some (info', l)) : info <+: info' := by
  induction fuel generalizing info bb2Ins s with
  | zero => cases h
  | succ fuel ih =>
    rw [loadInsts] at h
    cases hint : readInt s with
    | none =>
      rw [hint] at h
      cases h
      exact List.prefix_refl _
    | some p =>
      rw [hint] at h
      rcases Option.bind_eq_some_iff.mp h with ⟨q, -, h⟩
      rcases Option.bind_eq_some_iff.mp h with ⟨l', -, h⟩
      replace h : (if info.length = q.1.id then loadInsts fuel (info ++ [q.1], l') q.2 else none) =
        some (info', l) := h
      split_ifs at h
      exact (List.prefix_append _ _).trans (ih h)

/-- One record is read and compared. -/
theorem readable_of_readInst {ins : LoadedInst} {s' : List Char}
    (hw : IsWord (r.cls.fn instrumented).toList)
    (h : readInst id ('\n' :: (r.body instrumented ++ printInsts instrumented (id + 1) rs)) =
      some (ins, s')) (hins : ins = r.info instrumented id) :
    r.HeadFits ∧ r.cls.TailFits ∧ r.cls.type instrumented ≠ .normalInst ∧
      (rs ≠ [] → r.NameOk instrumented ∧
        s' = r.cls.gap instrumented ++ printInsts instrumented (id + 1) rs) := by
  classical
  rw [readInst_body] at h
  split_ifs at h with hhead
  rcases Option.map_eq_some_iff.mp h with ⟨⟨tail, s''⟩, htail, heq⟩
  rcases Prod.mk.inj heq with ⟨hins', rfl⟩
  rw [hins] at hins'
  have htype : (r.cls.type instrumented).read = r.cls.type instrumented :=
    congrArg (fun i : LoadedInst => i.type) hins'
  have hfn : tail.fn = r.cls.fn instrumented := congrArg (fun i : LoadedInst => i.fn) hins'
  by_cases hok : r.NameOk instrumented
  · rw [readTail_print hw hok] at htail
    split_ifs at htail with hfits
    cases htail
    exact ⟨hhead, hfits, InstType.read_eq.mp htype, fun _ => ⟨hok, rfl⟩⟩
  · have hcall : (r.cls.type instrumented).IsCall ∧ r.cls.fn instrumented = "" := by
      by_contra hno
      exact hok fun hcall hfn => hno ⟨hcall, hfn⟩
    refine ⟨hhead, (tail_unnamed hcall.1 hcall.2).2, InstType.read_eq.mp htype, fun hrs => ?_⟩
    exfalso
    -- the name would be the id of the next record
    rw [readTail_unnamed hcall.1 hcall.2] at htail
    cases htail
    rw [hcall.2] at hfn
    cases rs with
    | nil => exact hrs rfl
    | cons r' rs =>
      have hword : nextWord (printInsts instrumented (id + 1) (r' :: rs)) =
          (Nat.toDigits 10 (id + 1),
            '\n' :: (r'.body instrumented ++ printInsts instrumented (id + 1 + 1) rs)) := by
        rw [printInsts, print_eq]
        exact nextWord_word isWord_toDigits Nat.toDigits_ne_nil (spaceFirst_cons (by decide))
      rw [hword] at hfn
      have hnil : (String.ofList (Nat.toDigits 10 (id + 1))).toList = [] :=
        String.toList_eq_nil_iff.mpr hfn
      rw [String.toList_ofList] at hnil
      exact Nat.toDigits_ne_nil hnil

/-- **What is read back** has no `NormalInst`, and its numbers are in range. -/
theorem readable_of_load {fuel : Nat} {info : List LoadedInst} {bb2Ins l : List (List Nat)}
    {g : List Char} (hg : AllSpace g) (hw : ∀ r ∈ rs, IsWord (r.cls.fn instrumented).toList)
    (hlen : bb2Ins.length < 2 ^ 32)
    (h : loadInsts fuel (info, bb2Ins) (g ++ printInsts instrumented id rs) =
      some (info ++ infosFrom instrumented id rs, l)) :
    InRangeFrom instrumented id rs ∧ ∀ r ∈ rs, r.cls.type instrumented ≠ .normalInst := by
  induction rs generalizing id info bb2Ins g fuel with
  | nil => exact ⟨trivial, fun _ hr => nomatch hr⟩
  | cons r rs ih =>
    cases fuel with
    | zero => cases h
    | succ fuel =>
      rcases List.forall_mem_cons.mp hw with ⟨hwr, hw⟩
      have hint : readInt (g ++ printInsts instrumented id (r :: rs)) =
          if id < 2 ^ 31 then
            some ((id : Int), '\n' :: (r.body instrumented ++ printInsts instrumented (id + 1) rs))
          else none := by
        rw [readInt_allSpace hg, printInsts, print_eq, readInt_decimal (spaceFirst_cons (by decide))]
      have hinfos : infosFrom instrumented id (r :: rs) =
          r.info instrumented id :: infosFrom instrumented (id + 1) rs := rfl
      rw [loadInsts, hint, hinfos] at h
      by_cases hid : id < 2 ^ 31
      swap
      · rw [if_neg hid] at h
        have heq : info = info ++ r.info instrumented id :: infosFrom instrumented (id + 1) rs :=
          congrArg Prod.fst (Option.some.inj h)
        have := congrArg List.length heq
        simp at this
      rw [if_pos hid] at h
      rcases Option.bind_eq_some_iff.mp h with ⟨⟨ins, s'⟩, hread, h⟩
      rcases Option.bind_eq_some_iff.mp h with ⟨l', hpush, h⟩
      replace hread : readInst (toUInt32 id) ('\n' :: (r.body instrumented ++
        printInsts instrumented (id + 1) rs)) = some (ins, s') := hread
      replace hpush : pushBB bb2Ins ins.bb ins.id = some l' := hpush
      replace h : (if info.length = ins.id then loadInsts fuel (info ++ [ins], l') s' else none) =
        some (info ++ r.info instrumented id :: infosFrom instrumented (id + 1) rs, l) := h
      rw [toUInt32_of_lt hid] at hread
      split_ifs at h
      -- the record that has been read stands where the one that was written does
      have hins : ins = r.info instrumented id := by
        rcases loadInsts_prefix h with ⟨more, hmore⟩
        rw [List.append_assoc] at hmore
        exact (List.cons.inj (List.append_cancel_left hmore)).1
      rcases readable_of_readInst hwr hread hins with ⟨hhead, htail, htype, hnext⟩
      have hbb : r.bb + 1 < 2 ^ 32 := by
        rw [hins] at hpush
        exact lt_of_pushBB hlen hhead.bb hpush
      have hrest : InRangeFrom instrumented (id + 1) rs ∧
          ∀ r ∈ rs, r.cls.type instrumented ≠ .normalInst := by
        by_cases hrs : rs = []
        · rw [hrs]
          exact ⟨trivial, fun _ hr => nomatch hr⟩
        · have hl' : l'.length < 2 ^ 32 := by
            rw [hins] at hpush
            rcases pushBB_some (r.info instrumented id).id hbb hlen with ⟨l₂, hl₂, hlt, -⟩
            cases hpush.symm.trans hl₂
            exact hlt
          rw [(hnext hrs).2, hins] at h
          have hgap : AllSpace (r.cls.gap instrumented) := allSpace_gap r.cls
          refine ih hgap hw hl' (h.trans ?_)
          rw [List.append_assoc]
          rfl
      exact ⟨⟨⟨hid, hbb, hhead, htail⟩, fun hrs => (hnext hrs).1, hrest.1⟩,
        List.forall_mem_cons.mpr ⟨htype, hrest.2⟩⟩

/-! ## The theorem -/

/-- All numbers are in range, and only the last record may call a function with an empty name. -/
def InRange (instrumented : List String) (rs : List InstRecord) : Prop :=
  ∀ i r, rs[i]? = some r → r.InRange i ∧ (i + 1 < rs.length → r.NameOk instrumented)

theorem inRangeFrom_iff : InRangeFrom instrumented id rs ↔ ∀ i r, rs[i]? = some r →
    r.InRange (id + i) ∧ (i + 1 < rs.length → r.NameOk instrumented) := by
  induction rs generalizing id with
  | nil => exact ⟨fun _ i r h => absurd h (by simp), fun _ => trivial⟩
  | cons r rs ih =>
    rw [InRangeFrom, ih]
    constructor
    · intro h i r' hr'
      rcases h with ⟨hr, hname, hrest⟩
      cases i with
      | zero =>
        cases hr'
        refine ⟨hr, fun hlt => hname fun hnil => ?_⟩
        rw [hnil] at hlt
        exact absurd hlt (by simp)
      | succ i =>
        rcases hrest i r' hr' with ⟨hread, hok⟩
        rw [show id + 1 + i = id + (i + 1) by omega] at hread
        refine ⟨hread, fun hlt => hok ?_⟩
        rw [List.length_cons] at hlt
        omega
    · intro h
      refine ⟨(h 0 r rfl).1, fun hrs => (h 0 r rfl).2 ?_, fun i r' hr' => ?_⟩
      · have := List.length_pos_iff.mpr hrs
        rw [List.length_cons]
        omega
      · rcases h (i + 1) r' hr' with ⟨hread, hok⟩
        rw [show id + (i + 1) = id + 1 + i by omega] at hread
        refine ⟨hread, fun hlt => hok ?_⟩
        rw [List.length_cons]
        omega

theorem inRangeFrom_zero : InRangeFrom instrumented 0 rs ↔ InRange instrumented rs := by
  rw [inRangeFrom_iff]
  simp only [Nat.zero_add]
  rfl

/-- `LoadInstInfo` reads every record, a `NormalInst` as a `VarArg`. -/
theorem loadInstInfo_instFile (hw : ∀ r ∈ rs, IsWord (r.cls.fn instrumented).toList)
    (h : InRange instrumented rs) :
    ∃ bb2Ins, loadInstInfo (instFile instrumented rs) =
        some (readFrom instrumented 0 rs, bb2Ins) ∧ ∀ bb, bb2Ins.getD bb [] = idsFrom 0 rs bb := by
  have hzero : ([] : List (List Nat)).length < 2 ^ 32 := Nat.two_pow_pos 32
  have hlen : rs.length ≤ (instFile instrumented rs).length := length_le_printInsts 0 rs
  have hid : ([] : List LoadedInst).length = 0 := rfl
  rcases loadInsts_print (g := []) (by decide) hw (inRangeFrom_zero.mpr h) hid hzero
    (Nat.lt_succ_of_le hlen) with ⟨l, hload, hget⟩
  exact ⟨l, hload, fun bb => (hget bb).trans (List.nil_append _)⟩

theorem readFrom_eq (h : ∀ r ∈ rs, r.cls.type instrumented ≠ .normalInst) :
    readFrom instrumented id rs = infosFrom instrumented id rs := by
  apply List.map_congr_left
  intro p hp
  have hmem : p.1 ∈ rs := by
    rcases List.mem_iff_getElem?.mp hp with ⟨i, hi⟩
    rw [List.getElem?_zipIdx] at hi
    rcases Option.map_eq_some_iff.mp hi with ⟨r, hr, rfl⟩
    exact List.mem_of_getElem? hr
  rw [InstRecord.read, InstType.read_eq.mpr (h p.1 hmem)]
  rfl

/-- The `Inst` file decodes to what the pass wrote: to the records, and for each basic block to its
instructions in the order of the file. -/
def Decodes (instrumented : List String) (rs : List InstRecord) : Prop :=
  ∃ bb2Ins, loadInstInfo (instFile instrumented rs) = some (infosFrom instrumented 0 rs, bb2Ins) ∧
    ∀ bb, bb2Ins.getD bb [] = idsFrom 0 rs bb

/-- **The `Inst` file decodes to what the pass wrote** if and only if there is no `NormalInst`, all
numbers are in range, and only the last record may call a function with an empty name. -/
theorem decodes_iff (hw : ∀ r ∈ rs, IsWord (r.cls.fn instrumented).toList) :
    Decodes instrumented rs ↔
      InRange instrumented rs ∧ ∀ r ∈ rs, r.cls.type instrumented ≠ .normalInst := by
  constructor
  · intro h
    rcases h with ⟨bb2Ins, hload, -⟩
    have hzero : ([] : List (List Nat)).length < 2 ^ 32 := Nat.two_pow_pos 32
    rw [← inRangeFrom_zero]
    exact readable_of_load (g := []) (by decide) hw hzero hload
  · intro h
    unfold Decodes
    rw [← readFrom_eq h.2]
    exact loadInstInfo_instFile hw h.1

end

/-- `f(p) { x = *p; g(x); return; }`. -/
def callRecords : List InstRecord :=
  [{ bb := 0, debug := some ⟨7, [47, 115], [102, 46, 99]⟩, operands := [.argument true 0]
     cls := .load },
    { bb := 0, operands := [.inst (some 0), .constant], cls := .call (.function "g") },
    { bb := 0, cls := .ret true [] }]

theorem callRecords_inRange : InRange ["f"] callRecords := by
  intro i r hr
  match i, hr with
  | 0, hr =>
    cases hr
    refine ⟨⟨by decide, by decide, ⟨by decide, ?_, by decide⟩, ⟨fits_nil, fits_nil⟩⟩, ?_⟩
    · intro l hl
      cases hl
      decide
    · intro _ hcall
      rcases hcall with hcall | hcall <;> cases hcall
  | 1, hr =>
    cases hr
    refine ⟨⟨by decide, by decide, ⟨by decide, ?_, by decide⟩, ⟨fits_nil, fits_nil⟩⟩, ?_⟩
    · exact fun l hl => nomatch hl
    · intro _ _
      decide
  | 2, hr =>
    cases hr
    refine ⟨⟨by decide, by decide, ⟨by decide, ?_, fits_nil⟩, ⟨fits_nil, fits_nil⟩⟩, ?_⟩
    · exact fun l hl => nomatch hl
    · intro hlt
      exact absurd hlt (by decide)

theorem decodes_iff_call : Decodes ["f"] callRecords :=
  (decodes_iff (by decide +kernel)).mpr ⟨callRecords_inRange, by decide⟩

/-- `return x + 1;` -/
def sumRecords : List InstRecord :=
  [{ bb := 0, operands := [.argument false 0, .constant], cls := .other },
    { bb := 0, operands := [.inst (some 0)], cls := .ret false [] }]

/-- The addition is read back as a `VarArg`. -/
theorem sum_not_decoded :
    ¬ ∀ (instrumented : List String) (rs : List InstRecord),
      (∀ r ∈ rs, IsWord (r.cls.fn instrumented).toList) → Decodes instrumented rs := by
  intro h
  rcases h ["f"] sumRecords (by decide +kernel) with ⟨bb2Ins, hload, -⟩
  have htypes := congrArg (Option.map fun p => p.1.map fun i => i.type) hload
  rw [show (loadInstInfo (instFile ["f"] sumRecords)).map (fun p => p.1.map fun i => i.type) =
    some [.varArg, .returnInst] by decide +kernel] at htypes
  cases htypes

end Slimmer
