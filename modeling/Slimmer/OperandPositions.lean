import Slimmer.InstDecodes

/-!
# Operand positions

**Theorem (`positions_kept_iff`).** Of a call to an instrumented function, every argument has its
entry in the dependencies at its own position if and only if there are only constants behind an
argument that is not traced.

`CommonInfo` leaves out an operand that is not traced, and `MergeInst` looks up the argument `k` of
the callee at position `k` of the dependencies. The callee, a constant, is the last operand of a
call; it takes the place of the one argument that may be missing.
-/

namespace Slimmer

/-- An operand is described by its dependency; one that is not traced has none, and a constant stands
for it, which `MergeInst` does not follow. -/
def Operand.DescribedBy (o : Operand) (dep : DepType × Nat) : Prop :=
  if o.isTraced then dep = o.dep else dep.1 = .constant

/-- A call to an instrumented function. -/
structure InstRecord.CallsWith (instrumented : List String) (r : InstRecord)
    (args : List Operand) : Prop where
  callee : ∃ name ∈ instrumented, r.cls = .call (.function name)
  operands : r.operands = args ++ [.constant]

/-- Operand by operand, the dependencies describe the operands. -/
def Described (os : List Operand) (deps : List (DepType × Nat)) : Prop :=
  ∀ (k : Nat) (o : Operand), os[k]? = some o → ∃ dep, deps[k]? = some dep ∧ o.DescribedBy dep

/-- In the file that is read, the dependency at the position of an argument describes it. -/
def PositionsKept (instrumented : List String) (rs : List InstRecord) (i : Nat)
    (args : List Operand) : Prop :=
  ∃ infos bb2Ins info, loadInstInfo (instFile instrumented rs) = some (infos, bb2Ins) ∧
    infos[i]? = some info ∧ Described args info.ssaDependencies

/-- There are only constants behind an operand that is not traced. -/
def ConstantsBehind (args : List Operand) : Prop :=
  args.Pairwise fun o o' => o.isTraced = false → o' = .constant

/-- The dependencies of a call. -/
def callDeps (args : List Operand) : List (DepType × Nat) :=
  ((args ++ [Operand.constant]).filter Operand.isTraced).map Operand.dep

section

variable {instrumented : List String} {rs : List InstRecord} {r : InstRecord} {i k : Nat}
  {o : Operand} {os args : List Operand}

theorem callDeps_traced (h : o.isTraced = true) : callDeps (o :: args) = o.dep :: callDeps args := by
  rw [callDeps, List.cons_append, List.filter_cons_of_pos h]
  rfl

theorem callDeps_untraced (h : o.isTraced = false) : callDeps (o :: args) = callDeps args := by
  have hneg : ¬ o.isTraced = true := by
    rw [h]
    exact Bool.false_ne_true
  rw [callDeps, List.cons_append, List.filter_cons_of_neg hneg]
  rfl

theorem callDeps_length (args : List Operand) : (callDeps args).length ≤ args.length + 1 := by
  unfold callDeps
  rw [List.length_map]
  exact (List.length_filter_le _ _).trans (le_of_eq List.length_append)

theorem callDeps_constants (h : ∀ o ∈ args, o = .constant) :
    callDeps args = List.replicate (args.length + 1) (.constant, 0) := by
  induction args with
  | nil => rfl
  | cons o args ih =>
    rcases List.forall_mem_cons.mp h with ⟨rfl, hargs⟩
    rw [callDeps_traced rfl, ih hargs]
    rfl

theorem described_cons {dep : DepType × Nat} {deps : List (DepType × Nat)} :
    Described (o :: os) (dep :: deps) ↔ o.DescribedBy dep ∧ Described os deps := by
  constructor
  · intro h
    refine ⟨?_, fun k o' ho' => h (k + 1) o' ho'⟩
    rcases h 0 o rfl with ⟨dep', hdep, hdesc⟩
    cases hdep
    exact hdesc
  · intro h k o' ho'
    cases k with
    | zero =>
      cases ho'
      exact ⟨dep, rfl, h.1⟩
    | succ k => exact h.2 k o' ho'

theorem Described.length_le {deps : List (DepType × Nat)} (h : Described os deps) :
    os.length ≤ deps.length := by
  by_contra hlt
  have hget : os[deps.length]? = some os[deps.length] := List.getElem?_eq_getElem (by omega)
  rcases h _ _ hget with ⟨dep, hdep, -⟩
  rw [List.getElem?_eq_none le_rfl] at hdep
  cases hdep

theorem described_constant {dep : DepType × Nat} :
    Operand.DescribedBy .constant dep ↔ dep = (.constant, 0) := Iff.rfl

theorem constant_of_dep (h : o.isTraced = true) (hdep : o.dep.1 = .constant) : o = .constant := by
  cases o with
  | inst id => cases hdep
  | argument isPointer no => cases isPointer <;> cases hdep
  | constant => rfl

/-- **The operands are shifted by one.** They are described if they are all constants, where nothing
but a constant describes the first of them. -/
theorem constants_of_shifted (ho : ∀ dep, o.DescribedBy dep → dep.1 = .constant)
    (h : Described (o :: args) (callDeps args)) : ∀ a ∈ args, a = .constant := by
  induction args generalizing o with
  | nil => exact fun _ ha => nomatch ha
  | cons a args ih =>
    cases htraced : a.isTraced with
    | false =>
      -- two operands are missing
      rw [callDeps_untraced htraced] at h
      have hlen := h.length_le.trans (callDeps_length args)
      rw [List.length_cons, List.length_cons] at hlen
      omega
    | true =>
      rw [callDeps_traced htraced, described_cons] at h
      have ha : a = .constant := constant_of_dep htraced (ho _ h.1)
      have hnext : ∀ dep, a.DescribedBy dep → dep.1 = .constant := by
        intro dep hdep
        rw [ha, described_constant] at hdep
        rw [hdep]
      exact List.forall_mem_cons.mpr ⟨ha, ih hnext h.2⟩

theorem described_constants (ho : o.isTraced = false) (h : ∀ a ∈ args, a = .constant) :
    Described (o :: args) (callDeps args) := by
  rw [callDeps_constants h, List.replicate_succ, described_cons]
  constructor
  · unfold Operand.DescribedBy
    rw [ho]
    rfl
  · intro k a ha
    have hk : k < args.length := (List.getElem?_eq_some_iff.mp ha).1
    refine ⟨(.constant, 0), ?_, ?_⟩
    · rw [List.getElem?_replicate, if_pos hk]
    · rw [h a (List.mem_of_getElem? ha)]
      rfl

/-- The dependencies of a call describe its arguments. -/
theorem described_callDeps_iff : Described args (callDeps args) ↔ ConstantsBehind args := by
  unfold ConstantsBehind
  induction args with
  | nil => exact ⟨fun _ => List.Pairwise.nil, fun _ k o ho => nomatch ho⟩
  | cons o args ih =>
    rw [List.pairwise_cons]
    cases htraced : o.isTraced with
    | true =>
      rw [callDeps_traced htraced, described_cons, ih]
      have hself : o.DescribedBy o.dep := by
        unfold Operand.DescribedBy
        rw [htraced]
        rfl
      exact ⟨fun h => ⟨fun _ _ hno => absurd hno Bool.noConfusion, h.2⟩, fun h => ⟨hself, h.2⟩⟩
    | false =>
      rw [callDeps_untraced htraced]
      constructor
      · intro h
        have hno : ∀ dep, o.DescribedBy dep → dep.1 = .constant := by
          intro dep hdep
          unfold Operand.DescribedBy at hdep
          rw [htraced] at hdep
          exact hdep
        have hall := constants_of_shifted hno h
        refine ⟨fun a ha _ => hall a ha, ?_⟩
        exact List.pairwise_of_forall_mem_list fun _ _ a ha _ => hall a ha
      · intro h
        exact described_constants htraced fun a ha => h.1 a ha rfl

/-- **Every argument has its entry at its own position** if and only if there are only constants
behind an argument that is not traced. -/
theorem positions_kept_iff (hw : ∀ r ∈ rs, IsWord (r.cls.fn instrumented).toList)
    (hrange : InRange instrumented rs) (hr : rs[i]? = some r)
    (hcall : r.CallsWith instrumented args) :
    PositionsKept instrumented rs i args ↔ ConstantsBehind args := by
  rcases loadInstInfo_instFile hw hrange with ⟨bb2Ins, hload, -⟩
  have hget : (readFrom instrumented 0 rs)[i]? = some (r.read instrumented i) := by
    rw [readFrom, List.getElem?_map, List.getElem?_zipIdx, hr, Nat.zero_add]
    rfl
  have hdeps : (r.read instrumented i).ssaDependencies = callDeps args := by
    show r.written.map Operand.dep = _
    rw [InstRecord.written, hcall.operands]
    rfl
  rw [← described_callDeps_iff]
  constructor
  · intro h
    rcases h with ⟨infos, bb2Ins', info, hload', hinfo, hkept⟩
    cases hload.symm.trans hload'
    cases hget.symm.trans hinfo
    rw [hdeps] at hkept
    exact hkept
  · intro h
    refine ⟨_, bb2Ins, _, hload, hget, ?_⟩
    rw [hdeps]
    exact h

end

/-! ## A call and a return -/

/-- `f(args); return;` -/
def callFile (args : List Operand) : List InstRecord :=
  [{ bb := 0, operands := args ++ [.constant], cls := .call (.function "f") },
    { bb := 0, cls := .ret true [] }]

theorem callFile_calls (args : List Operand) :
    ∃ r, (callFile args)[0]? = some r ∧ r.CallsWith ["f"] args :=
  ⟨_, rfl, ⟨"f", List.mem_singleton.mpr rfl, rfl⟩, rfl⟩

theorem callFile_words (args : List Operand) :
    ∀ r ∈ callFile args, IsWord (r.cls.fn ["f"]).toList := by
  intro r hr
  rcases List.mem_pair.mp hr with rfl | rfl
  · show IsWord ((InstClass.call (.function "f")).fn ["f"]).toList
    decide
  · show IsWord ((InstClass.ret true []).fn ["f"]).toList
    decide

theorem callFile_inRange {args : List Operand} (hlen : args.length + 1 < 2 ^ 31)
    (hargs : ∀ o ∈ args, o.dep.2 < 2 ^ 31) : InRange ["f"] (callFile args) := by
  have hfits : ∀ o ∈ args ++ [Operand.constant], o.dep.2 < 2 ^ 31 := by
    intro o ho
    rcases List.mem_append.mp ho with ho | ho
    · exact hargs o ho
    · rw [List.mem_singleton.mp ho]
      exact Nat.two_pow_pos 31
  intro i r hr
  match i, hr with
  | 0, hr =>
    cases hr
    have hbb : 0 + 1 < 2 ^ 32 := by decide
    refine ⟨⟨Nat.two_pow_pos 31, hbb,
      ⟨Nat.two_pow_pos 32, (fun l hl => nomatch hl), ?_, ?_⟩, fits_nil, fits_nil⟩, ?_⟩
    · refine (List.length_filter_le _ _).trans_lt ?_
      rw [List.length_append]
      exact hlen
    · exact fun o ho => hfits o (List.mem_of_mem_filter ho)
    · intro _ _
      show (InstClass.call (.function "f")).fn ["f"] ≠ ""
      decide
  | 1, hr =>
    cases hr
    refine ⟨⟨by decide, by decide, ⟨by decide, (fun l hl => nomatch hl), fits_nil⟩, fits_nil, fits_nil⟩, ?_⟩
    intro hlt
    exact absurd hlt (Nat.lt_irrefl 2)

/-- `f(p, sqrt(x))`. -/
theorem positions_kept_iff_last :
    PositionsKept ["f"] (callFile [.argument true 0, .inst none]) 0
      [.argument true 0, .inst none] := by
  have hrange : InRange ["f"] (callFile [.argument true 0, .inst none]) :=
    callFile_inRange (by decide) (by decide)
  rcases callFile_calls [.argument true 0, .inst none] with ⟨r, hr, hcall⟩
  apply (positions_kept_iff (callFile_words _) hrange hr hcall).mpr
  unfold ConstantsBehind
  decide

/-- `f(sqrt(x), p)`: the entry for `p` is that of `f`. -/
theorem operand_not_at_position :
    ¬ ∀ (instrumented : List String) (rs : List InstRecord) (r : InstRecord) (i : Nat)
      (args : List Operand), (∀ r ∈ rs, IsWord (r.cls.fn instrumented).toList) →
      InRange instrumented rs → rs[i]? = some r → r.CallsWith instrumented args →
      PositionsKept instrumented rs i args := by
  intro h
  rcases callFile_calls [.inst none, .argument true 0] with ⟨r, hr, hcall⟩
  have hrange : InRange ["f"] (callFile [.inst none, .argument true 0]) :=
    callFile_inRange (by decide) (by decide)
  rcases h ["f"] _ r 0 _ (callFile_words _) hrange hr hcall with ⟨infos, bb2Ins, info, hload, hinfo, hkept⟩
  have hdeps : (loadInstInfo (instFile ["f"] (callFile [.inst none, .argument true 0]))).map
      (fun p => (p.1[0]?).map fun info => info.ssaDependencies) =
      some (some [(.pointerArg, 0), (.constant, 0)]) := by decide +kernel
  rw [hload, Option.map_some, hinfo] at hdeps
  have hdeps' : info.ssaDependencies = [(.pointerArg, 0), (.constant, 0)] :=
    Option.some.inj (Option.some.inj hdeps)
  rcases hkept 1 (.argument true 0) rfl with ⟨dep, hdep, hdesc⟩
  rw [hdeps'] at hdep
  cases hdep
  cases hdesc

end Slimmer
