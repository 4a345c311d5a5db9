import Slimmer.Executions
import Slimmer.PassSteps
import Mathlib.Algebra.BigOperators.Group.List.Basic
import Mathlib.Algebra.GroupWithZero.Nat

/-!
# The names of the two passes

The forward pass numbers the executions of an instruction from 0 on and renumbers them at the end;
the backward pass numbers them as it meets them. `foreCount` and `backCount` are the two counts of a
list of blocks: the backward pass also counts instructions of `NormalBlock`s, and does not count
what it skips. They agree when all blocks of one instruction have the same kind (`KindsAgree`), and
then

* the execution a block is met as is the one its dependencies are recorded for, and all of them are
  still to be met (`dependency_unmet`);
* an execution in a `NormalBlock` has no memory dependency and is not one (`normal_no_dependency`,
  `dependency_not_normal`).
-/

namespace Slimmer

/-! ## Counts -/

/-- The executions of a block, of any kind. -/
def SmallestBlock.executed (T : Tables) (b : SmallestBlock) : List Nat :=
  match b.kind T with
  | .normal => b.insIDs T
  | .counted | .skipped => [b.insID T]
  | .declare => []

/-- All blocks of one instruction have the same kind. -/
def KindsAgree (T : Tables) (trace : List SmallestBlock) : Prop :=
  ∀ b ∈ trace, ∀ b' ∈ trace, ∀ id ∈ b.executed T, id ∈ b'.executed T → b.kind T = b'.kind T

/-- How often the backward pass counts the instruction in a block. -/
def SmallestBlock.namedCount (T : Tables) (key : Nat × Nat) (b : SmallestBlock) : Nat :=
  if b.tid = key.1 then (b.named T).count key.2 else 0

/-- How often it counts the instruction in the blocks `l`. -/
def backCount (T : Tables) (l : List SmallestBlock) (key : Nat × Nat) : Nat :=
  (l.map (SmallestBlock.namedCount T key)).sum

section

variable {T : Tables} {G : Groups} {I : PassInput} {s s' : PassState} {b b' : SmallestBlock}
  {key : Nat × Nat}

theorem backCount_append (l l' : List SmallestBlock) :
    backCount T (l ++ l') key = backCount T l key + backCount T l' key := by
  simp [backCount]

theorem backCount_reverse (l : List SmallestBlock) :
    backCount T l.reverse key = backCount T l key := by
  simp [backCount, List.sum_reverse]

theorem Visits.instCount {su su' : PassState × Bool} {ids : List Nat}
    (h : Visits I b su ids su') :
    su'.1.instCount key =
      su.1.instCount key + if b.tid = key.1 then ids.count key.2 else 0 := by
  induction h with
  | nil => simp
  | @cons s s₁ used n id ids su hvisit _ ih =>
    rw [ih, hvisit.instCount]
    by_cases hkey : key = (b.tid, id)
    · subst hkey
      simp only [Function.update_self, if_true, List.count_cons_self]
      omega
    · rw [Function.update_of_ne hkey]
      by_cases ht : b.tid = key.1
      · have hid : id ≠ key.2 := fun hid => hkey (Prod.ext ht.symm hid.symm)
        rw [if_pos ht, if_pos ht, List.count_cons_of_ne hid]
      · rw [if_neg ht, if_neg ht]

/-- A block that the pass leaves out has no name. -/
theorem SmallestBlock.named_of_skipped (hskip : b.skipped T = some true) : b.named T = [] := by
  unfold SmallestBlock.skipped at hskip
  split_ifs at hskip with hcall
  · simp [SmallestBlock.named, SmallestBlock.kind, hcall, SmallestBlock.skipped, hskip]
  · cases hskip

/-- A turn counts the executions of its block. -/
theorem extractStep_instCount (h : extractStep I s b = some s') :
    s'.instCount key = s.instCount key + b.namedCount I.tables key := by
  obtain ⟨htype, rfl⟩ | ⟨htype, s₁, henter, hrest⟩ := extractStep_cases h
  · simp [SmallestBlock.namedCount, SmallestBlock.named, SmallestBlock.kind, htype]
  have h₁ := (PassState.enter_scanned htype henter).1.instCount
  obtain ⟨hskip, rfl⟩ | ⟨hskip, s₂, used, s₃, s₄, hvisits, hmark, hleave, rfl⟩ := hrest
  · show s₁.instCount key = _
    rw [h₁, SmallestBlock.namedCount, SmallestBlock.named_of_skipped hskip]
    simp
  · have h₂ : s₂.instCount key = _ := hvisits.instCount
    have h₃ : s₃.instCount = s₂.instCount := by
      obtain ⟨e, l, -, rfl⟩ := PassState.mark_cases hmark
      rfl
    have h₄ := hleave.scanned.1.instCount
    show s₄.instCount key = _
    rw [h₄, h₃, h₂]
    show s₁.instCount key + _ = _
    rw [h₁, List.count_reverse, SmallestBlock.namedCount]

theorem run_instCount {l : List SmallestBlock} (h : run (extractStep I) {} l = some s) :
    s.instCount key = backCount I.tables l key := by
  have hinv : ∀ (s₀ : PassState), run (extractStep I) s₀ l = some s →
      s.instCount key = s₀.instCount key + backCount I.tables l key := by
    clear h
    induction l with
    | nil =>
      intro s₀ h
      cases h
      simp [backCount]
    | cons b l ih =>
      intro s₀ h
      obtain ⟨s₁, hstep, hrest⟩ := run_cons_eq_some.mp h
      rw [ih s₁ hrest, extractStep_instCount hstep]
      simp [backCount, Nat.add_assoc]
  exact (hinv {} h).trans (Nat.zero_add _)

/-! ## The two counts -/

theorem SmallestBlock.counted_iff : b.counted = true ↔ b.kind T = .counted ∨ b.kind T = .skipped := by
  unfold counted kind
  by_cases hskip : b.skipped T = some true
  · cases b.type <;> simp [hskip]
  · cases b.type <;> simp [hskip]

theorem SmallestBlock.executed_of_counted (h : b.counted = true) : b.executed T = [b.insID T] := by
  obtain h | h := (SmallestBlock.counted_iff (T := T)).mp h <;> simp [executed, h]

/-- The backward pass counts at most what the forward pass does, for an instruction that is a
`counted` one in some block. -/
theorem namedCount_le {trace : List SmallestBlock} (hkinds : KindsAgree T trace) {b₀ : SmallestBlock}
    (hb₀ : b₀ ∈ trace) (hcounted : b₀.counted = true) (hkey : (b₀.tid, b₀.insID T) = key)
    (hb : b ∈ trace) :
    b.namedCount T key ≤ if b.counted && decide ((b.tid, b.insID T) = key) then 1 else 0 := by
  have hid : key.2 ∈ b₀.executed T := by
    rw [SmallestBlock.executed_of_counted hcounted, ← hkey]
    exact List.mem_singleton.mpr rfl
  unfold SmallestBlock.namedCount
  by_cases ht : b.tid = key.1
  swap
  · simp [ht]
  rw [if_pos ht]
  cases hkind : b.kind T with
  | normal =>
    -- the instruction is not in a `NormalBlock`
    have hnot : key.2 ∉ b.named T := by
      intro hmem
      have hmem' : key.2 ∈ b.executed T := by
        simpa [SmallestBlock.executed, SmallestBlock.named, hkind] using hmem
      have := hkinds b hb b₀ hb₀ key.2 hmem' hid
      rw [hkind] at this
      obtain h | h := (SmallestBlock.counted_iff (T := T)).mp hcounted
      · cases this.trans h
      · cases this.trans h
    rw [List.count_eq_zero.mpr hnot]
    exact Nat.zero_le _
  | counted =>
    have hc : b.counted = true := SmallestBlock.counted_iff.mpr (Or.inl hkind)
    have hnamed : b.named T = [b.insID T] := by simp [SmallestBlock.named, hkind]
    rw [hnamed, List.count_singleton]
    by_cases hi : b.insID T = key.2
    · have hbkey : (b.tid, b.insID T) = key := Prod.ext ht hi
      rw [if_pos (by simpa using hi), hc, hbkey]
      simp
    · simp [hi]
  | skipped | declare =>
    have hnamed : b.named T = [] := by simp [SmallestBlock.named, hkind]
    simp [hnamed]

/-- The two counts of an instruction that is never skipped and never in a `NormalBlock`. -/
theorem namedCount_eq {trace : List SmallestBlock} (hkinds : KindsAgree T trace) {b₀ : SmallestBlock}
    (hb₀ : b₀ ∈ trace) (hcounted : b₀.kind T = .counted) (hkey : (b₀.tid, b₀.insID T) = key)
    (hb : b ∈ trace) :
    b.namedCount T key = if b.counted && decide ((b.tid, b.insID T) = key) then 1 else 0 := by
  have hcounted' : b₀.counted = true := SmallestBlock.counted_iff.mpr (Or.inl hcounted)
  refine le_antisymm (namedCount_le hkinds hb₀ hcounted' hkey hb) ?_
  split_ifs with hc
  · simp only [Bool.and_eq_true, decide_eq_true_eq] at hc
    obtain ⟨hc, hbkey⟩ := hc
    have hid : key.2 ∈ b₀.executed T ∧ key.2 ∈ b.executed T := by
      rw [SmallestBlock.executed_of_counted hcounted', SmallestBlock.executed_of_counted hc,
        ← hkey]
      exact ⟨List.mem_singleton.mpr rfl, by rw [hkey, ← hbkey]; exact List.mem_singleton.mpr rfl⟩
    have hkind := hkinds b hb b₀ hb₀ key.2 hid.2 hid.1
    have hnamed : b.named T = [b.insID T] := by
      simp [SmallestBlock.named, hkind, hcounted]
    rw [SmallestBlock.namedCount, hnamed, ← hbkey]
    simp
  · exact Nat.zero_le _

theorem backCount_le {trace l : List SmallestBlock} (hkinds : KindsAgree T trace)
    {b₀ : SmallestBlock} (hb₀ : b₀ ∈ trace) (hcounted : b₀.counted = true)
    (hkey : (b₀.tid, b₀.insID T) = key) (hl : ∀ b ∈ l, b ∈ trace) :
    backCount T l key ≤ foreCount T l key := by
  induction l with
  | nil => exact le_rfl
  | cons b l ih =>
    obtain ⟨hb, hl⟩ := List.forall_mem_cons.mp hl
    have h₁ := namedCount_le hkinds hb₀ hcounted hkey hb
    have h₂ := ih hl
    unfold backCount foreCount at h₂ ⊢
    rw [List.map_cons, List.sum_cons, List.countP_cons]
    omega

theorem backCount_eq {trace l : List SmallestBlock} (hkinds : KindsAgree T trace)
    {b₀ : SmallestBlock} (hb₀ : b₀ ∈ trace) (hcounted : b₀.kind T = .counted)
    (hkey : (b₀.tid, b₀.insID T) = key) (hl : ∀ b ∈ l, b ∈ trace) :
    backCount T l key = foreCount T l key := by
  induction l with
  | nil => rfl
  | cons b l ih =>
    obtain ⟨hb, hl⟩ := List.forall_mem_cons.mp hl
    have h₁ := namedCount_eq hkinds hb₀ hcounted hkey hb
    have h₂ := ih hl
    unfold backCount foreCount at h₂ ⊢
    rw [List.map_cons, List.sum_cons, List.countP_cons]
    omega

/-! ## Dependencies -/

/-- `MemDependencies[d]`. -/
def dependenciesOf (deps : Finset (DynamicInst × DynamicInst)) (d : DynamicInst) :
    Finset DynamicInst :=
  (deps.filter fun p => p.1 = d).image Prod.snd

theorem mem_dependenciesOf {deps : Finset (DynamicInst × DynamicInst)} {d e : DynamicInst} :
    e ∈ dependenciesOf deps d ↔ (d, e) ∈ deps := by
  simp [dependenciesOf]

/-- A dependency is the renumbering of one the reference records. -/
theorem exists_of_dependency {trace : List SmallestBlock}
    {deps : Finset (DynamicInst × DynamicInst)} (htrace : ∀ b ∈ trace, b.WellFormed T)
    (hextract : extractMemoryDependency T G trace = some deps) {d e : DynamicInst}
    (h : e ∈ dependenciesOf deps d) :
    ∃ p ∈ (lastWritersOf InstType.accessesSeen T G trace).deps,
      d = p.1.renumber (foreCount T trace) ∧ e = p.2.renumber (foreCount T trace) := by
  obtain ⟨deps', hdeps', heq⟩ := extract_follows T G htrace
  cases hextract.symm.trans hdeps'
  rw [mem_dependenciesOf, ← Finset.mem_coe, heq] at h
  obtain ⟨p, hp, hpd⟩ := h
  have hcount : (lastWritersOf InstType.accessesSeen T G trace).count = foreCount T trace :=
    funext fun key => lastWritersOf_count_eq trace key
  rw [hcount] at hpd
  exact ⟨p, hp, (congrArg Prod.fst hpd).symm, (congrArg Prod.snd hpd).symm⟩

/-- The names of a dependency are executions, so both instructions are executed by blocks that are
not `NormalBlock`s. -/
theorem exists_counted {trace : List SmallestBlock} {d : DynamicInst}
    (hd : (lastWritersOf InstType.accessesSeen T G trace).Named d) :
    ∃ b ∈ trace, b.counted = true ∧ (b.tid, b.insID T) = d.key := by
  have hpos : 0 < foreCount T trace d.key := by
    have := hd.2
    rw [lastWritersOf_count_eq] at this
    have := hd.1
    unfold DynamicInst.key
    omega
  obtain ⟨b, hb, hc⟩ := List.countP_pos_iff.mp hpos
  simp only [Bool.and_eq_true, decide_eq_true_eq] at hc
  exact ⟨b, hb, hc.1, hc.2⟩

/-- Neither side of a dependency is executed by a `NormalBlock`. -/
theorem normal_no_dependency {trace : List SmallestBlock}
    {deps : Finset (DynamicInst × DynamicInst)} (htrace : ∀ b ∈ trace, b.WellFormed T)
    (hkinds : KindsAgree T trace) (hextract : extractMemoryDependency T G trace = some deps)
    (hb : b ∈ trace) (hnormal : b.kind T = .normal) {d e : DynamicInst}
    (h : e ∈ dependenciesOf deps d) : ∀ id ∈ b.named T, (b.tid, id) ≠ d.key ∧ (b.tid, id) ≠ e.key := by
  obtain ⟨p, hp, rfl, rfl⟩ := exists_of_dependency htrace hextract h
  obtain ⟨hd, he⟩ := (past_lastWritersOf trace).deps p hp
  have hne : ∀ {c : DynamicInst}, (lastWritersOf InstType.accessesSeen T G trace).Named c →
      ∀ id ∈ b.named T, (b.tid, id) ≠ c.key := by
    intro c hc id hid hkey
    obtain ⟨b', hb', hcounted, hkey'⟩ := exists_counted hc
    have hid' : id = b'.insID T := congrArg Prod.snd (hkey.trans hkey'.symm)
    have hmem : id ∈ b.executed T := by
      simpa [SmallestBlock.executed, SmallestBlock.named, hnormal] using hid
    have hmem' : id ∈ b'.executed T := by
      rw [SmallestBlock.executed_of_counted hcounted, hid']
      exact List.mem_singleton.mpr rfl
    have := hkinds b hb b' hb' id hmem hmem'
    rw [hnormal] at this
    obtain h | h := (SmallestBlock.counted_iff (T := T)).mp hcounted
    · cases this.trans h
    · cases this.trans h
  exact fun id hid => ⟨hne hd id hid, hne he id hid⟩

/-- The block `b` is met with the blocks `pre` behind it: its execution is named as the forward pass
names it, and the executions it depends on are still to be met. -/
theorem dependency_unmet {trace pre post : List SmallestBlock}
    {deps : Finset (DynamicInst × DynamicInst)} (htrace : ∀ b ∈ trace, b.WellFormed T)
    (hkinds : KindsAgree T trace) (hextract : extractMemoryDependency T G trace = some deps)
    (hsplit : trace.reverse = pre ++ b :: post) (hcounted : b.kind T = .counted) {e : DynamicInst}
    (h : e ∈ dependenciesOf deps ⟨b.tid, b.insID T, -backCount T pre (b.tid, b.insID T)⟩) :
    e.cnt ≤ -backCount T pre e.key := by
  obtain ⟨p, hp, hname, rfl⟩ := exists_of_dependency htrace hextract h
  have htraceEq : trace = post.reverse ++ [b] ++ pre.reverse := by
    rw [← List.reverse_reverse trace, hsplit]
    simp
  have hpre : ∀ b ∈ pre, b ∈ trace := fun c hc => List.mem_reverse.mp (by
    rw [hsplit]
    exact List.mem_append_left _ hc)
  have hb : b ∈ trace := List.mem_reverse.mp (by rw [hsplit]; simp)
  have hc : b.counted = true := (SmallestBlock.counted_iff (T := T)).mpr (Or.inl hcounted)
  obtain ⟨⟨t₁, i₁, n₁⟩, e⟩ := p
  simp only [DynamicInst.renumber, DynamicInst.mk.injEq] at hname
  obtain ⟨rfl, rfl, hn⟩ := hname
  -- the dependency is recorded when the block is processed
  have hcount : foreCount T (post.reverse ++ [b]) (b.tid, b.insID T) =
      foreCount T post.reverse (b.tid, b.insID T) + 1 := by
    rw [foreCount_append]
    simp [foreCount, hc]
  have hall : ∀ key, foreCount T trace key =
      foreCount T (post.reverse ++ [b]) key + foreCount T pre key := by
    intro key
    rw [htraceEq, foreCount_append]
    simp [foreCount, List.countP_reverse]
  have hdeps : (⟨⟨b.tid, b.insID T, n₁⟩, e⟩ : DynamicInst × DynamicInst) ∈
      (lastWritersOf InstType.accessesSeen T G (post.reverse ++ [b])).deps := by
    refine deps_of_past pre.reverse ?_ (by
      rw [htraceEq, lastWritersOf, List.foldl_append] at hp
      exact hp)
    rw [lastWritersOf_count_eq, hcount]
    show n₁ < _
    have := hall (b.tid, b.insID T)
    rw [backCount_eq hkinds hb hcounted rfl hpre] at hn
    omega
  obtain ⟨-, he⟩ := (past_lastWritersOf _).deps _ hdeps
  obtain ⟨b', hb', hc', hkey⟩ := exists_counted ((past_lastWritersOf trace).deps _ hp).2
  have hle : backCount T pre e.key ≤ foreCount T pre e.key :=
    backCount_le hkinds hb' hc' hkey hpre
  have hlt : e.cnt < ((foreCount T (post.reverse ++ [b]) e.key : Nat) : Int) := by
    have := he.2
    rwa [lastWritersOf_count_eq] at this
  have := hall e.key
  show e.cnt - ((foreCount T trace e.key : Int) - 1) ≤ -backCount T pre e.key
  omega

/-! ## The two passes name alike -/

/-- The name `ExtractMemoryDependency` gives the block `b` between `pre` and `post`, after its final
renumbering. -/
def forwardName (T : Tables) (G : Groups) (pre : List SmallestBlock) (b : SmallestBlock)
    (post : List SmallestBlock) : Option DynamicInst :=
  (run (depStep T G) {} pre).bind fun s => (run (depStep T G) s (b :: post)).map fun s' =>
    (⟨b.tid, b.insID T, s.insCount (b.tid, b.insID T)⟩ : DynamicInst).renumber s'.insCount

/-- The pass returns on well-formed blocks, having counted their executions. -/
theorem run_depStep (G : Groups) {l : List SmallestBlock} (h : ∀ b ∈ l, b.WellFormed T) :
    ∃ s, run (depStep T G) {} l = some s ∧ s.insCount = foreCount T l := by
  obtain ⟨s, hs, hfollows⟩ := run_simulates (R := Follows)
    (g := LastWriters.step InstType.accessesSeen T G)
    (fun s w b hb hw => hw.step (h b hb)) follows_init
  exact ⟨s, hs, hfollows.count.trans (funext fun key => lastWritersOf_count_eq l key)⟩

theorem forwardName_eq {trace pre post : List SmallestBlock} (htrace : ∀ b ∈ trace, b.WellFormed T)
    (hsplit : trace = pre ++ b :: post) :
    forwardName T G pre b post = some ⟨b.tid, b.insID T,
      foreCount T pre (b.tid, b.insID T) - ((foreCount T trace (b.tid, b.insID T) : Int) - 1)⟩ := by
  obtain ⟨s₁, hs₁, hcount₁⟩ := run_depStep G (l := pre) fun c hc => htrace c (by simp [hsplit, hc])
  obtain ⟨s₂, hs₂, hcount₂⟩ := run_depStep G htrace
  have hrest : run (depStep T G) s₁ (b :: post) = some s₂ := by
    rwa [hsplit, run_append, hs₁, Option.bind_some] at hs₂
  rw [forwardName, hs₁, Option.bind_some, hrest, Option.map_some, hcount₁, hcount₂]
  rfl

/-- **The two passes name dynamic instructions alike.** For every well-formed block trace in which
all blocks of one instruction have the same kind, and every block of a single execution that the
backward pass does not skip: both passes give it the same name, and no other block gets it. -/
theorem names_agree {trace pre post : List SmallestBlock} (htrace : ∀ b ∈ trace, b.WellFormed T)
    (hkinds : KindsAgree T trace) (hsplit : trace = pre ++ b :: post) (hb : b.kind T = .counted) :
    ∃ d, forwardName T G pre b post = some d ∧
      (∀ (I : PassInput) (s : PassState), I.tables = T →
        run (extractStep I) {} post.reverse = some s →
          s.toPassSets.name b.tid (b.insID T) = d) ∧
      ∀ pre' b' post', trace = pre' ++ b' :: post' → b'.kind T = .counted →
        forwardName T G pre' b' post' = some d → pre' = pre := by
  have hc : b.counted = true := (SmallestBlock.counted_iff (T := T)).mpr (Or.inl hb)
  have hmem : b ∈ trace := by simp [hsplit]
  refine ⟨_, forwardName_eq htrace hsplit, ?_, ?_⟩
  · rintro I s rfl hrun
    -- what comes behind the block is counted by both passes
    have hback : s.instCount (b.tid, b.insID I.tables) =
        foreCount I.tables post (b.tid, b.insID I.tables) := by
      rw [run_instCount hrun, backCount_reverse]
      exact backCount_eq hkinds hmem hb rfl fun c hc => by simp [hsplit, hc]
    have htotal : foreCount I.tables trace (b.tid, b.insID I.tables) =
        foreCount I.tables pre (b.tid, b.insID I.tables) + 1 +
          foreCount I.tables post (b.tid, b.insID I.tables) := by
      rw [hsplit, foreCount_append, foreCount_cons]
      simp [hc]
      omega
    rw [PassSets.name, hback, htotal, DynamicInst.mk.injEq]
    exact ⟨rfl, rfl, by omega⟩
  · intro pre' b' post' hsplit' hb' hname
    have hc' : b'.counted = true := (SmallestBlock.counted_iff (T := T)).mpr (Or.inl hb')
    rw [forwardName_eq htrace hsplit', Option.some.injEq, DynamicInst.mk.injEq] at hname
    obtain ⟨htid, hid, hcnt⟩ := hname
    rw [htid, hid] at hcnt
    -- of two positions the later one has a greater count
    have hlt : ∀ {p p' q q' : List SmallestBlock} {c c' : SmallestBlock},
        p ++ c :: q = p' ++ c' :: q' → p.length < p'.length → c.counted = true →
        foreCount T p (c.tid, c.insID T) < foreCount T p' (c.tid, c.insID T) := by
      intro p p' q q' c c' heq hlen hcc
      obtain ⟨r, rfl, hr⟩ : ∃ r, p' = p ++ r ∧ c :: q = r ++ c' :: q' := by
        obtain ⟨r, h₁, h₂⟩ | ⟨r, h₁, h₂⟩ := List.append_eq_append_iff.mp heq
        · exact ⟨r, h₁, h₂⟩
        · rw [h₁, List.length_append] at hlen
          omega
      cases r with
      | nil => simp at hlen
      | cons e r =>
        obtain rfl : c = e := (List.cons.inj hr).1
        rw [foreCount_append, foreCount_cons]
        simp [hcc]
    have heq := hsplit.symm.trans hsplit'
    have hlen : pre.length = pre'.length := by
      obtain h | h | h := lt_trichotomy pre.length pre'.length
      · have := hlt heq h hc
        omega
      · exact h
      · have := hlt heq.symm h hc'
        rw [htid, hid] at this
        omega
    exact (List.append_inj heq hlen).1.symm

end

theorem copyTrace_wellFormed : ∀ b ∈ copyTrace, b.WellFormed copyTables := by decide

/-- The memmove between the store and the load. -/
def copyBlock : SmallestBlock := { type := .memmoveBlock, start := 2, addr := [200, 204, 100, 104] }

/-- When the copy is made twice, both passes name the first memmove by -1. -/
theorem names_agree_copy :
    forwardName copyTables oneGroup (copyTrace.take 1) copyBlock (copyTrace.drop 2 ++ copyTrace) =
        some ⟨0, 2, -1⟩ ∧
      (∀ (I : PassInput) (s : PassState), I.tables = copyTables →
        run (extractStep I) {} (copyTrace.drop 2 ++ copyTrace).reverse = some s →
          s.toPassSets.name copyBlock.tid (copyBlock.insID copyTables) = ⟨0, 2, -1⟩) ∧
      ∀ pre b post, copyTrace ++ copyTrace = pre ++ b :: post → b.kind copyTables = .counted →
        forwardName copyTables oneGroup pre b post = some ⟨0, 2, -1⟩ → pre = copyTrace.take 1 := by
  have hmem : ∀ b ∈ copyTrace ++ copyTrace, b ∈ copyTrace :=
    fun b hb => (List.mem_append.mp hb).elim id id
  have htrace : ∀ b ∈ copyTrace ++ copyTrace, b.WellFormed copyTables :=
    fun b hb => copyTrace_wellFormed b (hmem b hb)
  have hkinds : KindsAgree copyTables copyTrace := by
    unfold KindsAgree
    decide
  replace hkinds : KindsAgree copyTables (copyTrace ++ copyTrace) :=
    fun b hb c hc => hkinds b (hmem b hb) c (hmem c hc)
  have hsplit : copyTrace ++ copyTrace =
      copyTrace.take 1 ++ copyBlock :: (copyTrace.drop 2 ++ copyTrace) := rfl
  have hfirst : forwardName copyTables oneGroup (copyTrace.take 1) copyBlock
      (copyTrace.drop 2 ++ copyTrace) = some ⟨0, 2, -1⟩ := by
    rw [forwardName_eq htrace hsplit]
    decide
  obtain ⟨d, hd, hback, hunique⟩ := names_agree (G := oneGroup) htrace hkinds hsplit (by decide)
  obtain rfl := Option.some.inj (hd.symm.trans hfirst)
  exact ⟨hd, hback, hunique⟩

end Slimmer
