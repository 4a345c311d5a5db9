import Slimmer.LabelsApart
import Slimmer.MergedReading

/-!
# The groups of nested activations

**Theorem (`arguments_grouped`).** In every run whose blocks meet `BlockApart` the groups of
`GroupMemory` are those of the reference, in every state reached.

The blocks of a trail are read back, activation by activation, to where it began; so the activations
of a merged trace nest, and its first blocks tell whether there is a caller (`mergeTrace_calls`).

In the run of `swapProgram` one block does not: `f(a, b)` calls `g(b, a)`, and the labels of `b` and of
the second argument of `g` have the same key.
-/

namespace Slimmer

/-- Every block of a run meets the condition. -/
def LabelsApart (T : Tables) (bs : List SmallestBlock) : Prop :=
  RunOk (groupStep T) (BlockApart T) {} bs

/-- A first block says whether the activation has a caller. -/
def TellsCaller (a : Activations) (b : SmallestBlock) : Prop :=
  b.type ≠ .declareBlock → 0 < b.isFirst → ∀ act rest, a.within b = act :: rest →
    b.isFirst = 1 ∧ rest ≠ [] ∨ b.isFirst = 2 ∧ rest = []

/-- A block trace of nested activations. -/
structure CallTrace (trace : List SmallestBlock) : Prop where
  bracketed : WellBracketed trace
  callers : RunOk activationStep TellsCaller {} trace.reverse

section

variable {T : Tables} {s s' : GroupState} {b : SmallestBlock} {act : Nat} {rest : List Nat}

/-! ## The activations -/

/-- The activations of a thread are named in the order in which they begin, backward. -/
def Activations.Descending (a : Activations) : Prop :=
  ∀ tid, (a.stack tid).Pairwise (· > ·) ∧ ∀ act ∈ a.stack tid, act < a.pos

theorem Activations.Descending.within {a : Activations} (h : a.Descending) (b : SmallestBlock) :
    (a.within b).Pairwise (· > ·) ∧ ∀ act ∈ a.within b, act ≤ a.pos := by
  rcases h b.tid with ⟨hpairs, hlt⟩
  unfold Activations.within
  split_ifs
  · refine ⟨List.pairwise_cons.mpr ⟨hlt, hpairs⟩, List.forall_mem_cons.mpr ⟨le_rfl, ?_⟩⟩
    exact fun act hact => (hlt act hact).le
  · exact ⟨hpairs, fun act hact => (hlt act hact).le⟩

theorem Activations.Descending.step {a a' : Activations} (h : a.Descending)
    (hstep : activationStep a b = some a') : a'.Descending := by
  unfold activationStep at hstep
  by_cases htype : b.type = .declareBlock
  · rw [if_pos htype] at hstep
    cases hstep
    exact fun tid => ⟨(h tid).1, fun act hact => Nat.lt_succ_of_lt ((h tid).2 act hact)⟩
  · rw [if_neg htype] at hstep
    rcases h.within b with ⟨hpairs, hle⟩
    cases hwithin : a.within b with
    | nil =>
      rw [hwithin] at hstep
      cases hstep
    | cons act rest =>
      rw [hwithin] at hstep hpairs hle
      cases hstep
      intro tid
      show (Function.update a.stack b.tid _ tid).Pairwise _ ∧
        ∀ x ∈ Function.update a.stack b.tid _ tid, x < a.pos + 1
      by_cases ht : tid = b.tid
      · rw [ht, Function.update_self]
        split_ifs
        · exact ⟨(List.pairwise_cons.mp hpairs).2,
            fun x hx => Nat.lt_succ_of_le (hle x (List.mem_cons_of_mem act hx))⟩
        · exact ⟨hpairs, fun x hx => Nat.lt_succ_of_le (hle x hx)⟩
      · rw [Function.update_of_ne ht]
        exact ⟨(h tid).1, fun x hx => Nat.lt_succ_of_lt ((h tid).2 x hx)⟩

/-! ## Merged traces -/

/-- A first block says whether there is a frame below. -/
theorem Trail.tells {first : Nat → Nat × Nat} {stks : Nat → List StackInfo}
    {l : List SmallestBlock} (h : Trail T first stks l) : ∀ tid, 0 < (first tid).1 →
      ∃ info rest, stks tid = info :: rest ∧
        ((first tid).1 = 1 ∧ rest ≠ [] ∨ (first tid).1 = 2 ∧ rest = []) := by
  let Q (p : Nat × Nat) (stk : List StackInfo) : Prop := 0 < p.1 →
    ∃ info rest, stk = info :: rest ∧ (p.1 = 1 ∧ rest ≠ [] ∨ p.1 = 2 ∧ rest = [])
  show ∀ tid, Q (first tid) (stks tid)
  induction h with
  | init => exact fun _ h => absurd h (lt_irrefl 0)
  | declare _ _ ih => exact ih
  | emit _ _ ih => exact forall_update ih fun h => absurd h (lt_irrefl 0)
  | start _ _ id ih => exact forall_update ih fun _ => ⟨_, [], rfl, Or.inr ⟨rfl, rfl⟩⟩
  | jump _ _ _ _ _ _ _ ih => exact forall_update ih fun h => absurd h (lt_irrefl 0)
  | call _ _ _ _ id _ ih =>
    exact forall_update ih fun _ => ⟨_, _, rfl, Or.inl ⟨rfl, List.cons_ne_nil _ _⟩⟩

/-- The activations that are open are the frames of the call stacks, but for a frame of which no block
has been read. -/
def Activations.Open (a : Activations) (first : Nat → Nat × Nat) (stks : Nat → List StackInfo) :
    Prop :=
  ∀ tid, (a.stack tid).length + (if 0 < (first tid).1 then 1 else 0) = (stks tid).length

theorem Activations.Open.of_update {a : Activations} {first : Nat → Nat × Nat}
    {stks : Nat → List StackInfo} {tid : Nat} {p : Nat × Nat} {stk : List StackInfo}
    (h : a.Open (Function.update first tid p) (Function.update stks tid stk))
    (htid : stk.length + (if 0 < (first tid).1 then 1 else 0) =
      (stks tid).length + if 0 < p.1 then 1 else 0) : a.Open first stks := by
  intro t
  have ht := h t
  by_cases heq : t = tid
  · subst heq
    rw [Function.update_self, Function.update_self] at ht
    omega
  · rwa [Function.update_of_ne heq, Function.update_of_ne heq] at ht

/-- What an emitted block says about the call stack. -/
theorem EmitsBlock.marks {tid : Nat} {p : Nat × Nat} {stk stk' : List StackInfo}
    (h : EmitsBlock T tid p stk b stk') : b.type ≠ .declareBlock ∧ b.tid = tid ∧ b.isFirst = p.1 ∧
      stk ≠ [] ∧ stk.length = stk'.length + if 0 < b.isLast then 1 else 0 := by
  cases h with
  | stay _ hpiece hlast _ =>
    refine ⟨hpiece.type, hpiece.tid, hpiece.isFirst, List.cons_ne_nil _ _, ?_⟩
    rw [hlast]
    rfl
  | pop _ hpiece hlast _ _ =>
    refine ⟨hpiece.type, hpiece.tid, hpiece.isFirst, List.cons_ne_nil _ _, ?_⟩
    rw [if_pos hlast]
    rfl

/-- **The blocks of a trail** are read back to where all activations have been left. -/
theorem Trail.activations {first : Nat → Nat × Nat} {stks : Nat → List StackInfo}
    {l : List SmallestBlock} (h : Trail T first stks l) {a : Activations} (ha : a.Open first stks) :
    (∃ a', run activationStep a l.reverse = some a' ∧ ∀ tid, a'.stack tid = []) ∧
      RunOk activationStep TellsCaller a l.reverse := by
  induction h generalizing a with
  | init =>
    refine ⟨⟨a, rfl, fun tid => ?_⟩, .nil a⟩
    have := ha tid
    exact List.length_eq_zero_iff.mp (by simpa using this)
  | @declare first stks l b h htype ih =>
    rw [List.reverse_concat]
    have hstep : activationStep a b = some { a with pos := a.pos + 1 } := if_pos htype
    obtain ⟨⟨a', hrun, hnil⟩, hok⟩ := ih (a := { a with pos := a.pos + 1 }) ha
    exact ⟨⟨a', run_cons_eq_some.mpr ⟨_, hstep, hrun⟩, hnil⟩,
      (runOk_cons hstep).mpr ⟨fun hne => absurd htype hne, hok⟩⟩
  | @emit first stks l tid b stk h hemit ih =>
    rw [List.reverse_concat]
    obtain ⟨htype, rfl, hfirst, hne, hlen⟩ := hemit.marks
    have hstack := ha b.tid
    rw [Function.update_self, Function.update_self, if_neg (lt_irrefl 0), Nat.add_zero] at hstack
    have hwithin : (a.within b).length = (stks b.tid).length := by
      rw [hlen, ← hstack]
      unfold Activations.within
      split_ifs <;> rfl
    obtain ⟨act, rest, hcons⟩ : ∃ act rest, a.within b = act :: rest := by
      apply List.exists_cons_of_length_pos
      rw [hwithin]
      exact List.length_pos_iff.mpr hne
    rw [hcons] at hwithin
    let a₁ : Activations :=
      ⟨a.pos + 1, Function.update a.stack b.tid (if 0 < b.isFirst then rest else act :: rest)⟩
    have hstep : activationStep a b = some a₁ := by
      rw [activationStep, if_neg htype, hcons]
    have hopen : a₁.Open first stks := by
      intro t
      show (Function.update a.stack b.tid _ t).length + _ = _
      by_cases ht : t = b.tid
      · rw [ht, Function.update_self, ← hwithin, ← hfirst]
        split_ifs <;> rfl
      · have hother := ha t
        rw [Function.update_of_ne ht, Function.update_of_ne ht] at hother
        rwa [Function.update_of_ne ht]
    obtain ⟨⟨a', hrun, hnil⟩, hok⟩ := ih hopen
    refine ⟨⟨a', run_cons_eq_some.mpr ⟨_, hstep, hrun⟩, hnil⟩, (runOk_cons hstep).mpr ⟨?_, hok⟩⟩
    intro _ hpos act' rest' hcons'
    cases hcons.symm.trans hcons'
    rw [hfirst] at hpos ⊢
    obtain ⟨info, below, hstk, hcaller⟩ := h.tells b.tid hpos
    have hrest : rest = [] ↔ below = [] := by
      rw [hstk, List.length_cons, List.length_cons, Nat.add_right_cancel_iff] at hwithin
      rw [← List.length_eq_zero_iff, hwithin, List.length_eq_zero_iff]
    rwa [Ne, hrest]
  | @start first stks l tid h hstk id ih =>
    refine ih (ha.of_update ?_)
    have hzero : ¬ 0 < (first tid).1 := by
      intro hpos
      obtain ⟨info, rest, hcons, -⟩ := h.tells tid hpos
      cases hstk.symm.trans hcons
    rw [if_neg hzero, hstk]
    rfl
  | @jump first stks l tid info rest bb h hstk _ _ hpos id _ ih =>
    refine ih (ha.of_update ?_)
    rw [h.first_eq_zero hstk hpos, hstk]
    rfl
  | @call first stks l tid info rest h hstk _ hpos id caller ih =>
    refine ih (ha.of_update ?_)
    rw [h.first_eq_zero hstk hpos, hstk]
    rfl

/-- **The trace of an execution** is one of nested activations. -/
theorem mergeTrace_calls (P : Program) (impactful : Nat → Bool) {es : List Event}
    {th : Nat → List StackInfo} {ex : Nat → List Nat} (h : Execution P es th ex)
    (hdone : ∀ tid, th tid = []) {trace : List SmallestBlock}
    (hmerge : mergeTrace P.toTables impactful (es.map .event) = some trace) : CallTrace trace := by
  obtain ⟨first, htrail⟩ := h.trail_of_done hdone hmerge
  have hopen : Activations.Open {} first fun _ => [] := by
    intro tid
    rw [if_neg]
    · rfl
    · intro hpos
      obtain ⟨info, rest, hcons, -⟩ := htrail.tells tid hpos
      cases hcons
  exact ⟨(htrail.activations hopen).1, (htrail.activations hopen).2⟩

/-! ## Turns -/

/-- The groups between two blocks, with an eye to one thread. -/
theorem partition_eq (s : GroupState) (a : Activations) (tid : Nat) :
    s.partition T a =
      s.groupsWith T (fun t => (a.stack t).head?) tid (a.stack tid).head? := by
  have howner : ownedBy (fun t => (a.stack t).head?) tid (a.stack tid).head? =
      fun t _ => (a.stack t).head? := by
    funext t key
    by_cases ht : t = tid
    · rw [ht, ownedBy_self]
    · rw [ownedBy, Function.update_of_ne ht]
  rw [GroupState.groupsWith, howner]
  rfl

/-- The code and the reference between two blocks. -/
structure SameGroups (T : Tables) (s : GroupState) (r : Grouping Member × Activations) : Prop where
  labelled : s.Labelled T
  partition : s.partition T r.2 = r.1
  descending : r.2.Descending

theorem SameGroups.init : SameGroups T {} (default, {}) where
  labelled := by
    refine ⟨.init, fun t key => iff_of_false List.not_mem_nil ?_, fun t => .nil⟩
    intro h
    obtain ⟨-, hlive⟩ := h
    cases hlive
  partition := by
    have hnone : ∀ m, memberGroup T ({} : GroupState).addr2Group.get ({} : GroupState).ins2Group
        (fun _ _ => none) m = none := by
      intro m
      cases m with
      | address a =>
        show (if a < maxRange then none else none) = none
        rw [ite_self]
      | value tid id =>
        show (if id < T.ins.length then none else none) = none
        rw [ite_self]
      | argument tid act k => rfl
    apply Grouping.ext'
    intro x y
    refine iff_of_false ?_ id
    intro h
    obtain ⟨g, hx, -⟩ := h
    cases (hnone x).symm.trans hx
  descending tid := ⟨.nil, fun act hact => absurd hact List.not_mem_nil⟩

/-- The groups when the thread has come to an activation. -/
theorem SameGroups.within {r : Grouping Member × Activations} (h : SameGroups T s r)
    (hapart : 0 < b.isLast → s.labeledArgs b.tid = []) (hwithin : r.2.within b = act :: rest) :
    s.groupsWith T (fun t => (r.2.stack t).head?) b.tid (some act) = r.1 := by
  rw [← h.partition, partition_eq s r.2 b.tid]
  unfold Activations.within at hwithin
  split_ifs at hwithin with hlast
  · exact h.labelled.groupsWith_eq (hapart hlast) _ _
  · rw [hwithin]
    rfl

/-- **A block** does to the groups what the reference does. -/
theorem SameGroups.block {r : Grouping Member × Activations} (h : SameGroups T s r) (hb : b.Words)
    (htype : b.type ≠ .declareBlock) (hstep : groupStep T s b = some s')
    (hwithin : r.2.within b = act :: rest) (hfirst : b.isFirst ≤ 2)
    (hcaller : b.isFirst = 1 → rest.head? = some (rest.head?.getD 0)) (hapart : BlockApart T s b) :
    s'.Labelled T ∧
      s'.groupsWith T (fun t => (r.2.stack t).head?) b.tid (b.ownerBehind act rest.head?) =
        (r.1.block T act b).behind T b act rest.head? := by
  have hpairs := (h.descending.within b).1
  rw [hwithin] at hpairs
  have hbelow : rest.head? ≠ some act := by
    intro heq
    have hmem := List.mem_of_mem_head? heq
    exact lt_irrefl act ((List.pairwise_cons.mp hpairs).1 act hmem)
  by_cases hidle : b.Idle T
  · -- the labels are those of the caller before and behind the block
    rcases hidle with ⟨hlast, hpos, hnil⟩
    have hstack : r.2.stack b.tid = rest := by
      unfold Activations.within at hwithin
      rw [if_pos hlast] at hwithin
      exact (List.cons.inj hwithin).2
    rcases idle_partition (fun t => (r.2.stack t).head?) h.labelled hb htype hnil hstep with
      ⟨h', -, hpart⟩
    refine ⟨h', ?_⟩
    rw [SmallestBlock.ownerBehind, Grouping.behind, if_pos hpos, if_pos hpos, ← h.partition,
      partition_eq s r.2 b.tid, hstack, ← hpart, handOver_of_alone fun k => groupsWith_alone hbelow]
  · rw [← h.within (fun hlast => (hapart.last hlast).resolve_left hidle) hwithin]
    exact block_partition _ h.labelled hb htype hfirst
      (fun hpos => (hapart.first hpos).resolve_left hidle) hbelow hcaller hstep

/-- **One turn** of the code is one of the reference. -/
theorem SameGroups.step {r : Grouping Member × Activations} {a' : Activations} (h : SameGroups T s r)
    (hb : b.Words) (hstep : groupStep T s b = some s') (hact : activationStep r.2 b = some a')
    (hfirst : TellsCaller r.2 b) (hapart : BlockApart T s b) :
    SameGroups T s' (r.1.turn T r.2 b, a') := by
  have hdescending := h.descending.step hact
  by_cases htype : b.type = .declareBlock
  · unfold activationStep at hact
    rw [if_pos htype] at hact
    cases hact
    unfold groupStep at hstep
    rw [htype] at hstep
    have hpart := h.partition
    rw [partition_eq s r.2 0] at hpart
    rcases declareBlock_partition h.labelled hb hstep with ⟨h', hjoin⟩
    refine ⟨h', ?_, hdescending⟩
    show s'.partition T r.2 = _
    rw [partition_eq s' r.2 0, hjoin, hpart, Grouping.turn, if_pos htype, Grouping.block, htype]
  · replace hfirst := hfirst htype
    unfold activationStep at hact
    rw [if_neg htype] at hact
    unfold Grouping.turn
    rw [if_neg htype]
    cases hwithin : r.2.within b with
    | nil =>
      rw [hwithin] at hact
      cases hact
    | cons act rest =>
      rw [hwithin] at hact
      cases hact
      have hone : b.isFirst ≤ 2 := by
        by_cases hpos : 0 < b.isFirst
        · rcases hfirst hpos act rest hwithin with ⟨hone, -⟩ | ⟨htwo, -⟩ <;> omega
        · omega
      have hcaller : b.isFirst = 1 → rest.head? = some (rest.head?.getD 0) := by
        intro hone
        rcases hfirst (by omega) act rest hwithin with ⟨-, hne⟩ | ⟨htwo, -⟩
        · cases rest with
          | nil => exact absurd rfl hne
          | cons c rest => rfl
        · omega
      rcases h.block hb htype hstep hwithin hone hcaller hapart with ⟨h', hpart⟩
      refine ⟨h', ?_, hdescending⟩
      have howner : ownedBy (fun t => (r.2.stack t).head?) b.tid (b.ownerBehind act rest.head?) =
          fun t _ => (Function.update r.2.stack b.tid
            (if 0 < b.isFirst then rest else act :: rest) t).head? := by
        funext t key
        by_cases ht : t = b.tid
        · rw [ht, ownedBy_self, Function.update_self, SmallestBlock.ownerBehind]
          split_ifs <;> rfl
        · rw [ownedBy, Function.update_of_ne ht, Function.update_of_ne ht]
      rw [GroupState.groupsWith, howner] at hpart
      exact hpart

/-! ## Runs -/

theorem tellsCaller_inner {a : Activations} (h : b.isFirst = 0) : TellsCaller a b :=
  fun _ hpos => absurd h hpos.ne'

theorem tellsCaller_called {a : Activations} (h : b.isFirst = 1) (hlen : 2 ≤ (a.within b).length) :
    TellsCaller a b := by
  intro _ _ act rest hwithin
  rw [hwithin] at hlen
  exact Or.inl ⟨h, List.ne_nil_of_length_pos (Nat.le_of_succ_le_succ hlen)⟩

theorem run_referenceStep {r r' : Grouping Member × Activations} {bs : List SmallestBlock}
    (h : run (referenceStep T) r bs = some r') : run activationStep r.2 bs = some r'.2 := by
  induction bs generalizing r with
  | nil =>
    cases h
    rfl
  | cons b bs ih =>
    rcases run_cons_eq_some.mp h with ⟨r₁, hstep, hrun⟩
    rcases Option.map_eq_some_iff.mp hstep with ⟨a, ha, rfl⟩
    exact run_cons_eq_some.mpr ⟨a, ha, ih hrun⟩

/-- The reference goes as far as the activations. -/
theorem exists_referenceStep {a a' : Activations} {bs : List SmallestBlock}
    (h : run activationStep a bs = some a') (G : Grouping Member) :
    ∃ G', run (referenceStep T) (G, a) bs = some (G', a') := by
  induction bs generalizing a G with
  | nil =>
    cases h
    exact ⟨G, rfl⟩
  | cons b bs ih =>
    rcases run_cons_eq_some.mp h with ⟨a₁, hstep, hrun⟩
    rcases ih hrun (G.turn T a b) with ⟨G', hG'⟩
    refine ⟨G', run_cons_eq_some.mpr ⟨(G.turn T a b, a₁), ?_, hG'⟩⟩
    rw [referenceStep, hstep, Option.map_some]

/-- **The groups of `GroupMemory` are those of the reference**, in every state of a run whose blocks
meet the condition. -/
theorem arguments_grouped {trace pre post : List SmallestBlock} (htrace : CallTrace trace)
    (hword : ∀ b ∈ trace, b.Words) (hsplit : trace.reverse = pre ++ post) (hapart : LabelsApart T pre)
    (hrun : run (groupStep T) {} pre = some s) :
    ∃ G a, run (referenceStep T) (default, {}) pre = some (G, a) ∧ s.partition T a = G := by
  rcases htrace.bracketed with ⟨a', ha', -⟩
  rw [hsplit] at ha'
  rcases run_append_eq_some.mp ha' with ⟨a, ha, -⟩
  rcases exists_referenceStep (T := T) ha default with ⟨G, hG⟩
  refine ⟨G, a, hG, ?_⟩
  have hsame : SameGroups T s (G, a) := by
    refine run_related SameGroups.init (fun pre' b post' s s' r r' hpre hs hr h hstep hstep' => ?_)
      hrun hG
    have hsplit' : trace.reverse = pre' ++ b :: (post' ++ post) := by
      rw [hsplit, hpre, List.append_assoc, List.cons_append]
    have hmem : b ∈ trace := by
      rw [← List.mem_reverse, hsplit']
      simp
    rcases Option.map_eq_some_iff.mp hstep' with ⟨a₁, ha₁, rfl⟩
    exact h.step (hword b hmem) hstep ha₁
      (htrace.callers pre' b _ _ hsplit' (run_referenceStep hr)) (hapart pre' b post' s hpre hs)
  exact hsame.partition

end

/-! ## An argument that is handed over -/

/-- `main` calls `g(p)`; `g` computes a pointer from its argument, calls `h` and loads from the
argument; `h` returns at once. -/
def handTables : Tables where
  ins := [
    { type := .normalInst, isPointer := true, ssaDependencies := [(.pointerArg, 0)] },
    { type := .callInst },
    { type := .loadInst, ssaDependencies := [(.pointerArg, 0)] },
    { type := .returnInst },
    { type := .normalInst, isPointer := true },
    { type := .callInst, ssaDependencies := [(.inst, 4)] },
    { type := .returnInst },
    { type := .returnInst }]
  bb2Ins := [[0, 1, 2, 3], [4, 5, 6], [7]]

def handTrace : List SmallestBlock :=
  [{ type := .normalBlock, bbID := 1, stop := 2, isFirst := 2, lastBBID := -1 },
    { type := .normalBlock, stop := 2, isFirst := 1, caller := 5, lastBBID := -1 },
    { type := .normalBlock, bbID := 2, stop := 1, isFirst := 1, isLast := 1, caller := 1,
      lastBBID := -1 },
    { type := .memoryAccessBlock, start := 2, stop := 3, addr := [100, 104], lastBBID := -1 },
    { type := .normalBlock, start := 3, stop := 4, isLast := 1, caller := 5, lastBBID := -1 },
    { type := .normalBlock, bbID := 1, start := 2, stop := 3, isLast := 2, lastBBID := -1 }]

theorem handTrace_calls : CallTrace handTrace where
  bracketed := by
    refine ⟨_, rfl, fun tid => ?_⟩
    by_cases ht : tid = 0
    · rw [ht]
      rfl
    · simp [ht]
  callers := by
    refine (runOk_cons rfl).mpr ⟨tellsCaller_inner rfl, (runOk_cons rfl).mpr ⟨tellsCaller_inner rfl,
      (runOk_cons rfl).mpr ⟨tellsCaller_inner rfl, (runOk_cons rfl).mpr
        ⟨tellsCaller_called rfl (by decide), (runOk_cons rfl).mpr
          ⟨tellsCaller_called rfl (by decide), (runOk_cons rfl).mpr ⟨?_, .nil _⟩⟩⟩⟩⟩⟩
    intro _ _ act rest hwithin
    cases hwithin
    exact Or.inr ⟨rfl, rfl⟩

/-- When `g` is entered no argument is labelled; when `h` is, the argument of `g` is. -/
theorem handTrace_apart : LabelsApart handTables handTrace.reverse :=
  runOk_of_check (fun _ _ h => of_decide_eq_true h) (show checkRun (groupStep handTables)
    (fun s b => decide (BlockApart handTables s b)) {} handTrace.reverse = true by decide +kernel)

theorem arguments_grouped_hand : ∃ s G a, run (groupStep handTables) {} handTrace.reverse = some s ∧
    run (referenceStep handTables) (default, {}) handTrace.reverse = some (G, a) ∧
      s.partition handTables a = G := by
  obtain ⟨s, hs⟩ := Option.isSome_iff_exists.mp
    (show (run (groupStep handTables) {} handTrace.reverse).isSome = true by decide +kernel)
  obtain ⟨G, a, hG, hsame⟩ := arguments_grouped handTrace_calls (by decide) (List.append_nil _).symm
    handTrace_apart hs
  exact ⟨s, G, a, hs, hG, hsame⟩

/-! ## Swapped arguments -/

/-- `main` calls `f(p, q)`, `f(a, b)` calls `g(b, a)`, and `g(x, y)` computes a
pointer from `x` and loads from `y`. -/
def swapProgram : Program where
  ins := [
    { type := .normalInst, isPointer := true },
    { type := .normalInst, isPointer := true },
    { type := .callInst, ssaDependencies := [(.inst, 0), (.inst, 1)] },
    { type := .returnInst },
    { type := .callInst, ssaDependencies := [(.pointerArg, 1), (.pointerArg, 0)] },
    { type := .returnInst },
    { type := .normalInst, isPointer := true, ssaDependencies := [(.pointerArg, 0)] },
    { type := .loadInst, ssaDependencies := [(.pointerArg, 1)] },
    { type := .returnInst }]
  bb2Ins := [[0, 1, 2, 3], [4, 5], [6, 7, 8]]
  block_ne := by decide
  ids_lt := by decide
  ends := by
    intro bb hbb k id i hk hi
    simp only [List.mem_cons, List.not_mem_nil, or_false] at hbb
    obtain rfl | rfl | rfl := hbb
    · rcases k with _ | _ | _ | _ | k <;> cases hk <;> (cases hi; decide)
    · rcases k with _ | _ | k <;> cases hk <;> (cases hi; decide)
    · rcases k with _ | _ | _ | k <;> cases hk <;> (cases hi; decide)
  length_le := by decide

/-- Behind the first block of `g`, backward. -/
def swapTail : List SmallestBlock :=
  [{ type := .memoryAccessBlock, bbID := 2, start := 1, stop := 2, addr := [200, 204],
      lastBBID := -1 },
    { type := .normalBlock, bbID := 2, start := 2, stop := 3, isLast := 1, caller := 4,
      lastBBID := -1 },
    { type := .normalBlock, bbID := 1, start := 1, stop := 2, isLast := 1, caller := 2,
      lastBBID := -1 },
    { type := .normalBlock, bbID := 0, start := 3, stop := 4, isLast := 2, lastBBID := -1 }]

/-- The first block of `g`. -/
def swapEntry : SmallestBlock :=
  { type := .normalBlock, bbID := 2, stop := 1, isFirst := 1, caller := 4, lastBBID := -1 }

def swapTrace : List SmallestBlock :=
  { type := .normalBlock, bbID := 0, stop := 3, isFirst := 2, lastBBID := -1 } ::
    { type := .normalBlock, bbID := 1, stop := 1, isFirst := 1, caller := 2, lastBBID := -1 } ::
      swapEntry :: swapTail

theorem swapProgram_execution :
    Execution swapProgram
      [.basicBlock 0 0, .basicBlock 0 1, .basicBlock 0 2, .memory 0 7 200 4]
      (fun _ => []) (Function.update (fun _ => []) 0 [0, 1, 2, 4, 6, 7, 8, 5, 3]) := by
  have h := Execution.init (P := swapProgram)
  have h := h.step (show ThreadStep swapProgram 0 _ _ _ _ from .start 0 (by decide))
  have h := h.step (show ThreadStep swapProgram 0 _ _ [0] _ from .silent ⟨_, rfl, rfl, rfl⟩ rfl)
  have h := h.step (show ThreadStep swapProgram 0 _ _ [1] _ from .silent ⟨_, rfl, rfl, rfl⟩ rfl)
  have h := h.step (show ThreadStep swapProgram 0 _ _ [2] _ from
    .call 1 ⟨_, rfl, rfl, rfl⟩ rfl rfl (by decide))
  have h := h.step (show ThreadStep swapProgram 0 _ _ [4] _ from
    .call 2 ⟨_, rfl, rfl, rfl⟩ rfl rfl (by decide))
  have h := h.step (show ThreadStep swapProgram 0 _ _ [6] _ from .silent ⟨_, rfl, rfl, rfl⟩ rfl)
  have h := h.step (show ThreadStep swapProgram 0 _ _ [7] _ from
    .access 200 4 ⟨_, rfl, rfl, rfl⟩ rfl)
  have h := h.step (show ThreadStep swapProgram 0 _ _ [8] _ from .ret ⟨_, rfl, rfl, rfl⟩ rfl)
  have h := h.step (show ThreadStep swapProgram 0 _ _ [5] _ from .ret ⟨_, rfl, rfl, rfl⟩ rfl)
  have h := h.step (show ThreadStep swapProgram 0 _ _ [3] _ from .ret ⟨_, rfl, rfl, rfl⟩ rfl)
  simpa using h

/-- The label of the argument `b` of `f`, which `g` has got for `x`, is taken for that of `y`. -/
theorem swapped_label_lost :
    ¬ ∀ (P : Program) (impactful : Nat → Bool) (es : List Event) (th : Nat → List StackInfo)
      (ex : Nat → List Nat) (trace pre post : List SmallestBlock) (s : GroupState)
      (G : Grouping Member) (a : Activations), Execution P es th ex → (∀ tid, th tid = []) →
      mergeTrace P.toTables impactful (es.map .event) = some trace → (∀ b ∈ trace, b.Words) →
      trace.reverse = pre ++ post → run (groupStep P.toTables) {} pre = some s →
      run (referenceStep P.toTables) (default, {}) pre = some (G, a) →
      s.partition P.toTables a = G := by
  intro h
  have hsplit : swapTrace.reverse = (swapEntry :: swapTail).reverse ++ swapTrace.reverse.drop 5 := rfl
  obtain ⟨s, hs⟩ := Option.isSome_iff_exists.mp
    (show (run (groupStep swapProgram.toTables) {} (swapEntry :: swapTail).reverse).isSome = true by
      decide +kernel)
  have hlost : (run (groupStep swapProgram.toTables) {} (swapEntry :: swapTail).reverse).map
      (fun s => s.ins2Group (0, 10)) = some none := by decide +kernel
  rw [hs, Option.map_some, Option.some.injEq] at hlost
  -- the reference, up to the first block of `g`
  obtain ⟨a, ha, hwithin⟩ : ∃ a, run activationStep {} swapTail.reverse = some a ∧
      a.within swapEntry = [2, 1, 0] := ⟨_, rfl, rfl⟩
  obtain ⟨a', ha', howner⟩ : ∃ a', activationStep a swapEntry = some a' ∧
      (a'.stack 0).head? = some 1 := by
    rw [activationStep, if_neg (by decide), hwithin]
    exact ⟨_, rfl, rfl⟩
  obtain ⟨G, hG⟩ := exists_referenceStep (T := swapProgram.toTables) ha default
  have hrun : run (referenceStep swapProgram.toTables) (default, {}) (swapEntry :: swapTail).reverse =
      some (G.turn swapProgram.toTables a swapEntry, a') := by
    rw [List.reverse_cons]
    refine run_concat_eq_some.mpr ⟨_, hG, ?_⟩
    rw [referenceStep, ha', Option.map_some]
  have hsame := h swapProgram (fun _ => false) _ _ _ swapTrace _ _ s _ a' swapProgram_execution
    (fun _ => rfl) (by decide +kernel) (by decide) hsplit hs hrun
  -- `b` is in a group
  have hpassed : swapEntry.passed swapProgram.toTables (some 1) 0 = some (.argument 0 1 1) := rfl
  have hlive : (G.turn swapProgram.toTables a swapEntry).Together (.argument 0 1 1)
      (.argument 0 1 1) := by
    rw [Grouping.turn, if_neg (by decide), hwithin]
    have hmem : .argument 0 2 0 ∈ insert (.value 0 6)
        (operandMembers swapProgram.toTables 0 2 6 ∪ ∅) :=
      Or.inr (Or.inl (argument_mem_operandMembers.mpr (by decide)))
    have hargument : (G.block swapProgram.toTables 2 swapEntry).Together (.argument 0 2 0)
        (.argument 0 2 0) :=
      ⟨Grouping.adjoin_of_rel ⟨hmem, hmem⟩, by simp [operandMembers], by simp [operandMembers]⟩
    refine ⟨(Grouping.adjoin_of_rel ⟨0, rfl, hargument, hpassed⟩).right, ?_, ?_⟩
    · intro hc
      obtain ⟨k, hk⟩ := hc
      cases hk
    · intro hc
      obtain ⟨k, hk⟩ := hc
      cases hk
  rw [← hsame] at hlive
  obtain ⟨g, hg, -⟩ := hlive
  rw [memberGroup_argument, if_pos howner] at hg
  exact absurd (hlost.symm.trans hg) (Option.some_ne_none g).symm

end Slimmer
