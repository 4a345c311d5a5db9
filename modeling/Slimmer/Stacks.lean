import Slimmer.PassSteps

/-!
# The stacks and the activations

Read backward, an activation begins with the block that carries `IsLast` and ends with the one that
carries `IsFirst`. `activationStep` keeps the activations that are open, each named by the position
of its `IsLast` block.

The backward pass pushes an entry on its three stacks at an `IsLast` block and pops one at an
`IsFirst` block, but it goes on with the next block at once when it skips a call. `trackedStep`
records which block pushed each entry.

**Theorem (`stacks_aligned_iff`).** In a well-bracketed trace the entries follow the activations if
and only if no call that is skipped is the first block of an activation.
-/

namespace Slimmer

/-! ## Activations -/

/-- The activations that are open when the last `pos` blocks have been read, innermost first. -/
structure Activations where
  pos : Nat := 0
  stack : Nat → List Nat := fun _ => []

/-- The activations that are open within a block. -/
def Activations.within (a : Activations) (b : SmallestBlock) : List Nat :=
  if 0 < b.isLast then a.pos :: a.stack b.tid else a.stack b.tid

/-- Read one block; `none` when it belongs to no activation. -/
def activationStep (a : Activations) (b : SmallestBlock) : Option Activations :=
  if b.type = .declareBlock then some { a with pos := a.pos + 1 }
  else
    match a.within b with
    | [] => none
    | act :: rest => some
      ⟨a.pos + 1, Function.update a.stack b.tid (if 0 < b.isFirst then rest else act :: rest)⟩

/-- Every activation has one `IsLast` block and one `IsFirst` block, and they nest. -/
def WellBracketed (trace : List SmallestBlock) : Prop :=
  ∃ a, run activationStep {} trace.reverse = some a ∧ ∀ tid, a.stack tid = []

/-! ## Entries -/

/-- The stacks of the pass. -/
inductive PassStack
  | funUsed
  | nextBBUsed
  | terminatorStack
  deriving DecidableEq

/-- How many entries a stack has. -/
def PassState.height (s : PassState) (tid : Nat) : PassStack → Nat
  | .funUsed => (s.funUsed tid).length
  | .nextBBUsed => (s.nextBBUsed tid).length
  | .terminatorStack => (s.terminatorStack tid).length

/-- The blocks that pushed the entries of the stacks, top first. -/
def Pushed : Type := PassStack → Nat → List Nat

/-- The entries of a stack within the turn for `b`, the block at position `pos`. -/
def Pushed.within (p : Pushed) (pos : Nat) (b : SmallestBlock) (k : PassStack) : List Nat :=
  if 0 < b.isLast then pos :: p k b.tid else p k b.tid

/-- After the turn the lowest entries are left, as many as the stack has. -/
def Pushed.turn (p : Pushed) (pos : Nat) (b : SmallestBlock) (s : PassState) : Pushed :=
  fun k tid =>
    if tid = b.tid ∧ b.type ≠ .declareBlock then
      (p.within pos b k).drop ((p.within pos b k).length - s.height tid k)
    else p k tid

/-- One turn of the pass, with the entries. -/
def trackedStep (I : PassInput) (sp : PassState × Pushed) (b : SmallestBlock) :
    Option (PassState × Pushed) :=
  (extractStep I sp.1 b).map fun s => (s, sp.2.turn sp.1.pos b s)

/-- The state of the pass and its entries when the blocks `pre` have been processed. -/
def tracked (I : PassInput) (pre : List SmallestBlock) : Option (PassState × Pushed) :=
  run (trackedStep I) ({}, fun _ _ => []) pre

/-- The stacks follow the activations: within a block the top entries are there and are those that
were pushed for its activation, they are popped behind its first block, and none is left over. -/
structure StacksAligned (I : PassInput) (trace : List SmallestBlock) : Prop where
  top : ∀ pre b post s p a, trace.reverse = pre ++ b :: post → tracked I pre = some (s, p) →
    run activationStep {} pre = some a → b.type ≠ .declareBlock →
      ∀ k, ∃ act rest rest', a.within b = act :: rest ∧ p.within s.pos b k = act :: rest'
  popped : ∀ pre b post s p s' p', trace.reverse = pre ++ b :: post →
    tracked I pre = some (s, p) → trackedStep I (s, p) b = some (s', p') →
      b.type ≠ .declareBlock → 0 < b.isFirst →
        ∀ k, p' k b.tid = (p.within s.pos b k).tail
  ended : ∀ s p, tracked I trace.reverse = some (s, p) → ∀ k tid, s.height tid k = 0

/-- No skipped call is the first block of an activation, as far as the pass comes. -/
def SkipsNoFirst (I : PassInput) (trace : List SmallestBlock) : Prop :=
  ∀ pre b post s s', trace.reverse = pre ++ b :: post → run (extractStep I) {} pre = some s →
    extractStep I s b = some s' → b.skipped I.tables = some true → b.isFirst = 0

section

variable {I : PassInput} {s s' : PassState} {b : SmallestBlock} {d : DynamicInst} {p p' : Pushed}
  {tid : Nat} {k : PassStack}

/-! ## The heights of the stacks -/

theorem setTerminator_height {n : Bool} (h : s.setTerminator b d n = some s') :
    s'.height tid k = s.height tid k := by
  rcases PassState.setTerminator_cases h with ⟨e, l, hl, rfl⟩
  cases k with
  | terminatorStack =>
    show (Function.update s.terminatorStack b.tid _ tid).length = (s.terminatorStack tid).length
    by_cases ht : tid = b.tid
    · rw [ht, Function.update_self, hl]
      rfl
    · rw [Function.update_of_ne ht]
  | funUsed | nextBBUsed => rfl

theorem checkTerminator_height {nextBBID : Nat} (h : s.checkTerminator I b nextBBID = some s') :
    s'.height tid k = s.height tid k := by
  rcases PassState.checkTerminator_cases h with ⟨e, l, -, ⟨-, rfl⟩ | ⟨-, sets, -, rfl⟩⟩
  · rfl
  · cases k <;> rfl

theorem enter_height (h : s.enter I b = some s') :
    s'.height tid k = s.height tid k + if tid = b.tid ∧ 0 < b.isLast then 1 else 0 := by
  unfold PassState.enter at h
  by_cases hlast : 0 < b.isLast
  · rw [if_pos hlast] at h
    cases h
    by_cases ht : tid = b.tid
    · subst ht
      rw [if_pos ⟨rfl, hlast⟩]
      cases k <;> simp [PassState.height, PassState.push]
    · rw [if_neg fun hc => ht hc.1]
      cases k <;> simp [PassState.height, PassState.push, ht]
  · rw [if_neg hlast] at h
    rw [if_neg fun hc => hlast hc.2, Nat.add_zero]
    split at h
    · split_ifs at h
      · rcases Option.bind_eq_some_iff.mp h with ⟨s₁, hs₁, hset⟩
        exact (setTerminator_height hset).trans (checkTerminator_height hs₁)
      · cases h
        rfl
    · cases h
      rfl

theorem visit_height {n : Bool} {report : PassSets → PassSets} {sn : PassState × Bool}
    (h : s.visit I b d n report = some sn) : sn.1.height tid k = s.height tid k := by
  rcases Option.bind_eq_some_iff.mp h with ⟨sets, -, h⟩
  rcases Option.map_eq_some_iff.mp h with ⟨s₁, hs₁, rfl⟩
  unfold PassState.useFun at hs₁
  split at hs₁
  · cases hs₁
  · rename_i u l hl
    cases hs₁
    cases k with
    | funUsed =>
      show (Function.update s.funUsed b.tid _ tid).length = (s.funUsed tid).length
      by_cases ht : tid = b.tid
      · rw [ht, Function.update_self, show s.funUsed b.tid = u :: l from hl]
        rfl
      · rw [Function.update_of_ne ht]
    | nextBBUsed | terminatorStack => rfl

theorem normalInst_height {su su' : PassState × Bool} {id : Nat}
    (h : normalInst I b su id = some su') : su'.1.height tid k = su.1.height tid k := by
  rcases Option.bind_eq_some_iff.mp h with ⟨i, -, h⟩
  rcases Option.bind_eq_some_iff.mp h with ⟨sn, hdec, h⟩
  rcases Option.map_eq_some_iff.mp h with ⟨sn', hvisit, rfl⟩
  have hsn : sn.1.height tid k = su.1.height tid k := by
    unfold PassState.decideNormal at hdec
    split_ifs at hdec
    · rcases Option.bind_eq_some_iff.mp hdec with ⟨used, -, hdec⟩
      rcases Option.map_eq_some_iff.mp hdec with ⟨s₁, hs₁, rfl⟩
      exact setTerminator_height hs₁
    all_goals
      cases hdec
      rfl
  exact (visit_height hvisit).trans hsn

theorem instructions_height {su : PassState × Bool} (h : s.instructions I b = some su) :
    su.1.height tid k = s.height tid k := by
  unfold PassState.instructions at h
  cases htype : b.type <;> rw [htype] at h
  case normalBlock =>
    rcases Option.bind_eq_some_iff.mp h with ⟨ids, -, h⟩
    exact run_invariant (P := fun u => u.1.height tid k = s.height tid k)
      (fun _ _ _ hu hstep => (normalInst_height hstep).trans hu) rfl h
  case declareBlock =>
    cases h
    rfl
  all_goals
    rcases Option.bind_eq_some_iff.mp h with ⟨id, -, h⟩
    exact visit_height h

theorem mark_height {used : Bool} (h : s.mark b used = some s') :
    s'.height tid k = s.height tid k := by
  rcases PassState.mark_cases h with ⟨e, l, hl, rfl⟩
  cases k with
  | nextBBUsed =>
    show (Function.update s.nextBBUsed b.tid _ tid).length = (s.nextBBUsed tid).length
    by_cases ht : tid = b.tid
    · rw [ht, Function.update_self, hl]
      rfl
    · rw [Function.update_of_ne ht]
  | funUsed | terminatorStack => rfl

theorem pop_height (h : s.pop b = some s') :
    s'.height tid k = s.height tid k - if tid = b.tid then 1 else 0 := by
  unfold PassState.pop at h
  split at h
  · rename_i f fs n ns t ts hf hn ht
    cases h
    by_cases htid : tid = b.tid
    · subst htid
      rw [if_pos rfl]
      cases k
      · simp [PassState.height, hf]
      · simp [PassState.height, hn]
      · simp [PassState.height, ht]
    · rw [if_neg htid]
      cases k <;> simp [PassState.height, htid]
  · cases h

theorem leave_height (h : s.leave I b = some s') :
    s'.height tid k = s.height tid k - if tid = b.tid ∧ 0 < b.isFirst then 1 else 0 := by
  unfold PassState.leave at h
  by_cases hfirst : 0 < b.isFirst
  · rw [if_pos hfirst] at h
    rcases Option.bind_eq_some_iff.mp h with ⟨s₁, hs₁, h⟩
    rcases Option.bind_eq_some_iff.mp h with ⟨s₂, hs₂, hpop⟩
    rcases PassState.needCaller_cases hs₁ with ⟨needed, -, rfl⟩
    have hcheck : s₂.height tid k = s.height tid k := by
      unfold PassState.checkFirst at hs₂
      split at hs₂
      · cases hs₂
      · split_ifs at hs₂
        · exact (checkTerminator_height hs₂).trans (by cases k <;> rfl)
        · cases hs₂
          cases k <;> rfl
    rw [pop_height hpop, hcheck]
    simp [hfirst]
  · rw [if_neg hfirst] at h
    cases h
    simp [hfirst]

/-- **A turn** pushes an entry at an `IsLast` block, and pops one at an `IsFirst` block that is not
skipped. -/
theorem extractStep_height (h : extractStep I s b = some s') :
    s'.height tid k = s.height tid k +
        (if b.type ≠ .declareBlock ∧ tid = b.tid ∧ 0 < b.isLast then 1 else 0) -
      if b.type ≠ .declareBlock ∧ tid = b.tid ∧ 0 < b.isFirst ∧ b.skipped I.tables = some false
        then 1 else 0 := by
  rcases Option.map_eq_some_iff.mp h with ⟨t, hturn, rfl⟩
  have hpos : ({ t with pos := t.pos + 1 } : PassState).height tid k = t.height tid k := by
    cases k <;> rfl
  rw [hpos]
  unfold PassState.turn at hturn
  split_ifs at hturn with htype
  · cases hturn
    simp [htype]
  rcases Option.bind_eq_some_iff.mp hturn with ⟨s₁, hs₁, hturn⟩
  rcases Option.bind_eq_some_iff.mp hturn with ⟨skip, hskip, hturn⟩
  have henter : s₁.height tid k = s.height tid k + if tid = b.tid ∧ 0 < b.isLast then 1 else 0 :=
    enter_height hs₁
  simp only [ne_eq, htype, not_false_eq_true, true_and]
  rw [← henter]
  cases skip with
  | true =>
    cases hturn
    simp [hskip]
  | false =>
    rcases Option.bind_eq_some_iff.mp hturn with ⟨s₂, hbody, hleave⟩
    rcases Option.bind_eq_some_iff.mp hbody with ⟨su, hsu, hmark⟩
    rw [leave_height hleave, mark_height hmark, instructions_height hsu]
    simp [hskip]

/-! ## The entries -/

/-- What the turn for a block leaves of the entries. -/
theorem turn_entries (hlen : (p k b.tid).length = s.height b.tid k) (htype : b.type ≠ .declareBlock)
    (h : extractStep I s b = some s') :
    p.turn s.pos b s' k b.tid = (p.within s.pos b k).drop
      (if 0 < b.isFirst ∧ b.skipped I.tables = some false then 1 else 0) ∨
      p.within s.pos b k = [] := by
  have hheight : s'.height b.tid k = (p.within s.pos b k).length -
      if 0 < b.isFirst ∧ b.skipped I.tables = some false then 1 else 0 := by
    rw [extractStep_height h, ← hlen]
    unfold Pushed.within
    by_cases hlast : 0 < b.isLast
    · simp [htype, hlast]
    · simp [htype, hlast]
  unfold Pushed.turn
  rw [if_pos ⟨rfl, htype⟩, hheight]
  cases hw : p.within s.pos b k with
  | nil => exact Or.inr rfl
  | cons act rest =>
    left
    by_cases hc : 0 < b.isFirst ∧ b.skipped I.tables = some false
    · simp [hc]
    · simp [hc]

/-- The entries are as many as the stacks have. -/
theorem turn_length (hlen : ∀ k tid, (p k tid).length = s.height tid k)
    (h : extractStep I s b = some s') (k : PassStack) (tid : Nat) :
    (p.turn s.pos b s' k tid).length = s'.height tid k := by
  have hheight : s'.height tid k = s.height tid k +
        (if b.type ≠ .declareBlock ∧ tid = b.tid ∧ 0 < b.isLast then 1 else 0) -
      if b.type ≠ .declareBlock ∧ tid = b.tid ∧ 0 < b.isFirst ∧ b.skipped I.tables = some false
        then 1 else 0 := extractStep_height h
  unfold Pushed.turn
  by_cases hc : tid = b.tid ∧ b.type ≠ .declareBlock
  · rw [if_pos hc]
    rcases hc with ⟨rfl, htype⟩
    have hle : s'.height b.tid k ≤ (p.within s.pos b k).length := by
      rw [hheight, ← hlen k b.tid]
      unfold Pushed.within
      by_cases hlast : 0 < b.isLast
      · simp [htype, hlast]
      · simp [htype, hlast]
    rw [List.length_drop]
    omega
  · rw [if_neg hc, hlen, hheight]
    have h₁ : ¬ (b.type ≠ .declareBlock ∧ tid = b.tid ∧ 0 < b.isLast) :=
      fun h => hc ⟨h.2.1, h.1⟩
    have h₂ : ¬ (b.type ≠ .declareBlock ∧ tid = b.tid ∧ 0 < b.isFirst ∧
        b.skipped I.tables = some false) := fun h => hc ⟨h.2.1, h.1⟩
    rw [if_neg h₁, if_neg h₂]
    rfl

theorem trackedStep_cases {sp' : PassState × Pushed} (h : trackedStep I (s, p) b = some sp') :
    extractStep I s b = some sp'.1 ∧ sp'.2 = p.turn s.pos b sp'.1 := by
  rcases Option.map_eq_some_iff.mp h with ⟨s', hs', rfl⟩
  exact ⟨hs', rfl⟩

theorem extractStep_pos (h : extractStep I s b = some s') : s'.pos = s.pos + 1 := by
  rcases extractStep_cases h with ⟨-, rfl⟩ | ⟨htype, s₁, henter, hrest⟩
  · rfl
  have hpos := (PassState.enter_scanned htype henter).2
  rcases hrest with ⟨-, rfl⟩ | ⟨-, s₂, used, s₃, s₄, hvisits, hmark, hleave, rfl⟩
  · exact congrArg (· + 1) hpos
  · have h₂ : ∀ {su su' : PassState × Bool} {ids : List Nat}, Visits I b su ids su' →
        su'.1.pos = su.1.pos := by
      intro su su' ids hvisits
      induction hvisits with
      | nil => rfl
      | cons hvisit _ ih => exact ih.trans hvisit.pos
    rcases PassState.mark_cases hmark with ⟨e, l, -, rfl⟩
    have h₂ := h₂ hvisits
    have h₄ := hleave.scanned.2
    exact congrArg (· + 1) (h₄.trans (h₂.trans hpos))

theorem tracked_spec {pre : List SmallestBlock} (h : tracked I pre = some (s, p)) :
    run (extractStep I) {} pre = some s ∧ s.pos = pre.length ∧
      ∀ k tid, (p k tid).length = s.height tid k := by
  induction pre using List.reverseRecOn generalizing s p with
  | nil =>
    cases h
    exact ⟨rfl, rfl, fun k tid => by cases k <;> rfl⟩
  | append_singleton pre b ih =>
    rcases run_concat_eq_some.mp h with ⟨⟨s₁, p₁⟩, h₁, hstep⟩
    rcases ih h₁ with ⟨hrun, hpos, hlen⟩
    rcases trackedStep_cases hstep with ⟨hs, hp⟩
    refine ⟨run_concat_eq_some.mpr ⟨s₁, hrun, hs⟩, ?_, ?_⟩
    · rw [extractStep_pos hs, hpos, List.length_append]
      rfl
    · intro k tid
      rw [show p = p₁.turn s₁.pos b s from hp]
      exact turn_length hlen hs k tid

theorem exists_tracked {pre : List SmallestBlock} (h : run (extractStep I) {} pre = some s) :
    ∃ p, tracked I pre = some (s, p) := by
  induction pre using List.reverseRecOn generalizing s with
  | nil =>
    cases h
    exact ⟨_, rfl⟩
  | append_singleton pre b ih =>
    rcases run_concat_eq_some.mp h with ⟨s₁, h₁, hstep⟩
    rcases ih h₁ with ⟨p₁, hp₁⟩
    exact ⟨_, run_concat_eq_some.mpr ⟨(s₁, p₁), hp₁, by rw [trackedStep, hstep]; rfl⟩⟩

/-! ## The entries follow the activations -/

theorem activationStep_cases {a a' : Activations} (htype : b.type ≠ .declareBlock)
    (h : activationStep a b = some a') :
    ∃ act rest, a.within b = act :: rest ∧
      a' = ⟨a.pos + 1, Function.update a.stack b.tid (if 0 < b.isFirst then rest else act :: rest)⟩ := by
  unfold activationStep at h
  rw [if_neg htype] at h
  split at h
  · cases h
  · rename_i act rest hw
    exact ⟨act, rest, hw, (Option.some.inj h).symm⟩

/-- The entries of all stacks are those of the open activations. -/
def Follow (p : Pushed) (a : Activations) : Prop := ∀ k tid, p k tid = a.stack tid

theorem Follow.within {a : Activations} (h : Follow p a) (hpos : s.pos = a.pos) (b : SmallestBlock)
    (k : PassStack) : p.within s.pos b k = a.within b := by
  unfold Pushed.within Activations.within
  rw [h, hpos]

/-- A turn that pops an entry at every `IsFirst` block keeps the entries with the activations. -/
theorem Follow.step {a a' : Activations} (h : Follow p a) (hpos : s.pos = a.pos)
    (hlen : ∀ k tid, (p k tid).length = s.height tid k)
    (hskip : b.skipped I.tables = some true → b.isFirst = 0)
    (hstep : extractStep I s b = some s') (hact : activationStep a b = some a') :
    Follow (p.turn s.pos b s') a' := by
  intro k tid
  by_cases htype : b.type = .declareBlock
  · rw [activationStep, if_pos htype] at hact
    cases hact
    rw [Pushed.turn, if_neg fun hc => hc.2 htype]
    exact h k tid
  rcases activationStep_cases htype hact with ⟨act, rest, hw, rfl⟩
  by_cases ht : tid = b.tid
  · subst ht
    have hfirst : (0 < b.isFirst ∧ b.skipped I.tables = some false) ↔ 0 < b.isFirst := by
      refine ⟨fun hc => hc.1, fun hf => ⟨hf, ?_⟩⟩
      rcases extractStep_cases hstep with ⟨hd, -⟩ | ⟨-, s₁, -, ⟨hs, -⟩ | ⟨hs, -⟩⟩
      · exact absurd hd htype
      · have := hskip hs
        omega
      · exact hs
    have hwithin := h.within hpos b k
    rw [hw] at hwithin
    rcases turn_entries (hlen k b.tid) htype hstep with hturn | hnil
    · rw [hturn, hwithin, if_congr hfirst rfl rfl]
      show _ = Function.update a.stack b.tid _ b.tid
      rw [Function.update_self]
      split_ifs <;> rfl
    · rw [hwithin] at hnil
      cases hnil
  · rw [Pushed.turn, if_neg fun hc => ht hc.1, h k tid]
    show _ = Function.update a.stack b.tid _ tid
    rw [Function.update_of_ne ht]

theorem activationStep_pos {a a' : Activations} (h : activationStep a b = some a') :
    a'.pos = a.pos + 1 := by
  by_cases htype : b.type = .declareBlock
  · rw [activationStep, if_pos htype] at h
    cases h
    rfl
  · rcases activationStep_cases htype h with ⟨act, rest, -, rfl⟩
    rfl

theorem activations_pos {a : Activations} {pre : List SmallestBlock}
    (h : run activationStep {} pre = some a) : a.pos = pre.length := by
  induction pre using List.reverseRecOn generalizing a with
  | nil =>
    cases h
    rfl
  | append_singleton pre b ih =>
    rcases run_concat_eq_some.mp h with ⟨a₁, h₁, hstep⟩
    rw [activationStep_pos hstep, ih h₁, List.length_append]
    rfl

/-- As long as no `IsFirst` block is skipped, the entries follow the activations. -/
theorem follow_of_tracked {trace pre post : List SmallestBlock} {a : Activations}
    (hok : SkipsNoFirst I trace) (hsplit : trace.reverse = pre ++ post)
    (h : tracked I pre = some (s, p)) (ha : run activationStep {} pre = some a) : Follow p a := by
  induction pre using List.reverseRecOn generalizing s p a post with
  | nil =>
    cases h
    cases ha
    exact fun k tid => rfl
  | append_singleton pre b ih =>
    rcases run_concat_eq_some.mp h with ⟨⟨s₁, p₁⟩, h₁, hstep⟩
    rcases run_concat_eq_some.mp ha with ⟨a₁, ha₁, hact⟩
    rcases trackedStep_cases hstep with ⟨hs, hp⟩
    rcases tracked_spec h₁ with ⟨hrun, hpos, hlen⟩
    rw [List.append_assoc] at hsplit
    have hfollow := ih hsplit h₁ ha₁
    rw [show p = p₁.turn s₁.pos b s from hp]
    refine hfollow.step (hpos.trans (activations_pos ha₁).symm) hlen (fun hskip => ?_) hs hact
    exact hok pre b post s₁ s hsplit hrun hs hskip

/-- **The stacks follow the activations** if and only if no call that is skipped is the first block
of an activation. -/
theorem stacks_aligned_iff {trace : List SmallestBlock} (htrace : WellBracketed trace) :
    StacksAligned I trace ↔ SkipsNoFirst I trace := by
  rcases htrace with ⟨aend, haend, hempty⟩
  have hact : ∀ {pre post}, trace.reverse = pre ++ post →
      ∃ a, run activationStep {} pre = some a ∧ run activationStep a post = some aend := by
    intro pre post hsplit
    rw [hsplit] at haend
    exact run_append_eq_some.mp haend
  constructor
  · -- a skipped first block leaves its entry
    intro h pre b post s s' hsplit hrun hstep hskip
    by_contra hfirst
    have hfirst : 0 < b.isFirst := Nat.pos_of_ne_zero hfirst
    have htype : b.type ≠ .declareBlock := by
      intro htype
      simp [SmallestBlock.skipped, htype] at hskip
    rcases exists_tracked hrun with ⟨p, hp⟩
    rcases tracked_spec hp with ⟨-, -, hlen⟩
    rcases hact hsplit with ⟨a, ha, -⟩
    rcases h.top pre b post s p a hsplit hp ha htype .funUsed with ⟨act, rest, rest', -, hw⟩
    have htracked : trackedStep I (s, p) b = some (s', p.turn s.pos b s') := by
      rw [trackedStep, hstep]
      rfl
    have hpop := h.popped pre b post s p s' _ hsplit hp htracked htype hfirst .funUsed
    rcases turn_entries (hlen .funUsed b.tid) htype hstep with hturn | hnil
    · rw [hturn, hw, hskip] at hpop
      simp at hpop
    · rw [hw] at hnil
      cases hnil
  · intro hok
    refine ⟨?_, ?_, ?_⟩
    · intro pre b post s p a hsplit hp ha htype k
      have hfollow := follow_of_tracked hok hsplit hp ha
      have hpos := (tracked_spec hp).2.1.trans (activations_pos ha).symm
      rcases hact hsplit with ⟨a₁, ha₁, hrest⟩
      cases ha.symm.trans ha₁
      rcases run_cons_eq_some.mp hrest with ⟨a', hstep, -⟩
      rcases activationStep_cases htype hstep with ⟨act, rest, hw, -⟩
      exact ⟨act, rest, rest, hw, (hfollow.within hpos b k).trans hw⟩
    · intro pre b post s p s' p' hsplit hp hstep htype hfirst k
      rcases tracked_spec hp with ⟨hrun, -, hlen⟩
      rcases trackedStep_cases hstep with ⟨hs, hp'⟩
      have hskip : b.skipped I.tables = some false := by
        rcases extractStep_cases hs with ⟨hd, -⟩ | ⟨-, s₁, -, ⟨hskip, -⟩ | ⟨hskip, -⟩⟩
        · exact absurd hd htype
        · have := hok pre b post s s' hsplit hrun hs hskip
          omega
        · exact hskip
      rw [show p' = p.turn s.pos b s' from hp']
      rcases turn_entries (hlen k b.tid) htype hs with hturn | hnil
      · rw [hturn, if_pos ⟨hfirst, hskip⟩, List.drop_one]
      · have hlen' := turn_length hlen hs k b.tid
        rw [hnil, List.tail_nil, ← List.length_eq_zero_iff, hlen', extractStep_height hs, ← hlen]
        unfold Pushed.within at hnil
        split_ifs at hnil with hlast
        simp [hnil, hlast]
    · intro s p hp k tid
      have hfollow : Follow p aend := follow_of_tracked hok (List.append_nil _).symm hp haend
      rcases tracked_spec hp with ⟨-, -, hlen⟩
      rw [← hlen k tid, hfollow k tid, hempty tid]
      rfl

end

/-! ## A call of `free` -/

/-- `g` calls `free` and returns; `main` calls `g` and returns. -/
def freeTables : Tables where
  ins := [{ type := .externalCallInst, fn := "free" }, { type := .returnInst, code := "ret void" },
    { type := .callInst, fn := "g" }, { type := .returnInst, code := "ret void" }]
  bb2Ins := [[0, 1], [2, 3]]

/-- The tables, with no post-dominators and no memory dependencies. -/
def freeInput : PassInput := ⟨freeTables, fun _ => ∅, fun _ => ∅⟩

/-- The run of `main`. The first block of `g` is the call of `free`. -/
def freeTrace : List SmallestBlock :=
  [{ type := .normalBlock, bbID := 1, stop := 1, isFirst := 2, lastBBID := -1 },
    { type := .externalCallBlock, stop := 1, addr := [77], isFirst := 1, caller := 2,
      lastBBID := -1 },
    { type := .normalBlock, start := 1, stop := 2, isLast := 1, caller := 2, lastBBID := -1 },
    { type := .normalBlock, bbID := 1, start := 1, stop := 2, isLast := 2, lastBBID := -1 }]

theorem freeTrace_bracketed : WellBracketed freeTrace := by
  refine ⟨_, rfl, fun tid => ?_⟩
  by_cases ht : tid = 0
  · rw [ht]
    rfl
  · simp [Function.update_of_ne ht]

theorem stacks_aligned_iff_free :
    StacksAligned freeInput freeTrace ↔ SkipsNoFirst freeInput freeTrace :=
  stacks_aligned_iff freeTrace_bracketed

/-- The entry of `g` is left over at the end. -/
theorem free_not_aligned :
    ¬ ∀ (I : PassInput) (trace : List SmallestBlock), WellBracketed trace → StacksAligned I trace := by
  intro h
  have hheight : (tracked freeInput freeTrace.reverse).map (fun sp => sp.1.height 0 .funUsed) =
      some 1 := by decide +kernel
  rcases Option.map_eq_some_iff.mp hheight with ⟨⟨s, p⟩, hs, hone⟩
  have hzero := (h freeInput freeTrace freeTrace_bracketed).ended s p hs .funUsed 0
  exact absurd (hzero.symm.trans hone) (by decide)

end Slimmer
