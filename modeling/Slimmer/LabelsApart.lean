import Slimmer.ArgumentLabels

/-!
# The labels of nested activations

`MergeInst` hands the labelled arguments over to the caller behind every instruction of a first block
whose groups it merges, and all activations of a thread use the same keys.

Here is the condition under which this is the same as handing them over at the end of the block
(`BlockApart`), and that a block then does to the groups what the reference does
(`block_partition`).

* An activation is entered, backward, when no argument of the thread is labelled, or it is a single
  block that touches no label (`Idle`).
* In a first block the arguments can be handed over behind each instruction (`FirstApart`): those
  that are handed over early are `Released`, and the others do not meet (`ArgumentsApart`).
-/

namespace Slimmer

/-! ## The condition -/

/-- The keys of the arguments that an instruction uses. -/
def argumentKeys (T : Tables) (id : Nat) : List Nat :=
  match T.ins[id]? with
  | none => []
  | some i => i.ssaDependencies.filterMap fun
    | (.pointerArg, k) => some (k + T.ins.length)
    | _ => none

/-- The argument can be handed over before the instructions `rest` of its activation are executed: to
a value that none of them defines, or to nothing if none of them uses the argument. -/
def Released (T : Tables) (b : SmallestBlock) (rest : List Nat) (key : Nat) : Prop :=
  (∃ v, usedKey T b key = some (some v) ∧ v < T.ins.length ∧ v ∉ rest) ∨
    usedKey T b key = some none ∧ ∀ id ∈ rest, key ∉ argumentKeys T id

instance (T : Tables) (b : SmallestBlock) (rest : List Nat) (key : Nat) :
    Decidable (Released T b rest key) :=
  match h : usedKey T b key with
  | some (some v) => decidable_of_iff (v < T.ins.length ∧ v ∉ rest) (by simp [Released, h])
  | some none => decidable_of_iff (∀ id ∈ rest, key ∉ argumentKeys T id) (by simp [Released, h])
  | none => .isFalse (by simp [Released, h])

instance (T : Tables) (b : SmallestBlock) (args : List Nat) : Decidable (ArgumentsApart T b args) :=
  inferInstanceAs (Decidable (∀ i ∈ args, ∀ j ∈ args, i < j → usedKey T b i = some (some j) →
    usedKey T b j = some (some j)))

/-- The condition on the instructions of a first block, the last one first, when the arguments `args`
are labelled. -/
def FirstApart (T : Tables) (b : SmallestBlock) : List Nat → List Nat → Prop
  | args, [] => args = []
  | args, [id] => ArgumentsApart T b (args ++ argumentKeys T id)
  | args, id :: id' :: rest =>
    (∀ key ∈ args ++ argumentKeys T id, Released T b (id' :: rest) key) ∧
      FirstApart T b [] (id' :: rest)

/-- `FirstApart` can be decided. -/
def decideFirstApart (T : Tables) (b : SmallestBlock) :
    (ids args : List Nat) → Decidable (FirstApart T b args ids)
  | [], args => inferInstanceAs (Decidable (args = []))
  | [id], args => inferInstanceAs (Decidable (ArgumentsApart T b (args ++ argumentKeys T id)))
  | id :: id' :: rest, args =>
    have := decideFirstApart T b (id' :: rest) []
    inferInstanceAs (Decidable ((∀ key ∈ args ++ argumentKeys T id, Released T b (id' :: rest) key) ∧
      FirstApart T b [] (id' :: rest)))

instance (T : Tables) (b : SmallestBlock) (args ids : List Nat) : Decidable (FirstApart T b args ids) :=
  decideFirstApart T b ids args

/-- The block is a whole activation, and no groups are merged in it: the labels of the activation
that called it stay as they are. -/
def SmallestBlock.Idle (T : Tables) (b : SmallestBlock) : Prop :=
  0 < b.isLast ∧ 0 < b.isFirst ∧ b.mergedInsts T = []

instance (T : Tables) (b : SmallestBlock) : Decidable (b.Idle T) :=
  inferInstanceAs (Decidable (0 < b.isLast ∧ 0 < b.isFirst ∧ b.mergedInsts T = []))

/-- The condition on a block, in the state before it. -/
structure BlockApart (T : Tables) (s : GroupState) (b : SmallestBlock) : Prop where
  last : 0 < b.isLast → b.Idle T ∨ s.labeledArgs b.tid = []
  first : 0 < b.isFirst → b.Idle T ∨ FirstApart T b (s.labeledArgs b.tid) (b.mergedInsts T)

instance (T : Tables) (s : GroupState) (b : SmallestBlock) : Decidable (BlockApart T s b) :=
  decidable_of_iff
    ((0 < b.isLast → b.Idle T ∨ s.labeledArgs b.tid = []) ∧
      (0 < b.isFirst → b.Idle T ∨ FirstApart T b (s.labeledArgs b.tid) (b.mergedInsts T)))
    ⟨fun h => ⟨h.1, h.2⟩, fun h => ⟨h.last, h.first⟩⟩

/-- What a first block adds to the reference. -/
def Grouping.behind (T : Tables) (b : SmallestBlock) (act : Nat) (below : Option Nat)
    (G : Grouping Member) : Grouping Member :=
  if 0 < b.isFirst then G.handOver T b act below else G

/-- The activation the thread is in behind the block. -/
def SmallestBlock.ownerBehind (b : SmallestBlock) (act : Nat) (below : Option Nat) : Option Nat :=
  if 0 < b.isFirst then below else some act

/-- The groups, where the labels of the thread `tid` are those of `o`. -/
def GroupState.groupsWith (T : Tables) (s : GroupState) (current : Nat → Option Nat) (tid : Nat)
    (o : Option Nat) : Grouping Member :=
  .ofLabel (memberGroup T s.addr2Group.get s.ins2Group (ownedBy current tid o))

section

variable {T : Tables} {s s' s₁ : GroupState} {b : SmallestBlock} {G R : Grouping Member}
  {g tid act key id k : Nat} {args rest ids shouldMerge : List Nat} {below : Option Nat}
  {caller : Nat} {current : Nat → Option Nat} {m : Member}

/-! ## The arguments of an instruction -/

theorem mem_argumentKeys : key ∈ argumentKeys T id ↔
    ∃ i k, T.ins[id]? = some i ∧ (.pointerArg, k) ∈ i.ssaDependencies ∧ key = k + T.ins.length := by
  unfold argumentKeys
  cases hi : T.ins[id]? with
  | none => simp
  | some i =>
    simp only [List.mem_filterMap, Option.some.injEq, exists_and_left, exists_eq_left']
    constructor
    · intro h
      obtain ⟨⟨type, k⟩, hdep, hkey⟩ := h
      cases type <;> cases hkey
      exact ⟨k, hdep, rfl⟩
    · intro h
      obtain ⟨k, hdep, rfl⟩ := h
      exact ⟨_, hdep, rfl⟩

theorem argument_mem_operandMembers :
    .argument tid act k ∈ operandMembers T tid act id ↔ k + T.ins.length ∈ argumentKeys T id := by
  rw [mem_argumentKeys]
  constructor
  · intro h
    obtain ⟨i, ⟨type, j⟩, hi, hdep, hm⟩ := h
    cases type with
    | pointerArg =>
      cases hm
      exact ⟨i, k, hi, hdep, rfl⟩
    | inst =>
      unfold operandMember at hm
      simp only [] at hm
      split_ifs at hm
      cases hm
    | arg | constant => cases hm
  · intro h
    obtain ⟨i, k', hi, hdep, hk⟩ := h
    cases Nat.add_right_cancel hk
    exact ⟨i, _, hi, hdep, rfl⟩

/-- The operands that are arguments. -/
theorem mem_keys_argument {i : InstInfo} {keys : List Nat} (hi : T.ins[id]? = some i)
    (hkeys : operandKeys T i.ssaDependencies = some keys) (hle : T.ins.length ≤ key) :
    key ∈ keys ↔ key ∈ argumentKeys T id := by
  have hmem : .argument 0 0 (key - T.ins.length) ∈ operandMembers T 0 0 id ↔
      ∃ key' ∈ keys, .argument 0 0 (key - T.ins.length) = keyMember T 0 0 key' :=
    mem_operandMembers hi hkeys
  rw [argument_mem_operandMembers, Nat.sub_add_cancel hle] at hmem
  rw [hmem, ← keyMember_argument hle]
  constructor
  · exact fun hkey => ⟨key, hkey, rfl⟩
  · intro h
    obtain ⟨key', hkey', heq⟩ := h
    rw [(keyMember_inj heq).2.1]
    exact hkey'

/-! ## Handing over early -/

theorem Released.mono (h : Released T b (id :: rest) key) : Released T b rest key := by
  rcases h with ⟨v, hused, hv, hnot⟩ | ⟨hused, hnot⟩
  · exact Or.inl ⟨v, hused, hv, List.not_mem_of_not_mem_cons hnot⟩
  · exact Or.inr ⟨hused, fun id' hid => hnot id' (List.mem_cons_of_mem id hid)⟩

theorem handOver_eq_replace : G.handOver T b act below =
    G.replace {m | ∃ k, m = .argument b.tid act k}
      fun x y => ∃ k, x = .argument b.tid act k ∧ b.passed T below k = some y := by
  unfold Grouping.handOver Grouping.replace
  congr 2
  funext x y
  refine propext ⟨?_, ?_⟩
  · intro h
    obtain ⟨k, hx, hlive, hpassed⟩ := h
    exact ⟨⟨k, hx⟩, hlive, k, hx, hpassed⟩
  · intro h
    obtain ⟨-, hlive, k, hx, hpassed⟩ := h
    exact ⟨k, hx, hlive, hpassed⟩

/-- Nothing happens where no argument is in a group. -/
theorem handOver_of_alone (h : ∀ k, ¬ G.Together (.argument b.tid act k) (.argument b.tid act k)) :
    G.handOver T b act below = G := by
  rw [handOver_eq_replace]
  apply Grouping.replace_of_alone
  intro m hc
  obtain ⟨k, rfl⟩ := hc
  exact h k

theorem handOver_handOver :
    (G.handOver T b act below).handOver T b act below = G.handOver T b act below :=
  handOver_of_alone fun k h => h.2.1 ⟨k, rfl⟩

/-- An argument of the activation is not passed to it. -/
theorem passed_ne_argument (hbelow : below ≠ some act) (h : b.passed T below k = some m) (j : Nat) :
    m ≠ .argument b.tid act j := by
  rintro rfl
  unfold SmallestBlock.passed at h
  split_ifs at h
  rcases Option.bind_eq_some_iff.mp h with ⟨c, hc, h⟩
  rcases Option.bind_eq_some_iff.mp h with ⟨i, -, h⟩
  rcases Option.bind_eq_some_iff.mp h with ⟨⟨type, j'⟩, -, h⟩
  cases type with
  | pointerArg =>
    cases h
    exact hbelow hc
  | inst =>
    unfold operandMember at h
    simp only [] at h
    split_ifs at h
    cases h
  | arg | constant => cases h

theorem execute_live
    (h : (G.execute T tid act ∅ id).Together (.argument tid act k) (.argument tid act k)) :
    G.Together (.argument tid act k) (.argument tid act k) ∨
      k + T.ins.length ∈ argumentKeys T id := by
  have hmem : ∀ m, (m = .argument tid act k) → m ∈ insert (.value tid id)
      (operandMembers T tid act id ∪ ∅) → k + T.ins.length ∈ argumentKeys T id := by
    rintro m rfl hm
    rcases hm with hm | hm | hm
    · cases hm
    · exact argument_mem_operandMembers.mp hm
    · cases hm
  rcases Grouping.adjoin_self h.1 with h | ⟨y, h | h⟩
  · exact Or.inl h
  · exact Or.inr (hmem _ rfl h.1)
  · exact Or.inr (hmem _ rfl h.2)

/-- The arguments in groups can be handed over before an instruction. -/
theorem handOver_execute (hbelow : below ≠ some act) (hcaller : b.isFirst = 1 → below = some caller)
    (hlive : ∀ k, G.Together (.argument b.tid act k) (.argument b.tid act k) →
      Released T b (id :: rest) (k + T.ins.length)) :
    ((G.handOver T b act below).execute T b.tid act ∅ id).handOver T b act below =
      (G.execute T b.tid act ∅ id).handOver T b act below := by
  rw [handOver_eq_replace, handOver_eq_replace, handOver_eq_replace]
  have hpassed : ∀ {k used}, usedKey T b (k + T.ins.length) = some used →
      b.passed T below k = used.map (keyMember T b.tid caller) := by
    intro k used hused
    have h := passed_key hused hcaller
    rwa [Nat.add_sub_cancel] at h
  apply Grouping.replace_join_drop
  · rintro x ⟨k, rfl⟩ hx
    cases hx.1
  · rintro x - y ⟨k, -, hy⟩ ⟨j, hj⟩
    exact passed_ne_argument hbelow hy j hj
  · rintro x ⟨k, rfl⟩ hx y ⟨j, hj, hy⟩ hyD
    cases hj
    rcases hlive k hx with ⟨v, hused, hv, hnot⟩ | ⟨hused, -⟩
    · rw [hpassed hused, Option.map_some, keyMember_value hv] at hy
      rw [← Option.some.inj hy] at hyD
      cases hyD.1
      exact hnot List.mem_cons_self
    · rw [hpassed hused] at hy
      cases hy
  · rintro x ⟨k, rfl⟩ hx hM
    rcases hlive k hx with ⟨v, hused, -, -⟩ | ⟨-, hnot⟩
    · exact ⟨_, k, rfl, hpassed hused⟩
    · refine absurd ?_ (hnot id List.mem_cons_self)
      rcases hM with hM | hM | hM
      · cases hM
      · exact argument_mem_operandMembers.mp hM
      · cases hM

/-- **Handing over early** is as good as at the end of the block. -/
theorem handOver_early (hbelow : below ≠ some act) (hcaller : b.isFirst = 1 → below = some caller)
    (hrest : FirstApart T b [] rest)
    (hlive : rest ≠ [] → ∀ k, R.Together (.argument b.tid act k) (.argument b.tid act k) →
      Released T b rest (k + T.ins.length)) :
    (rest.foldl (Grouping.execute T b.tid act ∅) (R.handOver T b act below)).handOver T b act below =
      (rest.foldl (Grouping.execute T b.tid act ∅) R).handOver T b act below := by
  induction rest generalizing R with
  | nil => exact handOver_handOver
  | cons id rest ih =>
    have hlive := hlive (List.cons_ne_nil id rest)
    have hnext : FirstApart T b [] rest ∧
        (rest ≠ [] → ∀ key ∈ argumentKeys T id, Released T b rest key) := by
      cases rest with
      | nil => exact ⟨rfl, fun h => absurd rfl h⟩
      | cons id' rest => exact ⟨hrest.2, fun _ => hrest.1⟩
    have hstep : ∀ H : Grouping Member,
        (∀ k, H.Together (.argument b.tid act k) (.argument b.tid act k) →
          Released T b (id :: rest) (k + T.ins.length)) →
        (rest.foldl (Grouping.execute T b.tid act ∅)
          ((H.execute T b.tid act ∅ id).handOver T b act below)).handOver T b act below =
        (rest.foldl (Grouping.execute T b.tid act ∅) (H.execute T b.tid act ∅ id)).handOver T b act
          below := by
      intro H hH
      refine ih hnext.1 fun hne k hk => ?_
      rcases execute_live hk with hk | hk
      · exact (hH k hk).mono
      · exact hnext.2 hne _ hk
    rw [List.foldl_cons, List.foldl_cons, ← hstep R hlive, ← handOver_execute hbelow hcaller hlive]
    refine (hstep (R.handOver T b act below) fun k hk => ?_).symm
    exact absurd ⟨k, rfl⟩ hk.2.1

/-! ## The groups of the code -/

theorem memberGroup_addr {addr addr' : Nat → Option Nat} {ins2Group : Nat × Nat → Option Nat}
    {owner : Nat → Nat → Option Nat} (h : ∀ a, a < maxRange → addr a = addr' a) :
    memberGroup T addr ins2Group owner = memberGroup T addr' ins2Group owner := by
  funext m
  cases m with
  | address a =>
    show (if a < maxRange then addr a else none) = if a < maxRange then addr' a else none
    split_ifs with ha
    · exact h a ha
    · rfl
  | value _ _ | argument _ _ _ => rfl

/-- Without labelled arguments it does not matter whose they are. -/
theorem GroupState.Labelled.groupsWith_eq (h : s.Labelled T) (hnil : s.labeledArgs tid = [])
    (o o' : Option Nat) : s.groupsWith T current tid o = s.groupsWith T current tid o' := by
  unfold GroupState.groupsWith
  rw [memberGroup_owner]
  intro t key hle hne
  by_cases ht : t = tid
  · rw [ht]
    apply Option.not_isSome_iff_eq_none.mp
    intro hlive
    have hmem := (h.labelled tid key).mpr ⟨hle, hlive⟩
    rw [hnil] at hmem
    cases hmem
  · exact absurd (by rw [ownedBy, ownedBy, Function.update_of_ne ht, Function.update_of_ne ht]) hne

theorem GroupState.Labelled.argument_live (h : s.Labelled T) :
    (s.groupsWith T current tid (some act)).Together (.argument tid act k) (.argument tid act k) ↔
      k + T.ins.length ∈ s.labeledArgs tid := by
  unfold GroupState.groupsWith
  rw [Grouping.ofLabel_self, memberGroup_argument, if_pos ownedBy_self, h.labelled]
  exact (and_iff_right (Nat.le_add_left _ _)).symm

/-- An argument of another activation than that of the labels is in no group. -/
theorem groupsWith_alone {o : Option Nat} (hne : o ≠ some act) :
    ¬ (s.groupsWith T current tid o).Together (.argument tid act k) (.argument tid act k) := by
  unfold GroupState.groupsWith
  rw [Grouping.ofLabel_self, memberGroup_argument, ownedBy_self, if_neg hne]
  exact Bool.false_ne_true

/-- A first block without labelled arguments hands nothing over. -/
theorem GroupState.Labelled.behind_of_nil (h : s.Labelled T)
    (hnil : 0 < b.isFirst → s.labeledArgs b.tid = []) :
    s.groupsWith T current b.tid (b.ownerBehind act below) =
      (s.groupsWith T current b.tid (some act)).behind T b act below := by
  unfold Grouping.behind SmallestBlock.ownerBehind
  split_ifs with hfirst
  · rw [handOver_of_alone, h.groupsWith_eq (hnil hfirst)]
    intro k hk
    rw [h.argument_live, hnil hfirst] at hk
    cases hk
  · rfl

/-- Only addresses and groups have changed. -/
theorem GroupState.Labelled.of_eq (h : s.Labelled T) (hs' : s'.Consistent)
    (hins : ∀ x, (s'.ins2Group x).isSome = (s.ins2Group x).isSome)
    (hlabels : s'.labeledArgs = s.labeledArgs) : s'.Labelled T where
  consistent := hs'
  labelled t key := by rw [hlabels, hins, h.labelled]
  sorted := by
    rw [hlabels]
    exact h.sorted

/-! ## One instruction -/

theorem OperandsMerged.labelled {keys gs : List Nat} (h : s.Labelled T)
    (hM : OperandsMerged T s shouldMerge (tid, id) tid keys gs g s') (hid : id < T.ins.length) :
    s'.Labelled T where
  consistent := hM.regroups.consistent
  labelled t key := by
    rw [hM.labels, hM.ins, h.labelled]
    by_cases hle : T.ins.length ≤ key
    · have hne : (t, key) ≠ (tid, id) := by
        intro heq
        cases heq
        exact absurd hid hle.not_gt
      rw [if_neg hne]
      simp only [hle, true_and, and_true]
      split_ifs with hkey
      · exact iff_of_true (Or.inr hkey) rfl
      · rw [Option.isSome_map]
        exact or_iff_left hkey
    · exact iff_of_false (fun hc => hle (hc.elim And.left fun hc => hc.2.2)) fun hc => hle hc.1
  sorted := hM.sorted h.sorted

variable (current) in
/-- The second part of `MergeInst`, in any block. -/
theorem relabel_behind (h : s.Labelled T) (hfirst : b.isFirst ≤ 2)
    (hapart : 0 < b.isFirst → ArgumentsApart T b (s.labeledArgs b.tid)) (hbelow : below ≠ some act)
    (hcaller : b.isFirst = 1 → below = some caller) (hrelabel : s.relabel T b = some s') :
    s'.Labelled T ∧ ∃ f, Regroups f s s' ∧ ∀ addr : Nat → Option Nat,
      Grouping.ofLabel (memberGroup T (fun a => (addr a).map f) s'.ins2Group
        (ownedBy current b.tid (b.ownerBehind act below))) =
      (Grouping.ofLabel (memberGroup T addr s.ins2Group
        (ownedBy current b.tid (some act)))).behind T b act below := by
  unfold Grouping.behind SmallestBlock.ownerBehind
  by_cases hpos : 0 < b.isFirst
  · simp only [if_pos hpos]
    exact relabel_partition h (by omega) (hapart hpos) hbelow hcaller hrelabel
  · simp only [if_neg hpos]
    unfold GroupState.relabel at hrelabel
    rw [if_neg (by omega)] at hrelabel
    cases hrelabel
    refine ⟨h, id, Regroups.of_eq h.consistent rfl rfl rfl, fun addr => ?_⟩
    simp only [Option.map_id_fun, id]

/-- The arguments that are handed over get labels at the keys of the operands only. -/
theorem handOvers_labels (hs : s.Consistent) (hrun : run (GroupState.handOver T b) s rest = some s')
    (hkey : key ∈ s'.labeledArgs b.tid) :
    key ∈ s.labeledArgs b.tid ∨ ∃ i ∈ rest, usedKey T b i = some (some key) := by
  induction rest generalizing s with
  | nil =>
    cases hrun
    exact Or.inl hkey
  | cons i rest ih =>
    rcases run_cons_eq_some.mp hrun with ⟨s₁, hstep, hrun⟩
    have hfirst : s₁.Consistent ∧ (key ∈ s₁.labeledArgs b.tid →
        key ∈ s.labeledArgs b.tid ∨ usedKey T b i = some (some key)) := by
      cases hg : s.ins2Group (b.tid, i) with
      | none =>
        unfold GroupState.handOver at hstep
        rw [hg] at hstep
        cases hstep
        exact ⟨hs, Or.inl⟩
      | some g =>
        rcases handOver_effect hs hg hstep with ⟨-, rfl⟩ | ⟨key', gs, h, hused, hH⟩
        · refine ⟨hs.unlabel _, fun hmem => Or.inl ?_⟩
          rwa [(unlabel_groups s (b.tid, i)).2.2.2.1] at hmem
        · refine ⟨hH.regroups.consistent, fun hmem => ?_⟩
          rcases (hH.labels b.tid key).mp hmem with hmem | ⟨-, rfl, -⟩
          · exact Or.inl hmem
          · exact Or.inr hused
    rcases ih hfirst.1 hrun with hmem | ⟨j, hj, hused⟩
    · rcases hfirst.2 hmem with hmem | hused
      · exact Or.inl hmem
      · exact Or.inr ⟨i, List.mem_cons_self, hused⟩
    · exact Or.inr ⟨j, List.mem_cons_of_mem i hj, hused⟩

/-- The labelled arguments between the two parts of `MergeInst`. -/
theorem OperandsMerged.mem_labels {keys gs : List Nat} {i : InstInfo}
    (hM : OperandsMerged T s shouldMerge (tid, id) tid keys gs g s') (hi : T.ins[id]? = some i)
    (hkeys : operandKeys T i.ssaDependencies = some keys) :
    key ∈ s'.labeledArgs tid ↔ key ∈ s.labeledArgs tid ++ argumentKeys T id := by
  rw [hM.labels, List.mem_append]
  refine or_congr_right ⟨fun hkey => (mem_keys_argument hi hkeys hkey.2.2).mp hkey.2.1, fun hkey => ?_⟩
  have hle : T.ins.length ≤ key := by
    rcases mem_argumentKeys.mp hkey with ⟨-, k, -, -, rfl⟩
    exact Nat.le_add_left _ k
  exact ⟨rfl, (mem_keys_argument hi hkeys hle).mpr hkey, hle⟩

variable (current) in
/-- **`MergeInst`** is an execution of the reference. Behind it the addresses `acc` that had no group
get the group `k`. -/
theorem mergeInst_partition {acc : Set Member} (h : s.Labelled T)
    (hsorted : shouldMerge.Pairwise (· < ·)) (hacc : ∀ m ∈ acc, ∃ a, m = .address a ∧ a < maxRange)
    (hshould : ∀ h, h ∈ shouldMerge ↔ ∃ a, .address a ∈ acc ∧ s.addr2Group.get a = some h)
    (hfirst : b.isFirst ≤ 2)
    (hapart : 0 < b.isFirst → ArgumentsApart T b (s.labeledArgs b.tid ++ argumentKeys T id))
    (hbelow : below ≠ some act) (hcaller : b.isFirst = 1 → below = some caller)
    (hmerge : s.mergeInst T shouldMerge (b.tid, id) b = some (g, s')) :
    s'.Labelled T ∧ ∃ f k, Regroups f s s' ∧ (∀ h ∈ shouldMerge, f h = k) ∧ (s'.Live g → k = g) ∧
      ∀ addr : Nat → Option Nat,
        (∀ a, a < maxRange → (.address a ∈ acc → addr a = some k) ∧
          (.address a ∉ acc → addr a = s'.addr2Group.get a)) →
        Grouping.ofLabel (memberGroup T addr s'.ins2Group
          (ownedBy current b.tid (b.ownerBehind act below))) =
        ((s.groupsWith T current b.tid (some act)).execute T b.tid act acc id).behind T b act
          below := by
  classical
  simp only [GroupState.mergeInst, Option.bind_eq_some_iff, Option.map_eq_some_iff, Prod.exists,
    Prod.mk.injEq] at hmerge
  rcases hmerge with ⟨g', s₁, hmerge, s₂, hrelabel, rfl, rfl⟩
  have hlive : ∀ h ∈ shouldMerge, s.Live h := by
    intro k hk
    rcases (hshould k).mp hk with ⟨a, ha, hget⟩
    rcases hacc _ ha with ⟨a', heq, hlt⟩
    cases heq
    have hgroup : memberGroup T s.addr2Group.get s.ins2Group (ownedBy current b.tid none)
        (.address a) = some k := (memberGroup_address hlt).trans hget
    exact memberGroup_live h.consistent hgroup
  rcases mergeOperands_effect h.consistent hsorted hlive hmerge with ⟨i, keys, gs, hi, hkeys, hM⟩
  have hid : id < T.ins.length := (List.getElem?_eq_some_iff.mp hi).1
  have h₁ := hM.labelled h hid
  have hapart₁ : 0 < b.isFirst → ArgumentsApart T b (s₁.labeledArgs b.tid) := by
    intro hpos j hj j' hj' hlt hused
    rw [hM.mem_labels hi hkeys] at hj hj'
    exact hapart hpos j hj j' hj' hlt hused
  rcases relabel_behind current h₁ hfirst hapart₁ hbelow hcaller hrelabel with
    ⟨h₂, f, hf, hpart⟩
  refine ⟨h₂, f ∘ joined gs g', f g', hM.regroups.trans h.consistent hf, fun k hk => ?_,
    hf.renames.kept g' hM.live, fun addr haddr => ?_⟩
  · rw [Function.comp_apply, joined_of_mem ((hM.groups k).mpr (Or.inl hk))]
  · -- the addresses between the two parts
    let addr₁ : Nat → Option Nat := fun a =>
      if .address a ∈ acc then some g' else s₁.addr2Group.get a
    have haddr₁ : ∀ a, a < maxRange → addr a = (addr₁ a).map f := by
      intro a ha
      show addr a = (if .address a ∈ acc then some g' else s₁.addr2Group.get a).map f
      split_ifs with hmem
      · exact (haddr a ha).1 hmem
      · rw [(haddr a ha).2 hmem, hf.addr a ha]
    have hfilled : ∀ a, a < maxRange → (.address a ∈ acc → addr₁ a = some g') ∧
        (.address a ∉ acc → addr₁ a = s₁.addr2Group.get a) :=
      fun a _ => ⟨fun hmem => if_pos hmem, fun hmem => if_neg hmem⟩
    have howner : ∀ key, ownedBy current b.tid (some act) b.tid key = some act :=
      fun _ => ownedBy_self
    rw [memberGroup_addr haddr₁, hpart addr₁,
      execute_partition h.consistent hM hi hkeys howner hacc hshould hfilled]
    rfl

/-- Behind `MergeInst` in a first block the labelled arguments are operands of the call. -/
theorem mergeInst_labels (h : s.Labelled T) (hsorted : shouldMerge.Pairwise (· < ·))
    (hlive : ∀ h ∈ shouldMerge, s.Live h) (hfirst : b.isFirst = 1 ∨ b.isFirst = 2)
    (hmerge : s.mergeInst T shouldMerge (b.tid, id) b = some (g, s'))
    (hkey : key ∈ s'.labeledArgs b.tid) :
    ∃ i ∈ s.labeledArgs b.tid ++ argumentKeys T id, usedKey T b i = some (some key) := by
  simp only [GroupState.mergeInst, Option.bind_eq_some_iff, Option.map_eq_some_iff, Prod.exists,
    Prod.mk.injEq] at hmerge
  rcases hmerge with ⟨g', s₁, hmerge, s₂, hrelabel, rfl, rfl⟩
  rcases mergeOperands_effect h.consistent hsorted hlive hmerge with ⟨i, keys, gs, hi, hkeys, hM⟩
  have hid : id < T.ins.length := (List.getElem?_eq_some_iff.mp hi).1
  unfold GroupState.relabel at hrelabel
  rw [if_pos hfirst] at hrelabel
  have hclear := ((hM.labelled h hid).handing b).consistent
  rcases handOvers_labels hclear hrelabel hkey with hmem | ⟨j, hj, hused⟩
  · replace hmem : key ∈ Function.update s₁.labeledArgs b.tid [] b.tid := hmem
    rw [Function.update_self] at hmem
    cases hmem
  · exact ⟨j, (hM.mem_labels hi hkeys).mp hj, hused⟩

/-! ## The instructions of a block -/

/-- `MergeInst` for an instruction of a `NormalBlock`. -/
def GroupState.mergeValue (T : Tables) (b : SmallestBlock) (s : GroupState) (id : Nat) :
    Option GroupState :=
  (s.mergeInst T [] (b.tid, id) b).map Prod.snd

/-- The other instructions of a `NormalBlock` change nothing. -/
theorem normalInsts_merged (hrun : run (GroupState.normalInst T b) s ids = some s') :
    run (GroupState.mergeValue T b) s (ids.filter fun id =>
      (T.ins[id]?).any fun i => i.isPointer && i.type != .callInst) = some s' := by
  induction ids generalizing s with
  | nil => exact hrun
  | cons id ids ih =>
    rcases run_cons_eq_some.mp hrun with ⟨s₁, hstep, hrun⟩
    simp only [GroupState.normalInst, Option.bind_eq_bind, Option.bind_eq_some_iff] at hstep
    rcases hstep with ⟨i, hi, hstep⟩
    rw [List.filter_cons, hi]
    split_ifs at hstep with hskip
    · cases hstep
      rw [if_neg]
      · exact ih hrun
      · rcases hskip with hskip | hskip <;> simp [hskip]
    · rw [if_pos]
      · exact run_cons_eq_some.mpr ⟨s₁, hstep, ih hrun⟩
      · rw [not_or, Bool.not_eq_false] at hskip
        simp [hskip.1, hskip.2]

variable (current) in
theorem mergeValue_partition (h : s.Labelled T) (hfirst : b.isFirst ≤ 2)
    (hapart : 0 < b.isFirst → ArgumentsApart T b (s.labeledArgs b.tid ++ argumentKeys T id))
    (hbelow : below ≠ some act) (hcaller : b.isFirst = 1 → below = some caller)
    (hmerge : s.mergeValue T b id = some s') :
    s'.Labelled T ∧ s'.groupsWith T current b.tid (b.ownerBehind act below) =
      ((s.groupsWith T current b.tid (some act)).execute T b.tid act ∅ id).behind T b act below := by
  rcases Option.map_eq_some_iff.mp hmerge with ⟨⟨g, s₁⟩, hinst, rfl⟩
  have hshould : ∀ h, h ∈ ([] : List Nat) ↔
      ∃ a, .address a ∈ (∅ : Set Member) ∧ s.addr2Group.get a = some h := by
    intro h
    simp
  rcases mergeInst_partition current h .nil (fun m hm => absurd hm (Set.notMem_empty m)) hshould
    hfirst hapart hbelow hcaller hinst with ⟨h', f, k, -, -, -, hpart⟩
  exact ⟨h', hpart s₁.addr2Group.get fun a _ => ⟨fun hm => absurd hm (Set.notMem_empty _),
    fun _ => rfl⟩⟩

/-- The instructions of a block that is not a first one. -/
theorem mergeValues_partition (h : s.Labelled T) (hfirst : b.isFirst = 0)
    (hrun : run (GroupState.mergeValue T b) s ids = some s') :
    s'.Labelled T ∧ s'.groupsWith T current b.tid (some act) =
      ids.foldl (Grouping.execute T b.tid act ∅) (s.groupsWith T current b.tid (some act)) := by
  induction ids generalizing s with
  | nil =>
    cases hrun
    exact ⟨h, rfl⟩
  | cons id ids ih =>
    rcases run_cons_eq_some.mp hrun with ⟨s₁, hstep, hrun⟩
    have hnot : ¬ 0 < b.isFirst := by omega
    have hbelow : none ≠ some act := nofun
    have hcaller : b.isFirst = 1 → none = some 0 := fun hone => by omega
    rcases mergeValue_partition current h (by omega) (fun hpos => absurd hpos hnot) hbelow hcaller
      hstep with ⟨h₁, hpart⟩
    rw [Grouping.behind, SmallestBlock.ownerBehind, if_neg hnot, if_neg hnot] at hpart
    rw [List.foldl_cons, ← hpart]
    exact ih h₁ hrun

/-- The instructions of a first block. -/
theorem mergeValues_first (h : s.Labelled T) (hpos : 0 < b.isFirst) (hfirst : b.isFirst ≤ 2)
    (hapart : FirstApart T b (s.labeledArgs b.tid) ids) (hids : ids ≠ [])
    (hbelow : below ≠ some act) (hcaller : b.isFirst = 1 → below = some caller)
    (hrun : run (GroupState.mergeValue T b) s ids = some s') :
    s'.Labelled T ∧ s'.groupsWith T current b.tid below =
      (ids.foldl (Grouping.execute T b.tid act ∅)
        (s.groupsWith T current b.tid (some act))).handOver T b act below := by
  induction ids generalizing s with
  | nil => exact absurd rfl hids
  | cons id rest ih =>
    rcases run_cons_eq_some.mp hrun with ⟨s₁, hstep, hrun⟩
    have hone : ArgumentsApart T b (s.labeledArgs b.tid ++ argumentKeys T id) →
        s₁.Labelled T ∧ s₁.groupsWith T current b.tid below =
          ((s.groupsWith T current b.tid (some act)).execute T b.tid act ∅ id).handOver T b act
            below := by
      intro hargs
      have hpart := mergeValue_partition current h hfirst (fun _ => hargs) hbelow hcaller hstep
      rwa [Grouping.behind, SmallestBlock.ownerBehind, if_pos hpos, if_pos hpos] at hpart
    cases rest with
    | nil =>
      cases hrun
      exact hone hapart
    | cons id' rest =>
      rcases hapart with ⟨hreleased, hapart⟩
      have hle : ∀ j ∈ s.labeledArgs b.tid ++ argumentKeys T id, T.ins.length ≤ j := by
        intro j hj
        rcases List.mem_append.mp hj with hj | hj
        · exact ((h.labelled b.tid j).mp hj).1
        · rcases mem_argumentKeys.mp hj with ⟨-, k, -, -, rfl⟩
          exact Nat.le_add_left _ k
      -- nothing is handed over to an argument
      have hvalue : ∀ i ∈ s.labeledArgs b.tid ++ argumentKeys T id, ∀ key, T.ins.length ≤ key →
          usedKey T b i ≠ some (some key) := by
        intro i hi key hkey hused
        rcases hreleased i hi with ⟨v, hused', hv, -⟩ | ⟨hused', -⟩
        · cases hused'.symm.trans hused
          exact absurd hv hkey.not_gt
        · cases hused'.symm.trans hused
      have hargs : ArgumentsApart T b (s.labeledArgs b.tid ++ argumentKeys T id) :=
        fun i hi j hj _ hused => absurd hused (hvalue i hi j (hle j hj))
      rcases hone hargs with ⟨h₁, hpart⟩
      have hnil : s₁.labeledArgs b.tid = [] := by
        apply List.eq_nil_iff_forall_not_mem.mpr
        intro key hkey
        rcases Option.map_eq_some_iff.mp hstep with ⟨⟨g, s₂⟩, hinst, rfl⟩
        rcases mergeInst_labels h .nil (List.forall_mem_nil _) (by omega) hinst hkey with
          ⟨i, hi, hused⟩
        exact hvalue i hi key ((h₁.labelled b.tid key).mp hkey).1 hused
      have hstart : s₁.groupsWith T current b.tid (some act) =
          ((s.groupsWith T current b.tid (some act)).execute T b.tid act ∅ id).handOver T b act
            below := (h₁.groupsWith_eq hnil _ _).trans hpart
      rw [← hnil] at hapart
      have hrest := ih h₁ hapart (List.cons_ne_nil id' rest) hrun
      rw [hstart] at hrest
      rw [hnil] at hapart
      refine ⟨hrest.1, hrest.2.trans (handOver_early hbelow hcaller hapart fun _ k hk => ?_)⟩
      apply hreleased
      rw [List.mem_append, ← h.argument_live]
      exact execute_live hk

/-! ## Blocks -/

/-- The groups of the addresses `acc` are joined, and those that had none get the joint one. -/
theorem joined_partition {acc : Set Member} {groups : List Nat} {o : Option Nat}
    (h : s.Labelled T) (hM : MergingSpec s groups g s₁)
    (hacc : ∀ m ∈ acc, ∃ a, m = .address a ∧ a < maxRange)
    (hgroups : ∀ h, h ∈ groups ↔ ∃ a, .address a ∈ acc ∧ s.addr2Group.get a = some h)
    (hs' : s'.Consistent) (hins : s'.ins2Group = s₁.ins2Group)
    (hlabels : s'.labeledArgs = s₁.labeledArgs)
    (haddr : ∀ a, a < maxRange → (.address a ∈ acc → s'.addr2Group.get a = some g) ∧
      (.address a ∉ acc → s'.addr2Group.get a = s₁.addr2Group.get a)) :
    s'.Labelled T ∧
      s'.groupsWith T current tid o = (s.groupsWith T current tid o).join acc := by
  have hget : ∀ x, s'.ins2Group x = (s.ins2Group x).map (joined groups g) := by
    intro x
    rw [hins, hM.ins]
  refine ⟨h.of_eq hs' (fun x => by rw [hget, Option.isSome_map]) (hlabels.trans hM.labels), ?_⟩
  have hocc : ∀ h, h ∈ groups ↔ ∃ x ∈ acc,
      memberGroup T s.addr2Group.get s.ins2Group (ownedBy current tid o) x = some h := by
    intro k
    rw [hgroups k]
    constructor
    · intro hc
      obtain ⟨a, ha, hk⟩ := hc
      rcases hacc _ ha with ⟨a', heq, hlt⟩
      cases heq
      exact ⟨_, ha, (memberGroup_address hlt).trans hk⟩
    · intro hc
      obtain ⟨m, hm, hk⟩ := hc
      rcases hacc m hm with ⟨a, rfl, hlt⟩
      exact ⟨a, hm, (memberGroup_address hlt).symm.trans hk⟩
  have hnew : g ∈ groups ∨ (∀ h, h ∉ groups) ∧
      ∀ x, memberGroup T s.addr2Group.get s.ins2Group (ownedBy current tid o) x ≠ some g := by
    have hhead := hM.head
    cases groups with
    | nil =>
      refine Or.inr ⟨fun h => List.not_mem_nil, fun x hx => ?_⟩
      have hle := h.consistent.le_max g (memberGroup_live h.consistent hx)
      rw [hhead, List.headD_nil] at hle
      omega
    | cons k groups =>
      rw [hhead]
      exact Or.inl List.mem_cons_self
  apply Grouping.ofLabel_join hocc hnew (fun h hh => joined_of_mem hh) fun h hh =>
    joined_of_notMem hh
  · intro m hm
    rcases hacc m hm with ⟨a, rfl, hlt⟩
    rw [memberGroup_address hlt]
    exact (haddr a hlt).1 hm
  · intro m hm
    cases m with
    | address a =>
      by_cases hlt : a < maxRange
      · rw [memberGroup_address hlt, memberGroup_address hlt, (haddr a hlt).2 hm, hM.addr a hlt]
      · unfold memberGroup
        simp only [if_neg hlt, Option.map_none]
    | value t id =>
      unfold memberGroup
      simp only [hget]
      split_ifs <;> rfl
    | argument t act k =>
      rw [memberGroup_argument, memberGroup_argument, hget]
      split_ifs <;> rfl

theorem accessed_lt (hb : b.Words) : ∀ m ∈ b.accessed, ∃ a, m = .address a ∧ a < maxRange := by
  intro m h
  obtain ⟨a, rfl, ha⟩ := h
  exact ⟨a, rfl, ha.lt hb⟩

theorem mem_accessed {a : Nat} : .address a ∈ b.accessed ↔ b.Covers a := by
  constructor
  · intro h
    obtain ⟨a', heq, ha⟩ := h
    cases heq
    exact ha
  · exact fun ha => ⟨a, rfl, ha⟩

theorem Looked.mem_groups {segs : List (Segment Nat)} (h : Looked s b.Covers segs) {k : Nat} :
    k ∈ segmentGroups segs ↔ ∃ a, .address a ∈ b.accessed ∧ s.addr2Group.get a = some k := by
  rw [h.groups_iff]
  simp only [mem_accessed]

theorem declareBlock_partition {o : Option Nat} (h : s.Labelled T) (hb : b.Words)
    (hstep : s.declareBlock b = some s') :
    s'.Labelled T ∧
      s'.groupsWith T current tid o = (s.groupsWith T current tid o).join b.accessed := by
  simp only [GroupState.declareBlock, Option.bind_eq_bind, Option.bind_eq_some_iff,
    Prod.exists] at hstep
  rcases hstep with ⟨segs, hsegs, g, s₁, hmerge, hrun⟩
  have hlooked := looked_block h.consistent hb hsegs
  rcases merging_spec h.consistent (segmentGroups_spec segs).1 (hlooked.live h.consistent) with
    ⟨g', s₂, hmerge', hM⟩
  cases hmerge'.symm.trans hmerge
  rcases hlooked.filled (fun a ha => ha.lt hb) hM.regroups (fun h hh => joined_of_mem hh)
    (fun _ => rfl) hrun with ⟨hs', -, hget⟩
  rcases fills_values hrun with ⟨hins, hlabels⟩
  apply joined_partition h hM (accessed_lt hb) (fun k => hlooked.mem_groups) hs' hins hlabels
  intro a ha
  rw [mem_accessed]
  exact hget a ha

variable (current) in
/-- The address an external call gets, which is in a group then. -/
theorem passPointer_partition {o : Option Nat} {addr : Nat} (h : s.Labelled T)
    (haddr : addr < 2 ^ 64) (hstep : s.passPointer addr = some s') :
    s'.Labelled T ∧ s'.labeledArgs = s.labeledArgs ∧ s'.groupsWith T current tid o =
      (s.groupsWith T current tid o).join {m | m = .address addr ∧ addr < maxRange} := by
  cases hget : s.addr2Group.get addr with
  | some g =>
    unfold GroupState.passPointer at hstep
    simp only [hget] at hstep
    cases hstep
    refine ⟨h, rfl, (Grouping.adjoin_eq_self ?_).symm⟩
    intro x y hc
    obtain ⟨⟨rfl, hlt⟩, rfl, -⟩ := hc
    have hgroup : memberGroup T s.addr2Group.get s.ins2Group (ownedBy current tid o)
        (.address addr) = some g := (memberGroup_address hlt).trans hget
    exact ⟨g, hgroup, hgroup⟩
  | none =>
    rcases passPointer_none h.consistent haddr hget hstep with
      ⟨g, s₁, hM, hs', -, hins, hlabels, hget'⟩
    have hjoined : s'.Labelled T ∧ s'.groupsWith T current tid o =
        (s.groupsWith T current tid o).join {m | m = .address addr ∧ addr < maxRange} := by
      refine joined_partition h hM (fun m hm => ⟨addr, hm⟩) (fun k => ?_) hs' hins hlabels
        fun a ha => ?_
      · refine iff_of_false List.not_mem_nil ?_
        intro hc
        obtain ⟨a, ⟨heq, -⟩, hk⟩ := hc
        cases heq
        cases hget.symm.trans hk
      · rw [hget' a ha]
        constructor
        · intro hc
          obtain ⟨heq, -⟩ := hc
          cases heq
          exact if_pos rfl
        · intro hnot
          apply if_neg
          rintro rfl
          exact hnot ⟨rfl, ha⟩
    exact ⟨hjoined.1, hlabels.trans hM.labels, hjoined.2⟩

variable (current) in
theorem passPointers_partition {o : Option Nat} {addrs : List Nat} (h : s.Labelled T)
    (haddrs : ∀ a ∈ addrs, a < 2 ^ 64) (hrun : run GroupState.passPointer s addrs = some s') :
    s'.Labelled T ∧ s'.labeledArgs = s.labeledArgs ∧ s'.groupsWith T current tid o =
      addrs.foldl (fun G a => G.join {m | m = .address a ∧ a < maxRange})
        (s.groupsWith T current tid o) := by
  induction addrs generalizing s with
  | nil =>
    cases hrun
    exact ⟨h, rfl, rfl⟩
  | cons a addrs ih =>
    rcases run_cons_eq_some.mp hrun with ⟨s₁, hstep, hrun⟩
    rcases List.forall_mem_cons.mp haddrs with ⟨ha, haddrs⟩
    rcases passPointer_partition current h ha hstep with ⟨h₁, hlabels₁, hpart₁⟩
    rcases ih h₁ haddrs hrun with ⟨h', hlabels, hpart⟩
    refine ⟨h', hlabels.trans hlabels₁, ?_⟩
    rw [hpart, hpart₁, List.foldl_cons]

theorem mergedInsts_access
    (htype : b.type = .memoryAccessBlock ∨ b.type = .memsetBlock ∨ b.type = .memmoveBlock) {l r : Nat}
    (hl : b.addr[0]? = some l) (hr : b.addr[1]? = some r) :
    b.mergedInsts T = if l < r then (b.insID? T).toList else [] := by
  unfold SmallestBlock.mergedInsts
  rw [List.getD_eq_getElem?_getD, List.getD_eq_getElem?_getD, hl, hr]
  rcases htype with htype | htype | htype <;> rw [htype] <;> rfl

theorem mergedInsts_normal (htype : b.type = .normalBlock) (hids : b.insIDs? T = some ids) :
    b.mergedInsts T = ids.reverse.filter fun id =>
      (T.ins[id]?).any fun i => i.isPointer && i.type != .callInst := by
  unfold SmallestBlock.mergedInsts
  rw [htype, hids]
  rfl

variable (current) in
/-- A block in which no groups are merged, for any activation. -/
theorem idle_partition {o : Option Nat} (h : s.Labelled T) (hb : b.Words)
    (htype : b.type ≠ .declareBlock) (hnil : b.mergedInsts T = [])
    (hstep : groupStep T s b = some s') :
    s'.Labelled T ∧ s'.labeledArgs = s.labeledArgs ∧
      s'.groupsWith T current b.tid o = (s.groupsWith T current b.tid o).block T act b := by
  have haccess : b.type = .memoryAccessBlock ∨ b.type = .memsetBlock ∨ b.type = .memmoveBlock →
      s.accessBlock T b = some s' → s' = s := by
    intro htype hstep
    simp only [GroupState.accessBlock, Option.bind_eq_bind, Option.bind_eq_some_iff] at hstep
    rcases hstep with ⟨l, hl, r, hr, hstep⟩
    split_ifs at hstep with hrl
    · exact (Option.some.inj hstep).symm
    · -- an instruction accesses a range that is not empty
      rcases Option.bind_eq_some_iff.mp hstep with ⟨insID, hins, -⟩
      rw [mergedInsts_access htype hl hr, if_pos (not_le.mp hrl), hins] at hnil
      cases hnil
  unfold groupStep at hstep
  unfold Grouping.block
  cases hb_type : b.type <;> simp only [hb_type] at hstep ⊢
  case declareBlock => exact absurd hb_type htype
  case memoryAccessBlock =>
    rw [haccess (Or.inl hb_type) hstep, hnil]
    exact ⟨h, rfl, rfl⟩
  case memsetBlock =>
    rw [haccess (Or.inr (Or.inl hb_type)) hstep, hnil]
    exact ⟨h, rfl, rfl⟩
  case memmoveBlock =>
    rw [haccess (Or.inr (Or.inr hb_type)) hstep, hnil]
    exact ⟨h, rfl, rfl⟩
  case externalCallBlock | impactfulCallBlock =>
    exact passPointers_partition current h (fun a ha => hb a (List.mem_of_mem_tail ha)) hstep
  case normalBlock =>
    rcases Option.bind_eq_some_iff.mp hstep with ⟨ids, hids, hrun⟩
    replace hrun := normalInsts_merged hrun
    rw [← mergedInsts_normal hb_type hids, hnil] at hrun
    cases hrun
    rw [hnil]
    exact ⟨h, rfl, rfl⟩

/-- A memory access, a memset or a memmove. -/
theorem accessBlock_partition (h : s.Labelled T) (hb : b.Words)
    (htype : b.type = .memoryAccessBlock ∨ b.type = .memsetBlock ∨ b.type = .memmoveBlock)
    (hfirst : b.isFirst ≤ 2)
    (hapart : 0 < b.isFirst → FirstApart T b (s.labeledArgs b.tid) (b.mergedInsts T))
    (hbelow : below ≠ some act) (hcaller : b.isFirst = 1 → below = some caller)
    (hstep : s.accessBlock T b = some s') :
    s'.Labelled T ∧ s'.groupsWith T current b.tid (b.ownerBehind act below) =
      ((b.mergedInsts T).foldl (Grouping.execute T b.tid act b.accessed)
        (s.groupsWith T current b.tid (some act))).behind T b act below := by
  simp only [GroupState.accessBlock, Option.bind_eq_bind, Option.bind_eq_some_iff] at hstep
  rcases hstep with ⟨l, hl, r, hr, hstep⟩
  have hmerged := mergedInsts_access (T := T) htype hl hr
  split_ifs at hstep with hrl
  · -- nothing is accessed
    rw [if_neg hrl.not_gt] at hmerged
    cases hstep
    rw [hmerged] at hapart ⊢
    exact ⟨h, h.behind_of_nil hapart⟩
  · simp only [Option.bind_eq_some_iff, Prod.exists] at hstep
    rcases hstep with ⟨insID, hins, segs, hsegs, g, s₁, hmerge, hrun⟩
    rw [if_pos (not_le.mp hrl), hins] at hmerged
    rw [hmerged] at hapart ⊢
    have hlooked := looked_block h.consistent hb hsegs
    rcases mergeInst_partition current h (segmentGroups_spec segs).1 (accessed_lt hb)
      (fun k => hlooked.mem_groups) hfirst hapart hbelow hcaller hmerge with
      ⟨h₁, f, k, hf, hk, hlive, hpart⟩
    rcases hlooked.filled (fun a ha => ha.lt hb) hf hk hlive hrun with ⟨hs', -, hget⟩
    rcases fills_values hrun with ⟨hins', hlabels⟩
    refine ⟨h₁.of_eq hs' (fun x => by rw [hins']) hlabels, ?_⟩
    have hfilled : ∀ a, a < maxRange → (.address a ∈ b.accessed → s'.addr2Group.get a = some k) ∧
        (.address a ∉ b.accessed → s'.addr2Group.get a = s₁.addr2Group.get a) := by
      intro a ha
      rw [mem_accessed]
      exact hget a ha
    have hbehind := hpart s'.addr2Group.get hfilled
    rw [← hins'] at hbehind
    exact hbehind

variable (current) in
/-- **A block**, for the activation that the thread is in. -/
theorem block_partition (h : s.Labelled T) (hb : b.Words) (htype : b.type ≠ .declareBlock)
    (hfirst : b.isFirst ≤ 2)
    (hapart : 0 < b.isFirst → FirstApart T b (s.labeledArgs b.tid) (b.mergedInsts T))
    (hbelow : below ≠ some act) (hcaller : b.isFirst = 1 → below = some caller)
    (hstep : groupStep T s b = some s') :
    s'.Labelled T ∧ s'.groupsWith T current b.tid (b.ownerBehind act below) =
      ((s.groupsWith T current b.tid (some act)).block T act b).behind T b act below := by
  by_cases hnil : b.mergedInsts T = []
  · rw [hnil] at hapart
    rcases idle_partition current h hb htype hnil hstep with ⟨h', hlabels, hpart⟩
    refine ⟨h', ?_⟩
    rw [← hpart]
    apply h'.behind_of_nil
    rw [hlabels]
    exact hapart
  unfold groupStep at hstep
  unfold Grouping.block
  cases hb_type : b.type <;> simp only [hb_type] at hstep ⊢
  case declareBlock => exact absurd hb_type htype
  case memoryAccessBlock =>
    exact accessBlock_partition h hb (Or.inl hb_type) hfirst hapart hbelow hcaller hstep
  case memsetBlock =>
    exact accessBlock_partition h hb (Or.inr (Or.inl hb_type)) hfirst hapart hbelow hcaller hstep
  case memmoveBlock =>
    exact accessBlock_partition h hb (Or.inr (Or.inr hb_type)) hfirst hapart hbelow hcaller hstep
  case externalCallBlock | impactfulCallBlock =>
    refine absurd ?_ hnil
    unfold SmallestBlock.mergedInsts
    rw [hb_type]
  case normalBlock =>
    rcases Option.bind_eq_some_iff.mp hstep with ⟨ids, hids, hrun⟩
    replace hrun := normalInsts_merged hrun
    rw [← mergedInsts_normal hb_type hids] at hrun
    by_cases hpos : 0 < b.isFirst
    · rw [Grouping.behind, SmallestBlock.ownerBehind, if_pos hpos, if_pos hpos]
      exact mergeValues_first h hpos hfirst (hapart hpos) hnil hbelow hcaller hrun
    · rw [Grouping.behind, SmallestBlock.ownerBehind, if_neg hpos, if_neg hpos]
      exact mergeValues_partition h (by omega) hrun

end

end Slimmer
