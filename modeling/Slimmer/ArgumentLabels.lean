import Slimmer.GroupBlocks
import Slimmer.Stacks
import Slimmer.Lib.Grouping

/-!
# The labels of the arguments

**The reference** (`referenceStep`). Every activation has pointer arguments of its own, and an
instruction of it uses only these. When its first block has been processed, every argument that is
in a group is joined with the operand of the call that was passed for it, all of them at once, and
the arguments of the activation are gone.

**`GroupMemory`** keeps one label for argument `k` of all activations of a thread, under the key
`Ins.size() + k`. What it keeps (`GroupState.partition`) counts as the label of the activation that
the thread is in.

Here are both, and what the two parts of `MergeInst` change in the second (`execute_partition`,
`relabel_partition`).
-/

namespace Slimmer

/-! ## The reference -/

/-- What is put into groups. An activation is named as in `Activations`. -/
inductive Member
  | address (a : Nat)
  | value (tid id : Nat)
  | argument (tid act k : Nat)

/-- A pointer operand, for an instruction that the activation `act` executes. -/
def operandMember (T : Tables) (tid act : Nat) : DepType × Nat → Option Member
  | (.inst, id) => if (T.ins[id]?).any InstInfo.isPointer then some (.value tid id) else none
  | (.pointerArg, k) => some (.argument tid act k)
  | _ => none

def operandMembers (T : Tables) (tid act id : Nat) : Set Member :=
  {m | ∃ i dep, T.ins[id]? = some i ∧ dep ∈ i.ssaDependencies ∧ operandMember T tid act dep = some m}

/-- The addresses a block accesses. -/
def SmallestBlock.accessed (b : SmallestBlock) : Set Member := {m | ∃ a, m = .address a ∧ b.Covers a}

/-- The instructions of a block for which groups are merged, the last one first: the one that
accesses a range that is not empty, or those with a pointer for a value, but for calls. -/
def SmallestBlock.mergedInsts (T : Tables) (b : SmallestBlock) : List Nat :=
  match b.type with
  | .memoryAccessBlock | .memsetBlock | .memmoveBlock =>
    if b.addr.getD 0 0 < b.addr.getD 1 0 then (b.insID? T).toList else []
  | .normalBlock => ((b.insIDs? T).getD []).reverse.filter fun id =>
    (T.ins[id]?).any fun i => i.isPointer && i.type != .callInst
  | _ => []

/-- The activation `act` executes an instruction. Its value, its operands and what it accesses come
into one group; before it the value was that of an earlier execution. -/
def Grouping.execute (T : Tables) (tid act : Nat) (accessed : Set Member) (G : Grouping Member)
    (id : Nat) : Grouping Member :=
  (G.join (insert (.value tid id) (operandMembers T tid act id ∪ accessed))).drop
    ({.value tid id} \ operandMembers T tid act id)

/-- The activation `act` executes a block. -/
def Grouping.block (T : Tables) (act : Nat) (G : Grouping Member) (b : SmallestBlock) :
    Grouping Member :=
  match b.type with
  | .memoryAccessBlock | .memsetBlock | .memmoveBlock =>
    (b.mergedInsts T).foldl (Grouping.execute T b.tid act b.accessed) G
  | .normalBlock => (b.mergedInsts T).foldl (Grouping.execute T b.tid act ∅) G
  | .declareBlock => G.join b.accessed
  | .externalCallBlock | .impactfulCallBlock =>
    b.addr.tail.foldl (fun G a => G.join {m | m = .address a ∧ a < maxRange}) G

/-- What the activation `caller` passed for argument `k` in the call that `b` answers. -/
def SmallestBlock.passed (T : Tables) (b : SmallestBlock) (caller : Option Nat) (k : Nat) :
    Option Member :=
  if b.isFirst = 1 ∧ b.caller ≠ noId then
    caller.bind fun act => (T.ins[b.caller]?).bind fun i =>
      (i.ssaDependencies[k]?).bind (operandMember T b.tid act)
  else none

/-- The arguments of the activation `act` are handed over to its caller, all at once. -/
def Grouping.handOver (T : Tables) (b : SmallestBlock) (act : Nat) (caller : Option Nat)
    (G : Grouping Member) : Grouping Member :=
  (G.adjoin fun x y => ∃ k, x = .argument b.tid act k ∧ G.Together x x ∧
    b.passed T caller k = some y).drop {m | ∃ k, m = .argument b.tid act k}

/-- The groups when a block has been processed. -/
def Grouping.turn (T : Tables) (G : Grouping Member) (a : Activations) (b : SmallestBlock) :
    Grouping Member :=
  if b.type = .declareBlock then G.block T 0 b
  else
    match a.within b with
    | [] => G
    | act :: rest =>
      if 0 < b.isFirst then (G.block T act b).handOver T b act rest.head? else G.block T act b

/-- One turn of the reference. -/
def referenceStep (T : Tables) (r : Grouping Member × Activations) (b : SmallestBlock) :
    Option (Grouping Member × Activations) :=
  (activationStep r.2 b).map fun a => (r.1.turn T r.2 b, a)

/-! ## What `GroupMemory` keeps -/

/-- The group of a member, where the label of the key `key` in thread `tid` is that of the activation
`owner tid key`. -/
def memberGroup (T : Tables) (addr : Nat → Option Nat) (ins2Group : Nat × Nat → Option Nat)
    (owner : Nat → Nat → Option Nat) : Member → Option Nat
  | .address a => if a < maxRange then addr a else none
  | .value tid id => if id < T.ins.length then ins2Group (tid, id) else none
  | .argument tid act k =>
    if owner tid (k + T.ins.length) = some act then ins2Group (tid, k + T.ins.length) else none

/-- **The groups of `GroupMemory`.** A label is that of the activation the thread is in. -/
def GroupState.partition (T : Tables) (s : GroupState) (a : Activations) : Grouping Member :=
  .ofLabel (memberGroup T s.addr2Group.get s.ins2Group fun tid _ => (a.stack tid).head?)

/-- The member that a key stands for in the activation `act`. -/
def keyMember (T : Tables) (tid act key : Nat) : Member :=
  if key < T.ins.length then .value tid key else .argument tid act (key - T.ins.length)

section

variable {T : Tables} {s s' s₁ : GroupState} {b : SmallestBlock} {addr : Nat → Option Nat}
  {ins2Group : Nat × Nat → Option Nat} {owner owner' : Nat → Nat → Option Nat} {f : Nat → Nat}
  {g h tid act key i id : Nat} {gs keys shouldMerge : List Nat} {x : Nat × Nat} {m : Member}

/-! ## Keys and members -/

theorem keyMember_value (h : key < T.ins.length) : keyMember T tid act key = .value tid key :=
  if_pos h

theorem keyMember_argument (h : T.ins.length ≤ key) :
    keyMember T tid act key = .argument tid act (key - T.ins.length) := if_neg h.not_gt

theorem keyMember_add (k : Nat) :
    keyMember T tid act (k + T.ins.length) = .argument tid act k := by
  rw [keyMember_argument (Nat.le_add_left _ _), Nat.add_sub_cancel]

theorem keyMember_inj {tid' act' key' : Nat} (h : keyMember T tid act key = keyMember T tid' act' key') :
    tid = tid' ∧ key = key' ∧ (T.ins.length ≤ key → act = act') := by
  by_cases hkey : key < T.ins.length
  · by_cases hkey' : key' < T.ins.length
    · rw [keyMember_value hkey, keyMember_value hkey', Member.value.injEq] at h
      exact ⟨h.1, h.2, fun hle => absurd hkey hle.not_gt⟩
    · rw [keyMember_value hkey, keyMember_argument (not_lt.mp hkey')] at h
      cases h
  · by_cases hkey' : key' < T.ins.length
    · rw [keyMember_value hkey', keyMember_argument (not_lt.mp hkey)] at h
      cases h
    · rw [keyMember_argument (not_lt.mp hkey), keyMember_argument (not_lt.mp hkey'),
        Member.argument.injEq] at h
      exact ⟨h.1, by omega, fun _ => h.2.1⟩

/-- A member is an address, or a key of a thread stands for it, or it is in no group. -/
theorem member_cases (T : Tables) (owner : Nat → Nat → Option Nat) (m : Member) :
    (∃ a, m = .address a) ∨
      (∃ tid act key, m = keyMember T tid act key ∧
        (T.ins.length ≤ key → owner tid key = some act)) ∨
      (∀ addr ins2Group, memberGroup T addr ins2Group owner m = none) ∧
        ∀ tid act key, (T.ins.length ≤ key → owner tid key = some act) →
          m ≠ keyMember T tid act key := by
  cases m with
  | address a => exact Or.inl ⟨a, rfl⟩
  | value tid id =>
    by_cases hid : id < T.ins.length
    · exact Or.inr (Or.inl ⟨tid, 0, id, (keyMember_value hid).symm, fun hle => absurd hid hle.not_gt⟩)
    · refine Or.inr (Or.inr ⟨fun _ _ => if_neg hid, fun tid' act' key _ heq => ?_⟩)
      by_cases hkey : key < T.ins.length
      · rw [keyMember_value hkey, Member.value.injEq] at heq
        omega
      · rw [keyMember_argument (not_lt.mp hkey)] at heq
        cases heq
  | argument tid act k =>
    by_cases howner : owner tid (k + T.ins.length) = some act
    · exact Or.inr (Or.inl ⟨tid, act, _, (keyMember_add k).symm, fun _ => howner⟩)
    · refine Or.inr (Or.inr ⟨fun _ _ => if_neg howner, fun tid' act' key hown heq => ?_⟩)
      rw [← keyMember_add k] at heq
      rcases keyMember_inj heq with ⟨rfl, rfl, hact⟩
      rw [hact (Nat.le_add_left _ _)] at howner
      exact howner (hown (Nat.le_add_left _ _))

theorem memberGroup_key (howner : T.ins.length ≤ key → owner tid key = some act) :
    memberGroup T addr ins2Group owner (keyMember T tid act key) = ins2Group (tid, key) := by
  by_cases hkey : key < T.ins.length
  · rw [keyMember_value hkey]
    exact if_pos hkey
  · have hle := not_lt.mp hkey
    rw [keyMember_argument hle]
    show (if owner tid (key - T.ins.length + T.ins.length) = some act then
      ins2Group (tid, key - T.ins.length + T.ins.length) else none) = _
    rw [Nat.sub_add_cancel hle, if_pos (howner hle)]

theorem memberGroup_argument {k : Nat} :
    memberGroup T addr ins2Group owner (.argument tid act k) =
      if owner tid (k + T.ins.length) = some act then ins2Group (tid, k + T.ins.length)
      else none := rfl

theorem memberGroup_address {a : Nat} (ha : a < maxRange) :
    memberGroup T addr ins2Group owner (.address a) = addr a := if_pos ha

variable (owner') in
/-- Where the owner differs, a key without a label stands for nothing. -/
theorem memberGroup_owner (h : ∀ tid key, T.ins.length ≤ key → owner tid key ≠ owner' tid key →
    ins2Group (tid, key) = none) :
    memberGroup T addr ins2Group owner = memberGroup T addr ins2Group owner' := by
  funext m
  cases m with
  | address a => rfl
  | value tid id => rfl
  | argument tid act k =>
    rw [memberGroup_argument, memberGroup_argument]
    by_cases heq : owner tid (k + T.ins.length) = owner' tid (k + T.ins.length)
    · rw [heq]
    · rw [h tid _ (Nat.le_add_left _ _) heq, ite_self, ite_self]

/-- Every group that occurs has a tree. -/
theorem memberGroup_live (hs : s.Consistent)
    (h : memberGroup T s.addr2Group.get s.ins2Group owner m = some g) : s.Live g := by
  cases m with
  | address a =>
    unfold memberGroup at h
    simp only [] at h
    split_ifs at h with ha
    rcases (hs.agree a ha g).mp h with ⟨tree, htree, -⟩
    rw [GroupState.Live, htree]
    rfl
  | value tid id =>
    unfold memberGroup at h
    simp only [] at h
    split_ifs at h
    exact hs.ins_live _ g h
  | argument tid act k =>
    unfold memberGroup at h
    simp only [] at h
    split_ifs at h
    exact hs.ins_live _ g h

/-! ## Operands -/

theorem operandMember_key {dep : DepType × Nat} {key? : Option Nat}
    (h : operandKey T dep = some key?) :
    operandMember T tid act dep = key?.map (keyMember T tid act) := by
  rcases dep with ⟨type, id⟩
  cases type with
  | inst =>
    rcases Option.map_eq_some_iff.mp h with ⟨i, hi, rfl⟩
    have hid : id < T.ins.length := (List.getElem?_eq_some_iff.mp hi).1
    unfold operandMember
    simp only [hi, Option.any_some]
    split_ifs
    · rw [Option.map_some, keyMember_value hid]
    · rfl
  | pointerArg =>
    cases h
    rw [Option.map_some, keyMember_add]
    rfl
  | arg =>
    cases h
    rfl
  | constant =>
    cases h
    rfl

theorem operandKeys_cons {dep : DepType × Nat} {deps : List (DepType × Nat)} :
    operandKeys T (dep :: deps) = some keys ↔ ∃ key? keys', operandKey T dep = some key? ∧
      operandKeys T deps = some keys' ∧ keys = key?.toList ++ keys' := by
  unfold operandKeys
  rw [List.mapM_cons]
  simp only [Option.bind_eq_bind, Option.pure_def, Option.map_eq_some_iff, Option.bind_eq_some_iff]
  constructor
  · intro h
    obtain ⟨l, ⟨key?, hkey?, l', hl', hl⟩, rfl⟩ := h
    cases hl
    refine ⟨key?, _, hkey?, ⟨l', hl', rfl⟩, ?_⟩
    cases key? <;> rfl
  · intro h
    obtain ⟨key?, keys', hkey?, ⟨l', hl', rfl⟩, rfl⟩ := h
    refine ⟨key? :: l', ⟨key?, hkey?, l', hl', rfl⟩, ?_⟩
    cases key? <;> rfl

/-- The keys are those of the pointer operands. -/
theorem operandKeys_spec {deps : List (DepType × Nat)} (h : operandKeys T deps = some keys) :
    (∀ dep ∈ deps, ∃ key?, operandKey T dep = some key?) ∧
      ∀ key, key ∈ keys ↔ ∃ dep ∈ deps, operandKey T dep = some (some key) := by
  induction deps generalizing keys with
  | nil =>
    cases h
    exact ⟨fun _ h => (nomatch h), fun key => ⟨fun h => absurd h List.not_mem_nil, by simp⟩⟩
  | cons dep deps ih =>
    rcases operandKeys_cons.mp h with ⟨key?, keys', hkey?, hkeys', rfl⟩
    rcases ih hkeys' with ⟨hsome, hmem⟩
    refine ⟨List.forall_mem_cons.mpr ⟨⟨key?, hkey?⟩, hsome⟩, fun key => ?_⟩
    rw [List.mem_append, hmem key, List.exists_mem_cons_iff, hkey?]
    simp

/-- The operands, for the activation that executes the instruction. -/
theorem mem_operandMembers {i : InstInfo} (hi : T.ins[id]? = some i)
    (h : operandKeys T i.ssaDependencies = some keys) :
    m ∈ operandMembers T tid act id ↔ ∃ key ∈ keys, m = keyMember T tid act key := by
  rcases operandKeys_spec h with ⟨hsome, hmem⟩
  constructor
  · intro hc
    obtain ⟨i', dep, hi', hdep, hm⟩ := hc
    cases hi.symm.trans hi'
    rcases hsome dep hdep with ⟨key?, hkey?⟩
    rw [operandMember_key hkey?, Option.map_eq_some_iff] at hm
    rcases hm with ⟨key, rfl, rfl⟩
    exact ⟨key, (hmem key).mpr ⟨dep, hdep, hkey?⟩, rfl⟩
  · intro hc
    obtain ⟨key, hkey, rfl⟩ := hc
    rcases (hmem key).mp hkey with ⟨dep, hdep, hkey?⟩
    exact ⟨i, dep, hi, hdep, operandMember_key hkey?⟩

/-- An instruction of the activation that owns the labels of its thread. Between this part and the
end of the block the addresses `acc` that had no group get the group `g`. -/
theorem execute_partition (hs : s.Consistent) {acc : Set Member} {addr' : Nat → Option Nat}
    {i : InstInfo} (hM : OperandsMerged T s shouldMerge (tid, id) tid keys gs g s')
    (hi : T.ins[id]? = some i) (hkeys : operandKeys T i.ssaDependencies = some keys)
    (howner : ∀ key, owner tid key = some act)
    (hacc : ∀ m ∈ acc, ∃ a, m = .address a ∧ a < maxRange)
    (hshould : ∀ h, h ∈ shouldMerge ↔ ∃ a, .address a ∈ acc ∧ s.addr2Group.get a = some h)
    (haddr : ∀ a, a < maxRange → (.address a ∈ acc → addr' a = some g) ∧
      (.address a ∉ acc → addr' a = s'.addr2Group.get a)) :
    Grouping.ofLabel (memberGroup T addr' s'.ins2Group owner) =
      (Grouping.ofLabel (memberGroup T s.addr2Group.get s.ins2Group owner)).execute T tid act acc
        id := by
  have hid : id < T.ins.length := (List.getElem?_eq_some_iff.mp hi).1
  have hoperand : ∀ {m}, m ∈ operandMembers T tid act id ↔ ∃ key ∈ keys, m = keyMember T tid act key :=
    mem_operandMembers hi hkeys
  have hvalue : keyMember T tid act id = .value tid id := keyMember_value hid
  have hget : ∀ {a ins2Group key}, memberGroup T a ins2Group owner (keyMember T tid act key) =
      ins2Group (tid, key) := fun {_ _ key} => memberGroup_key fun _ => howner key
  have haddress : ∀ {a}, .address a ∈ acc → a < maxRange := by
    intro a ha
    rcases hacc _ ha with ⟨a', heq, hlt⟩
    cases heq
    exact hlt
  apply Grouping.ofLabel_join_drop (fun h => h ∈ gs) g (joined gs g)
  · intro h
    rw [hM.groups h, hshould h]
    constructor
    · rintro (⟨a, ha, hh⟩ | hh | ⟨key, hkey, hh⟩)
      · exact ⟨_, Or.inr (Or.inr ha), (memberGroup_address (haddress ha)).trans hh⟩
      · refine ⟨_, Or.inl rfl, ?_⟩
        rw [← hvalue, hget, hh]
      · exact ⟨_, Or.inr (Or.inl (hoperand.mpr ⟨key, hkey, rfl⟩)), hget.trans hh⟩
    · intro hc
      obtain ⟨m, hm, hh⟩ := hc
      rcases hm with rfl | hm | hm
      · rw [← hvalue, hget] at hh
        exact Or.inr (Or.inl hh)
      · rcases hoperand.mp hm with ⟨key, hkey, rfl⟩
        exact Or.inr (Or.inr ⟨key, hkey, hget.symm.trans hh⟩)
      · rcases hacc m hm with ⟨a, rfl, ha⟩
        exact Or.inl ⟨a, hm, (memberGroup_address ha).symm.trans hh⟩
  · rcases hM.merged with hg | ⟨hnil, hdead⟩
    · exact Or.inl hg
    · refine Or.inr ⟨fun h hh => ?_, fun m hm => hdead (memberGroup_live hs hm)⟩
      rw [hnil] at hh
      cases hh
  · exact fun h hh => joined_of_mem hh
  · exact fun h hh => joined_of_notMem hh
  · intro m hc
    obtain ⟨rfl, hnot⟩ := hc
    have hkey : id ∉ keys := fun hkey => hnot (hoperand.mpr ⟨id, hkey, hvalue.symm⟩)
    rw [← hvalue, hget, hM.ins, if_neg fun h => hkey h.2, if_pos rfl]
  · intro m hm hD
    have hmem : m ∈ operandMembers T tid act id ∨ m ∈ acc := by
      rcases hm with rfl | hm
      · left
        by_contra hnot
        exact hD ⟨rfl, hnot⟩
      · exact hm
    rcases hmem with hm | hm
    · rcases hoperand.mp hm with ⟨key, hkey, rfl⟩
      rw [hget, hM.ins, if_pos ⟨rfl, hkey⟩]
    · rcases hacc m hm with ⟨a, rfl, ha⟩
      rw [memberGroup_address ha]
      exact (haddr a ha).1 hm
  · intro m hm _
    rcases member_cases T owner m with ⟨a, rfl⟩ | ⟨t, act', key, rfl, hown⟩ | ⟨hnone, -⟩
    · by_cases ha : a < maxRange
      · rw [memberGroup_address ha, memberGroup_address ha,
          (haddr a ha).2 fun h => hm (Or.inr (Or.inr h)), hM.regroups.addr a ha]
      · unfold memberGroup
        simp only [if_neg ha, Option.map_none]
    · rw [memberGroup_key hown, memberGroup_key hown, hM.ins, if_neg, if_neg]
      · intro heq
        cases heq
        exact hm (Or.inl (keyMember_value hid))
      · intro hc
        obtain ⟨rfl, hkey⟩ := hc
        refine hm (Or.inr (Or.inl (hoperand.mpr ⟨key, hkey, ?_⟩)))
        by_cases hlt : key < T.ins.length
        · rw [keyMember_value hlt, keyMember_value hlt]
        · have hact := (howner key).symm.trans (hown (not_lt.mp hlt))
          rw [Option.some.inj hact]
    · rw [hnone, hnone]
      rfl

/-! ## One argument is handed over -/

/-- While the arguments `rest` of the activation `act` have still to be handed over, their keys are
its own, and all other keys of the thread are its caller's. -/
def handingOwner (current : Nat → Option Nat) (tid act : Nat) (caller : Option Nat)
    (rest : List Nat) (t key : Nat) : Option Nat :=
  if t = tid then if key ∈ rest then some act else caller else current t

/-- What the key of the operand stands for when the argument `i` of `args` is handed over: an argument
of the caller, or one that has still to be handed over. -/
def handTarget (T : Tables) (b : SmallestBlock) (act caller : Nat) (args : List Nat)
    (i key : Nat) : Member :=
  keyMember T b.tid (if key ∈ args ∧ i < key then act else caller) key

/-- The argument `i` and the operand. -/
def handLink (T : Tables) (b : SmallestBlock) (act caller : Nat) (args : List Nat) (i : Nat)
    (x y : Member) : Prop :=
  ∃ key, usedKey T b i = some (some key) ∧
    x ∈ ({keyMember T b.tid act i, handTarget T b act caller args i key} : Set Member) ∧
      y ∈ ({keyMember T b.tid act i, handTarget T b act caller args i key} : Set Member)

/-- An argument is not handed over to the key of one that comes later, unless that one keeps its
key. -/
def ArgumentsApart (T : Tables) (b : SmallestBlock) (args : List Nat) : Prop :=
  ∀ i ∈ args, ∀ j ∈ args, i < j → usedKey T b i = some (some j) → usedKey T b j = some (some j)

/-- The arguments `rest` have still to be handed over. All labelled arguments are in a group, and no
others but those of `rest`. -/
structure Handing (T : Tables) (b : SmallestBlock) (rest : List Nat) (s : GroupState) : Prop where
  consistent : s.Consistent
  live : ∀ key ∈ rest, T.ins.length ≤ key ∧ (s.ins2Group (b.tid, key)).isSome
  labelled : ∀ t, ∀ key ∈ s.labeledArgs t, T.ins.length ≤ key ∧ (s.ins2Group (t, key)).isSome
  known : ∀ t key, T.ins.length ≤ key → (s.ins2Group (t, key)).isSome →
    key ∈ s.labeledArgs t ∨ t = b.tid ∧ key ∈ rest
  kept : ∀ key ∈ rest, key ∈ s.labeledArgs b.tid → usedKey T b key = some (some key)
  sorted : ∀ t, (s.labeledArgs t).Pairwise (· < ·)

variable {args rest : List Nat} {current : Nat → Option Nat} {caller : Nat} {below : Option Nat}

theorem usedKey_first (h : usedKey T b i = some (some key)) : b.isFirst = 1 := by
  unfold usedKey at h
  by_cases hfirst : b.isFirst = 1 ∧ b.caller ≠ noId
  · exact hfirst.1
  · rw [if_neg hfirst] at h
    cases h

/-- **The labels**, when one argument has been handed over. -/
theorem Handing.turn (h : Handing T b (i :: rest) s) (hi : i ∉ rest)
    (hapart : ∀ j ∈ rest, usedKey T b i = some (some j) → usedKey T b j = some (some j))
    (hstep : s.handOver T b i = some s') : Handing T b rest s' := by
  rcases Option.isSome_iff_exists.mp (h.live i List.mem_cons_self).2 with ⟨g, hg⟩
  rcases handOver_effect h.consistent hg hstep with ⟨hused, rfl⟩ | ⟨key, gs, k, hused, hH⟩
  · rcases unlabel_groups s (b.tid, i) with ⟨-, -, -, hlabels, hins⟩
    have hne : ∀ t, ∀ key ∈ s.labeledArgs t, (t, key) ≠ (b.tid, i) := by
      intro t key hkey heq
      cases heq
      have hkept := h.kept i List.mem_cons_self hkey
      rw [hused] at hkept
      cases hkept
    refine ⟨h.consistent.unlabel _, fun key hkey => ?_, fun t key hkey => ?_, fun t key hle hlive => ?_,
      fun key hkey hmem => ?_, fun t => ?_⟩
    · have hneq : (b.tid, key) ≠ (b.tid, i) := fun heq => hi ((Prod.mk.inj heq).2 ▸ hkey)
      rw [hins, Function.update_of_ne hneq]
      exact h.live key (List.mem_cons_of_mem i hkey)
    · rw [hlabels] at hkey
      rw [hins, Function.update_of_ne (hne t key hkey)]
      exact h.labelled t key hkey
    · rw [hins, Function.update_apply] at hlive
      split_ifs at hlive with heq
      · cases hlive
      · rw [hlabels]
        rcases h.known t key hle hlive with hmem | ⟨rfl, hmem⟩
        · exact Or.inl hmem
        · refine Or.inr ⟨rfl, (List.mem_cons.mp hmem).resolve_left fun hki => heq ?_⟩
          rw [hki]
    · rw [hlabels] at hmem
      exact h.kept key (List.mem_cons_of_mem i hkey) hmem
    · rw [hlabels]
      exact h.sorted t
  · have hsome : ∀ {y}, y ≠ (b.tid, i) ∨ y = (b.tid, key) → (s.ins2Group y).isSome ∨ y = (b.tid, key) →
        (s'.ins2Group y).isSome := by
      intro y hy hlive
      rw [hH.ins]
      split_ifs with hyk hyi
      · rfl
      · exact absurd (hy.resolve_right hyk) (not_not.mpr hyi)
      · rw [Option.isSome_map]
        exact hlive.resolve_right hyk
    refine ⟨hH.regroups.consistent, fun key' hkey' => ?_, fun t key' hkey' => ?_,
      fun t key' hle hlive => ?_, fun key' hkey' hmem => ?_, hH.sorted h.sorted⟩
    · have hneq : (b.tid, key') ≠ (b.tid, i) := fun heq => hi ((Prod.mk.inj heq).2 ▸ hkey')
      have hlive := h.live key' (List.mem_cons_of_mem i hkey')
      exact ⟨hlive.1, hsome (Or.inl hneq) (Or.inl hlive.2)⟩
    · rcases (hH.labels t key').mp hkey' with hmem | ⟨rfl, rfl, hle⟩
      · have hlive := h.labelled t key' hmem
        refine ⟨hlive.1, hsome ?_ (Or.inl hlive.2)⟩
        by_cases heq : (t, key') = (b.tid, i)
        · -- an argument that keeps its key
          cases heq
          have hkept := h.kept i List.mem_cons_self hmem
          rw [hused, Option.some.injEq, Option.some.injEq] at hkept
          exact Or.inr (by rw [hkept])
        · exact Or.inl heq
      · exact ⟨hle, hsome (Or.inr rfl) (Or.inr rfl)⟩
    · rw [hH.labels]
      rw [hH.ins] at hlive
      split_ifs at hlive with hyk hyi
      · cases hyk
        exact Or.inl (Or.inr ⟨rfl, rfl, hle⟩)
      · cases hlive
      · rw [Option.isSome_map] at hlive
        rcases h.known t key' hle hlive with hmem | ⟨rfl, hmem⟩
        · exact Or.inl (Or.inl hmem)
        · refine Or.inr ⟨rfl, (List.mem_cons.mp hmem).resolve_left fun hki => hyi ?_⟩
          rw [hki]
    · rcases (hH.labels b.tid key').mp hmem with hmem | ⟨-, rfl, -⟩
      · exact h.kept key' (List.mem_cons_of_mem i hkey') hmem
      · exact hapart key' hkey' hused

theorem handingOwner_self : handingOwner current tid act below rest tid key =
    if key ∈ rest then some act else below := if_pos rfl

theorem handingOwner_of_ne {t : Nat} (h : t ≠ tid) :
    handingOwner current tid act below rest t key = current t := if_neg h

/-- The key that is handed over changes its owner, and no other one does. -/
theorem handingOwner_cons {t : Nat} (h : (t, key) ≠ (tid, i)) :
    handingOwner current tid act below (i :: rest) t key =
      handingOwner current tid act below rest t key := by
  by_cases ht : t = tid
  · subst ht
    have hne : key ≠ i := fun heq => h (by rw [heq])
    rw [handingOwner_self, handingOwner_self]
    exact if_congr (List.mem_cons.trans (or_iff_right hne)) rfl rfl
  · rw [handingOwner_of_ne ht, handingOwner_of_ne ht]

/-- The argument that has been handed over is in no group. -/
theorem memberGroup_handed (hle : T.ins.length ≤ i) (hi : i ∉ rest) (hbelow : below ≠ some act) :
    memberGroup T addr ins2Group (handingOwner current tid act below rest) (keyMember T tid act i) =
      none := by
  rw [keyMember_argument hle, memberGroup_argument, Nat.sub_add_cancel hle, handingOwner_self,
    if_neg hi, if_neg hbelow]

/-- Nothing is linked, and the argument only loses its label. -/
theorem unlabel_turn (hle : T.ins.length ≤ i) (hi : i ∉ rest) (hbelow : below ≠ some act) :
    Grouping.ofLabel (memberGroup T addr (s.unlabel (tid, i)).ins2Group
      (handingOwner current tid act below rest)) =
    (Grouping.ofLabel (memberGroup T addr s.ins2Group
      (handingOwner current tid act below (i :: rest)))).drop {keyMember T tid act i} := by
  have hins := (unlabel_groups s (tid, i)).2.2.2.2
  apply Grouping.ofLabel_drop
  intro m
  refine ⟨fun hm => ?_, fun hm => ?_⟩
  · rw [Set.mem_singleton_iff.mp hm]
    exact memberGroup_handed hle hi hbelow
  · rw [memberGroup_owner (handingOwner current tid act below (i :: rest))]
    · rcases member_cases T (handingOwner current tid act below (i :: rest)) m with
        ⟨a, rfl⟩ | ⟨t, act', key, rfl, hown⟩ | ⟨hnone, -⟩
      · rfl
      · rw [memberGroup_key hown, memberGroup_key hown, hins, Function.update_of_ne]
        intro heq
        cases heq
        have hact := hown hle
        rw [handingOwner_self, if_pos List.mem_cons_self] at hact
        rw [Option.some.inj hact] at hm
        exact hm rfl
      · rw [hnone, hnone]
    · intro t key _ hne
      by_cases heq : (t, key) = (tid, i)
      · rw [heq, hins, Function.update_self]
      · exact absurd (handingOwner_cons heq).symm hne

/-- The key of the operand, behind the turn of the argument `i`. -/
theorem handingOwner_target (hrest : ∀ key, key ∈ rest ↔ key ∈ args ∧ i < key) :
    handingOwner current tid act (some caller) rest tid key =
      some (if key ∈ args ∧ i < key then act else caller) := by
  rw [handingOwner_self, if_congr (hrest key) rfl rfl]
  split_ifs <;> rfl

/-- The groups that are merged are those of the argument and of the operand. -/
theorem HandedOver.mem_iff {k : Nat} (hH : HandedOver T b s i g key gs k s')
    (hg : s.ins2Group (b.tid, i) = some g) (hle : T.ins.length ≤ i) (hne : act ≠ caller)
    (hrest : ∀ key, key ∈ rest ↔ key ∈ args ∧ i < key) (h : Nat) :
    h ∈ gs ↔
      ∃ m ∈ ({keyMember T b.tid act i, handTarget T b act caller args i key} : Set Member),
        memberGroup T addr s.ins2Group
          (handingOwner current b.tid act (some caller) (i :: rest)) m = some h := by
  have hself : handingOwner current b.tid act (some caller) (i :: rest) b.tid i = some act := by
    rw [handingOwner_self, if_pos List.mem_cons_self]
  rw [hH.groups h]
  simp only [Set.mem_insert_iff, Set.mem_singleton_iff, exists_eq_or_imp, exists_eq_left]
  rw [memberGroup_key fun _ => hself, hg, Option.some.injEq, eq_comm (a := h)]
  refine or_congr_right ?_
  by_cases hki : key = i
  · -- the key is still that of the argument itself
    rw [hki]
    refine iff_of_false (fun hc => hc.1 rfl) fun hc => ?_
    unfold handTarget at hc
    rw [if_neg fun hlt => lt_irrefl i hlt.2, keyMember_argument hle, memberGroup_argument,
      Nat.sub_add_cancel hle, hself, if_neg fun heq => hne (Option.some.inj heq)] at hc
    cases hc
  · unfold handTarget
    rw [memberGroup_key, and_iff_right hki]
    intro _
    rw [handingOwner_cons fun heq => hki (Prod.mk.inj heq).2, handingOwner_target hrest]

/-- All other members keep their group. -/
theorem HandedOver.others {k : Nat} (hH : HandedOver T b s i g key gs k s')
    (hle : T.ins.length ≤ i) (hi : i ∉ rest)
    (hrest : ∀ key, key ∈ rest ↔ key ∈ args ∧ i < key) (hself : m ≠ keyMember T b.tid act i)
    (htarget : m ≠ handTarget T b act caller args i key) :
    memberGroup T (fun a => (addr a).map (joined gs k)) s'.ins2Group
        (handingOwner current b.tid act (some caller) rest) m =
      (memberGroup T addr s.ins2Group
        (handingOwner current b.tid act (some caller) (i :: rest)) m).map (joined gs k) := by
  cases m with
  | address a =>
    unfold memberGroup
    simp only []
    split_ifs <;> rfl
  | value t id =>
    unfold memberGroup
    simp only []
    split_ifs with hid
    · rw [hH.ins, if_neg, if_neg]
      · intro heq
        cases heq
        exact absurd hid hle.not_gt
      · intro heq
        cases heq
        exact htarget (keyMember_value hid).symm
    · rfl
  | argument t act' k' =>
    rw [memberGroup_argument, memberGroup_argument]
    by_cases hti : (t, k' + T.ins.length) = (b.tid, i)
    · -- the key of the argument itself, which is now the caller's
      rcases Prod.mk.inj hti with ⟨rfl, hki⟩
      have hact : act ≠ act' := by
        intro heq
        rw [heq, ← hki, keyMember_add k'] at hself
        exact hself rfl
      rw [hki, handingOwner_self, if_neg hi, handingOwner_self, if_pos List.mem_cons_self,
        if_neg fun heq => hact (Option.some.inj heq), Option.map_none]
      split_ifs with hown
      · rw [hH.ins, if_neg, if_pos rfl]
        intro heq
        refine htarget ?_
        rw [← keyMember_add k', hki, handTarget, ← (Prod.mk.inj heq).2,
          if_neg fun hlt => lt_irrefl i hlt.2, Option.some.inj hown]
      · rfl
    · rw [handingOwner_cons hti]
      split_ifs with hown
      · rw [hH.ins, if_neg, if_neg hti]
        intro heq
        rcases Prod.mk.inj heq with ⟨rfl, hkey⟩
        refine htarget ?_
        rw [hkey, handingOwner_target hrest] at hown
        rw [← keyMember_add k', hkey, handTarget, Option.some.inj hown]
      · rfl

/-- **The groups**, when one argument has been handed over. -/
theorem handOver_turn (h : Handing T b (i :: rest) s) (hi : i ∉ rest)
    (hrest : ∀ key, key ∈ rest ↔ key ∈ args ∧ i < key) (hbelow : below ≠ some act)
    (hcaller : b.isFirst = 1 → below = some caller) (hstep : s.handOver T b i = some s') :
    ∃ f, Regroups f s s' ∧ ∀ addr : Nat → Option Nat,
      Grouping.ofLabel (memberGroup T (fun a => (addr a).map f) s'.ins2Group
        (handingOwner current b.tid act below rest)) =
      ((Grouping.ofLabel (memberGroup T addr s.ins2Group
        (handingOwner current b.tid act below (i :: rest)))).adjoin
          (handLink T b act caller args i)).drop {keyMember T b.tid act i} := by
  rcases h.live i List.mem_cons_self with ⟨hle, hlive⟩
  rcases Option.isSome_iff_exists.mp hlive with ⟨g, hg⟩
  rcases handOver_effect h.consistent hg hstep with ⟨hused, rfl⟩ | ⟨key, gs, k, hused, hH⟩
  · refine ⟨id, Regroups.unlabel h.consistent _, fun addr => ?_⟩
    simp only [Option.map_id_fun, id]
    rw [Grouping.adjoin_eq_self, unlabel_turn hle hi hbelow]
    intro x y hcase
    obtain ⟨key, hkey, -⟩ := hcase
    rw [hused] at hkey
    cases hkey
  · have hbelow' := hcaller (usedKey_first hused)
    subst hbelow'
    have hne : act ≠ caller := fun heq => hbelow (congrArg some heq.symm)
    have hlink : handLink T b act caller args i = fun x y =>
        x ∈ ({keyMember T b.tid act i, handTarget T b act caller args i key} : Set Member) ∧
          y ∈ ({keyMember T b.tid act i, handTarget T b act caller args i key} : Set Member) := by
      funext x y
      unfold handLink
      rw [hused]
      simp
    refine ⟨joined gs k, hH.regroups, fun addr => ?_⟩
    rw [hlink]
    apply Grouping.ofLabel_join_drop (fun h => h ∈ gs) k (joined gs k)
    · exact hH.mem_iff hg hle hne hrest
    · exact Or.inl hH.merged
    · exact fun h hh => joined_of_mem hh
    · exact fun h hh => joined_of_notMem hh
    · intro m hm
      rw [Set.mem_singleton_iff.mp hm]
      exact memberGroup_handed hle hi hbelow
    · intro m hm hD
      have hm' : m = handTarget T b act caller args i key := hm.resolve_left hD
      rw [hm', handTarget, memberGroup_key fun _ => handingOwner_target hrest, hH.ins, if_pos rfl]
    · exact fun m hm hD => hH.others hle hi hrest hD fun heq => hm (Or.inr heq)

/-! ## All arguments are handed over -/

/-- **The loop over the arguments**: their links are adjoined one after the other. -/
theorem handOvers_partition {done : List Nat} (h : Handing T b rest s) (hargs : args = done ++ rest)
    (hsorted : args.Pairwise (· < ·)) (hapart : ArgumentsApart T b args) (hbelow : below ≠ some act)
    (hcaller : b.isFirst = 1 → below = some caller)
    (hrun : run (GroupState.handOver T b) s rest = some s') :
    Handing T b [] s' ∧ (∀ i ∈ rest, ∃ used, usedKey T b i = some used) ∧
      ∃ f, Regroups f s s' ∧ ∀ addr : Nat → Option Nat,
      Grouping.ofLabel (memberGroup T (fun a => (addr a).map f) s'.ins2Group
        (handingOwner current b.tid act below [])) =
      rest.foldl (fun G i =>
          (G.adjoin (handLink T b act caller args i)).drop {keyMember T b.tid act i})
        (Grouping.ofLabel (memberGroup T addr s.ins2Group
          (handingOwner current b.tid act below rest))) := by
  induction rest generalizing s done with
  | nil =>
    cases hrun
    refine ⟨h, fun _ hi => (nomatch hi), id, Regroups.of_eq h.consistent rfl rfl rfl,
      fun addr => ?_⟩
    simp only [Option.map_id_fun, id, List.foldl_nil]
  | cons i rest ih =>
    rcases run_cons_eq_some.mp hrun with ⟨s₁, hstep, hrun⟩
    have hpairs := hsorted
    rw [hargs] at hpairs
    rcases List.pairwise_append.mp hpairs with ⟨-, hcons, hdone⟩
    rcases List.pairwise_cons.mp hcons with ⟨hlt, -⟩
    have himem : i ∈ args := by
      rw [hargs]
      simp
    have hi : i ∉ rest := fun hmem => lt_irrefl i (hlt i hmem)
    have hrest : ∀ key, key ∈ rest ↔ key ∈ args ∧ i < key := by
      intro key
      refine ⟨fun hmem => ⟨by rw [hargs]; simp [hmem], hlt key hmem⟩, fun hmem => ?_⟩
      rw [hargs, List.mem_append, List.mem_cons] at hmem
      rcases hmem.1 with hkey | rfl | hkey
      · exact absurd (hdone key hkey i List.mem_cons_self) hmem.2.not_gt
      · exact absurd hmem.2 (lt_irrefl key)
      · exact hkey
    have h₁ := h.turn hi (fun j hj => hapart i himem j ((hrest j).mp hj).1 (hlt j hj)) hstep
    rcases handOver_turn h hi hrest hbelow hcaller hstep with ⟨f, hf, hturn⟩
    rcases ih h₁ (hargs.trans (List.append_cons done i rest)) hrun with ⟨h', hused, f', hf', hall⟩
    refine ⟨h', List.forall_mem_cons.mpr ⟨?_, hused⟩, f' ∘ f, hf.trans h.consistent hf',
      fun addr => ?_⟩
    · rcases Option.isSome_iff_exists.mp (h.live i List.mem_cons_self).2 with ⟨g, hg⟩
      rcases handOver_effect h.consistent hg hstep with ⟨hu, -⟩ | ⟨key, -, -, hu, -⟩
      · exact ⟨_, hu⟩
      · exact ⟨_, hu⟩
    rw [List.foldl_cons, ← hturn addr, ← hall]
    simp only [Option.map_map]

/-- What the call passes for an argument, and the key of the operand. -/
theorem passed_key {used : Option Nat} (h : usedKey T b i = some used)
    (hcaller : b.isFirst = 1 → below = some caller) :
    b.passed T below (i - T.ins.length) = used.map (keyMember T b.tid caller) := by
  unfold usedKey at h
  unfold SmallestBlock.passed
  by_cases hfirst : b.isFirst = 1 ∧ b.caller ≠ noId
  · rw [if_pos hfirst] at h ⊢
    rcases Option.bind_eq_some_iff.mp h with ⟨info, hinfo, h⟩
    rcases Option.bind_eq_some_iff.mp h with ⟨dep, hdep, hkey⟩
    rw [hcaller hfirst.1, Option.bind_some, hinfo, Option.bind_some, hdep, Option.bind_some,
      operandMember_key hkey]
  · rw [if_neg hfirst] at h ⊢
    cases h
    rfl

/-- All the links together, when the arguments are apart: each argument with what was passed for it. -/
theorem adjoin_handLink {G : Grouping Member} (hle : ∀ i ∈ args, T.ins.length ≤ i)
    (hlive : ∀ k, G.Together (.argument b.tid act k) (.argument b.tid act k) ↔
      k + T.ins.length ∈ args)
    (hused : ∀ i ∈ args, ∃ used, usedKey T b i = some used) (hapart : ArgumentsApart T b args)
    (hcaller : b.isFirst = 1 → below = some caller) :
    (G.adjoin fun x y => ∃ i ∈ args, handLink T b act caller args i x y) =
      G.adjoin fun x y => ∃ k, x = .argument b.tid act k ∧ G.Together x x ∧
        b.passed T below k = some y := by
  have hself : ∀ {i}, i ∈ args → G.Together (keyMember T b.tid act i) (keyMember T b.tid act i) := by
    intro i hi
    rw [keyMember_argument (hle i hi), hlive, Nat.sub_add_cancel (hle i hi)]
    exact hi
  -- what the reference links
  have hpassed : ∀ {i}, i ∈ args → ∀ {key}, usedKey T b i = some (some key) →
      b.passed T below (i - T.ins.length) = some (keyMember T b.tid caller key) :=
    fun _ _ hkey => passed_key hkey hcaller
  have hlink : ∀ {i}, i ∈ args → ∀ {key}, usedKey T b i = some (some key) →
      (G.adjoin fun x y => ∃ k, x = .argument b.tid act k ∧ G.Together x x ∧
        b.passed T below k = some y).Together (keyMember T b.tid act i)
          (keyMember T b.tid caller key) := by
    intro i hi key hkey
    exact Grouping.adjoin_of_rel
      ⟨_, keyMember_argument (hle i hi), hself hi, hpassed hi hkey⟩
  -- what the loop links
  have hloop : ∀ {i}, i ∈ args → ∀ {key}, usedKey T b i = some (some key) →
      (G.adjoin fun x y => ∃ i ∈ args, handLink T b act caller args i x y).Together
        (keyMember T b.tid act i) (keyMember T b.tid caller key) := by
    intro i hi key hkey
    have hfirst : (G.adjoin fun x y => ∃ i ∈ args, handLink T b act caller args i x y).Together
        (keyMember T b.tid act i) (handTarget T b act caller args i key) :=
      Grouping.adjoin_of_rel ⟨i, hi, key, hkey, Or.inl rfl, Or.inr rfl⟩
    unfold handTarget at hfirst
    split_ifs at hfirst with hlt
    · -- the key is handed over to itself later
      have hkept := hapart i hi key hlt.1 hlt.2 hkey
      refine Grouping.trans _ hfirst (Grouping.adjoin_of_rel ⟨key, hlt.1, key, hkept, Or.inl rfl, ?_⟩)
      right
      rw [handTarget, if_neg fun h => lt_irrefl key h.2]
      rfl
    · exact hfirst
  apply Grouping.adjoin_congr
  · intro x y hc
    obtain ⟨i, hi, key, hkey, hx, hy⟩ := hc
    have htarget : (G.adjoin fun x y => ∃ k, x = .argument b.tid act k ∧ G.Together x x ∧
        b.passed T below k = some y).Together (keyMember T b.tid act i)
          (handTarget T b act caller args i key) := by
      unfold handTarget
      split_ifs with hlt
      · have hkept := hapart i hi key hlt.1 hlt.2 hkey
        exact Grouping.trans _ (hlink hi hkey) (Grouping.symm _ (hlink hlt.1 hkept))
      · exact hlink hi hkey
    rcases hx with rfl | rfl
    · rcases hy with rfl | rfl
      · exact Grouping.le_adjoin _ _ (hself hi)
      · exact htarget
    · rcases hy with rfl | rfl
      · exact Grouping.symm _ htarget
      · exact htarget.right
  · intro x y hc
    obtain ⟨k, rfl, hG, hpass⟩ := hc
    have hmem := (hlive k).mp hG
    rcases hused _ hmem with ⟨used, hu⟩
    have hkey := passed_key hu hcaller
    rw [Nat.add_sub_cancel, hpass] at hkey
    rcases Option.map_eq_some_iff.mp hkey.symm with ⟨key, rfl, rfl⟩
    rw [← keyMember_add k]
    exact hloop hmem hu

/-- **One after the other is all at once**, when the arguments are apart. -/
theorem foldl_handLink {G : Grouping Member} (hsorted : args.Pairwise (· < ·))
    (hle : ∀ i ∈ args, T.ins.length ≤ i)
    (hlive : ∀ k, G.Together (.argument b.tid act k) (.argument b.tid act k) ↔
      k + T.ins.length ∈ args)
    (hused : ∀ i ∈ args, ∃ used, usedKey T b i = some used) (hapart : ArgumentsApart T b args)
    (hbelow : below ≠ some act) (hcaller : b.isFirst = 1 → below = some caller) :
    args.foldl (fun G i => (G.adjoin (handLink T b act caller args i)).drop
      {keyMember T b.tid act i}) G = G.handOver T b act below := by
  have hne : ∀ {i key}, usedKey T b i = some (some key) → act ≠ caller := by
    intro i key hkey heq
    exact hbelow ((hcaller (usedKey_first hkey)).trans (congrArg some heq.symm))
  rw [Grouping.foldl_adjoin_drop]
  swap
  · refine hsorted.imp_of_mem fun {i j} hi hj hij x y hlink => ?_
    rcases hlink with ⟨key, hkey, hx, hy⟩
    have hother : ∀ z ∈ ({keyMember T b.tid act j, handTarget T b act caller args j key} :
        Set Member), z ≠ keyMember T b.tid act i := by
      rintro z (rfl | rfl) heq
      · have := (keyMember_inj heq).2.1
        omega
      · rcases keyMember_inj heq with ⟨-, rfl, hact⟩
        rw [if_neg fun hlt => absurd hlt.2 hij.not_gt] at hact
        exact hne hkey (hact (hle key hi)).symm
    exact ⟨hother x hx, hother y hy⟩
  rw [adjoin_handLink hle hlive hused hapart hcaller]
  unfold Grouping.handOver
  -- the arguments in no group need not be dropped
  have hsub : {m | ∃ i ∈ args, m = keyMember T b.tid act i} ∪ {m | ∃ k, m = .argument b.tid act k} =
      {m | ∃ k, m = .argument b.tid act k} := by
    apply Set.union_eq_self_of_subset_left
    intro m hc
    obtain ⟨i, hi, rfl⟩ := hc
    exact ⟨_, keyMember_argument (hle i hi)⟩
  rw [← hsub, ← Grouping.drop_drop]
  refine (Grouping.drop_of_alone ?_).symm
  rintro m ⟨k, rfl⟩ ⟨htogether, hnot, -⟩
  have hmem : k + T.ins.length ∉ args := by
    intro hmem
    exact hnot ⟨_, hmem, (keyMember_add k).symm⟩
  rcases Grouping.adjoin_self htogether with hG | ⟨y, ⟨k', -, hG, -⟩ | ⟨k', rfl, hG, hpass⟩⟩
  · exact hmem ((hlive k).mp hG)
  · exact hmem ((hlive k).mp hG)
  · rcases hused _ ((hlive k').mp hG) with ⟨used, hu⟩
    have hkey := passed_key hu hcaller
    rw [Nat.add_sub_cancel, hpass] at hkey
    rcases Option.map_eq_some_iff.mp hkey.symm with ⟨key, rfl, heq⟩
    rw [← keyMember_add k] at heq
    rcases keyMember_inj heq with ⟨-, rfl, hact⟩
    exact hne hu (hact (Nat.le_add_left _ _)).symm

/-! ## The whole of it -/

/-- Between two blocks the labelled arguments are those in a group. -/
structure GroupState.Labelled (T : Tables) (s : GroupState) : Prop where
  consistent : s.Consistent
  labelled : ∀ t key, key ∈ s.labeledArgs t ↔
    T.ins.length ≤ key ∧ (s.ins2Group (t, key)).isSome
  sorted : ∀ t, (s.labeledArgs t).Pairwise (· < ·)

/-- The labels of the thread `tid` are those of the activation `o`. -/
def ownedBy (current : Nat → Option Nat) (tid : Nat) (o : Option Nat) (t _key : Nat) : Option Nat :=
  Function.update current tid o t

theorem ownedBy_self {o : Option Nat} : ownedBy current tid o tid key = o :=
  Function.update_self ..

theorem Handing.labelled_of_nil (h : Handing T b [] s) : s.Labelled T where
  consistent := h.consistent
  labelled t key := by
    refine ⟨h.labelled t key, fun hkey => ?_⟩
    rcases h.known t key hkey.1 hkey.2 with hmem | ⟨-, hmem⟩
    · exact hmem
    · cases hmem
  sorted := h.sorted

/-- Before the loop over the arguments. -/
theorem GroupState.Labelled.handing (h : s.Labelled T) (b : SmallestBlock) :
    Handing T b (s.labeledArgs b.tid) (s.clearArgs b.tid) where
  consistent := h.consistent.of_eq rfl rfl rfl h.consistent.ins_live h.consistent.paired
  live key hkey := (h.labelled b.tid key).mp hkey
  labelled t key hkey := by
    replace hkey : key ∈ Function.update s.labeledArgs b.tid [] t := hkey
    by_cases ht : t = b.tid
    · rw [ht, Function.update_self] at hkey
      cases hkey
    · rw [Function.update_of_ne ht] at hkey
      exact (h.labelled t key).mp hkey
  known t key hle hlive := by
    have hmem := (h.labelled t key).mpr ⟨hle, hlive⟩
    show key ∈ Function.update s.labeledArgs b.tid [] t ∨ _
    by_cases ht : t = b.tid
    · rw [ht] at hmem
      exact Or.inr ⟨ht, hmem⟩
    · rw [Function.update_of_ne ht]
      exact Or.inl hmem
  kept key _ hkey := by
    replace hkey : key ∈ Function.update s.labeledArgs b.tid [] b.tid := hkey
    rw [Function.update_self] at hkey
    cases hkey
  sorted t := by
    show (Function.update s.labeledArgs b.tid [] t).Pairwise _
    by_cases ht : t = b.tid
    · rw [ht, Function.update_self]
      exact .nil
    · rw [Function.update_of_ne ht]
      exact h.sorted t

/-- **The second part of `MergeInst`** in the first block of the activation `act`. -/
theorem relabel_partition (h : s.Labelled T) (hfirst : b.isFirst = 1 ∨ b.isFirst = 2)
    (hapart : ArgumentsApart T b (s.labeledArgs b.tid)) (hbelow : below ≠ some act)
    (hcaller : b.isFirst = 1 → below = some caller) (hrelabel : s.relabel T b = some s') :
    s'.Labelled T ∧ ∃ f, Regroups f s s' ∧ ∀ addr : Nat → Option Nat,
      Grouping.ofLabel (memberGroup T (fun a => (addr a).map f) s'.ins2Group
        (ownedBy current b.tid below)) =
      (Grouping.ofLabel (memberGroup T addr s.ins2Group
        (ownedBy current b.tid (some act)))).handOver T b act below := by
  unfold GroupState.relabel at hrelabel
  rw [if_pos hfirst] at hrelabel
  have hhanding := h.handing b
  have hargs : s.labeledArgs b.tid = [] ++ s.labeledArgs b.tid := rfl
  rcases handOvers_partition hhanding hargs (h.sorted b.tid) hapart hbelow hcaller hrelabel with
    ⟨hend, hused, f, hf, hall⟩
  have hclear : Regroups id s (s.clearArgs b.tid) := Regroups.of_eq hhanding.consistent rfl rfl rfl
  refine ⟨hend.labelled_of_nil, f ∘ id, hclear.trans h.consistent hf, fun addr => ?_⟩
  have hstart : memberGroup T addr (s.clearArgs b.tid).ins2Group
      (handingOwner current b.tid act below (s.labeledArgs b.tid)) =
        memberGroup T addr s.ins2Group (ownedBy current b.tid (some act)) := by
    apply memberGroup_owner
    intro t key hle hne
    by_cases ht : t = b.tid
    · subst ht
      rw [handingOwner_self, ownedBy_self] at hne
      split_ifs at hne with hmem
      · exact absurd rfl hne
      · apply Option.not_isSome_iff_eq_none.mp
        exact fun hlive => hmem ((h.labelled b.tid key).mpr ⟨hle, hlive⟩)
    · rw [handingOwner_of_ne ht, ownedBy, Function.update_of_ne ht] at hne
      exact absurd rfl hne
  have howner : handingOwner current b.tid act below [] = ownedBy current b.tid below := by
    funext t key
    by_cases ht : t = b.tid
    · rw [ht, handingOwner_self, ownedBy_self, if_neg List.not_mem_nil]
    · rw [handingOwner_of_ne ht, ownedBy, Function.update_of_ne ht]
  have hthis := hall addr
  have hlive : ∀ k, (Grouping.ofLabel (memberGroup T addr s.ins2Group
      (ownedBy current b.tid (some act)))).Together (.argument b.tid act k) (.argument b.tid act k) ↔
        k + T.ins.length ∈ s.labeledArgs b.tid := by
    intro k
    rw [Grouping.ofLabel_self, memberGroup_argument, if_pos ownedBy_self, h.labelled]
    exact (and_iff_right (Nat.le_add_left _ _)).symm
  rw [howner, hstart, foldl_handLink (h.sorted b.tid) (fun i hi => (hhanding.live i hi).1) hlive
    hused hapart hbelow hcaller] at hthis
  exact hthis

end

end Slimmer
