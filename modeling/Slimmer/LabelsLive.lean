import Slimmer.GroupBlocks

/-!
# Labels and members

**Theorem (`labels_live`).** Between any two blocks of any trace `Ins2Group` and `Group2Ins` are
inverse to each other, and a group that an instruction or an argument is in has a tree. In every call
of `Merging` all the groups have trees: its guard leaves none out, and there is a tree to start with.

`Merging` is called in three places (`MergingCall`): with the groups of an instruction and its
operands, with the groups of an argument and the operand it is handed over to, and with the groups
that a declaration finds. In the first two a group has been read off `Ins2Group` since the last
merge, under the name it has now.
-/

namespace Slimmer

/-- The calls of `Merging` on a trace: the state before it and the groups. -/
inductive MergingCall (T : Tables) (trace : List SmallestBlock) : GroupState → List Nat → Prop
  /-- Of an instruction and its operands. -/
  | operands {s : GroupState} {shouldMerge keys : List Nat} {ins : Nat × Nat} {b : SmallestBlock}
      {i : InstInfo} (hcall : MergeCall T trace s shouldMerge ins b) (hi : T.ins[ins.2]? = some i)
      (hkeys : operandKeys T i.ssaDependencies = some keys) :
      MergingCall T trace s (s.operandGroups keys shouldMerge ins b.tid)
  /-- Of an argument and the operand of the call. -/
  | argument {s s₁ s₂ : GroupState} {shouldMerge done rest : List Nat} {ins : Nat × Nat}
      {b : SmallestBlock} {g argGroup h i key : Nat}
      (hcall : MergeCall T trace s shouldMerge ins b)
      (hmerge : s.mergeOperands T shouldMerge ins b.tid = some (g, s₁))
      (hfirst : b.isFirst = 1 ∨ b.isFirst = 2) (hargs : s₁.labeledArgs b.tid = done ++ i :: rest)
      (hdone : run (GroupState.handOver T b) (s₁.clearArgs b.tid) done = some s₂)
      (harg : s₂.ins2Group (b.tid, i) = some argGroup) (hkey : usedKey T b i = some (some key))
      (hgroup : (s₂.unlabel (b.tid, i)).ins2Group (b.tid, key) = some h) :
      MergingCall T trace (s₂.unlabel (b.tid, i)) (insertSorted h [argGroup])
  /-- Of a declaration. -/
  | declare {pre post : List SmallestBlock} {b : SmallestBlock} {s : GroupState}
      {segs : List (Segment Nat)} (hsplit : trace.reverse = pre ++ b :: post)
      (hrun : run (groupStep T) {} pre = some s) (htype : b.type = .declareBlock)
      (hsegs : s.blockSegments b = some segs) : MergingCall T trace s (segmentGroups segs)

section

variable {T : Tables} {trace : List SmallestBlock} {s : GroupState} {groups : List Nat}

/-- **The groups of a call have trees.** -/
theorem MergingCall.live (hcall : MergingCall T trace s groups) (hword : ∀ b ∈ trace, b.Words) :
    ∀ g ∈ groups, s.Live g := by
  cases hcall with
  | operands hcall =>
    rcases hcall.ready hword with ⟨hs, -, hsorted, hlive⟩
    exact operandGroups_live hs _ _ _ hsorted hlive
  | @argument _ s₁ s₂ _ _ _ _ b _ argGroup h i key hcall hmerge _ _ hdone harg _ hgroup =>
    rcases hcall.ready hword with ⟨hs, -, hsorted, hlive⟩
    rcases mergeOperands_effect hs hsorted hlive hmerge with ⟨_, _, _, _, _, hM⟩
    rcases handOvers_spec (hM.regroups.consistent.clearArgs b.tid) hdone with ⟨f, hf, -⟩
    have hunlabel := Regroups.unlabel hf.consistent (b.tid, i)
    intro k hk
    rcases mem_pair.mp hk with rfl | rfl
    · exact hunlabel.consistent.ins_live _ k hgroup
    · -- its label has just been erased, the group stays
      exact hunlabel.renames.live k (hf.consistent.ins_live _ k harg)
  | @declare _ _ b _ _ hsplit hrun _ hsegs =>
    have hs := consistent_of_run hword hsplit hrun
    have hb : b.Words := hword b (List.mem_reverse.mp (by rw [hsplit]; simp))
    exact (looked_block hs hb hsegs).live hs

/-- **Labels and members are inverse, and live.** -/
theorem labels_live (hword : ∀ b ∈ trace, b.Words) :
    (∀ pre post s, trace.reverse = pre ++ post → run (groupStep T) {} pre = some s →
      ∀ x g, (s.ins2Group x = some g ↔ x ∈ s.group2Ins g) ∧ (x ∈ s.group2Ins g → s.Live g)) ∧
    ∀ s groups, MergingCall T trace s groups → (∀ g ∈ groups, s.Live g) ∧
      (groups.filterMap s.group2Addr).length = groups.length ∧
      (groups ≠ [] → groups.filterMap s.group2Addr ≠ []) := by
  constructor
  · intro pre post s hsplit hrun x g
    have hs := consistent_of_run hword hsplit hrun
    exact ⟨hs.paired x g, fun hx => hs.ins_live x g ((hs.paired x g).mpr hx)⟩
  · intro s groups hcall
    have hlive := hcall.live hword
    have hlength : (groups.filterMap s.group2Addr).length = groups.length :=
      List.filterMap_length_eq_length.mpr hlive
    refine ⟨hlive, hlength, fun hne hnil => hne ?_⟩
    rw [hnil] at hlength
    exact List.length_eq_zero_iff.mp hlength.symm

/-- In the first block of `g` the new group of its argument is joined with the group of the pointer
that `f` passes. -/
theorem labels_live_entry : ∃ s, MergingCall entryTables entryTrace s [1, 2] ∧
    (∀ g ∈ [1, 2], s.Live g) ∧ ([1, 2].filterMap s.group2Addr).length = 2 := by
  have hstates : ((run (groupStep entryTables) {} callTail.reverse).bind fun s =>
      (s.blockSegments entryBlock).bind fun segs =>
        (s.mergeOperands entryTables (segmentGroups segs) (0, 0) 0).map fun r =>
          (r.2.labeledArgs 0, r.2.ins2Group (0, 6),
            ((r.2.clearArgs 0).unlabel (0, 6)).ins2Group (0, 2))) = some ([6], some 2, some 1) := by
    decide +kernel
  simp only [Option.bind_eq_some_iff, Option.map_eq_some_iff, Prod.exists, Prod.mk.injEq] at hstates
  rcases hstates with ⟨s, hs, segs, hsegs, g, s₁, hmerge, hargs, harg, hgroup⟩
  have hcall : MergeCall entryTables entryTrace s (segmentGroups segs) (0, 0) entryBlock :=
    .access (l := 100) (r := 104) rfl hs (Or.inl rfl) rfl rfl (by decide) rfl hsegs
  have hmerging : MergingCall entryTables entryTrace ((s₁.clearArgs 0).unlabel (0, 6)) [1, 2] :=
    .argument hcall hmerge (Or.inl rfl) (show _ = [] ++ 6 :: [] from hargs) rfl harg rfl hgroup
  rcases (labels_live (by decide)).2 _ _ hmerging with ⟨hlive, hlength, -⟩
  exact ⟨_, hmerging, hlive, hlength⟩

end

end Slimmer
