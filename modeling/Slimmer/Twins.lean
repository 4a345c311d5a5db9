import Slimmer.MemoryClosed

/-!
# A turn and its thread

A turn for a block of thread `tid` works on the entries of this thread in the maps and sets of the
backward pass, and on its stacks. The only state it shares with the turns of other threads is
`mem_depended`: it asks for executions of its own thread and inserts dependencies of any thread.

Two states that agree on the thread (`Agree`, where `M` holds the executions that the turn meets)
are *twins*: the turn is blocked in both, or it leads to states that agree again, passes the same
executions to `OneInstruction`, and moves the rest alike (`Moved`). `Twin` says this of one step,
`extractStep_twin` of a turn.
-/

namespace Slimmer

/-! ## Twins -/

/-- The sets say the same of the thread `tid`, and `mem_depended` of the executions in `M`. -/
structure SetsAgree (tid : Nat) (M : Set DynamicInst) (t u : PassSets) : Prop where
  instCount : ∀ id, u.instCount (tid, id) = t.instCount (tid, id)
  needed : ∀ id, (tid, id) ∈ u.needed ↔ (tid, id) ∈ t.needed
  memDepended : ∀ d ∈ M, (d ∈ u.memDepended ↔ d ∈ t.memDepended)
  unneededDI : ∀ d : DynamicInst, d.tid = tid → (d ∈ u.unneededDI ↔ d ∈ t.unneededDI)

/-- The thread `tid` passes the executions `new` to `OneInstruction`, and leaves the other threads
alone. -/
structure SetsMoved (I : PassInput) (tid : Nat) (M : Set DynamicInst) (new : List DynamicInst)
    (t t' : PassSets) : Prop where
  instCount : ∀ key : Nat × Nat, key.1 ≠ tid → t'.instCount key = t.instCount key
  needed : ∀ key : Nat × Nat, key.1 ≠ tid → (key ∈ t'.needed ↔ key ∈ t.needed)
  memDepended : ∀ d, d ∉ M →
    (d ∈ t'.memDepended ↔ d ∈ t.memDepended ∨ ∃ e ∈ new, d ∈ I.memDependencies e)
  unneededDI : ∀ d : DynamicInst, d.tid ≠ tid → (d ∈ t'.unneededDI ↔ d ∈ t.unneededDI)
  found : t'.found.map Found.inst = new ++ t.found.map Found.inst

/-- `t` goes to `t'` as `u` goes to `u'`. -/
def SetsTwin (I : PassInput) (tid : Nat) (M : Set DynamicInst) (t u t' u' : PassSets) : Prop :=
  SetsAgree tid M t' u' ∧
    ∃ new, SetsMoved I tid M new t t' ∧ SetsMoved I tid M new u u'

/-- The states agree on the thread `tid`. -/
structure Agree (tid : Nat) (M : Set DynamicInst) (s z : PassState) : Prop where
  sets : SetsAgree tid M s.toPassSets z.toPassSets
  funUsed : z.funUsed tid = s.funUsed tid
  nextBBUsed : z.nextBBUsed tid = s.nextBBUsed tid
  terminatorStack : z.terminatorStack tid = s.terminatorStack tid

/-- A step of the thread `tid`. -/
structure Moved (I : PassInput) (tid : Nat) (M : Set DynamicInst) (new : List DynamicInst)
    (s s' : PassState) : Prop where
  sets : SetsMoved I tid M new s.toPassSets s'.toPassSets
  funUsed : ∀ tid', tid' ≠ tid → s'.funUsed tid' = s.funUsed tid'
  nextBBUsed : ∀ tid', tid' ≠ tid → s'.nextBBUsed tid' = s.nextBBUsed tid'
  terminatorStack : ∀ tid', tid' ≠ tid → s'.terminatorStack tid' = s.terminatorStack tid'

/-- `s` goes to `s'` as `z` goes to `z'`. -/
def Twin (I : PassInput) (tid : Nat) (M : Set DynamicInst) (s z s' z' : PassState) : Prop :=
  Agree tid M s' z' ∧ ∃ new, Moved I tid M new s s' ∧ Moved I tid M new z z'

section

variable {I : PassInput} {tid : Nat} {M : Set DynamicInst} {t u t' u' t₁ u₁ : PassSets}
  {s z s' z' s₁ z₁ : PassState} {new new' : List DynamicInst} {b : SmallestBlock}
  {d : DynamicInst}

theorem SetsMoved.refl (t : PassSets) : SetsMoved I tid M [] t t :=
  ⟨fun _ _ => rfl, fun _ _ => Iff.rfl, fun d _ => by simp, fun _ _ => Iff.rfl, rfl⟩

theorem SetsMoved.trans (h : SetsMoved I tid M new t t₁) (h' : SetsMoved I tid M new' t₁ t') :
    SetsMoved I tid M (new' ++ new) t t' where
  instCount key hkey := (h'.instCount key hkey).trans (h.instCount key hkey)
  needed key hkey := (h'.needed key hkey).trans (h.needed key hkey)
  memDepended d hd := by
    rw [h'.memDepended d hd, h.memDepended d hd, or_assoc]
    simp only [List.mem_append, or_and_right, exists_or]
    rw [or_comm (b := ∃ e, e ∈ new' ∧ _)]
  unneededDI d hd := (h'.unneededDI d hd).trans (h.unneededDI d hd)
  found := by rw [h'.found, h.found, List.append_assoc]

theorem SetsTwin.refl (h : SetsAgree tid M t u) : SetsTwin I tid M t u t u :=
  ⟨h, [], .refl t, .refl u⟩

theorem SetsTwin.trans (h : SetsTwin I tid M t u t₁ u₁) (h' : SetsTwin I tid M t₁ u₁ t' u') :
    SetsTwin I tid M t u t' u' := by
  rcases h with ⟨-, new, ht, hu⟩
  rcases h' with ⟨hagree, new', ht', hu'⟩
  exact ⟨hagree, new' ++ new, ht.trans ht', hu.trans hu'⟩

theorem Moved.trans (h : Moved I tid M new s s₁) (h' : Moved I tid M new' s₁ s') :
    Moved I tid M (new' ++ new) s s' where
  sets := h.sets.trans h'.sets
  funUsed tid' ht := (h'.funUsed tid' ht).trans (h.funUsed tid' ht)
  nextBBUsed tid' ht := (h'.nextBBUsed tid' ht).trans (h.nextBBUsed tid' ht)
  terminatorStack tid' ht := (h'.terminatorStack tid' ht).trans (h.terminatorStack tid' ht)

theorem Moved.of_sets (h : SetsMoved I tid M new s.toPassSets t) :
    Moved I tid M new s { s with toPassSets := t } :=
  ⟨h, fun _ _ => rfl, fun _ _ => rfl, fun _ _ => rfl⟩

theorem Twin.refl (h : Agree tid M s z) : Twin I tid M s z s z :=
  ⟨h, [], .of_sets (.refl _), .of_sets (.refl _)⟩

theorem Twin.trans (h : Twin I tid M s z s₁ z₁) (h' : Twin I tid M s₁ z₁ s' z') :
    Twin I tid M s z s' z' := by
  rcases h with ⟨-, new, hs, hz⟩
  rcases h' with ⟨hagree, new', hs', hz'⟩
  exact ⟨hagree, new' ++ new, hs.trans hs', hz.trans hz'⟩

/-- A step behind a step. -/
theorem Twin.rel_trans {x y : Option PassState} (h : Twin I tid M s z s₁ z₁)
    (hxy : Option.Rel (Twin I tid M s₁ z₁) x y) : Option.Rel (Twin I tid M s z) x y := by
  cases hxy with
  | none => exact .none
  | some h' => exact .some (h.trans h')

/-- Only the sets have changed. -/
theorem SetsTwin.lift (h : Agree tid M s z) (ht : SetsTwin I tid M s.toPassSets z.toPassSets t u) :
    Twin I tid M s z { s with toPassSets := t } { z with toPassSets := u } := by
  rcases ht with ⟨hagree, new, ht, hu⟩
  exact ⟨⟨hagree, h.funUsed, h.nextBBUsed, h.terminatorStack⟩, new, .of_sets ht, .of_sets hu⟩

/-! ## `OneInstruction` -/

theorem SetsAgree.name (h : SetsAgree tid M t u) (id : Nat) : u.name tid id = t.name tid id := by
  rw [PassSets.name, PassSets.name, h.instCount]

/-- The keys that `OneInstruction` inserts are of the thread of the execution. -/
theorem oneInstruction_rel {lastBBID : Int} {n n' : Finset (Nat × Nat)} {m m' : Finset DynamicInst} :
    Option.Rel (fun r r' => ∃ keys : Finset (Nat × Nat), (∀ key ∈ keys, key.1 = d.tid) ∧
        r = (n.erase d.key ∪ keys, m.erase d ∪ I.memDependencies d) ∧
        r' = (n'.erase d.key ∪ keys, m'.erase d ∪ I.memDependencies d))
      (oneInstruction I d lastBBID n m) (oneInstruction I d lastBBID n' m') := by
  unfold oneInstruction
  cases I.tables.ins[d.id]? with
  | none => exact .none
  | some i =>
    refine .some ⟨_, fun key hkey => ?_, rfl, rfl⟩
    rcases List.mem_map.mp (List.mem_toFinset.mp hkey) with ⟨id, -, rfl⟩
    rfl

/-- The execution `d` of the thread is passed to `OneInstruction`, with any set of keys. -/
theorem SetsAgree.find {n m : Finset (Nat × Nat)} {p q : Finset DynamicInst}
    (h : SetsAgree tid M t u) (hM : d ∈ M) {f g : Found} (hf : f.inst = d) (hg : g.inst = d)
    (hn : ∀ key : Nat × Nat, key.1 ≠ tid → (key ∈ n ↔ key ∈ t.needed))
    (hm : ∀ key : Nat × Nat, key.1 ≠ tid → (key ∈ m ↔ key ∈ u.needed))
    (hnm : ∀ id, (tid, id) ∈ m ↔ (tid, id) ∈ n)
    (hp : ∀ e : DynamicInst, e.tid ≠ tid → (e ∈ p ↔ e ∈ t.unneededDI))
    (hq : ∀ e : DynamicInst, e.tid ≠ tid → (e ∈ q ↔ e ∈ u.unneededDI))
    (hpq : ∀ e : DynamicInst, e.tid = tid → (e ∈ q ↔ e ∈ p)) :
    SetsTwin I tid M t u
      { t with
        needed := n
        memDepended := t.memDepended.erase d ∪ I.memDependencies d
        unneededDI := p
        found := f :: t.found }
      { u with
        needed := m
        memDepended := u.memDepended.erase d ∪ I.memDependencies d
        unneededDI := q
        found := g :: u.found } := by
  have hmem : ∀ s : Finset DynamicInst, ∀ e, e ∉ M →
      (e ∈ s.erase d ∪ I.memDependencies d ↔
        e ∈ s ∨ ∃ e' ∈ [d], e ∈ I.memDependencies e') := by
    intro s e he
    have hne : e ≠ d := fun heq => he (heq ▸ hM)
    simp [hne]
  refine ⟨⟨h.instCount, hnm, fun e he => ?_, hpq⟩, [d],
    ⟨fun _ _ => rfl, hn, hmem _, hp, by simp [hf]⟩,
    ⟨fun _ _ => rfl, hm, hmem _, hq, by simp [hg]⟩⟩
  simp only [Finset.mem_union, Finset.mem_erase, h.memDepended e he]

/-- `report` puts the execution into `unneeded_di` in every state, or in none. -/
def ReportsAlike (d : DynamicInst) (report : PassSets → PassSets) : Prop :=
  Reports d report ∧ ((∀ s, (report s).unneededDI = insert d s.unneededDI) ∨
    ∀ s, (report s).unneededDI = s.unneededDI)

theorem reportsAlike_id : ReportsAlike d fun s => s := ⟨reports_id, Or.inr fun _ => rfl⟩

theorem reportsAlike_access : ReportsAlike d (PassSets.reportAccess b d) := by
  refine ⟨reports_reportAccess, Or.inl fun s => ?_⟩
  unfold PassSets.reportAccess
  split_ifs
  · rfl
  · rfl

theorem reportsAlike_normal (i : InstInfo) :
    ReportsAlike d fun s => if i.reported then s.report d else s := by
  refine ⟨reports_normal i, ?_⟩
  by_cases hi : i.reported
  · exact Or.inl fun s => by simp only [if_pos hi, PassSets.report]
  · exact Or.inr fun s => by simp only [if_neg hi]

/-- An execution is counted. -/
theorem SetsAgree.bump (h : SetsAgree tid M t u) (hd : d.tid = tid) :
    SetsTwin I tid M t u (t.bump d.key) (u.bump d.key) := by
  have hmoved : ∀ t : PassSets, SetsMoved I tid M [] t (t.bump d.key) := by
    intro t
    refine ⟨fun key hkey => ?_, fun _ _ => Iff.rfl, fun e _ => by simp [PassSets.bump],
      fun _ _ => Iff.rfl, rfl⟩
    exact Function.update_of_ne (fun heq => hkey (by rw [heq]; exact hd)) _ _
  refine ⟨⟨fun id => ?_, h.needed, h.memDepended, h.unneededDI⟩, [], hmoved t, hmoved u⟩
  have hkey : t.instCount d.key = u.instCount d.key := by
    have := h.instCount d.id
    rw [← hd] at this
    exact this.symm
  show Function.update u.instCount d.key _ (tid, id) = Function.update t.instCount d.key _ (tid, id)
  rw [Function.update_apply, Function.update_apply, hkey, h.instCount]

/-- An execution of the thread is met in the main loop. -/
theorem SetsAgree.visit {pos pos' : Nat} {n : Bool} {report : PassSets → PassSets}
    (h : SetsAgree tid M t u) (hd : d.tid = tid) (hM : d ∈ M) (hreport : ReportsAlike d report) :
    Option.Rel (SetsTwin I tid M t u) (t.visit I pos b d n report) (u.visit I pos' b d n report) := by
  unfold PassSets.visit
  cases n with
  | true =>
    refine rel_map oneInstruction_rel fun r r' _ _ hr => ?_
    rcases hr with ⟨keys, hkeys, rfl, rfl⟩
    have hkey : ∀ (m : Finset (Nat × Nat)) (key : Nat × Nat), key.1 ≠ tid →
        (key ∈ m.erase d.key ∪ keys ↔ key ∈ m) := by
      intro m key hne
      have h₁ : key ≠ d.key := fun heq => hne (by rw [heq]; exact hd)
      have h₂ : key ∉ keys := fun hmem => hne ((hkeys key hmem).trans hd)
      simp [h₁, h₂]
    have hfind := h.find (I := I) (f := ⟨d, b.lastBBID, false, pos⟩)
      (g := ⟨d, b.lastBBID, false, pos'⟩) (p := t.unneededDI) (q := u.unneededDI) hM rfl rfl
      (hkey t.needed) (hkey u.needed) (fun id => ?_) (fun _ _ => Iff.rfl) (fun _ _ => Iff.rfl)
      h.unneededDI
    · exact hfind.trans (hfind.1.bump hd)
    · simp only [Finset.mem_union, Finset.mem_erase, h.needed id]
  | false =>
    rcases hreport with ⟨hreport, hinsert⟩
    have hun : ∀ (t : PassSets) (e : DynamicInst), e.tid ≠ tid →
        (e ∈ (report t).unneededDI ↔ e ∈ t.unneededDI) := by
      intro t e he
      refine ⟨fun hmem => ?_, fun hmem => hreport.mono t hmem⟩
      rcases hreport.unneeded t e hmem with rfl | hmem
      · exact absurd hd he
      · exact hmem
    have hmoved : ∀ t : PassSets, SetsMoved I tid M [] t (report t) := by
      intro t
      refine ⟨fun key _ => by rw [hreport.instCount], fun key _ => by rw [hreport.needed],
        fun e _ => by simp [hreport.memDepended], hun t, by rw [hreport.found, List.nil_append]⟩
    have hagree : SetsAgree tid M (report t) (report u) := by
      refine ⟨fun id => ?_, fun id => ?_, fun e he => ?_, fun e he => ?_⟩
      · rw [hreport.instCount, hreport.instCount, h.instCount]
      · rw [hreport.needed, hreport.needed, h.needed]
      · rw [hreport.memDepended, hreport.memDepended, h.memDepended e he]
      · rcases hinsert with hinsert | hinsert
        · rw [hinsert, hinsert, Finset.mem_insert, Finset.mem_insert, h.unneededDI e he]
        · rw [hinsert, hinsert, h.unneededDI e he]
    have hstep : SetsTwin I tid M t u (report t) (report u) := ⟨hagree, [], hmoved t, hmoved u⟩
    exact .some (hstep.trans (hagree.bump hd))

/-! ## `OneBlock` -/

/-- Two scans side by side, with the same `this_needed`. -/
structure ScanTwin (I : PassInput) (b : SmallestBlock) (M : Set DynamicInst) (t u : PassSets)
    (sc sc' : Finset (Nat × Nat) × PassSets) : Prop where
  needed : sc'.1 = sc.1
  keys : ∀ key ∈ sc.1, key.1 = b.tid
  sets : SetsTwin I b.tid M t u sc.2 sc'.2
  instCount : sc.2.instCount = t.instCount

theorem ScanTwin.find {pos pos' : Nat} {sc sc' : Finset (Nat × Nat) × PassSets}
    (h : ScanTwin I b M t u sc sc') (hd : d.tid = b.tid) (hM : d ∈ M) :
    Option.Rel (ScanTwin I b M t u) (scanFound I b pos d sc) (scanFound I b pos' d sc') := by
  refine rel_map (oneInstruction_rel (n := sc.1) (m := sc.2.memDepended)) fun r r' _ _ hr => ?_
  rw [← h.needed] at hr
  rcases hr with ⟨keys, hkeys, rfl, rfl⟩
  refine ⟨by rw [h.needed], fun key hkey => ?_, h.sets.trans ?_, h.instCount⟩
  · rcases Finset.mem_union.mp hkey with hkey | hkey
    · exact h.keys key (by rw [← h.needed]; exact Finset.mem_of_mem_erase hkey)
    · exact (hkeys key hkey).trans hd
  · have hagree := h.sets.1
    have herase : ∀ (m : Finset DynamicInst) (e : DynamicInst), e.tid ≠ b.tid →
        (e ∈ m.erase d ↔ e ∈ m) := by
      intro m e he
      have hne : e ≠ d := fun heq => he (heq ▸ hd)
      simp [hne]
    refine hagree.find hM (n := sc.2.needed) (m := sc'.2.needed) rfl rfl (fun _ _ => Iff.rfl)
      (fun _ _ => Iff.rfl) hagree.needed (herase _) (herase _) fun e he => ?_
    rw [Finset.mem_erase, Finset.mem_erase, hagree.unneededDI e he]

theorem ScanTwin.next {pos pos' id : Nat} {sc sc' : Finset (Nat × Nat) × PassSets}
    (h : ScanTwin I b M t u sc sc') (hM : rescanned b t d id ∈ M) :
    Option.Rel (ScanTwin I b M t u) (scanInst I b pos (cntDiff t d b) sc id)
      (scanInst I b pos' (cntDiff t d b) sc' id) := by
  have hname : scanName b (cntDiff t d b) sc.2 id = rescanned b t d id := by
    unfold rescanned scanName
    rw [h.instCount]
  have hname' : scanName b (cntDiff t d b) sc'.2 id = rescanned b t d id := by
    rw [← hname, scanName, scanName, h.sets.1.instCount]
  have hiff : ((rescanned b t d id).key ∈ sc'.1 ∨ rescanned b t d id ∈ sc'.2.memDepended) ↔
      ((rescanned b t d id).key ∈ sc.1 ∨ rescanned b t d id ∈ sc.2.memDepended) := by
    rw [h.needed, h.sets.1.memDepended _ hM]
  unfold scanInst
  rw [hname, hname']
  by_cases hfind : (rescanned b t d id).key ∈ sc.1 ∨ rescanned b t d id ∈ sc.2.memDepended
  · simp only [if_pos hfind, if_pos (hiff.mpr hfind)]
    exact h.find rfl hM
  · simp only [if_neg hfind, if_neg fun hc => hfind (hiff.mp hc)]
    exact .some h

/-- **`OneBlock`** in two states that agree. -/
theorem SetsAgree.oneBlock {pos pos' nextBBID : Nat} (h : SetsAgree b.tid M t u)
    (hd : d.tid = b.tid) (hM : d ∈ M)
    (hscan : ∀ bb, I.tables.bb2Ins[nextBBID]? = some bb → ∀ id ∈ bb, rescanned b t d id ∈ M) :
    Option.Rel (SetsTwin I b.tid M t u) (Slimmer.oneBlock I pos t d b nextBBID)
      (Slimmer.oneBlock I pos' u d b nextBBID) := by
  have hinit : ScanTwin I b M t u (∅, t) (∅, u) :=
    ⟨rfl, fun key hkey => absurd hkey (Finset.notMem_empty key), .refl h, rfl⟩
  have hdiff : cntDiff u d b = cntDiff t d b := by rw [cntDiff, cntDiff, h.instCount]
  unfold Slimmer.oneBlock
  refine rel_bind (hinit.find hd hM) fun sc sc' _ _ hsc => ?_
  cases hbb : I.tables.bb2Ins[nextBBID]? with
  | none => exact .none
  | some bb =>
    simp only [Option.bind_some, hdiff]
    refine rel_map (run_rel (fun sc sc' id hid h => ?_) hsc) fun sc₁ sc₁' _ _ h₁ => ?_
    · exact h.next (hscan bb hbb id (List.mem_reverse.mp hid))
    · -- `this_needed` is added to `needed`
      have hmoved : ∀ t : PassSets, SetsMoved I b.tid M [] t { t with needed := t.needed ∪ sc₁.1 } := by
        intro t
        refine ⟨fun _ _ => rfl, fun key hkey => ?_, fun e _ => by simp, fun _ _ => Iff.rfl, rfl⟩
        have hnot : key ∉ sc₁.1 := fun hmem => hkey (h₁.keys key hmem)
        simp [hnot]
      rw [h₁.needed]
      refine h₁.sets.trans ⟨⟨h₁.sets.1.instCount, fun id => ?_, h₁.sets.1.memDepended,
        h₁.sets.1.unneededDI⟩, [], hmoved _, hmoved _⟩
      simp only [Finset.mem_union, h₁.sets.1.needed]

/-! ## The stacks -/

theorem Agree.setFun (h : Agree tid M s z) (l : List Bool) :
    Twin I tid M s z { s with funUsed := Function.update s.funUsed tid l }
      { z with funUsed := Function.update z.funUsed tid l } := by
  have hmoved : ∀ s : PassState,
      Moved I tid M [] s { s with funUsed := Function.update s.funUsed tid l } := fun s =>
    ⟨.refl _, fun tid' ht => Function.update_of_ne ht _ _, fun _ _ => rfl, fun _ _ => rfl⟩
  refine ⟨⟨h.sets, ?_, h.nextBBUsed, h.terminatorStack⟩, [], hmoved s, hmoved z⟩
  show Function.update z.funUsed tid l tid = Function.update s.funUsed tid l tid
  rw [Function.update_self, Function.update_self]

theorem Agree.setNext (h : Agree tid M s z) (l : List (Nat × Bool)) :
    Twin I tid M s z { s with nextBBUsed := Function.update s.nextBBUsed tid l }
      { z with nextBBUsed := Function.update z.nextBBUsed tid l } := by
  have hmoved : ∀ s : PassState,
      Moved I tid M [] s { s with nextBBUsed := Function.update s.nextBBUsed tid l } := fun s =>
    ⟨.refl _, fun _ _ => rfl, fun tid' ht => Function.update_of_ne ht _ _, fun _ _ => rfl⟩
  refine ⟨⟨h.sets, h.funUsed, ?_, h.terminatorStack⟩, [], hmoved s, hmoved z⟩
  show Function.update z.nextBBUsed tid l tid = Function.update s.nextBBUsed tid l tid
  rw [Function.update_self, Function.update_self]

theorem Agree.setTerm (h : Agree tid M s z) (l : List (Nat × DynamicInst × Bool)) :
    Twin I tid M s z { s with terminatorStack := Function.update s.terminatorStack tid l }
      { z with terminatorStack := Function.update z.terminatorStack tid l } := by
  have hmoved : ∀ s : PassState,
      Moved I tid M [] s { s with terminatorStack := Function.update s.terminatorStack tid l } :=
    fun s => ⟨.refl _, fun _ _ => rfl, fun _ _ => rfl, fun tid' ht => Function.update_of_ne ht _ _⟩
  refine ⟨⟨h.sets, h.funUsed, h.nextBBUsed, ?_⟩, [], hmoved s, hmoved z⟩
  show Function.update z.terminatorStack tid l tid = Function.update s.terminatorStack tid l tid
  rw [Function.update_self, Function.update_self]

theorem Agree.push (h : Agree b.tid M s z) : Twin I b.tid M s z (s.push b) (z.push b) := by
  unfold PassState.push
  rw [h.funUsed, h.nextBBUsed, h.terminatorStack]
  have h₁ := h.setFun (I := I) (false :: s.funUsed b.tid)
  have h₂ := h₁.1.setNext (I := I) ((b.bbID, false) :: s.nextBBUsed b.tid)
  exact (h₁.trans h₂).trans
    (h₂.1.setTerm ((b.bbID, ⟨0, 0, 0⟩, true) :: s.terminatorStack b.tid))

theorem Agree.pop (h : Agree b.tid M s z) :
    Option.Rel (Twin I b.tid M s z) (s.pop b) (z.pop b) := by
  unfold PassState.pop
  rw [h.funUsed, h.nextBBUsed, h.terminatorStack]
  rcases s.funUsed b.tid with _ | ⟨f, fs⟩
  · exact .none
  rcases s.nextBBUsed b.tid with _ | ⟨n, ns⟩
  · exact .none
  rcases s.terminatorStack b.tid with _ | ⟨t, ts⟩
  · exact .none
  have h₁ := h.setFun (I := I) fs
  have h₂ := h₁.1.setNext (I := I) ns
  exact .some ((h₁.trans h₂).trans (h₂.1.setTerm ts))

theorem Agree.useFun {n : Bool} (h : Agree tid M s z) :
    Option.Rel (Twin I tid M s z) (s.useFun tid n) (z.useFun tid n) := by
  unfold PassState.useFun
  rw [h.funUsed]
  cases s.funUsed tid with
  | nil => exact .none
  | cons u l => exact .some (h.setFun _)

theorem Agree.setTerminator {n : Bool} (h : Agree b.tid M s z) :
    Option.Rel (Twin I b.tid M s z) (s.setTerminator b d n) (z.setTerminator b d n) := by
  unfold PassState.setTerminator
  rw [h.terminatorStack]
  cases s.terminatorStack b.tid with
  | nil => exact .none
  | cons e l => exact .some (h.setTerm _)

theorem Agree.mark {used : Bool} (h : Agree b.tid M s z) :
    Option.Rel (Twin I b.tid M s z) (s.mark b used) (z.mark b used) := by
  unfold PassState.mark
  rw [h.nextBBUsed]
  cases s.nextBBUsed b.tid with
  | nil => exact .none
  | cons e l => exact .some (h.setNext _)

theorem Agree.needCaller (h : Agree b.tid M s z) :
    Option.Rel (Twin I b.tid M s z) (s.needCaller b) (z.needCaller b) := by
  unfold PassState.needCaller
  rw [h.funUsed]
  cases s.funUsed b.tid with
  | nil => exact .none
  | cons used l =>
    by_cases hc : b.isFirst = 1 ∧ used = true ∧ b.caller ≠ noId
    · simp only [if_pos hc]
      have hmoved : ∀ t : PassSets,
          SetsMoved I b.tid M [] t { t with needed := insert (b.tid, b.caller) t.needed } := by
        intro t
        refine ⟨fun _ _ => rfl, fun key hkey => ?_, fun e _ => by simp, fun _ _ => Iff.rfl, rfl⟩
        have hne : key ≠ (b.tid, b.caller) := fun heq => hkey (by rw [heq])
        simp [hne]
      refine .some (SetsTwin.lift h ⟨⟨h.sets.instCount, fun id => ?_, h.sets.memDepended,
        h.sets.unneededDI⟩, [], hmoved _, hmoved _⟩)
      simp only [Finset.mem_insert, h.sets.needed id]
    · simp only [if_neg hc]
      exact .some (.refl h)

/-! ## The turn -/

theorem Agree.checkTerminator {nextBBID : Nat} (h : Agree b.tid M s z)
    (hM : ∀ e l, s.terminatorStack b.tid = e :: l → e.2.2 = false → e.2.1.tid = b.tid ∧ e.2.1 ∈ M ∧
      ∀ bb, I.tables.bb2Ins[nextBBID]? = some bb → ∀ id ∈ bb,
        rescanned b s.toPassSets e.2.1 id ∈ M) :
    Option.Rel (Twin I b.tid M s z) (s.checkTerminator I b nextBBID)
      (z.checkTerminator I b nextBBID) := by
  unfold PassState.checkTerminator
  rw [h.terminatorStack]
  rcases hstack : s.terminatorStack b.tid with _ | ⟨⟨e, d, n⟩, l⟩
  · exact .none
  · cases n with
    | true => exact .some (.refl h)
    | false =>
      rcases hM _ l hstack rfl with ⟨hd, hmem, hscan⟩
      exact rel_map (h.sets.oneBlock hd hmem hscan) fun t u _ _ htwin => htwin.lift h

theorem Agree.enter (h : Agree b.tid M s z)
    (hM : ∀ nextBBID l e l', b.isLast = 0 → s.nextBBUsed b.tid = (nextBBID, true) :: l →
      nextBBID ≠ b.bbID → s.terminatorStack b.tid = e :: l' → e.2.2 = false →
        e.2.1.tid = b.tid ∧ e.2.1 ∈ M ∧ ∀ bb, I.tables.bb2Ins[nextBBID]? = some bb → ∀ id ∈ bb,
          rescanned b s.toPassSets e.2.1 id ∈ M) :
    Option.Rel (Twin I b.tid M s z) (s.enter I b) (z.enter I b) := by
  unfold PassState.enter
  by_cases hlast : 0 < b.isLast
  · rw [if_pos hlast, if_pos hlast]
    exact .some h.push
  · rw [if_neg hlast, if_neg hlast, h.nextBBUsed]
    rcases hnext : s.nextBBUsed b.tid with _ | ⟨⟨nextBBID, _ | _⟩, l⟩
    · exact .some (.refl h)
    · exact .some (.refl h)
    · by_cases hne : nextBBID ≠ b.bbID
      · simp only [if_pos hne]
        refine rel_bind (h.checkTerminator fun e l' hl' hn => ?_) fun s₁ z₁ _ _ h₁ => ?_
        · exact hM nextBBID l e l' (Nat.eq_zero_of_not_pos hlast) hnext hne hl' hn
        · exact h₁.rel_trans h₁.1.setTerminator
      · simp only [if_neg hne]
        exact .some (.refl h)

/-- A step that also says whether an execution is needed. -/
def FlagTwin (I : PassInput) (tid : Nat) (M : Set DynamicInst) (s z : PassState)
    (x y : PassState × Bool) : Prop := Twin I tid M s z x.1 y.1 ∧ y.2 = x.2

theorem Agree.visit {n : Bool} {report : PassSets → PassSets} (h : Agree b.tid M s z)
    (hd : d.tid = b.tid) (hM : d ∈ M) (hreport : ReportsAlike d report) :
    Option.Rel (FlagTwin I b.tid M s z) (s.visit I b d n report) (z.visit I b d n report) := by
  unfold PassState.visit
  refine rel_bind (h.sets.visit hd hM hreport) fun t u _ _ htwin => ?_
  have h₁ := htwin.lift h
  exact rel_map (h₁.rel_trans h₁.1.useFun) fun s' z' _ _ h' => ⟨h', rfl⟩

theorem Agree.decideNormal {i : InstInfo} (h : Agree b.tid M s z) (hd : d.tid = b.tid) :
    Option.Rel (FlagTwin I b.tid M s z) (s.decideNormal I b d i) (z.decideNormal I b d i) := by
  have hneeded : ∀ id, decide ((d.tid, id) ∈ z.needed) = decide ((d.tid, id) ∈ s.needed) := by
    intro id
    rw [hd]
    exact decide_eq_decide.mpr (h.sets.needed id)
  have hkey : decide (d.key ∈ z.needed) = decide (d.key ∈ s.needed) := hneeded d.id
  have hsame : ∀ n : Bool, Option.Rel (FlagTwin I b.tid M s z) (some (s, n)) (some (z, n)) :=
    fun n => .some ⟨.refl h, rfl⟩
  unfold PassState.decideNormal PassState.terminatorUsed
  simp only [hkey, hneeded]
  by_cases hterm : i.type = .terminatorInst
  · simp only [if_pos hterm]
    rw [h.nextBBUsed]
    cases s.nextBBUsed b.tid with
    | nil => exact .none
    | cons e l =>
      simp only [Option.bind_some]
      exact rel_map h.setTerminator fun s' z' _ _ h' => ⟨h', rfl⟩
  · simp only [if_neg hterm]
    split_ifs
    · exact hsame _
    · exact hsame _
    · exact hsame _
    · exact .none
    · exact hsame _

theorem FlagTwin.normalInst {id : Nat} {x y : PassState × Bool} (h : FlagTwin I b.tid M s z x y)
    (hM : x.1.toPassSets.name b.tid id ∈ M) :
    Option.Rel (FlagTwin I b.tid M s z) (normalInst I b x id) (normalInst I b y id) := by
  rcases x with ⟨s₁, used⟩
  rcases y with ⟨z₁, used'⟩
  rcases h with ⟨h₁, rfl⟩
  unfold Slimmer.normalInst
  simp only [h₁.1.sets.name]
  cases I.tables.ins[id]? with
  | none => exact .none
  | some i =>
    simp only [Option.bind_some]
    refine rel_bind (h₁.1.decideNormal (d := s₁.toPassSets.name b.tid id) rfl) ?_
    intro sn zn _ _ hn
    rcases sn with ⟨s₂, n⟩
    rcases zn with ⟨z₂, n'⟩
    rcases hn with ⟨h₂, rfl⟩
    refine rel_map (h₂.1.visit rfl hM (reportsAlike_normal i)) fun sv zv _ _ hv => ?_
    rcases sv with ⟨s₃, m⟩
    rcases zv with ⟨z₃, m'⟩
    rcases hv with ⟨h₃, rfl⟩
    exact ⟨(h₁.trans h₂).trans h₃, rfl⟩

/-- The executions that the main loop meets in a block of the instructions `ids`. -/
def Names (tid : Nat) (t : PassSets) (ids : List Nat) (d : DynamicInst) : Prop :=
  d.tid = tid ∧ ¬ t.Visited d ∧ -((t.instCount d.key + ids.count d.id : Nat) : Int) < d.cnt

theorem names_name {id : Nat} {ids : List Nat} (hid : id ∈ ids) :
    Names tid t ids (t.name tid id) := by
  have hpos := List.count_pos_iff.mpr hid
  refine ⟨rfl, lt_irrefl _, ?_⟩
  show -((t.instCount (tid, id) + ids.count id : Nat) : Int) < -(t.instCount (tid, id) : Int)
  omega

/-- What is met after an execution of `id`. -/
theorem Names.cons {id : Nat} {ids : List Nat} {n : Bool} (hd : Names b.tid s'.toPassSets ids d)
    (hvisit : Visit I b s id s' n) : Names b.tid s.toPassSets (id :: ids) d := by
  rcases hd with ⟨htid, hnew, hcnt⟩
  refine ⟨htid, fun hv => hnew (hvisit.visited.mpr (Or.inl hv)), ?_⟩
  rw [hvisit.instCount, Function.update_apply] at hcnt
  rw [List.count_cons]
  by_cases hid : d.id = id
  · have hkey : d.key = (b.tid, id) := Prod.ext htid hid
    rw [if_pos hkey, ← hkey] at hcnt
    simp only [hid, beq_self_eq_true, if_true] at hcnt ⊢
    omega
  · have hkey : d.key ≠ (b.tid, id) := fun heq => hid (congrArg Prod.snd heq)
    rw [if_neg hkey] at hcnt
    omega

theorem FlagTwin.normalInsts {ids : List Nat} {x y : PassState × Bool}
    (h : FlagTwin I b.tid M s z x y) (htype : b.type = .normalBlock)
    (hM : ∀ d, Names b.tid x.1.toPassSets ids d → d ∈ M) :
    Option.Rel (FlagTwin I b.tid M s z) (run (Slimmer.normalInst I b) x ids)
      (run (Slimmer.normalInst I b) y ids) := by
  induction ids generalizing x y with
  | nil => exact .some h
  | cons id ids ih =>
    rw [run_cons, run_cons]
    refine rel_bind (h.normalInst (hM _ (names_name List.mem_cons_self))) fun x' y' hx _ h' => ?_
    rcases normalInst_visit htype hx with ⟨n, hvisit, -⟩
    exact ih h' fun d hd => hM d (hd.cons hvisit)

theorem Agree.instructions (h : Agree b.tid M s z) (hskip : b.skipped I.tables = some false)
    (hM : ∀ d, Names b.tid s.toPassSets (b.named I.tables) d → d ∈ M) :
    Option.Rel (FlagTwin I b.tid M s z) (s.instructions I b) (z.instructions I b) := by
  -- a block with a single instruction
  have hone : ∀ id, b.insID? I.tables = some id → b.kind I.tables = .counted →
      s.toPassSets.name b.tid id ∈ M := by
    intro id hid hkind
    refine hM _ (names_name ?_)
    rw [SmallestBlock.named, hkind, SmallestBlock.insID_eq hid]
    exact List.mem_singleton.mpr rfl
  unfold PassState.instructions
  cases htype : b.type with
  | normalBlock =>
    simp only
    cases hids : b.insIDs? I.tables with
    | none => exact .none
    | some ids =>
      have hnamed : b.named I.tables = ids := by
        simp [SmallestBlock.named, SmallestBlock.kind, htype, SmallestBlock.insIDs_eq hids]
      have hinit : FlagTwin I b.tid M s z (s, false) (z, false) := ⟨.refl h, rfl⟩
      refine hinit.normalInsts htype fun d hd => hM d ?_
      rw [hnamed]
      rcases hd with ⟨htid, hnew, hcnt⟩
      rw [List.count_reverse] at hcnt
      exact ⟨htid, hnew, hcnt⟩
  | declareBlock => exact .some ⟨.refl h, rfl⟩
  | impactfulCallBlock =>
    simp only
    cases hid : b.insID? I.tables with
    | none => exact .none
    | some id =>
      have hkind : b.kind I.tables = .counted := by simp [SmallestBlock.kind, htype, hskip]
      simp only [Option.bind_some, h.sets.name]
      exact h.visit rfl (hone id hid hkind) reportsAlike_id
  | memoryAccessBlock | externalCallBlock | memsetBlock | memmoveBlock =>
    simp only
    cases hid : b.insID? I.tables with
    | none => exact .none
    | some id =>
      have hkind : b.kind I.tables = .counted := by simp [SmallestBlock.kind, htype, hskip]
      have hmem := hone id hid hkind
      have hflag : (decide ((s.toPassSets.name b.tid id).key ∈ z.needed) ||
          decide (s.toPassSets.name b.tid id ∈ z.memDepended)) =
          (decide ((s.toPassSets.name b.tid id).key ∈ s.needed) ||
            decide (s.toPassSets.name b.tid id ∈ s.memDepended)) := by
        have hkey : decide ((s.toPassSets.name b.tid id).key ∈ z.needed) =
            decide ((s.toPassSets.name b.tid id).key ∈ s.needed) :=
          decide_eq_decide.mpr (h.sets.needed id)
        rw [hkey, decide_eq_decide.mpr (h.sets.memDepended _ hmem)]
      simp only [Option.bind_some, h.sets.name, hflag]
      exact h.visit rfl hmem reportsAlike_access

/-- The executions that the turn for `b` meets: those the main loop comes to, and those `OneBlock`
goes through. -/
inductive Meets (I : PassInput) (s : PassState) (b : SmallestBlock) : DynamicInst → Prop
  | visit {d : DynamicInst} (hnames : Names b.tid s.toPassSets (b.named I.tables) d) : Meets I s b d
  | terminator {t : PassSets} {d : DynamicInst} {nextBBID : Nat}
      (hcall : OneBlockCall I s b t d nextBBID) : Meets I s b d
  | rescan {t : PassSets} {d : DynamicInst} {nextBBID id : Nat} {bb : List Nat}
      (hcall : OneBlockCall I s b t d nextBBID) (hbb : I.tables.bb2Ins[nextBBID]? = some bb)
      (hid : id ∈ bb) : Meets I s b (rescanned b t d id)

theorem Agree.leave (h : Agree b.tid M s z)
    (hM : ∀ s₁ nextBBID l e l', 0 < b.isFirst → s.needCaller b = some s₁ →
      s.nextBBUsed b.tid = (nextBBID, true) :: l → s₁.terminatorStack b.tid = e :: l' →
      e.2.2 = false → e.2.1.tid = b.tid ∧ e.2.1 ∈ M ∧
        ∀ bb, I.tables.bb2Ins[b.bbID]? = some bb → ∀ id ∈ bb,
          rescanned b s₁.toPassSets e.2.1 id ∈ M) :
    Option.Rel (Twin I b.tid M s z) (s.leave I b) (z.leave I b) := by
  unfold PassState.leave
  by_cases hfirst : 0 < b.isFirst
  · rw [if_pos hfirst, if_pos hfirst]
    refine rel_bind (h.needCaller (I := I)) fun s₁ z₁ hs₁ _ h₁ => ?_
    have hcheck : Option.Rel (Twin I b.tid M s z) (s₁.checkFirst I b) (z₁.checkFirst I b) := by
      rcases PassState.needCaller_cases hs₁ with ⟨n, -, hs₁'⟩
      have hnext : s₁.nextBBUsed b.tid = s.nextBBUsed b.tid := by rw [hs₁']
      unfold PassState.checkFirst
      rw [h₁.1.nextBBUsed, hnext]
      rcases hstack : s.nextBBUsed b.tid with _ | ⟨⟨nextBBID, used⟩, l⟩
      · exact .none
      · cases used with
        | false => exact .some h₁
        | true =>
          refine h₁.rel_trans (h₁.1.checkTerminator fun e l' hl' hn => ?_)
          exact hM s₁ nextBBID l e l' hfirst hs₁ hstack hl' hn
    exact rel_bind hcheck fun s₂ z₂ _ _ h₂ => h₂.rel_trans h₂.1.pop
  · rw [if_neg hfirst, if_neg hfirst]
    exact .some (.refl h)

/-- **A turn** in two states that agree on the thread and on the executions that the turn meets. -/
theorem extractStep_twin (hterm : s.TerminatorsVisited) (h : Agree b.tid M s z)
    (hM : ∀ d, Meets I s b d → d ∈ M) :
    Option.Rel (Twin I b.tid M s z) (extractStep I s b) (extractStep I z b) := by
  have hpos : ∀ {s' z' : PassState}, Twin I b.tid M s z s' z' →
      Twin I b.tid M s z { s' with pos := s'.pos + 1 } { z' with pos := z'.pos + 1 } := by
    intro s' z' h'
    rcases h' with ⟨hagree, new, hs, hz⟩
    exact ⟨⟨hagree.1, hagree.2, hagree.3, hagree.4⟩, new, ⟨hs.1, hs.2, hs.3, hs.4⟩,
      ⟨hz.1, hz.2, hz.3, hz.4⟩⟩
  refine rel_map ?_ fun s' z' _ _ h' => hpos h'
  unfold PassState.turn
  by_cases htype : b.type = .declareBlock
  · rw [if_pos htype, if_pos htype]
    exact .some (.refl h)
  rw [if_neg htype, if_neg htype]
  refine rel_bind (h.enter fun nextBBID l e l' hlast hnext hne hl' hn => ?_)
    fun s₁ z₁ henter _ h₁ => ?_
  · have hcall := OneBlockCall.finished (I := I) htype hlast hnext hne hl' hn
    have htid := (hterm b.tid e (by rw [hl']; exact List.mem_cons_self) hn).1
    exact ⟨htid, hM _ (.terminator hcall), fun bb hbb id hid => hM _ (.rescan hcall hbb hid)⟩
  have hterm₁ : s₁.TerminatorsVisited := hterm.enter htype henter
  cases hskip : b.skipped I.tables with
  | none => exact .none
  | some skip =>
    cases skip with
    | true => exact .some h₁
    | false =>
      simp only [Option.bind_some, Bool.false_eq_true, if_false]
      have hcount := (PassState.enter_scanned htype henter).1.instCount
      have hnames : ∀ d, Names b.tid s₁.toPassSets (b.named I.tables) d → d ∈ M := by
        intro d hd
        unfold Names PassSets.Visited at hd
        rw [hcount] at hd
        exact hM d (.visit hd)
      have hbody : Option.Rel (Twin I b.tid M s z) (s₁.body I b) (z₁.body I b) := by
        refine rel_bind (h₁.1.instructions hskip hnames) fun su zu _ _ hu => ?_
        rcases hu with ⟨hu, hflag⟩
        rw [hflag]
        exact (h₁.trans hu).rel_trans hu.1.mark
      refine rel_bind hbody fun s₂ z₂ hs₂ _ h₂ => h₂.rel_trans (h₂.1.leave ?_)
      intro s₃ nextBBID l e l' hfirst hs₃ hnext hl' hn
      have hcall := OneBlockCall.first htype henter hskip hs₂ hfirst hs₃ hnext hl' hn
      have hterm₂ : s₂.TerminatorsVisited := by
        rcases Option.bind_eq_some_iff.mp hs₂ with ⟨su, hsu, hmark⟩
        rcases PassState.mark_cases hmark with ⟨e, l, -, rfl⟩
        have := (instructions_visits hskip hsu).terminators hterm₁
        exact this
      have hstack : s₃.terminatorStack = s₂.terminatorStack := by
        rcases PassState.needCaller_cases hs₃ with ⟨n, -, rfl⟩
        rfl
      have htid := (hterm₂ b.tid e (by rw [← hstack, hl']; exact List.mem_cons_self) hn).1
      exact ⟨htid, hM _ (.terminator hcall), fun bb hbb id hid => hM _ (.rescan hcall hbb hid)⟩

end

end Slimmer
