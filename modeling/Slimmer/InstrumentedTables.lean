import Slimmer.Instrument
import Slimmer.InstDecodes
import Slimmer.Machine
import Slimmer.Lib.Numbering

/-!
# The tables of an instrumented module

The tools know of the module what `LoadInstInfo` reads from the file `Inst`. `TablesOf M T` says that
the tables `T` hold the numbering of the pass: block `bb` lists the ids of its traced instructions, and
the record of each tells its class and the function it calls.

* `tablesOf_loaded`: the file of the pass reads back to such tables.
* `TablesOf.program`: they are a `Program`.
* `TablesOf.exists_at`: an instruction is at the position its predecessors in the block give it.
-/

namespace Slimmer

/-! ## Verified modules -/

def IROp.isTerminator : IROp → Bool
  | .ret _ | .terminator _ _ => true
  | _ => false

/-- The arguments the pass reads of a call are there. -/
def IROp.ArgsOk : IROp → Prop
  | .call (.intrinsic _) args _ => 3 ≤ args.length
  | .call (.function name) args _ =>
    (name ∈ mallocFunctions → 1 ≤ args.length) ∧ (name ∈ callocFunctions → 2 ≤ args.length)
  | _ => True

/-- What LLVM promises of a module: objects have distinct addresses, a block ends in its only
terminator, no block goes to the entry of a function, the names of intrinsics begin with `llvm.` and no
others, and calls have their arguments. -/
structure IRModule.Verified (M : IRModule) : Prop where
  insts_nodup : ((M.blocks.flatMap IRBlock.insts).map IRInst.ref).Nodup
  blocks_nodup : (M.blocks.map IRBlock.ref).Nodup
  ends : ∀ b ∈ M.blocks, ∃ body last, b.insts = body ++ [last] ∧ last.op.isTerminator = true ∧
    ∀ i ∈ body, i.op.isTerminator = false
  entries : ∀ f ∈ M.traced, ∀ e, f.blocks.head? = some e → ∀ b ∈ M.blocks, ∀ i ∈ b.insts,
    ∀ operands successors, i.op = .terminator operands successors → e.ref ∉ successors
  names : ∀ b ∈ M.blocks, ∀ i ∈ b.insts, ∀ name args fn, i.op = .call (.function name) args fn →
    namePrefix name 5 ≠ "llvm.".toList
  args : ∀ b ∈ M.blocks, ∀ i ∈ b.traced, i.op.ArgsOk

/-- The id of a traced instruction. -/
def IRModule.idOf (M : IRModule) (i : IRInst) : Nat := (M.insID i.ref).getD 0

/-- The tables hold the numbering of the module. -/
structure TablesOf (M : IRModule) (T : Tables) : Prop where
  blocks : T.bb2Ins.length = M.blocks.length
  block : ∀ (bb : Nat) (b : IRBlock), M.blocks[bb]? = some b → T.bb2Ins[bb]? = some (b.traced.map M.idOf)
  length : T.ins.length = M.insts.length
  inst : ∀ (id : Nat) (i : IRInst), M.insts[id]? = some i → ∃ (info : InstInfo) (cls : InstClass),
    T.ins[id]? = some info ∧ M.instClass i.op = some cls ∧
      info.type = (cls.type M.instrumentedFun).read ∧ info.fn = cls.fn M.instrumentedFun

/-- The tables `LoadInstInfo` makes of the files. -/
def InfoDir.tables (d : InfoDir) : Option Tables :=
  (loadInstInfo d.inst).map fun l => ⟨l.1.map LoadedInst.toInstInfo, l.2⟩

section

variable {M : IRModule} {T : Tables} {b : IRBlock} {i j : IRInst} {bb id : Nat}

/-! ## The numbering -/

theorem mem_traced : i ∈ b.traced ↔ i ∈ b.insts ∧ notTraced i = false := by
  simp [IRBlock.traced]

theorem notTraced_of_isTerminator (h : i.op.isTerminator = true) : notTraced i = false := by
  unfold notTraced
  cases hop : i.op <;> simp_all [IROp.isTerminator]

namespace IRModule.Verified

variable (hM : M.Verified)
include hM

/-- An address names an instruction. -/
theorem inst_eq {b' : IRBlock} (hb : b ∈ M.blocks) (hb' : b' ∈ M.blocks) (hi : i ∈ b.insts)
    (hj : j ∈ b'.insts) (h : i.ref = j.ref) : i = j :=
  List.inj_on_of_nodup_map hM.insts_nodup (List.mem_flatMap.mpr ⟨b, hb, hi⟩)
    (List.mem_flatMap.mpr ⟨b', hb', hj⟩) h

theorem traced_nodup : (M.insts.map IRInst.ref).Nodup := by
  refine hM.insts_nodup.sublist (List.Sublist.map _ ?_)
  unfold IRModule.insts
  generalize M.blocks = bs
  induction bs with
  | nil => exact List.Sublist.refl _
  | cons b bs ih => exact (List.filter_sublist).append ih

theorem insID_of_getElem? (h : M.insts[id]? = some i) : M.insID i.ref = some id := by
  obtain ⟨hlt, hget⟩ := List.getElem?_eq_some_iff.mp h
  refine List.findIdx?_eq_some_iff_getElem.mpr ⟨hlt, by simp [hget], fun k hk => ?_⟩
  have hne := List.nodup_iff_injective_getElem.mp hM.traced_nodup
  simp only [decide_eq_true_eq]
  intro he
  have hkid : (⟨k, by rw [List.length_map]; omega⟩ : Fin (M.insts.map IRInst.ref).length) =
      ⟨id, by rw [List.length_map]; exact hlt⟩ := by
    apply hne
    simp only [List.getElem_map]
    rw [he, hget]
  have := congrArg Fin.val hkid
  simp only at this
  omega

/-- A traced instruction has an id. -/
theorem exists_id (hb : b ∈ M.blocks) (hi : i ∈ b.traced) :
    ∃ id, M.insts[id]? = some i ∧ M.insID i.ref = some id ∧ M.idOf i = id := by
  obtain ⟨id, hid⟩ := List.mem_iff_getElem?.mp
    (show i ∈ M.insts from List.mem_flatMap.mpr ⟨b, hb, hi⟩)
  have hins := hM.insID_of_getElem? hid
  exact ⟨id, hid, hins, by rw [IRModule.idOf, hins, Option.getD_some]⟩

/-- An instruction that is not traced has none. -/
theorem insID_eq_none (hb : b ∈ M.blocks) (hi : i ∈ b.insts) (ht : notTraced i = true) :
    M.insID i.ref = none := by
  rw [IRModule.insID, List.findIdx?_eq_none_iff]
  intro j hj
  obtain ⟨b', hb', hj⟩ := List.mem_flatMap.mp hj
  obtain ⟨hj, hjt⟩ := mem_traced.mp hj
  simp only [decide_eq_false_iff_not]
  intro he
  rw [hM.inst_eq hb' hb hj hi he, ht] at hjt
  cases hjt

/-- A block with its number. -/
theorem bbID_of_getElem? (h : M.blocks[bb]? = some b) : M.bbID b.ref = some bb := by
  obtain ⟨hlt, hget⟩ := List.getElem?_eq_some_iff.mp h
  refine List.findIdx?_eq_some_iff_getElem.mpr ⟨hlt, by simp [hget], fun k hk => ?_⟩
  have hne := List.nodup_iff_injective_getElem.mp hM.blocks_nodup
  simp only [decide_eq_true_eq]
  intro he
  have hkbb : (⟨k, by rw [List.length_map]; omega⟩ : Fin (M.blocks.map IRBlock.ref).length) =
      ⟨bb, by rw [List.length_map]; exact hlt⟩ := by
    apply hne
    simp only [List.getElem_map]
    rw [he, hget]
  have := congrArg Fin.val hkbb
  simp only at this
  omega

/-- The terminator of a block is traced. -/
theorem traced_eq (hb : b ∈ M.blocks) : ∃ body last, b.traced = body ++ [last] ∧
    last.op.isTerminator = true ∧ ∀ i ∈ body, i.op.isTerminator = false := by
  obtain ⟨body, last, hinsts, hlast, hbody⟩ := hM.ends b hb
  refine ⟨body.filter fun i => !notTraced i, last, ?_, hlast, fun i hi =>
    hbody i (List.mem_of_mem_filter hi)⟩
  rw [IRBlock.traced, hinsts, List.filter_append]
  simp [notTraced_of_isTerminator hlast]

end IRModule.Verified

/-! ## The records -/

theorem numbered_eq : M.numbered = grouped IRBlock.traced M.blocks := rfl

theorem map_snd_numbered : M.numbered.map Prod.snd = M.insts := map_snd_grouped _ _

/-- The records, one for each traced instruction. -/
theorem forall₂_records {rs : List InstRecord} (h : M.records = some rs) :
    List.Forall₂ (fun p r => M.record p.1 p.2 = some r) M.numbered rs := forall₂_of_mapM h

theorem bb_of_record {r : InstRecord} (h : M.record bb i = some r) : r.bb = bb := by
  obtain ⟨cls, -, rfl⟩ := Option.map_eq_some_iff.mp h
  rfl

theorem map_bb_records {rs : List InstRecord} (h : M.records = some rs) :
    rs.map InstRecord.bb = M.numbered.map Prod.fst := by
  have hall := forall₂_records h
  clear h
  generalize M.numbered = l at hall
  induction hall with
  | nil => rfl
  | cons hr _ ih => rw [List.map_cons, List.map_cons, ih, bb_of_record hr]

theorem length_records {rs : List InstRecord} (h : M.records = some rs) :
    rs.length = M.insts.length := by
  rw [← (forall₂_records h).length_eq, ← map_snd_numbered, List.length_map]

/-- The instructions the records list for a basic block. -/
theorem idsFrom_records (hM : M.Verified) {rs : List InstRecord} (h : M.records = some rs)
    (bb : Nat) : idsFrom 0 rs bb = ((M.blocks[bb]?).elim [] IRBlock.traced).map M.idOf := by
  have hpos := positions_filter (l := M.numbered) (p := fun p => p.1 = bb)
    (g := fun p => M.idOf p.2) fun k p hp => by
      have hk : M.insts[k]? = some p.2 := by
        rw [← map_snd_numbered, List.getElem?_map, hp]
        rfl
      rw [IRModule.idOf, hM.insID_of_getElem? hk, Option.getD_some]
  have hrs : idsFrom 0 rs bb =
      (((rs.map InstRecord.bb).zipIdx).filter fun x => x.1 = bb).map Prod.snd := by
    rw [List.zipIdx_map, List.filter_map, List.map_map]
    rfl
  have hnum : ((M.numbered.zipIdx).filter fun x => x.1.1 = bb).map Prod.snd =
      (((M.numbered.map Prod.fst).zipIdx).filter fun x => x.1 = bb).map Prod.snd := by
    rw [List.zipIdx_map, List.filter_map, List.map_map]
    rfl
  rw [hrs, map_bb_records h, ← hnum, hpos, numbered_eq, filter_grouped, List.map_map]
  rfl

/-! ## Reading the file -/

theorem length_pushBB {bb2Ins l : List (List Nat)} (h : pushBB bb2Ins bb id = some l) {n : Nat}
    (hlen : bb2Ins.length ≤ n) (hbb : bb < n) : l.length ≤ n := by
  obtain ⟨ids, -, rfl⟩ := Option.map_eq_some_iff.mp h
  rw [List.length_set]
  split_ifs with hle
  · rw [List.length_take, List.length_append, List.length_replicate]
    omega
  · exact hlen

/-- No more blocks are made than the records name. -/
theorem length_loadInsts {fuel n : Nat} {info info' : List LoadedInst} {bb2Ins l : List (List Nat)}
    {s : List Char} (h : loadInsts fuel (info, bb2Ins) s = some (info', l))
    (hlen : bb2Ins.length ≤ n) (hbb : ∀ ins ∈ info', ins.bb < n) : l.length ≤ n := by
  induction fuel generalizing info bb2Ins s with
  | zero => cases h
  | succ fuel ih =>
    rw [loadInsts] at h
    cases hint : readInt s with
    | none =>
      rw [hint] at h
      cases h
      exact hlen
    | some p =>
      rw [hint] at h
      obtain ⟨q, -, h⟩ := Option.bind_eq_some_iff.mp h
      obtain ⟨l', hpush, h⟩ := Option.bind_eq_some_iff.mp h
      replace h : (if info.length = q.1.id then loadInsts fuel (info ++ [q.1], l') q.2 else none) =
        some (info', l) := h
      split_ifs at h
      have hpre := loadInsts_prefix h
      have hmem : q.1 ∈ info' := hpre.subset (List.mem_append_right _ (List.mem_singleton.mpr rfl))
      exact ih h (length_pushBB hpush hlen (hbb _ hmem))

/-- **The file of the pass** reads back to the tables of the module. -/
theorem tablesOf_loaded (hM : M.Verified) {rs : List InstRecord} (hrs : M.records = some rs)
    (hw : ∀ r ∈ rs, IsWord (r.cls.fn M.instrumentedFun).toList)
    (hin : InRange M.instrumentedFun rs) :
    ∃ l, loadInstInfo (instFile M.instrumentedFun rs) = some l ∧
      TablesOf M ⟨l.1.map LoadedInst.toInstInfo, l.2⟩ := by
  obtain ⟨bb2Ins, hload, hget⟩ := loadInstInfo_instFile hw hin
  refine ⟨_, hload, ?_⟩
  have hblock : ∀ (bb : Nat) (b : IRBlock), M.blocks[bb]? = some b → bb2Ins[bb]? = some (b.traced.map M.idOf) := by
    intro bb b hb
    have hids := hget bb
    rw [idsFrom_records hM hrs, hb, Option.elim_some] at hids
    -- a block has an instruction, so it is there
    obtain ⟨body, last, htraced, -⟩ := hM.traced_eq (List.mem_of_getElem? hb)
    cases hl : bb2Ins[bb]? with
    | none =>
      rw [List.getD_eq_getElem?_getD, hl, htraced] at hids
      simp at hids
    | some l =>
      rw [List.getD_eq_getElem?_getD, hl, Option.getD_some] at hids
      rw [hids]
  refine ⟨le_antisymm ?_ ?_, hblock, ?_, fun id i hi => ?_⟩
  · refine length_loadInsts hload (Nat.zero_le _) fun ins hins => ?_
    obtain ⟨p, hp, rfl⟩ := List.mem_map.mp hins
    have hmem : p.1.bb ∈ M.numbered.map Prod.fst := by
      rw [← map_bb_records hrs]
      exact List.mem_map_of_mem (List.fst_mem_of_mem_zipIdx hp)
    obtain ⟨q, hq, hqbb⟩ := List.mem_map.mp hmem
    obtain ⟨c, hc, hcq⟩ := List.mem_flatMap.mp hq
    obtain ⟨j, -, hj⟩ := List.mem_map.mp hcq
    have hlt := (List.getElem?_eq_some_iff.mp (List.mem_zipIdx_iff_getElem?.mp hc)).1
    show p.1.bb < M.blocks.length
    rw [← hqbb, ← hj]
    exact hlt
  · by_contra hlt
    have hb := List.getElem?_eq_getElem (not_le.mp hlt)
    have := (List.getElem?_eq_some_iff.mp (hblock _ _ hb)).1
    exact lt_irrefl _ this
  · simp [readFrom, length_records hrs]
  · have hnum : (M.numbered.map Prod.snd)[id]? = some i := by rw [map_snd_numbered]; exact hi
    rw [List.getElem?_map, Option.map_eq_some_iff] at hnum
    obtain ⟨p, hp, rfl⟩ := hnum
    obtain ⟨hlt, hpget⟩ := List.getElem?_eq_some_iff.mp hp
    have hall := forall₂_records hrs
    have hlt' : id < rs.length := by rw [← hall.length_eq]; exact hlt
    have hrec := List.Forall₂.get hall hlt hlt'
    simp only [List.get_eq_getElem, hpget] at hrec
    obtain ⟨cls, hcls, hr⟩ := Option.map_eq_some_iff.mp hrec
    refine ⟨(rs[id].read M.instrumentedFun id).toInstInfo, cls, ?_, hcls, ?_, ?_⟩
    · simp [readFrom, hlt']
    · rw [← hr]; rfl
    · rw [← hr]; rfl

/-! ## The program -/

/-- The class of an instruction is that of its record. -/
theorem isTerminator_iff {cls : InstClass} {instrumented : List String}
    (h : M.instClass i.op = some cls) :
    ((cls.type instrumented).read = .terminatorInst ∨ (cls.type instrumented).read = .returnInst) ↔
      i.op.isTerminator = true := by
  cases hop : i.op with
  | ret v => rw [hop] at h; cases h; simp [InstClass.type, InstType.read, IROp.isTerminator]
  | terminator operands successors =>
    rw [hop] at h
    obtain ⟨bbs, -, rfl⟩ := Option.map_eq_some_iff.mp h
    simp [InstClass.type, InstType.read, IROp.isTerminator]
  | phi incoming =>
    rw [hop] at h
    obtain ⟨l, -, rfl⟩ := Option.map_eq_some_iff.mp h
    simp [InstClass.type, InstType.read, IROp.isTerminator]
  | call callee args fn =>
    rw [hop] at h
    cases h
    cases callee with
    | function name =>
      simp only [InstClass.type, IROp.isTerminator]
      split_ifs <;> simp [InstType.read]
    | _ => simp [InstClass.type, InstType.read, IROp.isTerminator]
  | _ =>
    rw [hop] at h
    cases h
    simp [InstClass.type, InstType.read, IROp.isTerminator]

/-- **The tables of a module are a program.** -/
def TablesOf.program (hT : TablesOf M T) (hM : M.Verified) (hlen : M.insts.length ≤ noId) : Program where
  toTables := T
  block_ne bb hbb := by
    obtain ⟨k, hk⟩ := List.mem_iff_getElem?.mp hbb
    have hlt : k < M.blocks.length := by
      rw [← hT.blocks]
      exact (List.getElem?_eq_some_iff.mp hk).1
    have hb := List.getElem?_eq_getElem hlt
    rw [hT.block _ _ hb, Option.some.injEq] at hk
    obtain ⟨body, last, htraced, -⟩ := hM.traced_eq (List.getElem_mem hlt)
    rw [← hk, htraced]
    simp
  ids_lt bb hbb id hid := by
    obtain ⟨k, hk⟩ := List.mem_iff_getElem?.mp hbb
    have hlt : k < M.blocks.length := by
      rw [← hT.blocks]
      exact (List.getElem?_eq_some_iff.mp hk).1
    rw [hT.block _ _ (List.getElem?_eq_getElem hlt), Option.some.injEq] at hk
    rw [← hk] at hid
    obtain ⟨i, hi, rfl⟩ := List.mem_map.mp hid
    obtain ⟨id, hid, -, hidOf⟩ := hM.exists_id (List.getElem_mem hlt) hi
    rw [hidOf, hT.length]
    exact (List.getElem?_eq_some_iff.mp hid).1
  ends bb hbb k id info hk hinfo := by
    obtain ⟨n, hn⟩ := List.mem_iff_getElem?.mp hbb
    have hlt : n < M.blocks.length := by
      rw [← hT.blocks]
      exact (List.getElem?_eq_some_iff.mp hn).1
    rw [hT.block _ _ (List.getElem?_eq_getElem hlt), Option.some.injEq] at hn
    obtain ⟨body, last, htraced, hlast, hbody⟩ := hM.traced_eq (List.getElem_mem hlt)
    rw [← hn, List.getElem?_map, Option.map_eq_some_iff] at hk
    obtain ⟨i, hi, rfl⟩ := hk
    obtain ⟨id, hid, -, hidOf⟩ := hM.exists_id (List.getElem_mem hlt) (List.mem_of_getElem? hi)
    obtain ⟨info', cls, hinfo', hcls, htype, -⟩ := hT.inst id i hid
    rw [hidOf, hinfo', Option.some.injEq] at hinfo
    rw [← hinfo, htype, isTerminator_iff hcls, ← hn, List.length_map]
    rw [htraced] at hi ⊢
    rw [List.length_append, List.length_singleton]
    have hklt := (List.getElem?_eq_some_iff.mp hi).1
    rw [List.length_append, List.length_singleton] at hklt
    rcases Nat.lt_or_ge k body.length with hb | hb
    · rw [List.getElem?_append_left hb] at hi
      rw [hbody i (List.mem_of_getElem? hi)]
      simp only [Bool.false_eq_true, false_iff]
      omega
    · have hkb : k = body.length := by omega
      subst hkb
      rw [List.getElem?_append_right le_rfl, Nat.sub_self, List.getElem?_cons_zero,
        Option.some.injEq] at hi
      rw [← hi, hlast]
      simp
  length_le := by rw [hT.length]; exact hlen

/-- **Where an instruction is**: behind the traced ones before it in its block. -/
theorem TablesOf.exists_at (hT : TablesOf M T) (hM : M.Verified) {pre post : List IRInst}
    (hb : M.blocks[bb]? = some b) (hsplit : b.insts = pre ++ j :: post) (ht : notTraced j = false)
    (last : Int) :
    ∃ id info cls, M.insID j.ref = some id ∧ id < M.insts.length ∧
      T.At ⟨bb, last, (pre.filter fun i => !notTraced i).length⟩ id info ∧
      M.instClass j.op = some cls ∧ info.type = (cls.type M.instrumentedFun).read ∧
        info.fn = cls.fn M.instrumentedFun := by
  have hmem : j ∈ b.traced := mem_traced.mpr ⟨by rw [hsplit]; simp, ht⟩
  obtain ⟨id, hid, hins, hidOf⟩ := hM.exists_id (List.mem_of_getElem? hb) hmem
  obtain ⟨info, cls, hinfo, hcls, htype, hfn⟩ := hT.inst id j hid
  refine ⟨id, info, cls, hins, (List.getElem?_eq_some_iff.mp hid).1,
    ⟨_, hT.block bb b hb, ?_, hinfo⟩, hcls, htype, hfn⟩
  show (b.traced.map M.idOf)[(pre.filter fun i => !notTraced i).length]? = some id
  rw [IRBlock.traced, hsplit, List.filter_append, List.filter_cons_of_pos (by simp [ht]),
    List.map_append, List.getElem?_append_right (by simp), List.length_map, Nat.sub_self,
    List.map_cons, List.getElem?_cons_zero, hidOf]

end

end Slimmer
