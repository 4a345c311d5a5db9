import Slimmer.DamagedTrace
import Slimmer.PinAgrees
import Slimmer.Lib.Loops

/-!
# `ExtractImpactfulFunCall` on any file

The two loops of `ExtractImpactfulFunCall` (`tools/PrintBug/ExtractImpactfulFunCall.cpp`) as one step
function, on a file whose blocks decompress to arbitrary bytes. The counters `_` and `cur` are 64-bit
words, and a record that is cut off at the end of the buffer is read on in the memory behind it.

**Theorem (`extract_advances_iff`).** The function returns, and every turn of its loops advances a
counter or reads the `End` label, if and only if no block it comes to has a label at the start of a
record that the switch does not know, and no length takes `_` back. On an unknown label the inner loop
stays where it is for ever.
-/

namespace Slimmer

/-! ## The loops -/

/-- The variables of the function between two turns. `block` is `cur` and `decoded` while the inner
loop runs. -/
structure Extraction where
  pos : Nat := 0
  buffer : List UInt8
  reader : PinReader := {}
  block : Option (Nat × Nat) := none

/-- `*(uint64_t *)(&buffer[off])` with the memory behind the buffer. -/
def loadAny (buffer : List UInt8) (beyond : Nat → UInt8) (off : Nat) : UInt64 :=
  UInt64.ofNat (leNat (memBytes buffer beyond off 8))

/-- The size of a record by its label. -/
def recordSize (label : UInt8) : Option Nat :=
  if label = endEventLabel then some 1
  else if label = callEventLabel then some 130
  else if label = returnEventLabel then some 130
  else if label = syscallEventLabel then some 66
  else none

/-- The record at `cur`. -/
def recordAt (buffer : List UInt8) (beyond : Nat → UInt8) (cur : Nat) (label : UInt8) :
    Option PinEvent :=
  let tid := loadAny buffer beyond (cur + 1)
  let fn := loadAny buffer beyond (cur + 65)
  if label = endEventLabel then some .endEvent
  else if label = callEventLabel then some (.call tid fn)
  else if label = returnEventLabel then some (.ret tid fn)
  else if label = syscallEventLabel then some (.syscall tid)
  else none

/-- The switch: what the record does to the stacks, and where `cur` is behind it. No record has any
other label; nothing happens then. -/
def PinReader.switch (s : PinReader) (buffer : List UInt8) (beyond : Nat → UInt8) (cur : Nat) :
    PinReader × Nat :=
  let label := (buffer[cur]?).getD (beyond cur)
  match recordAt buffer beyond cur label, recordSize label with
  | some e, some n => (s.read e, (cur + n) % 2 ^ 64)
  | _, _ => (s, cur)

section

variable (lz : LZ4) (size : Nat) (data : List UInt8) (beyond after : Nat → UInt8)

/-- One turn. `beyond` is the memory behind the file, `after` that behind the buffer. -/
def Extraction.step (x : Extraction) : Option Extraction :=
  match x.block with
  | none =>
    if x.reader.ended = true ∨ data.length ≤ x.pos then none
    else
      let (ret, out) := decompressAt lz size data beyond x.pos
      -- the `int` is stored in a `uint64_t`
      some { x with
        buffer := writeAt x.buffer 0 out
        block := some (0, (ret % 2 ^ 64).toNat) }
  | some (cur, decoded) =>
    if x.reader.ended = true ∨ decoded ≤ cur then
      some { x with pos := blockAfter data beyond x.pos, block := none }
    else
      let (reader, cur) := x.reader.switch x.buffer after cur
      some { x with reader := reader, block := some (cur, decoded) }

/-- The function at its start; `buffer` is what `malloc` returns. -/
def Extraction.start {size : Nat} (buffer : Block size) : Extraction := { buffer := buffer }

/-- A turn of the inner loop advances `cur`, and one of the outer loop `_`, or `ended` is set. -/
def Extraction.Advances (x x' : Extraction) : Prop :=
  match x.block, x'.block with
  | some (cur, _), some (cur', _) => cur < cur' ∨ x'.reader.ended = true
  | some _, none => x.pos < x'.pos ∨ x'.reader.ended = true
  | none, _ => True

/-- The function returns, and every turn advances. -/
def ExtractionEnds (buffer : Block size) : Prop :=
  (∃ t, EndsIn (Extraction.step lz size data beyond after) (.start buffer) t) ∧
    ∀ x x', Reaches (Extraction.step lz size data beyond after) (.start buffer) x →
      x.step lz size data beyond after = some x' → x.Advances x'

/-! ## The file -/

/-- Walk over a block from record to record, past `skip` bytes of one first: `some true` at an `End`
label, `some false` at the end of the block, `none` at a label that is unknown. -/
def walkRecords : Nat → List UInt8 → Option Bool
  | _, [] => some false
  | skip + 1, _ :: bytes => walkRecords skip bytes
  | 0, label :: bytes =>
    if label = endEventLabel then some true
    else match recordSize label with
      | none => none
      | some n => walkRecords (n - 1) bytes

/-- What the block at `pos` decompresses to. -/
def blockAt (pos : Nat) : List UInt8 := (decompressAt lz size data beyond pos).2

/-- The places where the outer loop finds a block. -/
inductive BlockStart : Nat → Prop
  | first : BlockStart 0
  | next {pos : Nat} (h : BlockStart pos) (hin : pos < data.length)
      (hwalk : walkRecords 0 (blockAt lz size data beyond pos) = some false) :
      BlockStart (blockAfter data beyond pos)

/-- All blocks decompress. -/
def BlocksDecompress : Prop :=
  ∀ pos, BlockStart lz size data beyond pos → pos < data.length →
    0 ≤ (decompressAt lz size data beyond pos).1

/-- No record has an unknown label, and the length of a block without an `End` label does not take
`_` back. -/
def Walkable : Prop :=
  ∀ pos, BlockStart lz size data beyond pos → pos < data.length →
    walkRecords 0 (blockAt lz size data beyond pos) = some true ∨
      (walkRecords 0 (blockAt lz size data beyond pos) = some false ∧
        pos < blockAfter data beyond pos)

end

/-! ## A block -/

section

variable {lz : LZ4} {size : Nat} {data : List UInt8} {beyond after : Nat → UInt8}
  {x x' : Extraction} {out bytes : List UInt8} {cur : Nat}

/-- The step of the function, and that it advances. -/
abbrev Advancing (lz : LZ4) (size : Nat) (data : List UInt8) (beyond after : Nat → UInt8)
    (x x' : Extraction) : Prop :=
  x.step lz size data beyond after = some x' ∧ x.Advances x'

theorem walkRecords_skip (skip : Nat) (bytes : List UInt8) :
    walkRecords skip bytes = walkRecords 0 (bytes.drop skip) := by
  induction skip generalizing bytes with
  | zero => rfl
  | succ skip ih =>
    cases bytes with
    | nil => rfl
    | cons b bytes => exact ih bytes

variable (after) in
/-- A record with a known label other than `End`. -/
theorem recordAt_of_size {label : UInt8} {n : Nat} (buffer : List UInt8) (cur : Nat)
    (h : recordSize label = some n) (hne : label ≠ endEventLabel) :
    ∃ e, recordAt buffer after cur label = some e ∧ e ≠ .endEvent ∧ 0 < n ∧ n ≤ 130 := by
  unfold recordSize at h
  unfold recordAt
  rw [if_neg hne] at h ⊢
  split_ifs at h ⊢ <;> cases h <;> exact ⟨_, rfl, by simp, by decide, by decide⟩

theorem recordAt_none {label : UInt8} (buffer : List UInt8) (cur : Nat)
    (h : recordSize label = none) : recordAt buffer after cur label = none := by
  unfold recordSize at h
  unfold recordAt
  split_ifs at h ⊢
  rfl

theorem loadAny_eq {buffer : List UInt8} {off : Nat} {v : UInt64}
    (h : loadU64 buffer off = some v) : loadAny buffer after off = v := by
  obtain ⟨n, hread, rfl⟩ := Option.map_eq_some_iff.mp h
  unfold readLE at hread
  split_ifs at hread with hin
  rw [loadAny, memBytes_eq hin, Option.some.inj hread]

/-- Inside the buffer this is `PinReader.readEvent`. -/
theorem switch_eq {s : PinReader} {buffer : List UInt8} {r : PinReader × Nat}
    (h : s.readEvent buffer cur = some r) (hcur : cur + 130 < 2 ^ 64) :
    s.switch buffer after cur = r := by
  obtain ⟨label, hlabel, h⟩ := Option.bind_eq_some_iff.mp h
  have hmod : ∀ n ≤ 130, (cur + n) % 2 ^ 64 = cur + n := fun n hn => Nat.mod_eq_of_lt (by omega)
  simp only [PinReader.switch, hlabel, Option.getD_some, recordAt, recordSize]
  split_ifs at h ⊢
  · rw [← Option.some.inj h]
    simp only [hmod 1 (by decide)]
  · obtain ⟨tid, htid, h⟩ := Option.bind_eq_some_iff.mp h
    obtain ⟨fn, hfn, h⟩ := Option.bind_eq_some_iff.mp h
    rw [← Option.some.inj h, loadAny_eq htid, loadAny_eq hfn]
    simp only [hmod 130 le_rfl]
  · obtain ⟨tid, htid, h⟩ := Option.bind_eq_some_iff.mp h
    obtain ⟨fn, hfn, h⟩ := Option.bind_eq_some_iff.mp h
    rw [← Option.some.inj h, loadAny_eq htid, loadAny_eq hfn]
    simp only [hmod 130 le_rfl]
  · obtain ⟨tid, htid, h⟩ := Option.bind_eq_some_iff.mp h
    rw [← Option.some.inj h, loadAny_eq htid]
    simp only [hmod 66 (by decide)]
  · exact Option.some.inj h

/-- The inner loop at `cur` of the bytes `out`. -/
structure InBlock (x : Extraction) (out : List UInt8) (cur : Nat) : Prop where
  block : x.block = some (cur, out.length)
  buffer : x.buffer.take out.length = out
  short : out.length < 2 ^ 31
  running : x.reader.ended = false

variable (after) in
theorem InBlock.label (h : InBlock x out cur) {label : UInt8} (hdrop : out.drop cur = label :: bytes) :
    (x.buffer[cur]?).getD (after cur) = label ∧ cur < out.length ∧ bytes = out.drop (cur + 1) := by
  have hcur : cur < out.length := by
    by_contra hge
    rw [List.drop_of_length_le (by omega)] at hdrop
    cases hdrop
  have hget := List.drop_eq_getElem_cons hcur
  rw [hdrop] at hget
  obtain ⟨rfl, rfl⟩ := List.cons.inj hget
  have hbuf : x.buffer[cur]? = out[cur]? := by
    conv_rhs => rw [← h.buffer]
    rw [List.getElem?_take, if_pos hcur]
  rw [hbuf, List.getElem?_eq_getElem hcur]
  exact ⟨rfl, hcur, rfl⟩

/-- One turn of the inner loop. -/
theorem InBlock.step (h : InBlock x out cur) (hcur : cur < out.length) :
    x.step lz size data beyond after = some { x with
      reader := (x.reader.switch x.buffer after cur).1
      block := some ((x.reader.switch x.buffer after cur).2, out.length) } := by
  have hgo : ¬ (x.reader.ended = true ∨ out.length ≤ cur) := by
    rw [h.running]
    simp only [Bool.false_eq_true, false_or]
    omega
  simp only [Extraction.step, h.block, if_neg hgo]

variable (lz size data beyond after) in
/-- **The inner loop.** It comes to the end of the block or to an `End` label and has advanced all the
way, or it stays for ever in front of an unknown label. -/
theorem InBlock.walk (h : InBlock x out cur) :
    (∀ e, walkRecords 0 (out.drop cur) = some e → ∃ x' cur',
      Relation.ReflTransGen (Advancing lz size data beyond after) x x' ∧
        x'.block = some (cur', out.length) ∧ x'.reader.ended = e ∧ (e = true ∨ out.length ≤ cur') ∧
        x'.pos = x.pos ∧ x'.buffer = x.buffer) ∧
      (walkRecords 0 (out.drop cur) = none → ∃ x',
        Reaches (Extraction.step lz size data beyond after) x x' ∧
          x'.step lz size data beyond after = some x' ∧ ¬ x'.Advances x') := by
  induction hn : out.length - cur using Nat.strongRecOn generalizing x cur with
  | _ n ih =>
    cases hdrop : out.drop cur with
    | nil =>
      have hge : out.length ≤ cur := List.drop_eq_nil_iff.mp hdrop
      refine ⟨fun e he => ?_, fun hnone => by simp [walkRecords] at hnone⟩
      obtain rfl : false = e := by simpa [walkRecords] using he
      exact ⟨x, cur, .refl, h.block, h.running, Or.inr hge, rfl, rfl⟩
    | cons label bytes =>
      obtain ⟨hlabel, hcur, hbytes⟩ := h.label after hdrop
      have hturn : x.step lz size data beyond after = some _ := h.step hcur
      have hshort := h.short
      by_cases hend : label = endEventLabel
      · have hswitch : x.reader.switch x.buffer after cur =
            (x.reader.read .endEvent, (cur + 1) % 2 ^ 64) := by
          rw [PinReader.switch, hlabel, hend]
          rfl
        rw [hswitch] at hturn
        refine ⟨fun e he => ?_, fun hnone => by simp [walkRecords, hend] at hnone⟩
        obtain rfl : true = e := by simpa [walkRecords, hend] using he
        refine ⟨_, _, .single ⟨hturn, ?_⟩, rfl, rfl, Or.inl rfl, rfl, rfl⟩
        rw [Extraction.Advances, h.block]
        exact Or.inr rfl
      · cases hsize : recordSize label with
        | none =>
          have hswitch : x.reader.switch x.buffer after cur = (x.reader, cur) := by
            rw [PinReader.switch, hlabel, hsize, recordAt_none _ _ hsize]
          rw [hswitch] at hturn
          have hsame : x.step lz size data beyond after = some x := by
            rw [hturn, ← h.block]
          have hwalk : walkRecords 0 (label :: bytes) = none := by
            rw [walkRecords, if_neg hend, hsize]
          rw [hwalk]
          refine ⟨fun e he => (nomatch he), fun _ => ⟨x, .refl, hsame, ?_⟩⟩
          rw [Extraction.Advances, h.block]
          simp [h.running]
        | some k =>
          obtain ⟨e₁, he₁, hne₁, hk, hk130⟩ :=
            recordAt_of_size after x.buffer cur hsize hend
          have hmod : (cur + k) % 2 ^ 64 = cur + k := Nat.mod_eq_of_lt (by omega)
          have hswitch : x.reader.switch x.buffer after cur = (x.reader.read e₁, cur + k) := by
            rw [PinReader.switch, hlabel, hsize, he₁]
            simp only [hmod]
          rw [hswitch] at hturn
          obtain ⟨x₁, hx₁⟩ : ∃ x₁, x₁ = { x with
              reader := x.reader.read e₁, block := some (cur + k, out.length) } := ⟨_, rfl⟩
          have hturn₁ : x.step lz size data beyond after = some x₁ := by rw [hturn, hx₁]
          have h₁ : InBlock x₁ out (cur + k) := by
            subst hx₁
            exact ⟨rfl, h.buffer, h.short, (read_ended hne₁ x.reader).trans h.running⟩
          have hwalk : walkRecords 0 (label :: bytes) = walkRecords 0 (out.drop (cur + k)) := by
            rw [walkRecords, if_neg hend, hsize]
            show walkRecords (k - 1) bytes = _
            rw [walkRecords_skip, hbytes, List.drop_drop]
            congr 2
            omega
          have hadv : x.Advances x₁ := by
            rw [Extraction.Advances, h.block, hx₁]
            exact Or.inl (by omega)
          obtain ⟨hgood, hbad⟩ := ih (out.length - (cur + k)) (by omega) h₁ rfl
          rw [hwalk]
          refine ⟨fun e he => ?_, fun hnone => ?_⟩
          · obtain ⟨x', cur', hpath, hblock, hend', hstop, hpos, hbuf⟩ := hgood e he
            refine ⟨x', cur', .head ⟨hturn₁, hadv⟩ hpath, hblock, hend', hstop, ?_, ?_⟩
            · rw [hpos, hx₁]
            · rw [hbuf, hx₁]
          · obtain ⟨x', hreach, hstuck, hno⟩ := hbad hnone
            exact ⟨x', .head hturn₁ hreach, hstuck, hno⟩

/-! ## The file -/

/-- The outer loop at `pos`. -/
structure AtBlock (size : Nat) (x : Extraction) (pos : Nat) : Prop where
  block : x.block = none
  pos : x.pos = pos
  length : x.buffer.length = size
  running : x.reader.ended = false

variable {pos : Nat}

variable (after) in
/-- The turn that decompresses a block. -/
theorem AtBlock.enter (hlz : lz.Safe size) (h : AtBlock size x pos) (hin : pos < data.length)
    (hret : 0 ≤ (decompressAt lz size data beyond pos).1) :
    ∃ x', Advancing lz size data beyond after x x' ∧
      InBlock x' (blockAt lz size data beyond pos) 0 ∧ x'.pos = pos ∧ x'.buffer.length = size := by
  obtain ⟨src, hsrc⟩ : ∃ src, decompressAt lz size data beyond pos = lz.decompress src size :=
    ⟨_, rfl⟩
  have hstored : (decompressAt lz size data beyond pos).1 =
      ((blockAt lz size data beyond pos).length : Int) := by
    rw [blockAt, hsrc]
    rw [hsrc] at hret
    exact hlz.stored src hret
  have hout : (blockAt lz size data beyond pos).length ≤ size := by
    rw [blockAt, hsrc]
    exact hlz.length_le src
  have hsize := hlz.size_lt
  have hgo : ¬ (x.reader.ended = true ∨ data.length ≤ pos) := by
    rw [h.running]
    simp only [Bool.false_eq_true, false_or]
    omega
  have hcast : ((decompressAt lz size data beyond pos).1 % 2 ^ 64).toNat =
      (blockAt lz size data beyond pos).length := by omega
  refine ⟨{ x with
    buffer := writeAt x.buffer 0 (blockAt lz size data beyond pos)
    block := some (0, (blockAt lz size data beyond pos).length) }, ⟨?_, ?_⟩, ⟨rfl, ?_, ?_, h.running⟩,
    h.pos, ?_⟩
  · simp only [Extraction.step, h.block, h.pos, if_neg hgo, hcast]
    rfl
  · simp only [Extraction.Advances, h.block]
  · simp [writeAt]
  · omega
  · exact (length_writeAt (by rw [h.length]; simpa using hout)).trans h.length

/-- The turn that leaves a block. -/
theorem leave_step {cur : Nat} (hblock : x.block = some (cur, out.length))
    (hstop : x.reader.ended = true ∨ out.length ≤ cur) :
    x.step lz size data beyond after =
      some { x with pos := blockAfter data beyond x.pos, block := none } := by
  simp only [Extraction.step, hblock, if_pos hstop]

variable (after) in
/-- **The outer loop.** From one block to the next. -/
theorem AtBlock.next (hlz : lz.Safe size) (h : AtBlock size x pos) (hin : pos < data.length)
    (hret : 0 ≤ (decompressAt lz size data beyond pos).1) :
    (∀ e, walkRecords 0 (blockAt lz size data beyond pos) = some e → ∃ x' x'',
      Relation.ReflTransGen (Advancing lz size data beyond after) x x' ∧
        x'.step lz size data beyond after = some x'' ∧ x''.block = none ∧ x''.reader.ended = e ∧
        x''.pos = blockAfter data beyond pos ∧ x''.buffer.length = size ∧
        (x'.Advances x'' ↔ pos < blockAfter data beyond pos ∨ e = true)) ∧
      (walkRecords 0 (blockAt lz size data beyond pos) = none → ∃ x',
        Reaches (Extraction.step lz size data beyond after) x x' ∧
          x'.step lz size data beyond after = some x' ∧ ¬ x'.Advances x') := by
  obtain ⟨x₁, hfirst, hin₁, hpos₁, hlen₁⟩ := h.enter after hlz hin hret
  obtain ⟨hgood, hbad⟩ := hin₁.walk lz size data beyond after
  rw [List.drop_zero] at hgood hbad
  refine ⟨fun e he => ?_, fun hnone => ?_⟩
  · obtain ⟨x', cur', hpath, hblock, hend, hstop, hpos, hbuf⟩ := hgood e he
    have hleave : x'.step lz size data beyond after = some _ :=
      leave_step hblock (by rw [hend]; exact hstop)
    refine ⟨x', _, .head hfirst hpath, hleave, rfl, hend, ?_, ?_, ?_⟩
    · show blockAfter data beyond x'.pos = _
      rw [hpos, hpos₁]
    · show x'.buffer.length = size
      rw [hbuf, hlen₁]
    · rw [Extraction.Advances, hblock, hpos, hpos₁, hend]
  · obtain ⟨x', hreach, hstuck, hno⟩ := hbad hnone
    exact ⟨x', .head hfirst.1 hreach, hstuck, hno⟩

variable (after) in
/-- Where a block starts, the outer loop comes to. -/
theorem BlockStart.reached (hlz : lz.Safe size) (hdec : BlocksDecompress lz size data beyond)
    (buffer : Block size) (h : BlockStart lz size data beyond pos) :
    ∃ x, Reaches (Extraction.step lz size data beyond after) (.start buffer) x ∧
      AtBlock size x pos := by
  induction h with
  | first => exact ⟨.start buffer, .refl, rfl, rfl, buffer.2, rfl⟩
  | @next pos hstart hin hwalk ih =>
    obtain ⟨x, hreach, hat⟩ := ih
    obtain ⟨x', x'', hpath, hleave, hblock, hend, hpos, hlen, -⟩ :=
      (hat.next after hlz hin (hdec pos hstart hin)).1 false hwalk
    exact ⟨x'', (hreach.trans (reaches_of_path hpath)).tail hleave, hblock, hpos, hlen, hend⟩

variable (after) in
/-- From a block start of a walkable file the function advances to its end. -/
theorem Walkable.ends (hlz : lz.Safe size) (hdec : BlocksDecompress lz size data beyond)
    (hwalk : Walkable lz size data beyond) (hstart : BlockStart lz size data beyond pos)
    (hat : AtBlock size x pos) :
    ∃ t, Relation.ReflTransGen (Advancing lz size data beyond after) x t ∧
      t.step lz size data beyond after = none := by
  induction hn : data.length - pos using Nat.strongRecOn generalizing x pos with
  | _ n ih =>
    by_cases hin : pos < data.length
    · have hnext := (hat.next after hlz hin (hdec pos hstart hin)).1
      obtain hend | ⟨hmore, hlt⟩ := hwalk pos hstart hin
      · obtain ⟨x', x'', hpath, hleave, hblock, hended, -, -, hadv⟩ := hnext true hend
        refine ⟨x'', hpath.tail ⟨hleave, hadv.mpr (Or.inr rfl)⟩, ?_⟩
        simp only [Extraction.step, hblock, hended, true_or, if_true]
      · obtain ⟨x', x'', hpath, hleave, hblock, hended, hpos, hlen, hadv⟩ := hnext false hmore
        obtain ⟨t, hrest, hstop⟩ := ih (data.length - blockAfter data beyond pos) (by omega)
          (hstart.next hin hmore) ⟨hblock, hpos, hlen, hended⟩ rfl
        exact ⟨t, (hpath.tail ⟨hleave, hadv.mpr (Or.inl hlt)⟩).trans hrest, hstop⟩
    · refine ⟨x, .refl, ?_⟩
      have hstop : x.reader.ended = true ∨ data.length ≤ x.pos := by
        rw [hat.pos]
        omega
      simp only [Extraction.step, hat.block, if_pos hstop]

/-- **The function returns and every turn advances** exactly if the file is walkable. -/
theorem extract_advances_iff (hlz : lz.Safe size) (hdec : BlocksDecompress lz size data beyond)
    (buffer : Block size) :
    ExtractionEnds lz size data beyond after buffer ↔ Walkable lz size data beyond := by
  constructor
  · rintro ⟨-, hadv⟩ pos hstart hin
    obtain ⟨x, hreach, hat⟩ := hstart.reached after hlz hdec buffer
    obtain ⟨hgood, hbad⟩ := hat.next after hlz hin (hdec pos hstart hin)
    cases hwalk : walkRecords 0 (blockAt lz size data beyond pos) with
    | none =>
      obtain ⟨x', hx', hstuck, hno⟩ := hbad hwalk
      exact absurd (hadv x' x' (hreach.trans hx') hstuck) hno
    | some e =>
      obtain ⟨x', x'', hpath, hleave, -, -, -, -, hiff⟩ := hgood e hwalk
      have := hiff.mp (hadv x' x'' (hreach.trans (reaches_of_path hpath)) hleave)
      cases e with
      | true => exact Or.inl rfl
      | false => exact Or.inr ⟨rfl, by simpa using this⟩
  · intro hwalk
    obtain ⟨t, hpath, hstop⟩ := hwalk.ends after hlz hdec .first
      (show AtBlock size (.start buffer) 0 from ⟨rfl, rfl, buffer.2, rfl⟩)
    exact ⟨⟨t, reaches_of_path hpath, hstop⟩, fun x x' hreach hturn =>
      hreach.turn_of_path hturn hpath hstop⟩

end

/-- Behind a block that is not walked to its end there is none. -/
theorem blocksDecompress_single {lz : LZ4} {size : Nat} {data : List UInt8} {beyond : Nat → UInt8}
    (hwalk : walkRecords 0 (blockAt lz size data beyond 0) ≠ some false)
    (hret : 0 ≤ (decompressAt lz size data beyond 0).1) : BlocksDecompress lz size data beyond := by
  intro pos hstart _
  have hzero : pos = 0 := by
    induction hstart with
    | first => rfl
    | next _ hin hnext ih =>
      rw [ih hin] at hnext
      exact absurd hnext hwalk
  rw [hzero]
  exact hret

/-- A block of the byte 0, which is the label of an event that the Pin tool does not write. -/
theorem unknown_label_loops :
    ¬ ∀ (lz : LZ4) (size : Nat) (data : List UInt8) (beyond after : Nat → UInt8)
      (buffer : Block size), lz.Safe size → BlocksDecompress lz size data beyond →
        ∃ t, EndsIn (Extraction.step lz size data beyond after) (.start buffer) t := by
  intro h
  have hwalk : walkRecords 0 (blockAt shortLiteralLZ4 256 (dump (shortLiteralLZ4.compress [0]))
      (fun _ => 0) 0) = none := by decide
  have hret : 0 ≤ (decompressAt shortLiteralLZ4 256 (dump (shortLiteralLZ4.compress [0]))
      (fun _ => 0) 0).1 := by decide
  obtain ⟨t, hend⟩ := h shortLiteralLZ4 256 (dump (shortLiteralLZ4.compress [0])) (fun _ => 0)
    (fun _ => 0) ⟨List.replicate 256 0, List.length_replicate⟩ shortLiteralLZ4_safe
    (blocksDecompress_single (by rw [hwalk]; simp) hret)
  have hstart : AtBlock 256 (Extraction.start
      (⟨List.replicate 256 0, List.length_replicate⟩ : Block 256)) 0 :=
    ⟨rfl, rfl, List.length_replicate, rfl⟩
  obtain ⟨x, hreach, hstuck, -⟩ :=
    (hstart.next (fun _ => 0) shortLiteralLZ4_safe (by decide) hret).2 hwalk
  -- once there, the loop stays there
  have hstay := (hreach.endsIn hend).invariant (P := (· = x)) rfl fun y y' hy hturn => by
    rw [hy, hstuck] at hturn
    exact (Option.some.inj hturn).symm
  rw [hstay.1, hstuck] at hstay
  cases hstay.2

/-- A record of a system call, alone in its block, and one with the `End` label behind it. -/
def syscallFile : List UInt8 :=
  traceFile shortLiteralLZ4 [4 :: List.replicate 65 0, 4 :: (List.replicate 65 0 ++ [125])]

theorem syscallFile_starts {pos : Nat} (h : BlockStart shortLiteralLZ4 256 syscallFile (fun _ => 0) pos) :
    pos = 0 ∨ pos = 84 := by
  induction h with
  | first => exact Or.inl rfl
  | next _ _ hwalk ih =>
    rcases ih with rfl | rfl
    · exact Or.inr (by decide +kernel)
    · rw [show walkRecords 0 (blockAt shortLiteralLZ4 256 syscallFile (fun _ => 0) 84) = some true by
        decide +kernel] at hwalk
      cases hwalk

/-- Both blocks are walked, and the function returns. -/
theorem extract_advances_syscall :
    Walkable shortLiteralLZ4 256 syscallFile (fun _ => 0) ∧
      ExtractionEnds shortLiteralLZ4 256 syscallFile (fun _ => 0) (fun _ => 0)
        ⟨List.replicate 256 0, List.length_replicate⟩ := by
  have hdec : BlocksDecompress shortLiteralLZ4 256 syscallFile (fun _ => 0) := by
    intro pos hstart _
    rcases syscallFile_starts hstart with rfl | rfl
    · decide +kernel
    · decide +kernel
  have hwalk : Walkable shortLiteralLZ4 256 syscallFile (fun _ => 0) := by
    intro pos hstart _
    rcases syscallFile_starts hstart with rfl | rfl
    · exact Or.inr ⟨by decide +kernel, by decide +kernel⟩
    · exact Or.inl (by decide +kernel)
  exact ⟨hwalk, (extract_advances_iff shortLiteralLZ4_safe hdec _).mpr hwalk⟩

end Slimmer
