import Slimmer.PinRecorder

/-!
# Recorder and reader agree

**Theorem (`extract_pinTrace`).** From the file of well nested callbacks, in any interleaving of the
threads, `ExtractImpactfulFunCall` computes the functions under which there has been a syscall while
they were the outermost open call of the thread.

* The file is a sequence of blocks of whole events (`Holds`), so that reading it is a fold over the
  events (`readFile_blocks`).
* The depth is the number of open calls, and the stack of the reader has the outermost open call on
  it and no other (`Agree`).
-/

namespace Slimmer

/-! ## Blocks -/

/-- The bytes of a block. -/
def eventBytes (events : List PinEvent) : List UInt8 := events.flatMap PinEvent.encode

@[simp] theorem eventBytes_nil : eventBytes [] = [] := rfl

theorem eventBytes_cons (e : PinEvent) (events : List PinEvent) :
    eventBytes (e :: events) = e.encode ++ eventBytes events := List.flatMap_cons

theorem eventBytes_concat (events : List PinEvent) (e : PinEvent) :
    eventBytes (events ++ [e]) = eventBytes events ++ e.encode := by
  unfold eventBytes
  rw [List.flatMap_append, List.flatMap_singleton]

/-- The file of these blocks. -/
def blocksFile (lz : LZ4) (blocks : List (List PinEvent)) : List UInt8 :=
  traceFile lz (blocks.map eventBytes)

theorem blocksFile_cons (lz : LZ4) (b : List PinEvent) (blocks : List (List PinEvent)) :
    blocksFile lz (b :: blocks) = dump (lz.compress (eventBytes b)) ++ blocksFile lz blocks := by
  unfold blocksFile traceFile
  rw [List.map_cons, List.flatMap_cons]

theorem blocksFile_concat (lz : LZ4) (blocks : List (List PinEvent)) (b : List PinEvent) :
    blocksFile lz (blocks ++ [b]) = blocksFile lz blocks ++ dump (lz.compress (eventBytes b)) := by
  unfold blocksFile traceFile
  rw [List.map_append, List.flatMap_append, List.map_singleton, List.flatMap_singleton]

theorem length_callBytes (label : UInt8) (tid fn : UInt64) :
    (callBytes label tid fn).length = sizeOfCallEvent := by
  unfold callBytes
  simp only [List.length_cons, List.length_append, length_leBytes, List.length_replicate,
    List.length_nil]
  rfl

theorem length_syscallBytes (tid : UInt64) :
    (PinEvent.syscall tid).encode.length = sizeOfSyscallEvent := by
  unfold PinEvent.encode
  simp only [List.length_cons, List.length_append, length_leBytes, List.length_replicate,
    List.length_nil]
  rfl

/-- No event is larger than a call. -/
theorem PinEvent.length_le (e : PinEvent) : e.encode.length ≤ sizeOfCallEvent := by
  cases e with
  | call tid fn => exact (length_callBytes _ tid fn).le
  | ret tid fn => exact (length_callBytes _ tid fn).le
  | syscall tid =>
    rw [length_syscallBytes]
    decide
  | endEvent => decide

section

variable {lz : LZ4} {size : Nat} {b : EventBuffer} {events : List PinEvent}
  {blocks : List (List PinEvent)}

/-- The buffer is in the middle of a block, and what has been written are blocks of whole events. They
all fit the buffer, as `Append` asserts. -/
def Holds (lz : LZ4) (size : Nat) (b : EventBuffer) (events : List PinEvent) : Prop :=
  ∃ blocks block, b.stream = blocksFile lz blocks ∧ b.buffer = eventBytes block ∧
    events = blocks.flatten ++ block ∧ (∀ b ∈ blocks, (eventBytes b).length ≤ size) ∧
    (eventBytes block).length ≤ size

theorem holds_nil : Holds lz size {} [] :=
  ⟨[], [], rfl, rfl, rfl, (fun _ hb => nomatch hb), Nat.zero_le _⟩

/-- **An event is never split**: `Append` writes the block when the event does not fit. -/
theorem Holds.append (h : Holds lz size b events) (hS : sizeOfCallEvent ≤ size) (e : PinEvent) :
    Holds lz size (b.append lz size e.encode) (events ++ [e]) := by
  obtain ⟨blocks, block, hstream, hbuffer, hevents, hblocks, hblock⟩ := h
  have hlen : e.encode.length ≤ size := e.length_le.trans hS
  unfold EventBuffer.append
  by_cases hfull : b.buffer.length + e.encode.length > size
  · simp only [if_pos hfull]
    refine ⟨blocks ++ [block], [e], ?_, ?_, ?_, ?_, ?_⟩
    · show b.stream ++ dump (lz.compress b.buffer) = _
      rw [blocksFile_concat, hstream, hbuffer]
    · show [] ++ e.encode = _
      rw [eventBytes_cons, eventBytes_nil, List.append_nil, List.nil_append]
    · rw [hevents, List.flatten_concat]
    · intro b' hb'
      rcases List.mem_append.mp hb' with hb' | hb'
      · exact hblocks b' hb'
      · rw [List.mem_singleton.mp hb']
        exact hblock
    · rw [eventBytes_cons, eventBytes_nil, List.append_nil]
      exact hlen
  · simp only [if_neg hfull]
    refine ⟨blocks, block ++ [e], hstream, ?_, ?_, hblocks, ?_⟩
    · show b.buffer ++ e.encode = _
      rw [eventBytes_concat, hbuffer]
    · rw [hevents, List.append_assoc]
    · rw [eventBytes_concat, List.length_append, ← hbuffer]
      exact Nat.le_of_not_lt hfull

theorem Holds.foldl (hS : sizeOfCallEvent ≤ size) (more : List PinEvent) :
    ∀ {b : EventBuffer} {events : List PinEvent}, Holds lz size b events →
      Holds lz size (more.foldl (fun b e => b.append lz size e.encode) b) (events ++ more) := by
  induction more with
  | nil =>
    intro b events h
    rw [List.append_nil]
    exact h
  | cons e more ih =>
    intro b events h
    rw [List.append_cons]
    exact ih (h.append hS e)

/-- The file that is closed: blocks of whole events, the last of which ends with the `End` label. -/
theorem Holds.close (h : Holds lz size b events) (hS : sizeOfCallEvent ≤ size) :
    ∃ blocks block, b.closeBufferFile lz size = blocksFile lz (blocks ++ [block ++ [.endEvent]]) ∧
      events = blocks.flatten ++ block ∧ (∀ b ∈ blocks, (eventBytes b).length ≤ size) ∧
      (eventBytes (block ++ [.endEvent])).length ≤ size := by
  obtain ⟨blocks, block, hstream, hbuffer, hevents, hblocks, hblock⟩ := h.append hS .endEvent
  have hne : block ≠ [] := by
    intro hnil
    have hlen : 0 < (b.append lz size PinEvent.endEvent.encode).buffer.length := by
      unfold EventBuffer.append
      simp only [List.length_append]
      exact Nat.lt_add_left _ (by decide)
    rw [hbuffer, hnil] at hlen
    exact Nat.lt_irrefl 0 hlen
  obtain ⟨block, e, rfl⟩ := block.eq_nil_or_concat'.resolve_left hne
  rw [← List.append_assoc] at hevents
  obtain ⟨hevents', he⟩ := List.append_inj' hevents rfl
  cases he
  refine ⟨blocks, block, ?_, hevents', hblocks, hblock⟩
  rw [blocksFile_concat, ← hstream, ← hbuffer]
  rfl

end

/-! ## Reading -/

theorem loadU64_append (pre post : List UInt8) (v : UInt64) :
    loadU64 (pre ++ (leBytes 8 v.toNat ++ post)) pre.length = some v := by
  have hlt : v.toNat < 256 ^ 8 := v.toNat_lt
  unfold loadU64
  rw [readLE_append hlt, Option.map_some, UInt64.ofNat_toNat]

/-- The fields of `call_event` and `return_event`. -/
theorem loadU64_callBytes (label : UInt8) (tid fn : UInt64) (pre post : List UInt8) :
    loadU64 (pre ++ (callBytes label tid fn ++ post)) (pre.length + 1) = some tid ∧
      loadU64 (pre ++ (callBytes label tid fn ++ post)) (pre.length + 65) = some fn := by
  constructor
  · have h := loadU64_append (pre ++ [label]) (List.replicate 56 0 ++ (leBytes 8 fn.toNat ++
      (List.replicate 56 0 ++ [label])) ++ post) tid
    rw [List.length_append, List.length_singleton] at h
    rw [← h]
    unfold callBytes
    simp only [List.append_assoc, List.cons_append, List.nil_append]
  · have h := loadU64_append (pre ++ (label :: (leBytes 8 tid.toNat ++ List.replicate 56 0)))
      (List.replicate 56 0 ++ [label] ++ post) fn
    rw [List.length_append, List.length_cons, List.length_append, length_leBytes,
      List.length_replicate] at h
    rw [← h]
    unfold callBytes
    simp only [List.append_assoc, List.cons_append, List.nil_append]

/-- The branches of both events. -/
theorem bind_callBytes {α : Type} (label : UInt8) (tid fn : UInt64) (pre post : List UInt8)
    (read : UInt64 → UInt64 → α) :
    ((loadU64 (pre ++ (callBytes label tid fn ++ post)) (pre.length + 1)).bind fun t =>
      (loadU64 (pre ++ (callBytes label tid fn ++ post)) (pre.length + 65)).bind fun f =>
        some (read t f, pre.length + 130)) =
      some (read tid fn, pre.length + (callBytes label tid fn).length) := by
  obtain ⟨htid, hfn⟩ := loadU64_callBytes label tid fn pre post
  rw [htid, Option.bind_some, hfn, Option.bind_some, length_callBytes]
  rfl

theorem getElem?_append_cons (pre : List UInt8) (label : UInt8) (post : List UInt8) :
    (pre ++ label :: post)[pre.length]? = some label := by
  rw [List.getElem?_append_right le_rfl, Nat.sub_self]
  rfl

/-- **An event is read as it was recorded.** -/
theorem readEvent_encode (s : PinReader) (e : PinEvent) (pre post : List UInt8) :
    s.readEvent (pre ++ (e.encode ++ post)) pre.length =
      some (s.read e, pre.length + e.encode.length) := by
  have hlabel : ∃ rest, e.encode ++ post = e.encode.headD 0 :: rest := by
    cases e <;> exact ⟨_, rfl⟩
  obtain ⟨rest, hrest⟩ := hlabel
  have hget : (pre ++ (e.encode ++ post))[pre.length]? = some (e.encode.headD 0) := by
    rw [hrest]
    apply getElem?_append_cons
  unfold PinReader.readEvent
  rw [hget]
  cases e with
  | call tid fn =>
    exact bind_callBytes callEventLabel tid fn pre post fun tid fn => s.read (.call tid fn)
  | ret tid fn =>
    exact bind_callBytes returnEventLabel tid fn pre post fun tid fn => s.read (.ret tid fn)
  | syscall tid =>
    have htid : loadU64 (pre ++ ((PinEvent.syscall tid).encode ++ post)) (pre.length + 1) =
        some tid := by
      have h := loadU64_append (pre ++ [syscallEventLabel])
        (List.replicate 56 0 ++ [syscallEventLabel] ++ post) tid
      rw [List.length_append, List.length_singleton] at h
      rw [← h]
      unfold PinEvent.encode
      simp only [List.append_assoc, List.cons_append, List.nil_append]
    show (loadU64 (pre ++ ((PinEvent.syscall tid).encode ++ post)) (pre.length + 1)).bind _ = _
    rw [htid, Option.bind_some, length_syscallBytes]
    rfl
  | endEvent => rfl

/-! ## The loops -/

theorem PinEvent.length_pos (e : PinEvent) : 0 < e.encode.length := by
  cases e <;> exact Nat.succ_pos _

theorem length_le_eventBytes (events : List PinEvent) :
    events.length ≤ (eventBytes events).length := by
  induction events with
  | nil => exact Nat.zero_le _
  | cons e events ih =>
    have := e.length_pos
    rw [eventBytes_cons, List.length_append, List.length_cons]
    omega

theorem read_ended {e : PinEvent} (he : e ≠ .endEvent) (s : PinReader) :
    (s.read e).ended = s.ended := by
  cases e with
  | call tid fn => rfl
  | ret tid fn => rfl
  | syscall tid =>
    unfold PinReader.read
    simp only []
    cases s.funStack tid <;> rfl
  | endEvent => exact absurd rfl he

section

variable {lz : LZ4} {size fuel : Nat} {s : PinReader} {events : List PinEvent}

/-- The loop over a block reads the events in it. -/
theorem readBlock_events (decoded fuel : Nat) (hs : s.ended = false) (hend : .endEvent ∉ events)
    (pre post : List UInt8) (hdec : pre.length + (eventBytes events).length ≤ decoded) :
    PinReader.readBlock (pre ++ (eventBytes events ++ post)) decoded (fuel + events.length)
        pre.length s =
      PinReader.readBlock (pre ++ (eventBytes events ++ post)) decoded fuel
        (pre.length + (eventBytes events).length) (events.foldl PinReader.read s) ∧
      (events.foldl PinReader.read s).ended = false := by
  induction events generalizing pre s with
  | nil => exact ⟨rfl, hs⟩
  | cons e events ih =>
    obtain ⟨he, hend⟩ := not_or.mp (mt List.mem_cons.mpr hend)
    rw [eventBytes_cons, List.length_append] at hdec
    have hpos := e.length_pos
    have hmore : ¬ (s.ended = true ∨ decoded ≤ pre.length) := by
      rw [hs]
      rintro (h | h)
      · cases h
      · omega
    have hs' : (s.read e).ended = false := (read_ended (Ne.symm he) s).trans hs
    have hdec' : (pre ++ e.encode).length + (eventBytes events).length ≤ decoded := by
      rw [List.length_append]
      omega
    obtain ⟨hread, hended⟩ := ih hs' hend (pre ++ e.encode) hdec'
    refine ⟨?_, hended⟩
    rw [eventBytes_cons, List.append_assoc, List.length_cons, ← Nat.add_assoc,
      PinReader.readBlock, if_neg hmore, readEvent_encode, Option.bind_some]
    rw [List.append_assoc, List.length_append] at hread
    show PinReader.readBlock _ decoded (fuel + events.length) (pre.length + e.encode.length)
      (s.read e) = _
    rw [hread, List.foldl_cons, List.length_append, Nat.add_assoc]

/-- A block is whole events, and the `End` label can only be its last one. -/
theorem readBlock_block {block : List PinEvent} (hs : s.ended = false)
    (hblock : block = events ∨ block = events ++ [.endEvent]) (hend : .endEvent ∉ events)
    (post : List UInt8) :
    PinReader.readBlock (eventBytes block ++ post) (eventBytes block).length
      ((eventBytes block).length + 1) 0 s = some (block.foldl PinReader.read s) := by
  rcases hblock with rfl | rfl
  · have hlen := length_le_eventBytes block
    have hfuel : (eventBytes block).length + 1 =
        (eventBytes block).length - block.length + 1 + block.length := by
      omega
    obtain ⟨hread, -⟩ := readBlock_events (eventBytes block).length
      ((eventBytes block).length - block.length + 1) hs hend [] post (Nat.zero_add _).le
    rw [List.nil_append, ← hfuel, List.length_nil, Nat.zero_add] at hread
    rw [hread, PinReader.readBlock, if_pos (Or.inr le_rfl)]
  · have hlen := length_le_eventBytes events
    have hbytes : (eventBytes (events ++ [.endEvent])).length = (eventBytes events).length + 1 := by
      rw [eventBytes_concat, List.length_append]
      rfl
    have hfuel : (eventBytes events).length + 1 + 1 =
        (eventBytes events).length - events.length + 2 + events.length := by
      omega
    obtain ⟨hread, hended⟩ := readBlock_events ((eventBytes events).length + 1)
      ((eventBytes events).length - events.length + 2) hs hend []
      (PinEvent.endEvent.encode ++ post) (by rw [List.length_nil]; omega)
    rw [List.nil_append, ← hfuel, List.length_nil, Nat.zero_add] at hread
    have hmore : ¬ ((events.foldl PinReader.read s).ended = true ∨
        (eventBytes events).length + 1 ≤ (eventBytes events).length) := by
      rw [hended]
      rintro (h | h)
      · cases h
      · omega
    rw [hbytes, eventBytes_concat, List.append_assoc, hread, PinReader.readBlock, if_neg hmore,
      readEvent_encode, Option.bind_some, List.foldl_concat]
    have hstop : ((events.foldl PinReader.read s).read .endEvent).ended = true := rfl
    show PinReader.readBlock _ _ (_ + 1) _ (PinReader.read _ .endEvent) = _
    rw [PinReader.readBlock, if_pos (Or.inl hstop)]

/-- A turn of the loop over the file reads a block. -/
theorem readFile_block (hlz : lz.InvertsUpTo size) {buffer rest : List UInt8}
    {block : List PinEvent} (hs : s.ended = false)
    (hblock : block = events ∨ block = events ++ [.endEvent]) (hend : .endEvent ∉ events)
    (hlen : (eventBytes block).length ≤ size) (pre : List UInt8) :
    PinReader.readFile lz size (pre ++ (dump (lz.compress (eventBytes block)) ++ rest)) (fuel + 1)
        pre.length buffer s =
      PinReader.readFile lz size (pre ++ (dump (lz.compress (eventBytes block)) ++ rest)) fuel
        (pre ++ dump (lz.compress (eventBytes block))).length
        (writeAt buffer 0 (eventBytes block)) (block.foldl PinReader.read s) := by
  obtain ⟨c, hc⟩ : ∃ c, c = lz.compress (eventBytes block) := ⟨_, rfl⟩
  rw [← hc]
  have hclen : c.length < 256 ^ 8 := by
    rw [hc]
    exact (hlz.length_lt _ hlen).trans (by norm_num)
  obtain ⟨hread, htake, hpos⟩ := read_dump hclen pre rest
  have hmore : ¬ (s.ended = true ∨ (pre ++ (dump c ++ rest)).length ≤ pre.length) := by
    have := lt_length_dump c pre rest
    rw [hs]
    simp only [Bool.false_eq_true, false_or]
    omega
  have hret : (((eventBytes block).length : Int) % 2 ^ 64).toNat = (eventBytes block).length := by
    have := hlz.size_lt
    omega
  have hdec : lz.decompress (((pre ++ (dump c ++ rest)).drop (pre.length + 8)).take c.length) size =
      (((eventBytes block).length : Int), eventBytes block) := by
    rw [htake, hc]
    exact hlz.decompress_compress _ hlen
  have hout : writeAt buffer 0 (eventBytes block) =
      eventBytes block ++ buffer.drop (0 + (eventBytes block).length) := rfl
  rw [PinReader.readFile, if_neg hmore, hread]
  simp only [Option.bind_eq_bind, Option.bind_some, hdec, hret]
  rw [hout, readBlock_block hs hblock hend, Option.bind_some, hpos]

/-- **The file is read** event by event. -/
theorem readFile_blocks (hlz : lz.InvertsUpTo size) (pre buffer : List UInt8)
    {blocks : List (List PinEvent)} {block : List PinEvent} (hs : s.ended = false)
    (hblocks : ∀ b ∈ blocks, (eventBytes b).length ≤ size ∧ .endEvent ∉ b)
    (hlen : (eventBytes (block ++ [.endEvent])).length ≤ size) (hend : .endEvent ∉ block)
    (hfuel : blocks.length + 1 < fuel) :
    PinReader.readFile lz size (pre ++ blocksFile lz (blocks ++ [block ++ [.endEvent]])) fuel
        pre.length buffer s =
      some ((blocks.flatten ++ block ++ [PinEvent.endEvent]).foldl PinReader.read s) := by
  induction blocks generalizing pre buffer s fuel with
  | nil =>
    obtain ⟨fuel, rfl⟩ : ∃ n, fuel = n + 2 := ⟨fuel - 2, by simp at hfuel; omega⟩
    rw [List.nil_append, blocksFile_cons,
      readFile_block hlz hs (Or.inr rfl) hend hlen pre, PinReader.readFile, if_pos, List.foldl_concat]
    · rw [List.flatten_nil, List.nil_append, List.foldl_concat]
    · rw [List.foldl_concat]
      exact Or.inl rfl
  | cons b blocks ih =>
    obtain ⟨⟨hb, hbend⟩, hblocks⟩ := List.forall_mem_cons.mp hblocks
    obtain ⟨fuel, rfl⟩ : ∃ n, fuel = n + 1 := ⟨fuel - 1, by rw [List.length_cons] at hfuel; omega⟩
    have hs' : (b.foldl PinReader.read s).ended = false := by
      have h := readBlock_events (eventBytes b).length 0 hs hbend [] [] (Nat.zero_add _).le
      exact h.2
    have hfuel' : blocks.length + 1 < fuel := by
      rw [List.length_cons] at hfuel
      omega
    rw [List.cons_append, blocksFile_cons, readFile_block hlz hs (Or.inl rfl) hbend hb pre,
      ← List.append_assoc, ih _ _ hs' hblocks hfuel', ← List.foldl_append, List.flatten_cons]
    simp only [List.append_assoc]

end

/-! ## The callbacks -/

/-- A list instead of the buffer. -/
def logEvent (log : List PinEvent) (e : PinEvent) : List PinEvent := log ++ [e]

/-- The recorder with a list instead of the buffer. -/
def pinLog (callbacks : List (UInt64 × Callback)) : PinState (List PinEvent) :=
  callbacks.foldl (PinState.callback logEvent) { buffer := [] }

/-- The recorder with any buffer appends what is in the list. -/
theorem foldl_callback {σ : Type*} (append : σ → PinEvent → σ) (b : σ)
    (callbacks : List (UInt64 × Callback)) (s : PinState (List PinEvent)) :
    callbacks.foldl (PinState.callback append)
        { pdepth := s.pdepth, buffer := s.buffer.foldl append b } =
      { pdepth := (callbacks.foldl (PinState.callback logEvent) s).pdepth
        buffer := (callbacks.foldl (PinState.callback logEvent) s).buffer.foldl append b } := by
  induction callbacks generalizing s with
  | nil => rfl
  | cons c callbacks ih =>
    have hstep : PinState.callback append
        { pdepth := s.pdepth, buffer := s.buffer.foldl append b } c =
        { pdepth := (s.callback logEvent c).pdepth
          buffer := (s.callback logEvent c).buffer.foldl append b } := by
      obtain ⟨tid, c⟩ := c
      cases c with
      | beforeCall fn =>
        unfold PinState.callback beforeCall logEvent
        simp only []
        split_ifs
        · rw [List.foldl_concat]
        · rfl
      | afterCall fn =>
        unfold PinState.callback afterCall logEvent
        simp only []
        split_ifs
        · rw [List.foldl_concat]
        · rfl
      | syscallEntry =>
        unfold PinState.callback syscallEntry logEvent
        simp only []
        split_ifs
        · rfl
        · rw [List.foldl_concat]
    rw [List.foldl_cons, List.foldl_cons, hstep, ih]

/-- The depth of a thread is the number of its open calls. -/
def DepthOf (calls : UInt64 → List UInt64) (pdepth : UInt64 → Int) : Prop :=
  ∀ tid, pdepth tid = (calls tid).length

/-- What is recorded when these calls are open: the outermost calls, and syscalls under them. -/
def outerEvents (calls : UInt64 → List UInt64) (c : UInt64 × Callback) : List PinEvent :=
  match c.2 with
  | .beforeCall fn => if calls c.1 = [] then [.call c.1 fn] else []
  | .afterCall fn => if (calls c.1).tail = [] then [.ret c.1 fn] else []
  | .syscallEntry => if calls c.1 = [] then [] else [.syscall c.1]

section

variable {calls calls' : UInt64 → List UInt64} {s : PinState (List PinEvent)}
  {c : UInt64 × Callback} {callbacks : List (UInt64 × Callback)}

theorem DepthOf.update {pdepth : UInt64 → Int} (h : DepthOf calls pdepth) {tid : UInt64} {d : Int}
    {l : List UInt64} (hd : d = l.length) :
    DepthOf (Function.update calls tid l) (Function.update pdepth tid d) := by
  intro tid'
  by_cases heq : tid' = tid
  · rw [heq, Function.update_self, Function.update_self, hd]
  · rw [Function.update_of_ne heq, Function.update_of_ne heq, h]

/-- **A callback** keeps the depth, and records what is outermost. -/
theorem callback_logEvent (h : DepthOf calls s.pdepth) (hstep : openStep calls c = some calls') :
    DepthOf calls' (s.callback logEvent c).pdepth ∧
      (s.callback logEvent c).buffer = s.buffer ++ outerEvents calls c := by
  obtain ⟨tid, c⟩ := c
  cases c with
  | beforeCall fn =>
    cases hstep
    have hd : s.pdepth tid + 1 = ((fn :: calls tid).length : Int) := by
      rw [h tid, List.length_cons]
      rfl
    have hiff : s.pdepth tid + 1 = 1 ↔ calls tid = [] := by
      rw [← List.length_eq_zero_iff, h tid]
      omega
    unfold PinState.callback beforeCall outerEvents logEvent
    simp only [Function.update_self, hiff]
    split_ifs
    · exact ⟨h.update hd, rfl⟩
    · exact ⟨h.update hd, (List.append_nil _).symm⟩
  | afterCall fn =>
    unfold openStep at hstep
    simp only [] at hstep
    split_ifs at hstep with hhead
    cases hstep
    have hlen : (calls tid).length = (calls tid).tail.length + 1 := by
      rw [List.eq_cons_of_mem_head? (Option.mem_def.mpr hhead)]
      rfl
    have hd : s.pdepth tid - 1 = ((calls tid).tail.length : Int) := by
      rw [h tid, hlen]
      omega
    have hiff : s.pdepth tid - 1 = 0 ↔ (calls tid).tail = [] := by
      rw [← List.length_eq_zero_iff, hd]
      omega
    unfold PinState.callback afterCall outerEvents logEvent
    simp only [Function.update_self, hiff]
    split_ifs
    · exact ⟨h.update hd, rfl⟩
    · exact ⟨h.update hd, (List.append_nil _).symm⟩
  | syscallEntry =>
    cases hstep
    have hiff : s.pdepth tid = 0 ↔ calls tid = [] := by
      rw [← List.length_eq_zero_iff, h tid]
      omega
    unfold PinState.callback syscallEntry outerEvents logEvent
    simp only [hiff]
    split_ifs
    · exact ⟨h, (List.append_nil _).symm⟩
    · exact ⟨h, rfl⟩

/-- The stack of the reader has the outermost open call on it, and no other. -/
def StackOf (calls : UInt64 → List UInt64) (funStack : UInt64 → List UInt64) : Prop :=
  ∀ tid, funStack tid = (calls tid).getLast?.toList

theorem StackOf.update {funStack : UInt64 → List UInt64} (h : StackOf calls funStack) {tid : UInt64}
    {l l' : List UInt64} (hl : l' = l.getLast?.toList) :
    StackOf (Function.update calls tid l) (Function.update funStack tid l') := by
  intro tid'
  by_cases heq : tid' = tid
  · rw [heq, Function.update_self, Function.update_self, hl]
  · rw [Function.update_of_ne heq, Function.update_of_ne heq, h]

/-- The outermost open call stays. -/
theorem StackOf.inner {funStack : UInt64 → List UInt64} (h : StackOf calls funStack) {tid : UInt64}
    {l : List UInt64} (hl : l.getLast? = (calls tid).getLast?) :
    StackOf (Function.update calls tid l) funStack := by
  intro tid'
  by_cases heq : tid' = tid
  · rw [heq, Function.update_self, hl, h]
  · rw [Function.update_of_ne heq, h]

/-- The function found at a callback: the outermost open one at a syscall. -/
def foundAt (calls : UInt64 → List UInt64) (c : UInt64 × Callback) : Option UInt64 :=
  match c.2 with
  | .syscallEntry => (calls c.1).getLast?
  | _ => none

/-- **The reader follows the open calls.** -/
theorem foldl_outerEvents {r : PinReader} (h : StackOf calls r.funStack)
    (hstep : openStep calls c = some calls') :
    StackOf calls' ((outerEvents calls c).foldl PinReader.read r).funStack ∧
      ∀ fn, fn ∈ ((outerEvents calls c).foldl PinReader.read r).impactful ↔
        fn ∈ r.impactful ∨ foundAt calls c = some fn := by
  obtain ⟨tid, c⟩ := c
  have hsame : ∀ f, f ∈ r.impactful ↔ f ∈ r.impactful ∨ none = some f :=
    fun f => (or_iff_left (Option.some_ne_none f).symm).symm
  cases c with
  | beforeCall fn =>
    cases hstep
    unfold outerEvents
    simp only []
    split_ifs with hnil
    · have hstack : r.funStack tid = [] := by
        rw [h tid, hnil]
        rfl
      refine ⟨h.update ?_, hsame⟩
      rw [hstack, hnil]
      rfl
    · refine ⟨h.inner ?_, hsame⟩
      rw [List.getLast?_cons_of_ne_nil hnil]
  | afterCall fn =>
    unfold openStep at hstep
    simp only [] at hstep
    split_ifs at hstep with hhead
    cases hstep
    have hcons : calls tid = fn :: (calls tid).tail :=
      List.eq_cons_of_mem_head? (Option.mem_def.mpr hhead)
    unfold outerEvents
    simp only []
    split_ifs with hnil
    · have hstack : r.funStack tid = [fn] := by
        rw [h tid, hcons, hnil]
        rfl
      refine ⟨h.update ?_, hsame⟩
      rw [hstack, hnil]
      simp only [List.dropWhile, ne_eq, not_true_eq_false, decide_false, List.tail_cons,
        List.getLast?_nil, Option.toList_none]
    · refine ⟨h.inner ?_, hsame⟩
      conv_rhs => rw [hcons]
      rw [List.getLast?_cons_of_ne_nil hnil]
  | syscallEntry =>
    cases hstep
    unfold outerEvents foundAt
    simp only []
    split_ifs with hnil
    · rw [hnil]
      exact ⟨h, hsame⟩
    · obtain ⟨fn, hfn⟩ := Option.isSome_iff_exists.mp (List.getLast?_isSome.mpr hnil)
      have hread : [PinEvent.syscall tid].foldl PinReader.read r =
          { r with impactful := insert fn r.impactful } := by
        show r.read (.syscall tid) = _
        unfold PinReader.read
        simp only []
        rw [h tid, hfn]
        rfl
      rw [hread]
      refine ⟨h, fun f => ?_⟩
      rw [hfn, Finset.mem_insert, or_comm, Option.some_inj, eq_comm]

/-- A syscall in a run, and at the next callback. -/
theorem impactful_concat (h : OpenCalls callbacks calls) (fn : UInt64) :
    Impactful (callbacks ++ [c]) fn ↔ Impactful callbacks fn ∨ foundAt calls c = some fn := by
  constructor
  · rintro ⟨pre, tid, post, calls', hsplit, hcalls', hlast⟩
    rcases post.eq_nil_or_concat' with rfl | ⟨post, c', rfl⟩
    · obtain ⟨rfl, hc⟩ := List.append_inj' hsplit rfl
      cases hc
      cases h.symm.trans hcalls'
      exact Or.inr hlast
    · rw [← List.cons_append, ← List.append_assoc] at hsplit
      obtain ⟨rfl, -⟩ := List.append_inj' hsplit rfl
      exact Or.inl ⟨pre, tid, post, calls', rfl, hcalls', hlast⟩
  · rintro (⟨pre, tid, post, calls', rfl, hcalls', hlast⟩ | hfound)
    · refine ⟨pre, tid, post ++ [c], calls', ?_, hcalls', hlast⟩
      rw [List.append_assoc, List.cons_append]
    · obtain ⟨tid, c⟩ := c
      cases c with
      | beforeCall fn => cases hfound
      | afterCall fn => cases hfound
      | syscallEntry => exact ⟨callbacks, tid, [], calls, rfl, h, hfound⟩

theorem endEvent_not_mem (calls : UInt64 → List UInt64) (c : UInt64 × Callback) :
    .endEvent ∉ outerEvents calls c := by
  obtain ⟨tid, c⟩ := c
  unfold outerEvents
  cases c with
  | beforeCall fn =>
    simp only []
    split_ifs <;> simp
  | afterCall fn =>
    simp only []
    split_ifs <;> simp
  | syscallEntry =>
    simp only []
    split_ifs <;> simp

/-- What is recorded, and what the reader makes of it. -/
structure PinFollows (callbacks : List (UInt64 × Callback)) (calls : UInt64 → List UInt64) :
    Prop where
  depth : DepthOf calls (pinLog callbacks).pdepth
  noEnd : .endEvent ∉ (pinLog callbacks).buffer
  funStack : StackOf calls ((pinLog callbacks).buffer.foldl PinReader.read {}).funStack
  impactful : ∀ fn, fn ∈ ((pinLog callbacks).buffer.foldl PinReader.read {}).impactful ↔
    Impactful callbacks fn

/-- **Every run**: the recorder and the reader follow the open calls. -/
theorem OpenCalls.follows (h : OpenCalls callbacks calls) : PinFollows callbacks calls := by
  induction callbacks using List.reverseRecOn generalizing calls with
  | nil =>
    cases h
    refine ⟨fun _ => rfl, List.not_mem_nil, fun _ => rfl, fun fn => ⟨fun hmem => ?_, ?_⟩⟩
    · exact absurd hmem (Finset.notMem_empty fn)
    · rintro ⟨pre, tid, post, calls', hsplit, -⟩
      cases pre <;> cases hsplit
  | append_singleton callbacks c ih =>
    obtain ⟨calls₁, hcalls₁, hstep⟩ := run_concat_eq_some.mp h
    have hpre := ih hcalls₁
    obtain ⟨hdepth, hbuffer⟩ := callback_logEvent hpre.depth hstep
    obtain ⟨hstack, hfound⟩ := foldl_outerEvents hpre.funStack hstep
    have hlog : pinLog (callbacks ++ [c]) = (pinLog callbacks).callback logEvent c :=
      List.foldl_concat ..
    rw [← List.foldl_append, ← hbuffer, ← hlog] at hstack hfound
    rw [← hlog] at hdepth hbuffer
    refine ⟨hdepth, ?_, hstack, fun fn => ?_⟩
    · rw [hbuffer]
      intro hmem
      rcases List.mem_append.mp hmem with hmem | hmem
      · exact hpre.noEnd hmem
      · exact endEvent_not_mem calls₁ c hmem
    · rw [hfound, hpre.impactful, impactful_concat hcalls₁]

theorem length_le_blocksFile (lz : LZ4) (blocks : List (List PinEvent)) :
    blocks.length ≤ (blocksFile lz blocks).length := by
  induction blocks with
  | nil => exact Nat.zero_le _
  | cons b blocks ih =>
    rw [blocksFile_cons, List.length_append, List.length_cons]
    unfold dump
    simp only [List.length_append, length_leBytes]
    omega

/-- **Recorder and reader agree**: the functions computed from the file are those under which there
has been a syscall. -/
theorem extract_pinTrace {lz : LZ4} {size : Nat} (hlz : lz.InvertsUpTo size)
    (hS : sizeOfCallEvent ≤ size) (buffer : Block size) (h : OpenCalls callbacks calls) :
    ∃ found, extractImpactfulFunCall lz buffer (pinTrace lz size callbacks) = some found ∧
      ∀ fn, fn ∈ found ↔ Impactful callbacks fn := by
  have hfollows := h.follows
  have hholds : Holds lz size (callbacks.foldl (PinState.callback fun (b : EventBuffer) e =>
      b.append lz size e.encode) { buffer := {} }).buffer (pinLog callbacks).buffer := by
    have hlog := foldl_callback (fun (b : EventBuffer) e => b.append lz size e.encode) {} callbacks
      { buffer := [] }
    rw [List.foldl_nil] at hlog
    rw [hlog]
    exact holds_nil.foldl hS _
  obtain ⟨blocks, block, hfile, hevents, hblocks, hlen⟩ := hholds.close hS
  have hend : ∀ e ∈ blocks.flatten ++ block, e ≠ .endEvent := by
    intro e he heq
    apply hfollows.noEnd
    rw [hevents, ← heq]
    exact he
  have hwhole : ∀ b ∈ blocks, (eventBytes b).length ≤ size ∧ .endEvent ∉ b := by
    intro b hb
    refine ⟨hblocks b hb, fun hmem => ?_⟩
    exact hend _ (List.mem_append_left _ (List.mem_flatten_of_mem hb hmem)) rfl
  have hlast : .endEvent ∉ block := fun hmem => hend _ (List.mem_append_right _ hmem) rfl
  have hfuel : blocks.length + 1 < (blocksFile lz (blocks ++ [block ++ [.endEvent]])).length + 1 := by
    have := length_le_blocksFile lz (blocks ++ [block ++ [.endEvent]])
    rw [List.length_append, List.length_singleton] at this
    omega
  have hs : ({} : PinReader).ended = false := rfl
  have hread := readFile_blocks hlz [] buffer hs hwhole hlen hlast hfuel
  rw [List.nil_append, List.length_nil, ← hevents, List.foldl_concat] at hread
  refine ⟨_, ?_, hfollows.impactful⟩
  unfold extractImpactfulFunCall pinTrace
  rw [hfile, hread]
  rfl

end

/-- Two threads, the outer call of the first of which is left open, in more than one block. -/
theorem extract_pinTrace_two :
    ∃ found, extractImpactfulFunCall shortLiteralLZ4
        (⟨List.replicate 256 0, List.length_replicate⟩ : Block 256)
        (pinTrace shortLiteralLZ4 256 [(7, .beforeCall 4096), (8, .syscallEntry),
          (7, .beforeCall 4112), (8, .beforeCall 4128), (7, .syscallEntry), (8, .afterCall 4128),
          (7, .afterCall 4112)]) = some found ∧
      ∀ fn, fn ∈ found ↔ Impactful [(7, .beforeCall 4096), (8, .syscallEntry),
        (7, .beforeCall 4112), (8, .beforeCall 4128), (7, .syscallEntry), (8, .afterCall 4128),
        (7, .afterCall 4112)] fn :=
  extract_pinTrace shortLiteralLZ4_inverts (by decide) _ rfl

end Slimmer
