import Slimmer.TraceIter

/-!
# Reading from either end

An event has its label at both ends, so the bytes of a block can be read from the first one on or
from the last one back. `GetEvent` finds the fields either way: read backward, it subtracts the size
that the label stands for.

**Theorem (`reads_either_end`).** Read backward, the bytes of any events with any marks between them
give the entries of the forward reading in reverse, and so the events with all their fields. The
blocks that the record functions fill are such bytes.

Bytes of a field that look like a label are never under the cursor: it moves by whole slots in both
directions.
-/

namespace Slimmer

/-! ## The two readings -/

/-- Step through the bytes from `cur` on, by the sizes that `GetEvent` returns. -/
def readForward (decoded : List UInt8) : Nat → Nat → FieldPtrs → Option (List Entry)
  | 0, _, _ => none
  | fuel + 1, cur, p =>
    if decoded.length ≤ cur then some []
    else do
      let (label, p, n) ← getEvent false decoded cur p
      let entry ← readEntry decoded label p
      let entries ← readForward decoded fuel (cur + n) p
      some (entry :: entries)

/-- Step back through the first `rest` bytes, from the last of them; `none` when an event would begin
in front of the first byte. -/
def readBackward (decoded : List UInt8) : Nat → Nat → FieldPtrs → Option (List Entry)
  | 0, _, _ => none
  | _ + 1, 0, _ => some []
  | fuel + 1, rest + 1, p => do
    let (label, p, n) ← getEvent true decoded rest p
    let entry ← readEntry decoded label p
    if rest + 1 < n then none
    else
      let entries ← readBackward decoded fuel (rest + 1 - n) p
      some (entry :: entries)

section

variable {decoded : List UInt8} {slots : List Slot} {fuel : Nat}

/-! ## The last byte of a slot -/

/-- On the last byte of an event `GetEvent` finds, backward, what it finds on the first one
forward. -/
theorem getEvent_last (e : Event) (pre post : List UInt8) (p : FieldPtrs) :
    getEvent true (pre ++ (e.encode ++ post)) (pre.length + (e.size - 1)) p =
      getEvent false (pre ++ (e.encode ++ post)) pre.length p := by
  have hfirst : (pre ++ (e.encode ++ post))[pre.length]? = some e.label := by
    simp [Event.encode]
  have hlast : (pre ++ (e.encode ++ post))[pre.length + (e.size - 1)]? = some e.label := by
    have hlen : pre.length + (e.size - 1) = (pre ++ e.label :: fieldBytes e.fields).length := by
      rw [← e.length_encode]
      simp [Event.encode]
    have hsplit : pre ++ (e.encode ++ post) =
        (pre ++ e.label :: fieldBytes e.fields) ++ e.label :: post := by
      simp [Event.encode]
    rw [hsplit, hlen]
    simp
  have hback : pre.length + (e.size - 1) - (e.size - 1) = pre.length := Nat.add_sub_cancel ..
  cases e <;> simp only [Event.size] at hlast hback <;>
    simp [getEvent, hfirst, hlast, hback, Event.size, Event.label]

/-- Reading a slot from its last byte. -/
theorem read_slot_last (x : Slot) (hx : x.InRange) (pre post : List UInt8)
    (hd : decoded = pre ++ (x.encode ++ post)) (p : FieldPtrs) :
    ∃ label p' entry,
      getEvent true decoded (pre.length + (x.encode.length - 1)) p =
        some (label, p', x.encode.length) ∧
      readEntry decoded label p' = some entry ∧ entry.slot = x := by
  subst hd
  cases x with
  | event e =>
    rcases readEntry_event hx pre post p with ⟨p', hget, hread⟩
    refine ⟨e.label, p', .event e, ?_, hread, rfl⟩
    simp only [Slot.encode, Event.length_encode]
    rw [getEvent_last, hget]
  | mark m =>
    exact ⟨m.label, p, _, getEvent_mark m true p (by simp [Slot.encode]), readEntry_mark _ m p, rfl⟩

/-! ## Whole blocks -/

theorem readForward_slots (hslots : ∀ x ∈ slots, x.InRange) (pre : List UInt8)
    (hd : decoded = pre ++ slotBytes slots) (p : FieldPtrs) (hfuel : slots.length < fuel) :
    ∃ entries, readForward decoded fuel pre.length p = some entries ∧
      entries.map Entry.slot = slots := by
  induction slots generalizing pre p fuel with
  | nil =>
    cases fuel with
    | zero => cases hfuel
    | succ fuel => exact ⟨[], by simp [readForward, hd], rfl⟩
  | cons x slots ih =>
    cases fuel with
    | zero => cases hfuel
    | succ fuel =>
      rcases List.forall_mem_cons.mp hslots with ⟨hx, hrest⟩
      rw [slotBytes_cons] at hd
      rcases read_slot x hx pre (slotBytes slots) hd p with ⟨label, p', entry, hget, hread, hslot, -⟩
      have hd' : decoded = (pre ++ x.encode) ++ slotBytes slots := by
        rw [hd, List.append_assoc]
      rcases ih hrest (pre ++ x.encode) hd' p' (Nat.lt_of_succ_lt_succ hfuel) with
        ⟨entries, hentries, hmap⟩
      have hlt : ¬ decoded.length ≤ pre.length := by
        have hpos := x.encode_pos
        rw [hd, List.length_append, List.length_append]
        omega
      refine ⟨entry :: entries, ?_, by rw [List.map_cons, hslot, hmap]⟩
      rw [List.length_append] at hentries
      simp [readForward, hlt, hget, hread, hentries]

/-- The slots are taken off the end one by one. -/
theorem readBackward_slots (hslots : ∀ x ∈ slots, x.InRange) (post : List UInt8)
    (hd : decoded = slotBytes slots ++ post) (p : FieldPtrs) (hfuel : slots.length < fuel) :
    ∃ entries, readBackward decoded fuel (slotBytes slots).length p = some entries ∧
      entries.map Entry.slot = slots.reverse := by
  induction slots using List.reverseRecOn generalizing post p fuel with
  | nil =>
    cases fuel with
    | zero => cases hfuel
    | succ fuel => exact ⟨[], rfl, rfl⟩
  | append_singleton slots x ih =>
    cases fuel with
    | zero => cases hfuel
    | succ fuel =>
      rcases List.forall_mem_append.mp hslots with ⟨hfront, hx⟩
      rw [List.forall_mem_singleton] at hx
      rw [List.length_append, List.length_singleton] at hfuel
      have hd' : decoded = slotBytes slots ++ (x.encode ++ post) := by
        rw [hd]
        simp
      rcases read_slot_last x hx (slotBytes slots) post hd' p with
        ⟨label, p', entry, hget, hread, hslot⟩
      rcases ih hfront (x.encode ++ post) hd' p' (Nat.lt_of_succ_lt_succ hfuel) with
        ⟨entries, hentries, hmap⟩
      -- the byte behind the cursor is the end of the slot
      have hpos := x.encode_pos
      have hlen : (slotBytes (slots ++ [x])).length =
          (slotBytes slots).length + (x.encode.length - 1) + 1 := by
        simp
        omega
      have hfit : ¬ (slotBytes slots).length + (x.encode.length - 1) + 1 < x.encode.length := by
        omega
      have hrest : (slotBytes slots).length + (x.encode.length - 1) + 1 - x.encode.length =
          (slotBytes slots).length := by
        omega
      refine ⟨entry :: entries, ?_, ?_⟩
      · rw [hlen]
        simp [readBackward, hget, hread, hfit, hrest, hentries]
      · rw [List.map_cons, hslot, hmap, List.reverse_concat]

/-- The readings of the bytes from either end: the slots, and the slots in reverse. The events have
the same fields. -/
def ReadsEitherWay (decoded : List UInt8) (slots : List Slot) : Prop :=
  ∀ (p q : FieldPtrs) (fuel : Nat), slots.length < fuel →
    ∃ forward backward, readForward decoded fuel 0 p = some forward ∧
      readBackward decoded fuel decoded.length q = some backward ∧
      forward.map Entry.slot = slots ∧ backward.map Entry.slot = slots.reverse ∧
      backward.filterMap Entry.event? = (forward.filterMap Entry.event?).reverse

theorem slotBytes_either_way (hslots : ∀ x ∈ slots, x.InRange) :
    ReadsEitherWay (slotBytes slots) slots := by
  intro p q fuel hfuel
  rcases readForward_slots hslots [] rfl p hfuel with ⟨forward, hforward, hmap⟩
  rcases readBackward_slots hslots [] (List.append_nil _).symm q hfuel with
    ⟨backward, hbackward, hmap'⟩
  refine ⟨forward, backward, hforward, hbackward, hmap, hmap', ?_⟩
  rw [← filterMap_event?_slot, ← filterMap_event?_slot, hmap, hmap', List.filterMap_reverse]

/-- **Events can be read from either end**, with any marks between them; and the blocks of a trace
consist of such events and marks. -/
theorem reads_either_end :
    (∀ slots : List Slot, (∀ x ∈ slots, x.InRange) → ReadsEitherWay (slotBytes slots) slots) ∧
    ∀ (size : Nat) (fresh : Nat → Block size) (calls : List Invocation),
      sizeOfMemmoveEvent ≤ size →
      ∃ blocks : List (List Slot), recordTrace fresh calls = blocks.map slotBytes ∧
        (∀ slots ∈ blocks, ReadsEitherWay (slotBytes slots) slots) ∧
        blocks.flatten.filterMap Slot.event? = recordedEvents (fun _ => 0) calls := by
  refine ⟨fun slots => slotBytes_either_way, fun size fresh calls hS => ?_⟩
  rcases recordTrace_laid fresh hS calls with ⟨done, last, hblocks, -, -, hev⟩
  refine ⟨done ++ [last], hblocks, fun slots hmem => slotBytes_either_way fun x hx => ?_, hev⟩
  exact recordedSlots_inRange hev x (List.mem_flatten_of_mem hmem hx)

/-- Fields whose bytes are labels, with marks in front, between and behind. -/
def labelSlots : List Slot :=
  [.mark .placeHolder, .event (.memory 0x0101010101010101 6 0x7D7E7D7E 0x0505), .mark .endEvent,
    .mark .placeHolder, .event (.argument 0 0x0700), .mark .endEvent]

theorem reads_either_end_labels : ReadsEitherWay (slotBytes labelSlots) labelSlots ∧
    ∃ blocks : List (List Slot),
      recordTrace (fun _ => (⟨List.replicate 38 0, rfl⟩ : Block 38))
          [⟨7, fun _ => 0, .basicBlock 3⟩, ⟨7, fun _ => 0, .store 5 4096 8 1⟩] =
        blocks.map slotBytes ∧
      ∀ slots ∈ blocks, ReadsEitherWay (slotBytes slots) slots := by
  constructor
  · refine reads_either_end.1 labelSlots ?_
    simp only [labelSlots, Slot.InRange, Event.InRange, Event.fields, List.forall_mem_cons]
    simp
  · rcases reads_either_end.2 38 (fun _ => ⟨List.replicate 38 0, rfl⟩)
      [⟨7, fun _ => 0, .basicBlock 3⟩, ⟨7, fun _ => 0, .store 5 4096 8 1⟩] (by decide) with
      ⟨blocks, hblocks, hreads, -⟩
    exact ⟨blocks, hblocks, hreads⟩

end

end Slimmer
