import Slimmer.Event
import Slimmer.Lib.Bytes

/-!
# The layout of an event

An event lies in the trace as its label, its fields at fixed offsets, and its label again
(`include/SlimmerUtil.h`). `getEvent` is `GetEvent` (`lib/SlimmerUtil/Routines.cpp`): it looks at
the label under the cursor and points at the fields. `readEntry` is what its callers then see
through the pointers.

Main result: `readEntry_event`, `getEvent` followed by `readEntry` inverts `Event.encode`.
-/

namespace Slimmer

/-! ## Labels and sizes -/

@[simp] def basicBlockEventLabel : UInt8 := 0
@[simp] def memoryEventLabel : UInt8 := 1
@[simp] def returnEventLabel : UInt8 := 3
@[simp] def argumentEventLabel : UInt8 := 5
@[simp] def memsetEventLabel : UInt8 := 6
@[simp] def memmoveEventLabel : UInt8 := 7
@[simp] def endEventLabel : UInt8 := 125
@[simp] def placeHolderLabel : UInt8 := 126

/-- Two labels, the thread and the id. -/
def sizeOfEventCommon : Nat := 2 + 8 + 4
def sizeOfBasicBlockEvent : Nat := sizeOfEventCommon
def sizeOfMemoryEvent : Nat := sizeOfEventCommon + 2 * 8
def sizeOfReturnEvent : Nat := sizeOfEventCommon + 8
def sizeOfArgumentEvent : Nat := 2 + 8 + 8
def sizeOfMemsetEvent : Nat := sizeOfMemoryEvent
def sizeOfMemmoveEvent : Nat := sizeOfEventCommon + 3 * 8

/-- The label of an event. -/
def Event.label : Event → UInt8
  | .basicBlock .. => basicBlockEventLabel
  | .memory .. => memoryEventLabel
  | .ret .. => returnEventLabel
  | .argument .. => argumentEventLabel
  | .memset .. => memsetEventLabel
  | .memmove .. => memmoveEventLabel

/-- The label of a mark. -/
def Mark.label : Mark → UInt8
  | .placeHolder => placeHolderLabel
  | .endEvent => endEventLabel

/-- Width and value of the fields between the two labels. -/
def Event.fields : Event → List (Nat × Nat)
  | .basicBlock tid id => [(8, tid), (4, id)]
  | .memory tid id addr length => [(8, tid), (4, id), (8, addr), (8, length)]
  | .ret tid id addr => [(8, tid), (4, id), (8, addr)]
  | .argument tid addr => [(8, tid), (8, addr)]
  | .memset tid id addr length => [(8, tid), (4, id), (8, addr), (8, length)]
  | .memmove tid id addr addr2 length =>
    [(8, tid), (4, id), (8, addr), (8, addr2), (8, length)]

/-- The bytes of consecutive fields. -/
def fieldBytes (fields : List (Nat × Nat)) : List UInt8 :=
  fields.flatMap fun f => leBytes f.1 f.2

/-- The bytes of an event in the trace. -/
def Event.encode (e : Event) : List UInt8 := e.label :: (fieldBytes e.fields ++ [e.label])

/-- The size of an event in the trace. -/
def Event.size : Event → Nat
  | .basicBlock .. => sizeOfBasicBlockEvent
  | .memory .. => sizeOfMemoryEvent
  | .ret .. => sizeOfReturnEvent
  | .argument .. => sizeOfArgumentEvent
  | .memset .. => sizeOfMemsetEvent
  | .memmove .. => sizeOfMemmoveEvent

/-- The fields are in the range of their C types. -/
def Event.InRange (e : Event) : Prop := ∀ f ∈ e.fields, f.2 < 2 ^ (8 * f.1)

@[simp] theorem Event.length_encode (e : Event) : e.encode.length = e.size := by
  cases e <;> simp [encode, fields, fieldBytes, size, sizeOfBasicBlockEvent, sizeOfMemoryEvent,
    sizeOfReturnEvent, sizeOfArgumentEvent, sizeOfMemsetEvent, sizeOfMemmoveEvent,
    sizeOfEventCommon]

/-- No event is larger than a memmove event. -/
theorem Event.size_le (e : Event) : e.size ≤ sizeOfMemmoveEvent := by
  cases e <;> simp [size, sizeOfBasicBlockEvent, sizeOfMemoryEvent, sizeOfReturnEvent,
    sizeOfArgumentEvent, sizeOfMemsetEvent, sizeOfMemmoveEvent, sizeOfEventCommon]

theorem Event.size_pos (e : Event) : 0 < e.size := by
  rw [← e.length_encode]
  simp [encode]

/-! ## Reading -/

/-- The pointers `GetEvent` sets, as offsets into the decoded block. -/
structure FieldPtrs where
  tid : Option Nat := none
  id : Option Nat := none
  addr : Option Nat := none
  length : Option Nat := none
  addr2 : Option Nat := none
  deriving DecidableEq, Repr

/-- `GetEvent` at offset `cur`: the label, the pointers and the value returned. A label that is
none of the six events and two marks falls out of the switch. -/
def getEvent (backward : Bool) (decoded : List UInt8) (cur : Nat) (p : FieldPtrs) :
    Option (UInt8 × FieldPtrs × Nat) := do
  let label ← decoded[cur]?
  -- read backward, the cursor is on the label behind the fields
  let first := fun size => if backward then cur - (size - 1) else cur
  if label = endEventLabel then some (label, p, 1)
  else if label = placeHolderLabel then some (label, p, 1)
  else if label = basicBlockEventLabel then
    let cur := first sizeOfBasicBlockEvent
    some (label, { p with tid := some (cur + 1), id := some (cur + 9) }, sizeOfBasicBlockEvent)
  else if label = memoryEventLabel then
    let cur := first sizeOfMemoryEvent
    some (label, { p with
      tid := some (cur + 1), id := some (cur + 9), addr := some (cur + 13),
      length := some (cur + 21) }, sizeOfMemoryEvent)
  else if label = returnEventLabel then
    let cur := first sizeOfReturnEvent
    some (label, { p with
      tid := some (cur + 1), id := some (cur + 9), addr := some (cur + 13) }, sizeOfReturnEvent)
  else if label = argumentEventLabel then
    let cur := first sizeOfArgumentEvent
    some (label, { p with tid := some (cur + 1), addr := some (cur + 9) }, sizeOfArgumentEvent)
  else if label = memsetEventLabel then
    let cur := first sizeOfMemsetEvent
    some (label, { p with
      tid := some (cur + 1), id := some (cur + 9), addr := some (cur + 13),
      length := some (cur + 21) }, sizeOfMemsetEvent)
  else if label = memmoveEventLabel then
    let cur := first sizeOfMemmoveEvent
    some (label, { p with
      tid := some (cur + 1), id := some (cur + 9), addr := some (cur + 13),
      addr2 := some (cur + 21), length := some (cur + 29) }, sizeOfMemmoveEvent)
  else none

/-- `*ptr` for a field of `w` bytes. -/
def deref (w : Nat) (decoded : List UInt8) (ptr : Option Nat) : Option Nat :=
  ptr.bind fun off => readLE w decoded off

/-- What the caller of `GetEvent` reads through the pointers. -/
def readEntry (decoded : List UInt8) (label : UInt8) (p : FieldPtrs) : Option Entry :=
  if label = endEventLabel then some (.mark .endEvent (deref 8 decoded p.tid))
  else if label = placeHolderLabel then some (.mark .placeHolder (deref 8 decoded p.tid))
  else do
    let tid ← deref 8 decoded p.tid
    if label = basicBlockEventLabel then
      let id ← deref 4 decoded p.id
      some (.event (.basicBlock tid id))
    else if label = memoryEventLabel then
      let id ← deref 4 decoded p.id
      let addr ← deref 8 decoded p.addr
      let length ← deref 8 decoded p.length
      some (.event (.memory tid id addr length))
    else if label = returnEventLabel then
      let id ← deref 4 decoded p.id
      let addr ← deref 8 decoded p.addr
      some (.event (.ret tid id addr))
    else if label = argumentEventLabel then
      let addr ← deref 8 decoded p.addr
      some (.event (.argument tid addr))
    else if label = memsetEventLabel then
      let id ← deref 4 decoded p.id
      let addr ← deref 8 decoded p.addr
      let length ← deref 8 decoded p.length
      some (.event (.memset tid id addr length))
    else if label = memmoveEventLabel then
      let id ← deref 4 decoded p.id
      let addr ← deref 8 decoded p.addr
      let addr2 ← deref 8 decoded p.addr2
      let length ← deref 8 decoded p.length
      some (.event (.memmove tid id addr addr2 length))
    else none

/-! ## Reading back an event -/

/-- The `i`-th field of an event is at offset `k`, behind the label and the fields before it. -/
theorem deref_field {e : Event} (he : e.InRange) (pre post : List UInt8) (i k : Nat) {w n : Nat}
    (hf : e.fields[i]? = some (w, n)) (hk : k = 1 + (fieldBytes (e.fields.take i)).length) :
    deref w (pre ++ (e.encode ++ post)) (some (pre.length + k)) = some n := by
  obtain ⟨hi, hget⟩ := List.getElem?_eq_some_iff.mp hf
  have hn : n < 256 ^ w := by
    have h := he (w, n) (List.mem_of_getElem? hf)
    rwa [pow_mul] at h
  have hfields : fieldBytes e.fields = fieldBytes (e.fields.take i) ++
      (leBytes w n ++ fieldBytes (e.fields.drop (i + 1))) := by
    conv_lhs => rw [← List.take_append_drop i e.fields, List.drop_eq_getElem_cons hi, hget]
    simp [fieldBytes]
  have hsplit : pre ++ (e.encode ++ post) = (pre ++ (e.label :: fieldBytes (e.fields.take i))) ++
      (leBytes w n ++ (fieldBytes (e.fields.drop (i + 1)) ++ ([e.label] ++ post))) := by
    simp [Event.encode, hfields]
  have hlen : pre.length + k = (pre ++ (e.label :: fieldBytes (e.fields.take i))).length := by
    simp [hk, Nat.add_comm]
  rw [hsplit, hlen]
  exact readLE_append hn _ _

/-- `GetEvent` on a label without fields keeps the pointers. -/
theorem getEvent_mark {decoded : List UInt8} {cur : Nat} (m : Mark) (b : Bool) (p : FieldPtrs)
    (h : decoded[cur]? = some m.label) : getEvent b decoded cur p = some (m.label, p, 1) := by
  cases m <;> simp [getEvent, h, Mark.label]

theorem readEntry_mark (decoded : List UInt8) (m : Mark) (p : FieldPtrs) :
    readEntry decoded m.label p = some (.mark m (deref 8 decoded p.tid)) := by
  cases m <;> simp [readEntry, Mark.label]

/-- **Reading inverts writing.** Where an event starts, `GetEvent` returns its label and size, and
the fields read through the pointers are those of the event. -/
theorem readEntry_event {e : Event} (he : e.InRange) (pre post : List UInt8) (p : FieldPtrs) :
    ∃ p', getEvent false (pre ++ (e.encode ++ post)) pre.length p = some (e.label, p', e.size) ∧
      readEntry (pre ++ (e.encode ++ post)) e.label p' = some (.event e) := by
  have hlabel : (pre ++ (e.encode ++ post))[pre.length]? = some e.label := by
    simp [Event.encode]
  cases e with
  | basicBlock tid id =>
    have h₁ := deref_field he pre post 0 1 rfl rfl
    have h₂ := deref_field he pre post 1 9 rfl rfl
    exact ⟨_, by simp only [getEvent, hlabel]; rfl,
      by simp [readEntry, Event.label, h₁, h₂]⟩
  | memory tid id addr length =>
    have h₁ := deref_field he pre post 0 1 rfl rfl
    have h₂ := deref_field he pre post 1 9 rfl rfl
    have h₃ := deref_field he pre post 2 13 rfl rfl
    have h₄ := deref_field he pre post 3 21 rfl rfl
    exact ⟨_, by simp only [getEvent, hlabel]; rfl,
      by simp [readEntry, Event.label, h₁, h₂, h₃, h₄]⟩
  | ret tid id addr =>
    have h₁ := deref_field he pre post 0 1 rfl rfl
    have h₂ := deref_field he pre post 1 9 rfl rfl
    have h₃ := deref_field he pre post 2 13 rfl rfl
    exact ⟨_, by simp only [getEvent, hlabel]; rfl,
      by simp [readEntry, Event.label, h₁, h₂, h₃]⟩
  | argument tid addr =>
    have h₁ := deref_field he pre post 0 1 rfl rfl
    have h₂ := deref_field he pre post 1 9 rfl rfl
    exact ⟨_, by simp only [getEvent, hlabel]; rfl,
      by simp [readEntry, Event.label, h₁, h₂]⟩
  | memset tid id addr length =>
    have h₁ := deref_field he pre post 0 1 rfl rfl
    have h₂ := deref_field he pre post 1 9 rfl rfl
    have h₃ := deref_field he pre post 2 13 rfl rfl
    have h₄ := deref_field he pre post 3 21 rfl rfl
    exact ⟨_, by simp only [getEvent, hlabel]; rfl,
      by simp [readEntry, Event.label, h₁, h₂, h₃, h₄]⟩
  | memmove tid id addr addr2 length =>
    have h₁ := deref_field he pre post 0 1 rfl rfl
    have h₂ := deref_field he pre post 1 9 rfl rfl
    have h₃ := deref_field he pre post 2 13 rfl rfl
    have h₄ := deref_field he pre post 3 21 rfl rfl
    have h₅ := deref_field he pre post 4 29 rfl rfl
    exact ⟨_, by simp only [getEvent, hlabel]; rfl,
      by simp [readEntry, Event.label, h₁, h₂, h₃, h₄, h₅]⟩

end Slimmer
