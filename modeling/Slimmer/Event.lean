import Slimmer.Tables

/-!
# Events

`Event` is one event of the trace file with the fields `GetEvent` points at. `Entry` is what
one successful call of `TraceIter::NextEvent` leaves its caller with: an event, or one of the
two labels that carry no field.
-/

namespace Slimmer

/-- An event the runtime records. -/
inductive Event
  | basicBlock (tid id : Nat)
  | memory (tid id addr length : Nat)
  | ret (tid id addr : Nat)
  | argument (tid addr : Nat)
  | memset (tid id addr length : Nat)
  | memmove (tid id addr addr2 length : Nat)
  deriving DecidableEq, Repr

/-- The thread of an event. -/
def Event.tid : Event → Nat
  | .basicBlock tid _ | .memory tid _ _ _ | .ret tid _ _ | .argument tid _
  | .memset tid _ _ _ | .memmove tid _ _ _ _ => tid

/-- The labels without fields. -/
inductive Mark
  | placeHolder
  | endEvent
  deriving DecidableEq, Repr

/-- What a call of `NextEvent` yields. `GetEvent` leaves `tid_ptr` alone for a mark, so a mark
comes with the value `*tid_ptr` then reads, `none` if no event has set the pointer yet. -/
inductive Entry
  | event (e : Event)
  | mark (m : Mark) (tid : Option Nat)
  deriving DecidableEq, Repr

/-- The value `*tid_ptr` reads once the entry is decoded. -/
def Entry.tid : Entry → Option Nat
  | .event e => some e.tid
  | .mark _ tid => tid

/-- The event of an entry, if it is one. -/
def Entry.event? : Entry → Option Event
  | .event e => some e
  | .mark _ _ => none

/-- The event of a global's declaration, recorded at the head of `main` before its thread has an
id. -/
def Event.declare (addr length : Nat) : Event := .memory 0 noId addr length

end Slimmer
