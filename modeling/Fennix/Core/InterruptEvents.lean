import Fennix.Std.ForItr
import Mathlib.Data.BitVec

/-! # The registered interrupt events

    `RegisteredEvents` of `Kernel/core/interrupts_manager.cpp`: how events are added, and
    the five ways in which they are removed. Three of the loops go on after they have
    erased an event, `RemoveHandler` with a callback and a number and `~Handler` return.

    - `Erases`: a call took out the events it is for, and all others are in their order.
    - `removals_right_iff`: for each of the calls, when it does.
-/

namespace Fennix.Core.Interrupts

open Fennix.Std (Vector)

/-! ## Section 1: Events -/

/-- `struct Event`. -/
structure Event where
  irq : BitVec 32
  /-- The handler, if it is one. -/
  data : BitVec 64
  isHandler : Bool
  callback : BitVec 64
  context : BitVec 64
  priority : BitVec 64
  critical : Bool
  deriving DecidableEq

/-- A `Handler` object: where it is, and its interrupt number. -/
structure Handler where
  this : BitVec 64
  interruptNumber : BitVec 32

/-- `push_back`. -/
def pushBack (events : Vector Event) (e : Event) : Vector Event :=
  ⟨events.elements ++ [e], events.behind.tail⟩

/-- `AddHandler`. -/
def addHandler (events : Vector Event) (callback : BitVec 64) (interruptNumber : BitVec 32)
    (ctx : BitVec 64) (critical : Bool) : Vector Event :=
  pushBack events ⟨interruptNumber, 0, false, callback, ctx, 0, critical⟩

/-- The constructor of `Handler` with a number. -/
def Handler.register (h : Handler) (critical : Bool) (events : Vector Event) : Vector Event :=
  pushBack events ⟨h.interruptNumber, h.this, true, 0, 0, 0, critical⟩

/-- The event that the constructor of this object has made. -/
def Handler.owns (h : Handler) (e : Event) : Bool := e.isHandler && e.data == h.this

/-! ## Section 2: Removing -/

/-- `RemoveAll`. -/
def removeAll (events : Vector Event) : Option (Vector Event) :=
  events.forItrErase (fun e => !e.critical) false

/-- `RemoveHandler` with a callback and a number. -/
def removeHandler (events : Vector Event) (callback : BitVec 64) (interruptNumber : BitVec 32) :
    Option (Vector Event) :=
  events.forItrErase (fun e => e.irq == interruptNumber && e.callback == callback) true

/-- `RemoveHandler` with a callback. -/
def removeHandlerCallback (events : Vector Event) (callback : BitVec 64) : Option (Vector Event) :=
  events.forItrErase (fun e => e.callback == callback) false

/-- `RemoveHandler` with a number. -/
def removeHandlerNumber (events : Vector Event) (interruptNumber : BitVec 32) :
    Option (Vector Event) :=
  events.forItrErase (fun e => e.irq == interruptNumber) false

/-- `~Handler`. -/
def Handler.unregister (h : Handler) (events : Vector Event) : Option (Vector Event) :=
  events.forItrErase (fun e => e.irq == h.interruptNumber) true

/-- The call came to its end without reading a slot behind the events, and they are those
    from before without the ones it is to remove, in their order. -/
def Erases (gone : Event → Bool) (events : Vector Event) (after : Option (Vector Event)) : Prop :=
  after.map Vector.elements = some (events.elements.filter fun e => !gone e)

instance (gone : Event → Bool) (events : Vector Event) (after : Option (Vector Event)) :
    Decidable (Erases gone events after) :=
  inferInstanceAs (Decidable (_ = _))

/-- For every list of events, the loops that go on are right exactly if behind each event to
    be removed there is one that is not; the one that returns if at most one event is to
    be removed; and `~Handler` if the events of the object are the first event with its
    number and no other. -/
theorem removals_right_iff (events : Vector Event) :
    (Erases (fun e => !e.critical) events (removeAll events) ↔
        Vector.Spaced (fun e => !e.critical) events.elements) ∧
    (∀ callback, Erases (fun e => e.callback == callback) events
          (removeHandlerCallback events callback) ↔
        Vector.Spaced (fun e => e.callback == callback) events.elements) ∧
    (∀ interruptNumber, Erases (fun e => e.irq == interruptNumber) events
          (removeHandlerNumber events interruptNumber) ↔
        Vector.Spaced (fun e => e.irq == interruptNumber) events.elements) ∧
    (∀ callback interruptNumber,
        Erases (fun e => e.irq == interruptNumber && e.callback == callback) events
          (removeHandler events callback interruptNumber) ↔
        events.elements.countP (fun e => e.irq == interruptNumber && e.callback == callback) ≤ 1) ∧
    ∀ h : Handler, Erases h.owns events (h.unregister events) ↔
      events.elements.filter h.owns =
        (events.elements.find? fun e => e.irq == h.interruptNumber).toList := by
  refine ⟨?_, fun callback => ?_, fun number => ?_, fun callback number => ?_, fun h => ?_⟩
  · exact Vector.forItrErase_all_iff _ events
  · exact Vector.forItrErase_all_iff _ events
  · exact Vector.forItrErase_all_iff _ events
  · rw [← Vector.filter_eq_find_iff]
    exact Vector.forItrErase_once_iff _ _ events
  · exact Vector.forItrErase_once_iff _ h.owns events

/-- Two handlers for one line and two callbacks for another. -/
def sharedLines : Vector Event :=
  addHandler (addHandler
    ((⟨0x2000, 1⟩ : Handler).register false ((⟨0x1000, 1⟩ : Handler).register true ⟨[], []⟩))
    0x5000 7 0 false) 0x5000 7 0 false

/-- `RemoveAll` passes the end, `RemoveHandler` leaves an event in each of its forms, and
    the destructor of the second handler takes out the event of the first. -/
theorem shared_lines_wrong :
    removeAll sharedLines = none ∧
    (removeHandlerCallback sharedLines 0x5000).map Vector.elements =
      some (sharedLines.elements.eraseIdx 2) ∧
    (removeHandlerNumber sharedLines 1).map Vector.elements =
      some (sharedLines.elements.eraseIdx 0) ∧
    (removeHandler sharedLines 0x5000 7).map Vector.elements =
      some (sharedLines.elements.eraseIdx 2) ∧
    ((⟨0x2000, 1⟩ : Handler).unregister sharedLines).map Vector.elements =
      some (sharedLines.elements.eraseIdx 0) ∧
    ¬ Erases (fun e => !e.critical) sharedLines (removeAll sharedLines) ∧
    ¬ Erases (fun e => e.callback == 0x5000) sharedLines
      (removeHandlerCallback sharedLines 0x5000) ∧
    ¬ Erases (fun e => e.irq == 1) sharedLines (removeHandlerNumber sharedLines 1) ∧
    ¬ Erases (fun e => e.irq == 7 && e.callback == 0x5000) sharedLines
      (removeHandler sharedLines 0x5000 7) ∧
    ¬ Erases (Handler.owns ⟨0x2000, 1⟩) sharedLines
      ((⟨0x2000, 1⟩ : Handler).unregister sharedLines) := by
  decide

end Fennix.Core.Interrupts
