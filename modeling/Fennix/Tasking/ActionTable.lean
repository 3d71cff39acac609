import Fennix.Tasking.Signal

/-! # The table of signal actions

    `Signal::SetAction` and `Signal::GetAction` of `Kernel/tasking/signal.cpp` for any
    number. The table `sa` of `Kernel/include/signal.hpp` has 65 entries, and the calls
    refuse the numbers that are greater than 65. Entry 65 is not in the table: it is the
    words of the object behind it, where `Watchers` and the start of `Disposition` are.

    - `object_run`: what the calls leave in the table.
    - `calls_right_iff`: the calls are right exactly if none has the number 65.
-/

namespace Fennix.Tasking

open Function (update)

/-! ## Section 1: The calls -/

/-- The signal with a number. -/
def Signo.ofNumber : Nat → Option Signo
  | 1 => some .abrt | 2 => some .alrm | 3 => some .bus | 4 => some .chld | 5 => some .cont
  | 6 => some .fpe | 7 => some .hup | 8 => some .ill | 9 => some .int | 10 => some .kill
  | 11 => some .pipe | 12 => some .quit | 13 => some .segv | 14 => some .stop | 15 => some .term
  | 16 => some .tstp | 17 => some .ttin | 18 => some .ttou | 19 => some .usr1 | 20 => some .usr2
  | 21 => some .poll | 22 => some .prof | 23 => some .sys | 24 => some .trap | 25 => some .urg
  | 26 => some .vtalrm | 27 => some .xcpu | 28 => some .xfsz | 29 => some .comp1
  | 30 => some .comp2 | 31 => some .comp3
  | n => if h : 32 ≤ n ∧ n - 32 < 33 then some (.rt ⟨n - 32, h.2⟩) else none

/-- `GetDefaultSignalDisposition` for any number. -/
def defaultDisposition (sig : Nat) : SignalDisposition :=
  ((Signo.ofNumber sig).map getDefaultSignalDisposition).getD .term

/-- `struct SignalInfo` with any number. -/
structure QueuedSignal where
  sig : Nat
  val : BitVec 64
  tid : Int
  deriving DecidableEq

/-- `sizeof(sa) / sizeof(sa[0])`. -/
def actionCount : Nat := 64 + 1

/-- What the calls use of `class Signal`. -/
structure ActionTable where
  /-- The words of the object from `sa` on, in groups of the size of an action. -/
  object : Nat → SignalAction
  queue : List QueuedSignal
  disposition : Nat → Option SignalDisposition

namespace ActionTable

/-- `SetAction`: what it returns, and the object afterwards. -/
def setAction (s : ActionTable) (sig : Nat) (act : SignalAction) : Int × ActionTable :=
  if sig > actionCount then (-einval, s)
  else
    (0, { object := update s.object sig act
          queue :=
            if act.handler = sigIgn then s.queue.eraseP fun info => info.sig = sig else s.queue
          disposition :=
            if act.handler = sigIgn then update s.disposition sig (some .ign)
            else if act.handler = sigDfl then
              update s.disposition sig (some (defaultDisposition sig))
            else s.disposition })

/-- `GetAction`: what it returns, and the action that it stores, if any. -/
def getAction (s : ActionTable) (sig : Nat) : Int × Option SignalAction :=
  if sig > actionCount then (-einval, none) else (0, some (s.object sig))

end ActionTable

/-! ## Section 2: Sequences of calls -/

/-- A call. -/
inductive ActionCall where
  | set (sig : Nat) (act : SignalAction)
  | get (sig : Nat)
  deriving DecidableEq

/-- The number of the call. -/
def ActionCall.sig : ActionCall → Nat
  | .set sig _ => sig
  | .get sig => sig

/-- The object after a call. -/
def ActionTable.call (s : ActionTable) : ActionCall → ActionTable
  | .set sig act => (s.setAction sig act).2
  | .get _ => s

/-- The object after some calls. -/
def ActionTable.run (s : ActionTable) (calls : List ActionCall) : ActionTable :=
  calls.foldl ActionTable.call s

/-- The action that the last successful `SetAction` of some calls has given to a
    signal, and what it was before if there is none. -/
def lastAction (initial : Nat → SignalAction) (sig : Nat) : List ActionCall → SignalAction
  | [] => initial sig
  | .set n act :: calls =>
    lastAction (if n < actionCount then update initial n act else initial) sig calls
  | .get _ :: calls => lastAction initial sig calls

/-- What a call is to do, after some others. -/
def CallRight (initial : ActionTable) (history : List ActionCall) (call : ActionCall) : Prop :=
  let s := initial.run history
  match call with
  | .set sig act =>
    (actionCount ≤ sig → s.setAction sig act = (-einval, s)) ∧
    (sig < actionCount → (s.setAction sig act).1 = 0) ∧
    ∀ other < actionCount, other ≠ sig → (s.setAction sig act).2.object other = s.object other
  | .get sig =>
    (actionCount ≤ sig → s.getAction sig = (-einval, none)) ∧
    (sig < actionCount → s.getAction sig = (0, some (lastAction initial.object sig history)))

/-- Every call of a sequence does what it is to do. -/
def CallsRight (initial : ActionTable) (calls : List ActionCall) : Prop :=
  ∀ history call rest, calls = history ++ call :: rest → CallRight initial history call

section calls

variable {s : ActionTable} {sig : Nat}

theorem setAction_refused {act : SignalAction} (h : actionCount < sig) :
    s.setAction sig act = (-einval, s) := if_pos h

theorem setAction_object {act : SignalAction} (h : sig ≤ actionCount) (n : Nat) :
    (s.setAction sig act).2.object n = if n = sig then act else s.object n := by
  rw [ActionTable.setAction, if_neg (by omega)]
  exact Function.update_apply ..

theorem object_run (hsig : sig < actionCount) (calls : List ActionCall) :
    ∀ (s : ActionTable) (initial : Nat → SignalAction),
      (∀ n < actionCount, s.object n = initial n) →
        (s.run calls).object sig = lastAction initial sig calls := by
  induction calls with
  | nil => intro s initial h; exact h sig hsig
  | cons call calls ih =>
    intro s initial h
    cases call with
    | get n => exact ih s initial h
    | set n act =>
      refine ih _ _ fun k hk => ?_
      change (s.setAction n act).2.object k = _
      rcases Nat.lt_trichotomy n actionCount with hn | hn | hn
      · rw [setAction_object (Nat.le_of_lt hn), if_pos hn, Function.update_apply, h k hk]
      · -- the store goes behind the table
        rw [setAction_object (Nat.le_of_eq hn), if_neg (by omega), if_neg (by omega), h k hk]
      · rw [setAction_refused hn, if_neg (by omega), h k hk]

theorem callRight_of_ne (initial : ActionTable) (history : List ActionCall) {call : ActionCall}
    (h : call.sig ≠ actionCount) : CallRight initial history call := by
  cases call with
  | set sig act =>
    have h : sig ≠ actionCount := h
    refine ⟨fun hle => setAction_refused (by omega), fun hlt => ?_, fun other hother hne => ?_⟩
    · rw [ActionTable.setAction, if_neg (by omega)]
    · rcases Nat.lt_or_ge actionCount sig with hlt | hle
      · rw [setAction_refused hlt]
      · rw [setAction_object hle, if_neg hne]
  | get sig =>
    have h : sig ≠ actionCount := h
    refine ⟨fun hle => if_pos (by omega), fun hlt => ?_⟩
    rw [ActionTable.getAction, if_neg (by omega), object_run hlt history initial initial.object
      fun _ _ => rfl]

theorem not_callRight (initial : ActionTable) (history : List ActionCall) {call : ActionCall}
    (h : call.sig = actionCount) : ¬ CallRight initial history call := by
  intro hright
  have herror : (0 : Int) ≠ -einval := by decide
  have haccepted : ¬ actionCount > actionCount := Nat.lt_irrefl _
  cases call with
  | set sig act =>
    obtain rfl : sig = actionCount := h
    have hrefused := hright.1 (Nat.le_refl _)
    rw [ActionTable.setAction, if_neg haccepted] at hrefused
    exact herror (congrArg Prod.fst hrefused)
  | get sig =>
    obtain rfl : sig = actionCount := h
    have hrefused := hright.1 (Nat.le_refl _)
    rw [ActionTable.getAction, if_neg haccepted] at hrefused
    exact herror (congrArg Prod.fst hrefused)

/-- **The action table**: every call of a sequence is right exactly if none has the
    number 65. -/
theorem calls_right_iff (initial : ActionTable) (calls : List ActionCall) :
    CallsRight initial calls ↔ ∀ call ∈ calls, call.sig ≠ actionCount := by
  constructor
  · intro hright call hcall heq
    obtain ⟨history, rest, hsplit⟩ := List.append_of_mem hcall
    exact not_callRight initial history heq (hright history call rest hsplit)
  · intro hnone history call rest hsplit
    refine callRight_of_ne initial history (hnone call ?_)
    rw [hsplit]
    exact List.mem_append_right _ List.mem_cons_self

end calls

/-- A table without actions. -/
def noActions : ActionTable := ⟨fun _ => ⟨0, 0, 0, 0⟩, [], fun _ => none⟩

/-- The number 65 is accepted, and the words behind the table become the action. -/
theorem action_behind_table :
    (noActions.setAction 65 ⟨0x400000, 1, 2, 3⟩).1 = 0 ∧
      noActions.object actionCount = ⟨0, 0, 0, 0⟩ ∧
      (noActions.setAction 65 ⟨0x400000, 1, 2, 3⟩).2.object actionCount = ⟨0x400000, 1, 2, 3⟩ ∧
      (noActions.getAction 65).1 = 0 := by
  decide

end Fennix.Tasking
