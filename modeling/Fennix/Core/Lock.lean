import Fennix.Framework.System
import Mathlib.Data.BitVec
import Mathlib.Data.Finset.Insert

/-! # Spin locks

    `LockClass` of `Kernel/include/lock.hpp` and `Kernel/core/lock.cpp`: `Lock`,
    `Unlock` and `DeadLock`, one atomic access at a time, by any number of contexts
    and on any number of locks.

    A context is a flow of control that calls one of them at a time: a thread, or an
    interrupt handler or the printing of a warning that calls them from within.
    `Yield` and the loads for the warning change nothing and take no step of their own.
-/

namespace Fennix.Core.Lock

open Function (update)

/-! ## Section 1: Locks -/

/-- The address of a `LockClass`. Its first member is an `atomic_uint64_t`. -/
abbrev Address := { a : Nat // a < 2 ^ 64 ∧ a % 8 = 0 }

/-- `LockClass::SpinLockData`, without the member of the same name that nothing uses. -/
structure SpinLockData where
  currentHolder : String
  attemptingToGet : String
  stackPointerHolder : BitVec 64
  stackPointerAttempt : BitVec 64
  count : BitVec 64
  core : BitVec 64

/-- `LockClass`. -/
structure LockClass where
  lockData : SpinLockData
  isLocked : Bool
  deadLocks : BitVec 64

/-- A lock as it is constructed. -/
def LockClass.new : LockClass :=
  { lockData :=
      { currentHolder := "(nul)"
        attemptingToGet := "(nul)"
        stackPointerHolder := 0
        stackPointerAttempt := 0
        count := 0
        core := 0 }
    isLocked := false
    deadLocks := 0 }

/-- How the kernel is built and configured: `DEBUG`, `ForceUnlock` and
    `Config.UnlockDeadLock`. -/
structure Config where
  debug : Bool
  forceUnlock : Bool
  unlockDeadLock : Bool

/-- `DEADLOCK_TIMEOUT`. -/
def Config.deadLockTimeout (cfg : Config) : Nat :=
  if cfg.debug then 0x1000 else 0x10000000

/-! ## Section 2: The steps of a context -/

/-- A call of `Lock`: the lock, `FunctionName` and `__builtin_frame_address(0)`. -/
structure Call where
  lock : Address
  functionName : String
  frameAddress : BitVec 64

/-- The next atomic access of a context. In `Unlock`, `retry` is the call of `Lock`
    from whose `DeadLock` it was called, if it was. -/
inductive Pc where
  | outside
  | storeAttemptingToGet (call : Call)
  | storeStackPointerAttempt (call : Call)
  | exchange (call : Call) (i : Nat)
  | deadLock (call : Call)
  | loadDeadLocks (call : Call)
  | clearDeadLocks (call : Call)
  | addCount (call : Call)
  | storeCurrentHolder (call : Call)
  | storeStackPointerHolder (call : Call)
  | storeCore (call : Call)
  | addLocksCount (call : Call)
  | storeIsLocked (lock : Address) (retry : Option Call)
  | subCount (lock : Address) (retry : Option Call)
  | subLocksCount (lock : Address) (retry : Option Call)

/-- All locks, the global `LocksCount`, where each context is, and the locks for which
    it has returned from `Lock` and not called `Unlock` since. -/
structure State (Context : Type*) where
  locks : Address → LockClass
  locksCount : BitVec 64
  pc : Context → Pc
  holds : Context → Finset Address

namespace State

variable {Context : Type*} [DecidableEq Context]

/-- The context goes on at `next`. -/
def goTo (s : State Context) (c : Context) (next : Pc) : State Context :=
  { s with pc := update s.pc c next }

/-- An access to a lock. -/
def modify (s : State Context) (l : Address) (f : LockClass → LockClass) : State Context :=
  { s with locks := update s.locks l (f (s.locks l)) }

/-- An access to the `LockData` of a lock. -/
def modifyData (s : State Context) (l : Address) (f : SpinLockData → SpinLockData) :
    State Context :=
  s.modify l fun lc => { lc with lockData := f lc.lockData }

/-- The loop of `Lock` is over, with this `i`. -/
def afterLoop (cfg : Config) (call : Call) (i : Nat) : Pc :=
  if i ≥ cfg.deadLockTimeout then .deadLock call else .addCount call

/-- After `IsLocked.exchange(true)` returned `old`. -/
def afterExchange (cfg : Config) (call : Call) (i : Nat) (old : Bool) : Pc :=
  if old then
    if i + 1 < cfg.deadLockTimeout then .exchange call (i + 1) else afterLoop cfg call (i + 1)
  else afterLoop cfg call i

/-- One atomic access of `Lock`, `DeadLock` or `Unlock`. `core` is the `ID` of
    `GetCurrentCPU()`, if there is one. -/
def access (cfg : Config) (core : Option (BitVec 64)) (s : State Context) (c : Context) :
    Pc → State Context
  | .outside => s
  | .storeAttemptingToGet call =>
    (s.modifyData call.lock fun d => { d with attemptingToGet := call.functionName }).goTo c
      (.storeStackPointerAttempt call)
  | .storeStackPointerAttempt call =>
    (s.modifyData call.lock fun d => { d with stackPointerAttempt := call.frameAddress }).goTo c
      (.exchange call 0)
  | .exchange call i =>
    (s.modify call.lock fun lc => { lc with isLocked := true }).goTo c
      (afterExchange cfg call i (s.locks call.lock).isLocked)
  | .deadLock call =>
    if cfg.forceUnlock then
      (s.modify call.lock fun lc => { lc with deadLocks := 0 }).goTo c
        (.storeIsLocked call.lock (some call))
    else
      (s.modify call.lock fun lc => { lc with deadLocks := lc.deadLocks + 1 }).goTo c
        (.loadDeadLocks call)
  | .loadDeadLocks call =>
    if cfg.unlockDeadLock ∧ (s.locks call.lock).deadLocks > 10 then s.goTo c (.clearDeadLocks call)
    else s.goTo c (.exchange call 0)
  | .clearDeadLocks call =>
    (s.modify call.lock fun lc => { lc with deadLocks := 0 }).goTo c
      (.storeIsLocked call.lock (some call))
  | .addCount call =>
    (s.modifyData call.lock fun d => { d with count := d.count + 1 }).goTo c
      (.storeCurrentHolder call)
  | .storeCurrentHolder call =>
    (s.modifyData call.lock fun d => { d with currentHolder := call.functionName }).goTo c
      (.storeStackPointerHolder call)
  | .storeStackPointerHolder call =>
    (s.modifyData call.lock fun d => { d with stackPointerHolder := call.frameAddress }).goTo c
      (.storeCore call)
  | .storeCore call =>
    match core with
    | some id => (s.modifyData call.lock fun d => { d with core := id }).goTo c (.addLocksCount call)
    | none => s.goTo c (.addLocksCount call)
  | .addLocksCount call =>
    { s.goTo c .outside with
      locksCount := s.locksCount + 1
      holds := update s.holds c (insert call.lock (s.holds c)) }
  | .storeIsLocked l retry =>
    (s.modify l fun lc => { lc with isLocked := false }).goTo c (.subCount l retry)
  | .subCount l retry =>
    (s.modifyData l fun d => { d with count := d.count - 1 }).goTo c (.subLocksCount l retry)
  | .subLocksCount _ none => { s.goTo c .outside with locksCount := s.locksCount - 1 }
  | .subLocksCount _ (some call) =>
    { s.goTo c (.exchange call 0) with locksCount := s.locksCount - 1 }

end State

/-! ## Section 3: The system -/

variable {Context : Type*} [DecidableEq Context]

/-- What a context does: call `Lock` or `Unlock`, or its next atomic access. -/
inductive Action (Context : Type*) where
  | lock (c : Context) (call : Call)
  | unlock (c : Context) (l : Address)
  | access (c : Context) (core : Option (BitVec 64))

/-- The locks before anything has used one. -/
def State.new : State Context :=
  { locks := fun _ => .new
    locksCount := 0
    pc := fun _ => .outside
    holds := fun _ => ∅ }

/-- `Lock` is called at any time, `Unlock` by a context whose `Lock` has returned and
    which has not called `Unlock` since. -/
def lockSystem (cfg : Config) : System (State Context) (Action Context) where
  init := fun s => s = .new
  step := fun s action s' =>
    match action with
    | .lock c call => s.pc c = .outside ∧ s' = s.goTo c (.storeAttemptingToGet call)
    | .unlock c l =>
      s.pc c = .outside ∧ l ∈ s.holds c ∧
        s' = { s.goTo c (.storeIsLocked l none) with
          holds := update s.holds c ((s.holds c).erase l) }
    | .access c core => s.pc c ≠ .outside ∧ s' = s.access cfg core c (s.pc c)

end Fennix.Core.Lock
