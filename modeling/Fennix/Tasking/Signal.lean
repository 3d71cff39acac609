import Fennix.Tasking.Tasks
import Mathlib.Data.BitVec

/-! # Signals

    `class Signal` of `Kernel/tasking/signal.cpp`, with `HandleSignal` of
    `Kernel/arch/amd64/tasking/signal.cpp` up to the frame on the stack: how an action
    is set, how a signal is sent and how a thread takes one from the queue.

    `SignalLock` is held for the whole of a call, so a call that comes back to a process
    whose lock is held never returns. Such a call has no result, nor has one whose
    assertion fails or that nests calls deeper than the stack allows.
-/

namespace Fennix.Tasking

open Function (update)

/-! ## Section 1: Signals and dispositions -/

/-- `signal_t`, without `SIGNULL`. The numbers from `SIGRTMIN` to `SIGRTMAX` are `rt`. -/
inductive Signo where
  | abrt | alrm | bus | chld | cont | fpe | hup | ill | int | kill | pipe | quit | segv | stop
  | term | tstp | ttin | ttou | usr1 | usr2 | poll | prof | sys | trap | urg | vtalrm | xcpu
  | xfsz | comp1 | comp2 | comp3
  | rt (i : Fin 33)
  deriving DecidableEq

/-- The number of a signal. -/
def Signo.number : Signo → Nat
  | .abrt => 1 | .alrm => 2 | .bus => 3 | .chld => 4 | .cont => 5 | .fpe => 6 | .hup => 7
  | .ill => 8 | .int => 9 | .kill => 10 | .pipe => 11 | .quit => 12 | .segv => 13 | .stop => 14
  | .term => 15 | .tstp => 16 | .ttin => 17 | .ttou => 18 | .usr1 => 19 | .usr2 => 20
  | .poll => 21 | .prof => 22 | .sys => 23 | .trap => 24 | .urg => 25 | .vtalrm => 26
  | .xcpu => 27 | .xfsz => 28 | .comp1 => 29 | .comp2 => 30 | .comp3 => 31
  | .rt i => 32 + i

/-- `ConvertSignalToLinux`. -/
def convertSignalToLinux : Signo → Nat
  | .hup => 1 | .int => 2 | .quit => 3 | .ill => 4 | .trap => 5 | .abrt => 6 | .bus => 7
  | .fpe => 8 | .kill => 9 | .usr1 => 10 | .segv => 11 | .usr2 => 12 | .pipe => 13 | .alrm => 14
  | .term => 15 | .comp1 => 16 | .chld => 17 | .cont => 18 | .stop => 19 | .tstp => 20
  | .ttin => 21 | .ttou => 22 | .urg => 23 | .xcpu => 24 | .xfsz => 25 | .vtalrm => 26
  | .prof => 27 | .comp2 => 28 | .poll => 29 | .comp3 => 30 | .sys => 31
  | .rt i => 32 + i

/-- `signal_disposition_t`. -/
inductive SignalDisposition where
  | term
  | ign
  | cont
  | stop
  | core
  deriving DecidableEq

/-- `GetDefaultSignalDisposition`. -/
def getDefaultSignalDisposition : Signo → SignalDisposition
  | .hup | .int | .quit | .kill | .usr1 | .usr2 | .pipe | .alrm | .term | .vtalrm | .prof
  | .poll => .term
  | .ill | .trap | .abrt | .bus | .fpe | .segv | .xcpu | .xfsz | .sys => .core
  | .comp1 | .chld | .urg | .comp2 | .comp3 | .rt _ => .ign
  | .cont => .cont
  | .stop | .tstp | .ttin | .ttou => .stop

/-- `std::bitset<64>::test(sig - 1)`. -/
def blocks (mask : BitVec 64) (sig : Signo) : Bool := mask.getLsbD (sig.number - 1)

/-- `struct SignalAction`. The handler shares its word with `SIG_DFL` and `SIG_IGN`. -/
structure SignalAction where
  handler : BitVec 64
  mask : BitVec 64
  flags : BitVec 64
  restorer : BitVec 64
  deriving DecidableEq

/-- `SIG_DFL`. -/
def sigDfl : BitVec 64 := 0

/-- `SIG_IGN`. -/
def sigIgn : BitVec 64 := 1

/-- An action that is neither `SIG_DFL` nor `SIG_IGN`. -/
def SignalAction.isHandler (act : SignalAction) : Bool :=
  act.handler ≠ sigDfl && act.handler ≠ sigIgn

/-- `struct SignalInfo`; `val` is the word of the union. -/
structure SignalInfo where
  sig : Signo
  val : BitVec 64
  tid : Int
  deriving DecidableEq

/-- `class Signal`. A watcher is a process whose `Signal` was given to `AddWatcher`, and
    `trampoline` is whether `TrampAddr` is set. -/
structure Signal where
  lastSignal : Option Signo
  trampoline : Bool
  queue : List SignalInfo
  sa : Signo → SignalAction
  watchers : List Process
  disposition : Signo → SignalDisposition

/-! ## Section 2: The kernel -/

/-- `enum TaskExecutionMode`. -/
inductive TaskExecutionMode where
  | unknownExecutionMode
  | kernel
  | system
  | user
  deriving DecidableEq

/-- `enum TaskCompatibility`. -/
inductive TaskCompatibility where
  | unknownPlatform
  | native
  | linux
  | windows
  deriving DecidableEq

/-- The tasks with what signals use of a `PCB` and a `TCB`. -/
structure Kernel where
  tasks : Custom
  signals : Process → Signal
  executionMode : Process → TaskExecutionMode
  compatibility : Process → TaskCompatibility
  exitCode : Process → Int
  mask : Thread → BitVec 64
  threadId : Thread → Int
  /-- The calls of `PCB::SetState` so far, the last one first. -/
  stateCalls : List (Process × TaskState)

/-- `PCB::SetState`. -/
def Custom.setState (s : Custom) (p : Process) (state : TaskState) : Custom :=
  { s with
    processState := update s.processState p state
    threadState :=
      match s.threads p with
      | [t] => update s.threadState t state
      | _ => s.threadState }

theorem Custom.threadState_setState (s : Custom) (p : Process) (state : TaskState) (u : Thread) :
    (s.setState p state).threadState u =
      if s.threads p = [u] then state else s.threadState u := by
  unfold setState
  rcases hthreads : s.threads p with _ | ⟨t, _ | ⟨t', rest⟩⟩
  · simp
  · simp only [Function.update_apply, List.cons.injEq, and_true, eq_comm]
  · simp

/-- `EINVAL`. -/
def einval : Int := 28

/-- `EFAULT`. -/
def efault : Int := 21

/-- `KILL_CRASH`. -/
def killCrash : Int := -0xDEAD

/-- What `SetAction` makes of a `Signal`. It refuses numbers above 65, which no
    `signal_t` has. -/
def Signal.setAction (s : Signal) (sig : Signo) (act : SignalAction) : Signal :=
  { s with
    -- only the first instance is discarded, and for `SIG_DFL` none
    queue := if act.handler = sigIgn then s.queue.eraseP fun info => info.sig = sig else s.queue
    disposition :=
      if act.handler = sigIgn then update s.disposition sig .ign
      else if act.handler = sigDfl then update s.disposition sig (getDefaultSignalDisposition sig)
      else s.disposition
    sa := update s.sa sig act }

namespace Kernel

/-- `pcb->SetState`. -/
def setState (k : Kernel) (p : Process) (state : TaskState) : Kernel :=
  { k with
    tasks := k.tasks.setState p state
    stateCalls := (p, state) :: k.stateCalls }

/-- `pcb->SetExitCode`; what it sets of a single thread is not used. -/
def setExitCode (k : Kernel) (p : Process) (code : Int) : Kernel :=
  { k with exitCode := update k.exitCode p code }

/-- The `Signal` of a process changes. -/
def modifySignal (k : Kernel) (p : Process) (f : Signal → Signal) : Kernel :=
  { k with signals := update k.signals p (f (k.signals p)) }

/-- `Signals.Mask` of a thread changes. -/
def setMask (k : Kernel) (t : Thread) (mask : BitVec 64) : Kernel :=
  { k with mask := update k.mask t mask }

/-- `SetAction`. -/
def setAction (k : Kernel) (p : Process) (sig : Signo) (act : SignalAction) : Kernel :=
  k.modifySignal p fun s => s.setAction sig act

/-- `MakeExitCode`. -/
def makeExitCode (k : Kernel) (p : Process) (sig : Signo) : Int :=
  if k.compatibility p = .linux then 128 + convertSignalToLinux sig else 100 + sig.number

/-- `InitTrampoline`. -/
def initTrampoline (k : Kernel) (p : Process) : Option Kernel :=
  if (k.signals p).trampoline then some k
  else
    match k.compatibility p with
    | .native | .linux => some (k.modifySignal p fun s => { s with trampoline := true })
    | .windows => none
    | .unknownPlatform => some k

/-! ## Section 3: Sending -/

/-- The state of a process that a signal kills. -/
def killedState (k : Kernel) (p : Process) (state : TaskState) : TaskState :=
  if (k.signals p).watchers = [] then .terminated else state

/-- The cases `SIG_TERM` and `SIG_CORE`, which differ in the state for the watchers. -/
def die (k : Kernel) (p : Process) (sig : Signo) (val : BitVec 64) (state : TaskState) :
    Int × Kernel :=
  (if (val.setWidth 32).toInt = killCrash then -efault else 0,
    (k.setExitCode p (k.makeExitCode p sig)).setState p (k.killedState p state))

/-- The switch over the dispositions. -/
def takeDefault (k : Kernel) (p : Process) (sig : Signo) (val : BitVec 64) : Int × Kernel :=
  match (k.signals p).disposition sig with
  | .term => k.die p sig val .zombie
  | .ign => (0, k)
  | .core => k.die p sig val .coreDump
  | .stop => (0, k.setState p .stopped)
  | .cont => (0, k.setState p .ready)

/-- The loop over the watchers, with the call that is made for each. -/
def notifyWatchers (send : Kernel → Process → Option (Int × Kernel)) :
    Kernel → List Process → Option Kernel
  | k, [] => some k
  | k, who :: rest => (send k who).bind fun r => notifyWatchers send r.2 rest

/-- The part of `SendSignal` behind `CompleteSignal`. -/
def completeSignal (send : Kernel → Process → Option (Int × Kernel)) (k : Kernel) (p : Process)
    (info : SignalInfo) : Option (Int × Kernel) :=
  if k.executionMode p = .kernel then some (0, k)
  else
    (k.initTrampoline p).bind fun k =>
      (notifyWatchers send k
        (if (k.signals p).disposition info.sig = .ign then [] else (k.signals p).watchers)).map
        fun k => (0, k.modifySignal p fun s => { s with queue := s.queue ++ [info] })

/-- `LastSignal` is set. -/
def received (k : Kernel) (p : Process) (sig : Signo) : Kernel :=
  k.modifySignal p fun s => { s with lastSignal := some sig }

/-- The body of `SendSignal`, called by the thread `me`. -/
def sendWith (send : Kernel → Process → Option (Int × Kernel)) (me : Thread) (k : Kernel)
    (p : Process) (info : SignalInfo) : Option (Int × Kernel) :=
  let k := k.received p info.sig
  let handler := ((k.signals p).sa info.sig).handler
  if handler ≠ sigDfl then
    if k.executionMode p = .kernel then some (-einval, k)
    else if handler = sigIgn then some (0, k)
    else completeSignal send k p info
  -- the mask of the caller, whoever the signal is for
  else if blocks (k.mask me) info.sig then some (0, k)
  else some (k.takeDefault p info.sig info.val)

/-- `SendSignal`, with room for `depth` calls within this one; the locks of the processes
    `locked` are held. -/
def sendSignal : Nat → List Process → Thread → Kernel → Process → SignalInfo →
    Option (Int × Kernel)
  | 0, _, me, k, p, info => sendWith (fun _ _ => none) me k p info
  | depth + 1, locked, me, k, p, info =>
    sendWith (fun k who =>
      if who ∈ p :: locked then none
      else sendSignal depth (p :: locked) me k who ⟨.chld, info.val, -1⟩) me k p info

/-! ## Section 4: Taking a signal from the queue -/

/-- The thread does not block the signal, and it is addressed to it. -/
def available (k : Kernel) (t : Thread) (info : SignalInfo) : Bool :=
  !blocks (k.mask t) info.sig && (k.threadId t = info.tid || info.tid = -1)

/-- `GetAvailableSignal`. The node of the queue is deleted before it is read for the
    result; `reread` is what is found there, `none` for `SIGNULL`. -/
def getAvailableSignal (k : Kernel) (p : Process) (t : Thread) (reread : Option SignalInfo) :
    Option (Option SignalInfo × Kernel) :=
  match (k.signals p).queue.find? (k.available t) with
  | none => some (none, k)
  | some info =>
    if ((k.signals p).sa info.sig).isHandler then
      some (reread, k.modifySignal p fun s => { s with queue := s.queue.eraseP (k.available t) })
    else none

/-- `HandleSignal` for a thread in user mode, without the frame on its stack. -/
def handleSignal (k : Kernel) (p : Process) (t : Thread) (reread : Option SignalInfo) :
    Option Kernel :=
  if (k.signals p).queue = [] then some k
  else
    (k.getAvailableSignal p t reread).bind fun (sigI, k) =>
      match sigI with
      | none => some k
      | some info =>
        if (k.signals p).trampoline then some (k.setMask t ((k.signals p).sa info.sig).mask)
        else none

end Kernel

end Fennix.Tasking
