import Fennix.Tasking.Tasks

/-! # The scheduler

    `class Custom` of `Kernel/tasking/scheduler/custom.cpp`, on one CPU. A call
    of `Schedule` marks the current thread as ready again, deletes terminated
    tasks, updates the states of the processes, wakes up sleeping threads, searches
    for the next thread in three ways and marks it as running.

    The model has the tasks and their states; what is saved and restored of a
    thread (registers, usage, time slices, signals to deliver) changes no state
    and is left out. A call that uses a deleted task has the result `none`.
-/

namespace Fennix.Tasking.Custom

/-! ## Section 1: Searching -/

/-- A thread that the searches take. -/
def eligible (s : Custom) (t : Thread) : Bool :=
  s.threadState t = .ready && s.affinity t

/-- The first thread of a process that the searches take. -/
def firstThread (s : Custom) (p : Process) : Option (Process × Thread) :=
  if s.processState p = .ready then ((s.threads p).find? s.eligible).map fun t => (p, t)
  else none

/-- The body of the loop of `FindNewProcess`. -/
def tryProcess (s : Custom) (p : Process) : Option (Custom × Option (Process × Thread)) :=
  if p ∈ s.deletedProcesses then none
  else if s.processState p = .ready then some (s, s.firstThread p)
  else (s.removeProcess p).map fun s => (s, none)

/-- `FindNewProcess`. -/
def findNewProcess (s : Custom) : Option (Custom × Option (Process × Thread)) :=
  Std.Vector.search processVector tryProcess s

/-- `GetNextAvailableThread`: the rest of the current process. -/
def getNextAvailableThread (s : Custom) (cp : Process) (ct : Thread) :
    Option (Process × Thread) :=
  (((s.threads cp).dropWhile (· ≠ ct)).tail.find? s.eligible).map fun t => (cp, t)

/-- `GetNextAvailableProcess`: the processes after the current one. -/
def getNextAvailableProcess (s : Custom) (cp : Process) : Option (Process × Thread) :=
  ((s.processList.dropWhile (· ≠ cp)).filter (· ≠ cp)).findSome? s.firstThread

/-- `SchedulerSearchProcessThread`: all processes from the front. -/
def schedulerSearchProcessThread (s : Custom) : Option (Process × Thread) :=
  s.processList.findSome? s.firstThread

/-! ## Section 2: States -/

/-- What `UpdateProcessState` makes of the state of one process. -/
def updatedState (s : Custom) (p : Process) : TaskState :=
  if s.processState p = .terminated then .terminated
  else
    match s.threads p with
    | [t] => s.threadState t
    | threads =>
      if threads.all fun t => s.threadState t = .terminated || s.threadState t = .sleeping then
        .sleeping
      else if s.processState p = .sleeping then .ready
      else s.processState p

/-- The body of the loop of `UpdateProcessState`. -/
def updateState (s : Custom) (p : Process) : Custom :=
  { s with processState := Function.update s.processState p (s.updatedState p) }

/-- `UpdateProcessState`. -/
def updateProcessState (s : Custom) : Custom := s.processList.foldl updateState s

/-- The body of the inner loop of `WakeUpThreads`. `pState` is the state of the
    process before the loop, `time` the time when a thread is looked at. -/
def wakeUpThread (time : Thread → Nat) (p : Process) (pState : TaskState) (s : Custom)
    (t : Thread) : Custom :=
  if s.threadState t = .sleeping ∧ s.sleepUntil t < time t then
    { s with
      processState :=
        if pState = .sleeping then Function.update s.processState p .ready else s.processState
      threadState := Function.update s.threadState t .ready
      sleepUntil := Function.update s.sleepUntil t 0 }
  else s

/-- The body of the outer loop of `WakeUpThreads`. -/
def wakeUpProcess (time : Thread → Nat) (s : Custom) (p : Process) : Custom :=
  let pState := s.processState p
  if pState = .ready ∨ pState = .sleeping ∨ pState = .blocked then
    (s.threads p).foldl (wakeUpThread time p pState) s
  else s

/-- `WakeUpThreads`. -/
def wakeUpThreads (time : Thread → Nat) (s : Custom) : Custom :=
  s.processList.foldl (wakeUpProcess time) s

/-- The current process and thread, if running, are ready again. -/
def preempt (s : Custom) (cp : Process) (ct : Thread) : Custom :=
  { s with
    processState :=
      if s.processState cp = .running then Function.update s.processState cp .ready
      else s.processState
    threadState :=
      if s.threadState ct = .running then Function.update s.threadState ct .ready
      else s.threadState }

/-- The process and the thread are running. -/
def mark (s : Custom) (p : Process) (t : Thread) : Custom :=
  { s with
    processState := Function.update s.processState p .running
    threadState := Function.update s.threadState t .running }

/-! ## Section 3: `Schedule` -/

/-- What a call does to the states before it searches. -/
def prepare (time : Thread → Nat) (s : Custom) : Option Custom :=
  match s.currentProcess, s.currentThread with
  | some cp, some ct =>
    if s.freed cp ct then none
    else
      (s.preempt cp ct).cleanupTerminated.map fun s => s.updateProcessState.wakeUpThreads time
  | _, _ => some s

/-- What the searches find, if anything. -/
def search (s : Custom) : Option (Custom × Option (Process × Thread)) :=
  match s.currentProcess, s.currentThread with
  | some cp, some ct =>
    if cp ∈ s.deletedProcesses then none
    else
      some (s, (s.getNextAvailableThread cp ct).or
        ((s.getNextAvailableProcess cp).or s.schedulerSearchProcessThread))
  | _, _ => s.findNewProcess

/-- The process and the thread are current and running. -/
def switchTo (s : Custom) (next : Process × Thread) : Custom :=
  { s.mark next.1 next.2 with currentProcess := some next.1, currentThread := some next.2 }

/-- The end of a call: it goes to what was found, or to the idle thread. -/
def dispatch (s : Custom) (found : Option (Process × Thread)) : Option Custom :=
  let next := found.getD (s.idleProcess, s.idleThread)
  if s.freed next.1 next.2 then none else some (s.switchTo next)

/-- The end of a call that has been told to restore the frame of the current
    thread. -/
def updateTrapFrame (s : Custom) (cp : Process) (ct : Thread) : Option Custom :=
  if s.freed cp ct then none
  else some { s.mark cp ct with schedulerUpdateTrapFrame := false }

/-- `Schedule`. -/
def schedule (time : Thread → Nat) (s : Custom) : Option Custom :=
  if s.stopScheduler then some s
  else
    (s.prepare time).bind fun s =>
      match s.currentProcess, s.currentThread with
      | some cp, some ct =>
        if s.schedulerUpdateTrapFrame then s.updateTrapFrame cp ct
        else s.search.bind fun (s, found) => s.dispatch found
      | _, _ => s.search.bind fun (s, found) => s.dispatch found

end Fennix.Tasking.Custom
