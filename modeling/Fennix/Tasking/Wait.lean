import Fennix.Tasking.SignalDelivery

/-! # Waiting for children

    `linux_wait4` of `Kernel/subsystem/linux/syscall.cpp`. For the pid -1 it looks at
    the children of the caller: the first one that is a zombie or has dumped core is
    reported and becomes terminated. In all other cases it ends up waiting for the
    process with some ID, whosever child that is, and reports it without making it
    terminated, so that it can be reported again.

    `wait4_reports_once` is about the runs in which no call gets to the second way.

    The options are only logged. What is printed is left out, and so are the fields
    of `struct rusage` that are not written.
-/

namespace Fennix.Tasking

open Function (update)

/-! ## Section 1: The call -/

/-- `linux_ECHILD`. -/
def linuxEchild : Int := 10

/-- `linux_EFAULT`. -/
def linuxEfault : Int := 14

/-- `linux_ENOSYS`. -/
def linuxEnosys : Int := 38

/-- A user address: whether `PageTable::Get` finds it, and whether
    `UserCheckAndGetAddress` does. -/
structure UserAddress where
  mapped : Bool
  checked : Bool
  deriving DecidableEq

/-- What is written of a `struct rusage`. -/
structure Rusage where
  utimeSec : Nat
  utimeUsec : Nat
  stimeSec : Nat
  stimeUsec : Nat
  maxrss : Nat
  deriving DecidableEq

/-- The processes with what the call reads of them. -/
structure Family where
  kernel : Kernel
  processId : Process → Int
  kernelTime : Process → Nat
  userTime : Process → Nat
  size : Process → Nat

/-- The arguments; `none` is a null pointer. -/
structure WaitArgs where
  pid : Int
  wstatus : Option UserAddress
  options : Int
  rusage : Option UserAddress
  deriving DecidableEq

/-- What a call returns, what it stores, and the process whose ID it returns. -/
structure Answer where
  ret : Int
  status : Option (BitVec 32)
  usage : Option Rusage
  reported : Option Process
  deriving DecidableEq

/-- A call returns, or it waits for the process that has the ID. -/
inductive Outcome where
  | returned (answer : Answer) (k : Family)
  | waits (p : Process) (pid : Int)

namespace Family

/-- `State` of a process. -/
abbrev state (k : Family) (p : Process) : TaskState := k.kernel.tasks.processState p

/-- `Children` of a process. -/
abbrev children (k : Family) (p : Process) : List Process := k.kernel.tasks.children p

/-- The process has been deleted. -/
abbrev deleted (k : Family) (p : Process) : Bool := p ∈ k.kernel.tasks.deletedProcesses

/-- `child->SetState(Tasking::Terminated)`. -/
def terminate (k : Family) (p : Process) : Family :=
  { k with kernel := k.kernel.setState p .terminated }

/-- A call that fails. -/
def fails (k : Family) (error : Int) (status : Option (BitVec 32)) : Outcome :=
  .returned ⟨-error, status, none, none⟩ k

/-- The status of a process that has exited. -/
def exited (k : Family) (p : Process) : BitVec 32 := BitVec.ofInt 32 (k.kernel.exitCode p) <<< 8

/-- The status of a process that has dumped core on the signal. -/
def dumped (k : Family) (p : Process) (sig : Signo) : BitVec 32 :=
  k.exited p ||| BitVec.ofNat 32 (convertSignalToLinux sig) ||| 0x80

/-- What is stored at `rusage`. -/
def usage (k : Family) (p : Process) : Rusage where
  utimeSec := k.userTime p / 1000000000000000
  utimeUsec := k.userTime p / 1000000000
  stimeSec := k.kernelTime p / 1000000000000000
  stimeUsec := k.kernelTime p / 1000000000
  maxrss := k.size p

/-- The end of a report: `rusage` is stored, and the call returns `ret`. -/
def report (k : Family) (args : WaitArgs) (p : Process) (status : Option (BitVec 32)) (ret : Int)
    (after : Family) : Outcome :=
  match args.rusage with
  | none => .returned ⟨ret, status, none, some p⟩ after
  | some address =>
    if address.checked then .returned ⟨ret, status, some (k.usage p), some p⟩ after
    else k.fails linuxEfault status

/-- A child that is a zombie. `wstatus` is not checked. -/
def reportZombie (k : Family) (args : WaitArgs) (child : Process) : Option Outcome :=
  if args.wstatus.any (!·.mapped) then none
  else
    some (k.report args child (args.wstatus.map fun _ => k.exited child) (k.processId child)
      (k.terminate child))

/-- A child that has dumped core; its last signal must not be `SIGNULL`. -/
def reportCoreDump (k : Family) (args : WaitArgs) (child : Process) : Option Outcome :=
  match args.wstatus with
  | none => some (k.report args child none (k.processId child) (k.terminate child))
  | some address =>
    if address.checked then
      (k.kernel.signals child).lastSignal.map fun sig =>
        k.report args child (some (k.dumped child sig)) (k.processId child) (k.terminate child)
    else some (k.fails linuxEfault none)

/-- The loop over the children: a report, or the children that are left to wait for. -/
def scanChildren (k : Family) (args : WaitArgs) :
    List Process → List Process → Option (Outcome ⊕ List Process)
  | wChilds, [] => some (.inr wChilds)
  | wChilds, child :: rest =>
    if k.deleted child then none
    else if k.state child = .zombie then (k.reportZombie args child).map .inl
    else if k.state child = .coreDump then (k.reportCoreDump args child).map .inl
    else
      scanChildren k args (if k.state child ≠ .terminated then wChilds ++ [child] else wChilds) rest

/-- The state ends the loop that waits. -/
def ended (k : Family) (p : Process) : Bool :=
  k.state p = .zombie || k.state p = .coreDump || k.state p = .terminated

/-- The loop that waits, up to the next `Yield`, and what follows it. -/
def waitFor (k : Family) (args : WaitArgs) (pid : Int) (tPcb : Process) : Option Outcome :=
  if k.deleted tPcb then none
  else if k.ended tPcb then
    some (
      if args.wstatus.any (!·.checked) then k.fails linuxEfault none
      else k.report args tPcb (args.wstatus.map fun _ => k.exited tPcb) pid k)
  else some (.waits tPcb pid)

/-- `GetProcessByID`. -/
def getProcessByID (k : Family) (pid : Int) : Option Process :=
  k.kernel.tasks.processList.find? (k.processId · = pid)

/-- What follows the search for a dead child. -/
def waitById (k : Family) (args : WaitArgs) (pid : Int) : Option Outcome :=
  if pid = 0 ∨ pid < -1 then some (k.fails linuxEnosys none)
  else
    -- any process, whether it is a child of the caller or not
    match k.getProcessByID pid with
    | none => some (k.fails linuxEchild none)
    | some tPcb => k.waitFor args pid tPcb

/-- `linux_wait4`. -/
def linuxWait4 (k : Family) (pcb : Process) (args : WaitArgs) : Option Outcome :=
  if args.pid = -1 then
    if k.children pcb = [] then some (k.fails linuxEchild none)
    else
      (k.scanChildren args [] (k.children pcb)).bind fun
        | .inl outcome => some outcome
        | .inr [] => some (k.fails linuxEchild none)
        | .inr (front :: _) => k.waitById args (k.processId front)
  else k.waitById args args.pid

end Family

/-! ## Section 2: Runs -/

/-- The processes, what each thread waits for, and the processes that were reported, the
    last one first. -/
structure WaitState where
  family : Family
  waiting : Thread → Option (WaitArgs × Int × Process)
  reports : List Process

/-- A thread makes the call, a thread that waits goes on after `Yield`, or something else
    changes the processes. -/
inductive WaitEvent where
  | call (me : Thread) (args : WaitArgs)
  | resume (me : Thread)
  | other (k : Family)

namespace WaitState

/-- The outcome of a call of the thread. -/
def after (s : WaitState) (me : Thread) (args : WaitArgs) : Outcome → WaitState
  | .returned answer k =>
    { family := k
      waiting := update s.waiting me none
      reports := answer.reported.toList ++ s.reports }
  | .waits p pid => { s with waiting := update s.waiting me (some (args, pid, p)) }

/-- One step. -/
def apply (s : WaitState) : WaitEvent → Option WaitState
  | .call me args =>
    match s.waiting me with
    | none => (s.family.linuxWait4 (s.family.kernel.tasks.threadParent me) args).map (s.after me args)
    | some _ => none
  | .resume me =>
    (s.waiting me).bind fun (args, pid, p) => (s.family.waitFor args pid p).map (s.after me args)
  | .other k => some { s with family := k }

end WaitState

/-- Runs in which nothing has been reported at first. -/
def waitRuns : System WaitState WaitEvent where
  init := fun s => s.waiting = (fun _ => none) ∧ s.reports = []
  step := fun s event s' => s.apply event = some s'

/-! ## Section 3: What a wait is for -/

namespace Family

/-- The status of a process that is dead. -/
def exitStatus (k : Family) (p : Process) : Option (BitVec 32) :=
  if k.state p = .coreDump then (k.kernel.signals p).lastSignal.map (k.dumped p)
  else some (k.exited p)

/-- The process is dead and has not been reported to its parent. -/
def unreaped (k : Family) (p : Process) : Bool := k.state p = .zombie || k.state p = .coreDump

/-- A pid that is not of a child is refused, and nothing changes. A process that is reported
    is a child, and what is stored is its status. -/
structure Right (k : Family) (pcb : Process) (args : WaitArgs) (answer : Answer) (k' : Family) :
    Prop where
  stranger : 0 < args.pid → (∀ child ∈ k.children pcb, k.processId child ≠ args.pid) →
    answer = ⟨-linuxEchild, none, none, none⟩ ∧ k' = k
  child : ∀ p, answer.reported = some p → p ∈ k.children pcb ∧ answer.ret = k.processId p ∧
    (args.wstatus ≠ none → answer.status = k.exitStatus p)

end Family

/-- A call for the pid -1 finds a dead child or has no child to wait for, and a call for a
    positive pid finds no process. Nothing else changes the state of a terminated process. -/
def Reaps (s : WaitState) : WaitEvent → Prop
  | .call me args =>
    let pcb := s.family.kernel.tasks.threadParent me
    (args.pid = -1 → (∃ child ∈ s.family.children pcb, s.family.unreaped child = true) ∨
      ∀ child ∈ s.family.children pcb, s.family.state child = .terminated) ∧
    (0 < args.pid → s.family.getProcessByID args.pid = none)
  | .resume _ => True
  | .other k => ∀ p, s.family.state p = .terminated → k.state p = .terminated

namespace Family

variable {k k' : Family} {pcb p : Process} {args : WaitArgs} {outcome : Outcome}

theorem state_terminate (k : Family) (p q : Process) :
    (k.terminate p).state q = if q = p then .terminated else k.state q :=
  Function.update_apply _ _ _ _

theorem report_cases (k : Family) (args : WaitArgs) (p : Process) (status : Option (BitVec 32))
    (ret : Int) (after : Family) :
    k.report args p status ret after = k.fails linuxEfault status ∨
      ∃ usage, k.report args p status ret after = .returned ⟨ret, status, usage, some p⟩ after := by
  unfold report
  split
  · exact .inr ⟨_, rfl⟩
  · split
    · exact .inr ⟨_, rfl⟩
    · exact .inl rfl

/-- What the loop over the children does with a dead child: it fails and changes nothing, or
    the child is reported with its status and becomes terminated. -/
def Reported (k : Family) (args : WaitArgs) (child : Process) (outcome : Outcome) : Prop :=
  (∃ error status, outcome = k.fails error status) ∨
    ∃ status usage, (args.wstatus ≠ none → status = k.exitStatus child) ∧
      outcome = .returned ⟨k.processId child, status, usage, some child⟩ (k.terminate child)

theorem reported_report {status : Option (BitVec 32)}
    (hstatus : args.wstatus ≠ none → status = k.exitStatus p) :
    k.Reported args p (k.report args p status (k.processId p) (k.terminate p)) := by
  obtain hfails | ⟨usage, hreturned⟩ :=
    report_cases k args p status (k.processId p) (k.terminate p)
  · exact .inl ⟨_, _, hfails⟩
  · exact .inr ⟨status, usage, hstatus, hreturned⟩

theorem reportZombie_reported (hstate : k.state p = .zombie)
    (h : k.reportZombie args p = some outcome) : k.Reported args p outcome := by
  unfold reportZombie at h
  split at h
  · cases h
  · cases h
    refine reported_report fun hne => ?_
    obtain ⟨address, haddress⟩ := Option.ne_none_iff_exists'.mp hne
    have hcore : k.state p ≠ .coreDump := by
      rw [hstate]
      decide
    rw [haddress, exitStatus, if_neg hcore]
    rfl

theorem reportCoreDump_reported (hstate : k.state p = .coreDump)
    (h : k.reportCoreDump args p = some outcome) : k.Reported args p outcome := by
  unfold reportCoreDump at h
  split at h
  · next hnull =>
    cases h
    exact reported_report fun hne => absurd hnull hne
  · split at h
    · obtain ⟨sig, hsig, rfl⟩ := Option.map_eq_some_iff.mp h
      refine reported_report fun _ => ?_
      rw [exitStatus, if_pos hstate, hsig]
      rfl
    · cases h
      exact .inl ⟨_, _, rfl⟩

theorem scanChildren_cases {wChilds children : List Process} {r : Outcome ⊕ List Process}
    (h : k.scanChildren args wChilds children = some r) :
    (∃ child ∈ children, k.unreaped child = true ∧
        ∃ outcome, k.Reported args child outcome ∧ r = .inl outcome) ∨
      (∀ child ∈ children, k.unreaped child = false) ∧
        r = .inr (wChilds ++ children.filter (k.state · ≠ .terminated)) := by
  induction children generalizing wChilds with
  | nil =>
    cases h
    refine .inr ⟨fun child hmem => absurd hmem List.not_mem_nil, ?_⟩
    rw [List.filter_nil, List.append_nil]
  | cons child rest ih =>
    unfold scanChildren at h
    split at h
    · cases h
    · split at h
      · next hzombie =>
        obtain ⟨outcome, hreport, rfl⟩ := Option.map_eq_some_iff.mp h
        exact .inl ⟨child, List.mem_cons_self, by simp [unreaped, hzombie], outcome,
          reportZombie_reported hzombie hreport, rfl⟩
      · next hzombie =>
        split at h
        · next hcore =>
          obtain ⟨outcome, hreport, rfl⟩ := Option.map_eq_some_iff.mp h
          exact .inl ⟨child, List.mem_cons_self, by simp [unreaped, hcore], outcome,
            reportCoreDump_reported hcore hreport, rfl⟩
        · next hcore =>
          obtain ⟨c, hc, hreported⟩ | ⟨hnone, rfl⟩ := ih h
          · exact .inl ⟨c, List.mem_cons_of_mem child hc, hreported⟩
          · refine .inr ⟨List.forall_mem_cons.mpr ⟨?_, hnone⟩, ?_⟩
            · simp [unreaped, hzombie, hcore]
            · by_cases hliving : k.state child ≠ .terminated
              · rw [if_pos hliving, List.filter_cons_of_pos (by simpa using hliving),
                  List.append_assoc]
                rfl
              · rw [if_neg hliving, List.filter_cons_of_neg (by simpa using hliving)]

theorem state_ne_of_unreaped (h : k.unreaped p = true) : k.state p ≠ .terminated := by
  intro hterminated
  simp [unreaped, hterminated] at h

theorem linuxWait4_cases
    (hany : args.pid = -1 → (∃ child ∈ k.children pcb, k.unreaped child = true) ∨
      ∀ child ∈ k.children pcb, k.state child = .terminated)
    (hpositive : 0 < args.pid → k.getProcessByID args.pid = none)
    (h : k.linuxWait4 pcb args = some outcome) :
    (0 < args.pid ∧ outcome = k.fails linuxEchild none) ∨
      args.pid ≤ 0 ∧ ((∃ error status, outcome = k.fails error status) ∨
        ∃ child ∈ k.children pcb, k.unreaped child = true ∧ k.Reported args child outcome) := by
  unfold linuxWait4 at h
  split at h
  · next hpid =>
    refine .inr ⟨by omega, ?_⟩
    split at h
    · exact .inl ⟨_, _, (Option.some.inj h).symm⟩
    · obtain ⟨r, hscan, hnext⟩ := Option.bind_eq_some_iff.mp h
      obtain ⟨child, hchild, hdead, outcome', hreported, rfl⟩ | ⟨hnone, rfl⟩ :=
        scanChildren_cases hscan
      · cases hnext
        exact .inr ⟨child, hchild, hdead, hreported⟩
      · -- no child is dead, so all are terminated and none is left
        have hall : ∀ child ∈ k.children pcb, k.state child = .terminated := by
          obtain ⟨child, hchild, hdead⟩ | hall := hany hpid
          · rw [hnone child hchild] at hdead
            cases hdead
          · exact hall
        have hleft : (k.children pcb).filter (k.state · ≠ .terminated) = [] := by
          rw [List.filter_eq_nil_iff]
          intro child hchild
          simp [hall child hchild]
        rw [hleft] at hnext
        exact .inl ⟨_, _, (Option.some.inj hnext).symm⟩
  · unfold waitById at h
    split at h
    · exact .inr ⟨by omega, .inl ⟨_, _, (Option.some.inj h).symm⟩⟩
    · have hpos : 0 < args.pid := by omega
      rw [hpositive hpos] at h
      exact .inl ⟨hpos, (Option.some.inj h).symm⟩

end Family

/-- Nobody waits, and what was reported is terminated and was reported once. -/
structure Settled (s : WaitState) : Prop where
  waiting : ∀ me, s.waiting me = none
  nodup : s.reports.Nodup
  terminated : ∀ p ∈ s.reports, s.family.state p = .terminated

section Runs

variable {s s' : WaitState} {me : Thread} {args : WaitArgs}

theorem Settled.fails (h : Settled s) (error : Int) (status : Option (BitVec 32)) :
    Settled (s.after me args (s.family.fails error status)) where
  waiting := fun t => by
    show update s.waiting me none t = none
    rw [Function.update_apply, h.waiting t, ite_self]
  nodup := h.nodup
  terminated := h.terminated

theorem Settled.reported (h : Settled s) {child : Process}
    (hdead : s.family.state child ≠ .terminated) (answer : Answer)
    (hreported : answer.reported = some child) :
    Settled (s.after me args (.returned answer (s.family.terminate child))) where
  waiting := fun t => by
    show update s.waiting me none t = none
    rw [Function.update_apply, h.waiting t, ite_self]
  nodup := by
    show (answer.reported.toList ++ s.reports).Nodup
    rw [hreported]
    exact List.nodup_cons.mpr ⟨fun hmem => hdead (h.terminated child hmem), h.nodup⟩
  terminated := fun p hp => by
    rw [show (s.after me args (.returned answer (s.family.terminate child))).family =
      s.family.terminate child from rfl, Family.state_terminate]
    split
    · rfl
    · next hne =>
      have hp' : p ∈ answer.reported.toList ++ s.reports := hp
      rw [hreported] at hp'
      obtain rfl | hp' := List.mem_cons.mp hp'
      · exact absurd rfl hne
      · exact h.terminated p hp'

theorem Settled.step {event : WaitEvent} (h : Settled s) (hreaps : Reaps s event)
    (hstep : s.apply event = some s') : Settled s' := by
  cases event with
  | call me args =>
    simp only [WaitState.apply, h.waiting me] at hstep
    obtain ⟨outcome, hcall, rfl⟩ := Option.map_eq_some_iff.mp hstep
    obtain ⟨-, rfl⟩ | ⟨-, ⟨error, status, rfl⟩ | ⟨child, hchild, hdead, hreported⟩⟩ :=
      Family.linuxWait4_cases hreaps.1 hreaps.2 hcall
    · exact h.fails linuxEchild none
    · exact h.fails error status
    · obtain ⟨error, status, rfl⟩ | ⟨status, usage, -, rfl⟩ := hreported
      · exact h.fails error status
      · exact h.reported (Family.state_ne_of_unreaped hdead) _ rfl
  | resume me =>
    -- nobody waits
    rw [WaitState.apply, h.waiting me] at hstep
    cases hstep
  | other k =>
    cases hstep
    exact ⟨h.waiting, h.nodup, fun p hp => hreaps p (h.terminated p hp)⟩

theorem settled_of_reachable (h : (waitRuns.restrict Reaps).Reachable s) : Settled s := by
  refine System.Reachable.invariant ?_ ?_ h
  · rintro s ⟨hwaiting, hreports⟩
    refine ⟨fun me => by rw [hwaiting], by rw [hreports]; exact List.nodup_nil, ?_⟩
    intro p hp
    rw [hreports] at hp
    cases hp
  · rintro s event s' hs ⟨hreaps, hstep⟩
    exact hs.step hreaps hstep

/-- **Waiting.** In a run whose calls find a dead child or nothing to wait for, no process is
    reported twice, and every such call returns with the right answer. -/
theorem wait4_reports_once (h : (waitRuns.restrict Reaps).Reachable s) :
    s.reports.Nodup ∧ (∀ me, s.waiting me = none) ∧
      ∀ me args, Reaps s (.call me args) → ∀ outcome,
        s.family.linuxWait4 (s.family.kernel.tasks.threadParent me) args = some outcome →
        ∃ answer k', outcome = .returned answer k' ∧
          s.family.Right (s.family.kernel.tasks.threadParent me) args answer k' := by
  have hsettled := settled_of_reachable h
  refine ⟨hsettled.nodup, hsettled.waiting, fun me args hreaps outcome hcall => ?_⟩
  obtain ⟨-, rfl⟩ | ⟨hpid, ⟨error, status, rfl⟩ | ⟨child, hchild, -, hreported⟩⟩ :=
    Family.linuxWait4_cases hreaps.1 hreaps.2 hcall
  · exact ⟨_, _, rfl, fun _ _ => ⟨rfl, rfl⟩, fun p hp => by cases hp⟩
  · exact ⟨_, _, rfl, fun hpos _ => by omega, fun p hp => by cases hp⟩
  · obtain ⟨error, status, rfl⟩ | ⟨status, usage, hstatus, rfl⟩ := hreported
    · exact ⟨_, _, rfl, fun hpos _ => by omega, fun p hp => by cases hp⟩
    · refine ⟨_, _, rfl, fun hpos _ => by omega, fun p hp => ?_⟩
      cases hp
      exact ⟨hchild, rfl, hstatus⟩

/-- A process that is found by its ID and is dead is reported to every caller, child or not,
    and nothing changes, so that every further call reports it again. -/
theorem Family.linuxWait4_again {k : Family} {p : Process} (hpid : 0 < args.pid)
    (hfound : k.getProcessByID args.pid = some p) (hended : k.ended p = true)
    (hdeleted : k.deleted p = false) (hwstatus : args.wstatus.any (!·.checked) = false)
    (hrusage : args.rusage = none) (pcb : Process) :
    ∃ answer, answer.ret = args.pid ∧ answer.reported = some p ∧
      k.linuxWait4 pcb args = some (.returned answer k) := by
  have hreport : k.linuxWait4 pcb args =
      some (k.report args p (args.wstatus.map fun _ => k.exited p) args.pid k) := by
    rw [Family.linuxWait4, if_neg (by omega), Family.waitById, if_neg (by omega), hfound]
    simp only [Family.waitFor, hdeleted, hended, hwstatus, Bool.false_eq_true, if_false, if_true]
  rw [hreport, Family.report, hrusage]
  exact ⟨_, rfl, rfl, rfl⟩

/-- Process 1 has the child 2, which has exited with 7. Process 3 has no children. -/
def exampleFamily : Family where
  kernel := { Kernel.examplePair with
    tasks := { Kernel.examplePair.tasks with
      processVector := ⟨[1, 2, 3], []⟩
      childVector := fun p => ⟨if p = 1 then [2] else [], []⟩
      parent := fun p => if p = 2 then some 1 else none
      processState := fun p => if p = 2 then .zombie else .ready }
    exitCode := fun p => if p = 2 then 7 else 0 }
  processId := fun p => p
  kernelTime := fun _ => 0
  userTime := fun _ => 0
  size := fun _ => 0

/-- Nothing has been reported. -/
def exampleWait : WaitState := ⟨exampleFamily, fun _ => none, []⟩

theorem wait4_reports_once_child :
    (waitRuns.restrict Reaps).Reachable exampleWait ∧ ∃ answer k',
      exampleFamily.linuxWait4 1 ⟨-1, some ⟨true, true⟩, 0, none⟩ = some (.returned answer k') ∧
      exampleFamily.Right 1 ⟨-1, some ⟨true, true⟩, 0, none⟩ answer k' := by
  have hreachable : (waitRuns.restrict Reaps).Reachable exampleWait := .init ⟨rfl, rfl⟩
  have hreaps : Reaps exampleWait (.call 1 ⟨-1, some ⟨true, true⟩, 0, none⟩) :=
    ⟨fun _ => .inl ⟨2, by decide, by decide⟩, fun h => absurd h (by decide)⟩
  have hcall : ∃ outcome,
      exampleFamily.linuxWait4 1 ⟨-1, some ⟨true, true⟩, 0, none⟩ = some outcome := ⟨_, rfl⟩
  obtain ⟨outcome, hcall⟩ := hcall
  obtain ⟨answer, k', rfl, hright⟩ :=
    (wait4_reports_once hreachable).2.2 1 _ hreaps outcome hcall
  exact ⟨hreachable, answer, k', hcall, hright⟩

/-- Two calls for the pid 2 report the child twice, and process 3, whose child it is not, gets
    its report too. -/
theorem wait4_reports_twice :
    (∃ s, waitRuns.Reachable s ∧ s.reports = [2, 2]) ∧ 2 ∉ exampleFamily.children 3 ∧
      ∃ answer k', answer.ret = 2 ∧
        exampleFamily.linuxWait4 3 ⟨2, none, 0, none⟩ = some (.returned answer k') := by
  obtain ⟨s, hrun, hreports⟩ : ∃ s, [.call 1 ⟨2, none, 0, none⟩, .call 1 ⟨2, none, 0, none⟩].foldlM
      WaitState.apply exampleWait = some s ∧ s.reports = [2, 2] := by
    decide +kernel
  obtain ⟨answer, hret, -, hcall⟩ := @Family.linuxWait4_again
    ⟨2, none, 0, none⟩ exampleFamily 2 (by decide) (by decide) (by decide) (by decide) (by decide) rfl 3
  exact ⟨⟨s, .foldlM id (.init ⟨rfl, rfl⟩) hrun, hreports⟩, by decide, answer, _, hret, hcall⟩

end Runs

end Fennix.Tasking
