import Fennix.Tasking.Halted

/-! # Sleeping threads

    `Task::Sleep` of `Kernel/tasking/task.cpp`, one store at a time, and the passes of the
    scheduler that come between: `UpdateProcessState` and `WakeUpThreads` of
    `Kernel/tasking/scheduler/custom.cpp`. The thread is marked as sleeping before the time
    to wake it up is written, and the scheduler compares with what is there.

    - `prepare_sleeping`: what a pass does to a thread that sleeps.
    - `Fresh`: as long as nothing has woken the thread, it sleeps, with the time of an
      earlier call until its own is stored.
    - `sleeps_right_iff`: over all runs, when the thread is woken at the right time.
-/

namespace Fennix.Tasking.Custom

open Function (update)

/-! ## Section 1: What a pass does -/

/-- What `WakeUpThreads` finds in a pass, if the pass comes to it. -/
def waking (s : Custom) : Option Custom :=
  match s.currentProcess, s.currentThread with
  | some cp, some ct =>
    if s.freed cp ct then none
    else (s.preempt cp ct).cleanupTerminated.map updateProcessState
  | _, _ => none

/-- State and time of a thread. -/
def view (s : Custom) (t : Thread) : TaskState × Nat := (s.threadState t, s.sleepUntil t)

/-- The same after a look at the thread. -/
def woken (now : Nat) (v : TaskState × Nat) : TaskState × Nat :=
  if v.1 = .sleeping ∧ v.2 < now then (.ready, 0) else v

@[simp] theorem woken_woken (now : Nat) (v : TaskState × Nat) :
    woken now (woken now v) = woken now v := by
  by_cases h : v.1 = .sleeping ∧ v.2 < now
  · simp [woken, h]
  · simp [woken, h]

section wakeUp

variable (time : Thread → Nat) (s : Custom) (t : Thread)

theorem view_wakeUpThread (p : Process) (pState : TaskState) (u : Thread) :
    (wakeUpThread time p pState s u).view t =
      if u = t then woken (time t) (s.view t) else s.view t := by
  unfold wakeUpThread
  by_cases hu : u = t
  · subst hu
    by_cases hwake : s.threadState u = .sleeping ∧ s.sleepUntil u < time u
    · simp [hwake, woken, view]
    · rw [if_neg hwake, if_pos rfl, woken, view, if_neg hwake]
  · rw [if_neg hu]
    split
    · simp [view, Ne.symm hu]
    · rfl

theorem view_foldl_wakeUpThread (p : Process) (pState : TaskState) (l : List Thread) :
    (l.foldl (wakeUpThread time p pState) s).view t =
      if t ∈ l then woken (time t) (s.view t) else s.view t := by
  induction l generalizing s with
  | nil => simp
  | cons u l ih =>
    rw [List.foldl_cons, ih, view_wakeUpThread]
    by_cases hu : u = t
    · simp [hu]
    · simp [hu, Ne.symm hu]

/-- The process is in a state in which its threads are looked at. -/
def Wakeable (s : Custom) (p : Process) : Prop :=
  s.processState p = .ready ∨ s.processState p = .sleeping ∨ s.processState p = .blocked

instance (s : Custom) (p : Process) : Decidable (s.Wakeable p) :=
  inferInstanceAs (Decidable (_ ∨ _ ∨ _))

theorem view_wakeUpProcess_self (p : Process) (hp : s.Wakeable p) :
    (wakeUpProcess time s p).view t =
      if t ∈ s.threads p then woken (time t) (s.view t) else s.view t := by
  have heq : wakeUpProcess time s p =
      (s.threads p).foldl (wakeUpThread time p (s.processState p)) s := if_pos hp
  rw [heq, view_foldl_wakeUpThread]

theorem wakeUpProcess_of_not (p : Process) (hp : ¬ s.Wakeable p) : wakeUpProcess time s p = s :=
  if_neg hp

theorem threads_wakeUpProcess (p q : Process) :
    (wakeUpProcess time s p).threads q = s.threads q := by
  obtain ⟨ps, ts, su, heq, -⟩ := settles_wakeUpProcess time s p
  rw [heq]

theorem processState_wakeUpProcess {p q : Process} (hne : q ≠ p) :
    (wakeUpProcess time s q).processState p = s.processState p := by
  unfold wakeUpProcess
  dsimp only
  split
  · refine List.foldlRecOn (motive := fun s' : Custom => s'.processState p = s.processState p) _ _ rfl ?_
    intro s' hs' u _
    rw [← hs']
    unfold wakeUpThread
    split
    · dsimp only
      split
      · rw [Function.update_of_ne hne.symm]
      · rfl
    · rfl
  · rfl

theorem view_foldl_wakeUpProcess {p : Process} (hparent : ∀ q, t ∈ s.threads q → q = p)
    (l : List Process) :
    (l.foldl (wakeUpProcess time) s).view t =
      if p ∈ l ∧ t ∈ s.threads p ∧ s.Wakeable p then woken (time t) (s.view t) else s.view t := by
  induction l generalizing s with
  | nil => simp
  | cons q l ih =>
    have hthreads := threads_wakeUpProcess time s q
    rw [List.foldl_cons, ih _ (fun r hr => hparent r (hthreads r ▸ hr)), hthreads p]
    by_cases hq : q = p
    · subst hq
      by_cases hw : s.Wakeable q
      · -- the first look decides; a second one comes to a thread that is ready, or too early
        rw [view_wakeUpProcess_self time s t q hw]
        by_cases ht : t ∈ s.threads q <;> simp [hw, ht]
      · rw [wakeUpProcess_of_not time s q hw]
        simp [hw]
    · have hview : (wakeUpProcess time s q).view t = s.view t := by
        have ht : t ∉ s.threads q := fun h => hq (hparent q h)
        by_cases hw : s.Wakeable q
        · rw [view_wakeUpProcess_self time s t q hw, if_neg ht]
        · rw [wakeUpProcess_of_not time s q hw]
      have hstate : (wakeUpProcess time s q).Wakeable p ↔ s.Wakeable p := by
        rw [Wakeable, processState_wakeUpProcess time s hq, Wakeable]
      simp [hview, hstate, Ne.symm hq]

end wakeUp

/-- `WakeUpThreads` looks at the thread in a pass: it is listed, and so is its process, which
    is in one of the three states. -/
def Reached (s : Custom) (t : Thread) : Prop :=
  ∃ found, s.waking = some found ∧ s.threadParent t ∈ found.processList ∧
    t ∈ found.threads (s.threadParent t) ∧ found.Wakeable (s.threadParent t)

section pass

variable {s s' : Custom} {t : Thread} {time : Thread → Nat}

theorem view_updateProcessState (s : Custom) (t : Thread) : s.updateProcessState.view t = s.view t :=
  List.foldlRecOn (motive := fun s' : Custom => s'.view t = s.view t) s.processList updateState rfl
    fun _ hs' _ _ => hs'

variable {found : Custom}

theorem waking_eq_some (h : s.waking = some found) :
    ∃ cp ct s₁, s.currentProcess = some cp ∧ s.currentThread = some ct ∧
      ¬ s.freed cp ct = true ∧ (s.preempt cp ct).cleanupTerminated = some s₁ ∧
      found = s₁.updateProcessState := by
  unfold waking at h
  split at h
  · next cp ct hcp hct =>
    rw [Option.ite_none_left_eq_some] at h
    obtain ⟨s₁, hclean, rfl⟩ := Option.map_eq_some_iff.mp h.2
    exact ⟨cp, ct, s₁, hcp, hct, h.1, hclean, rfl⟩
  · cases h

theorem sleeping_waking (h : s.waking = some found) (t : Thread) :
    (found.threadState t = .sleeping ↔ s.threadState t = .sleeping) ∧
      found.sleepUntil t = s.sleepUntil t := by
  obtain ⟨cp, ct, s₁, -, -, -, hclean, rfl⟩ := waking_eq_some h
  have hupdate := view_updateProcessState s₁ t
  rw [view, view, Prod.mk.injEq] at hupdate
  obtain ⟨pv, tv, cv, dp, dt, rfl⟩ := ofDeletion_removes.cleanupTerminated hclean
  rw [hupdate.1, hupdate.2]
  unfold preempt
  by_cases hct : s.threadState ct = .running
  · by_cases hne : t = ct
    · simp [hne, hct]
    · simp [hne, hct]
  · simp [hct]

theorem prepare_of_waking (h : s.waking = some found) :
    s.prepare time = some (found.wakeUpThreads time) := by
  obtain ⟨cp, ct, s₁, hcp, hct, hfreed, hclean, rfl⟩ := waking_eq_some h
  simp [prepare, hcp, hct, hfreed, hclean]

theorem prepare_of_not_waking (h : s.waking = none) (hprepare : s.prepare time = some s') :
    s' = s := by
  unfold prepare at hprepare
  split at hprepare
  · next cp ct hcp hct =>
    rw [Option.ite_none_left_eq_some] at hprepare
    obtain ⟨s₁, hclean, -⟩ := Option.map_eq_some_iff.mp hprepare.2
    simp [waking, hcp, hct, hprepare.1, hclean] at h
  · exact (Option.some.inj hprepare).symm

theorem Sound.waking (hs : Sound s) (h : s.waking = some found) :
    Sound found ∧ found.threadParent = s.threadParent := by
  obtain ⟨cp, ct, s₁, -, -, -, hclean, rfl⟩ := waking_eq_some h
  have hs₁ := (ofDeletion_shrinks.cleanupTerminated hclean).sound (hs.settles (settles_preempt s cp ct))
  refine ⟨hs₁.settles (settles_updateProcessState s₁), ?_⟩
  obtain ⟨_, _, _, heq, -⟩ := settles_updateProcessState s₁
  obtain ⟨_, _, _, _, _, rfl⟩ := ofDeletion_removes.cleanupTerminated hclean
  rw [heq]
  rfl

/-- What a pass does to a thread: if it sleeps, is looked at and its time is over, it is ready;
    otherwise it sleeps exactly if it did, with the same time. -/
theorem prepare_cases (hs : Sound s) (hprepare : s.prepare time = some s') (t : Thread) :
    ((s.threadState t = .sleeping ∧ s.Reached t ∧ s.sleepUntil t < time t) ∧
        s'.threadState t = .ready) ∨
      (¬ (s.threadState t = .sleeping ∧ s.Reached t ∧ s.sleepUntil t < time t) ∧
        (s'.threadState t = .sleeping ↔ s.threadState t = .sleeping) ∧
        s'.sleepUntil t = s.sleepUntil t) := by
  cases hwaking : s.waking with
  | none =>
    obtain rfl := prepare_of_not_waking hwaking hprepare
    refine Or.inr ⟨?_, Iff.rfl, rfl⟩
    rintro ⟨-, ⟨found, hfound, -⟩, -⟩
    rw [hwaking] at hfound
    cases hfound
  | some found =>
    obtain rfl : found.wakeUpThreads time = s' :=
      Option.mem_unique (prepare_of_waking hwaking) hprepare
    obtain ⟨hsound, hparent⟩ := hs.waking hwaking
    obtain ⟨hsleeping, huntil⟩ := sleeping_waking hwaking t
    have hreached : s.Reached t ↔ s.threadParent t ∈ found.processList ∧
        t ∈ found.threads (s.threadParent t) ∧ found.Wakeable (s.threadParent t) := by
      simp [Reached, hwaking]
    have hloop := view_foldl_wakeUpProcess time found t
      (fun q hq => (hsound.threadParent hq).symm) found.processList
    rw [hparent, ← wakeUpThreads] at hloop
    by_cases hwake : s.threadState t = .sleeping ∧ s.Reached t ∧ s.sleepUntil t < time t
    · have hnow : (found.view t).1 = .sleeping ∧ (found.view t).2 < time t :=
        ⟨hsleeping.mpr hwake.1, by simpa [view, huntil] using hwake.2.2⟩
      rw [if_pos (hreached.mp hwake.2.1), woken, if_pos hnow] at hloop
      exact Or.inl ⟨hwake, congrArg Prod.fst hloop⟩
    · have hsame : (found.wakeUpThreads time).view t = found.view t := by
        rw [hloop]
        split
        · next hlook =>
          refine if_neg fun hnow => hwake ?_
          exact ⟨hsleeping.mp hnow.1, hreached.mpr hlook, huntil ▸ hnow.2⟩
        · rfl
      rw [view, view, Prod.mk.injEq] at hsame
      exact Or.inr ⟨hwake, hsame.1 ▸ hsleeping, hsame.2.trans huntil⟩

end pass

/-! ## Section 2: `Sleep` -/

/-- The next step of `Sleep`. `SetState` of a thread stores to its process as well if it is
    the only thread, and that of a process to its only thread. -/
inductive SleepPc where
  | storeThreadState
  | storeParentState
  | storeProcessState
  | storeFrontState
  | getTime
  | storeSleepUntil (wakeTime : Nat)
  | stored (wakeTime : Nat)
  deriving DecidableEq

/-- The tasks, and where the thread is in `Sleep`. -/
structure Sleeper where
  tasks : Custom
  pc : SleepPc

namespace Sleeper

/-- One step of `Sleep(nanoseconds)` by a thread. `now` is what `GetTimeNs` returns. -/
def sleep (s : Sleeper) (t : Thread) (nanoseconds now : Nat) : Sleeper :=
  let p := s.tasks.threadParent t
  match s.pc with
  | .storeThreadState =>
    ⟨{ s.tasks with threadState := update s.tasks.threadState t .sleeping }, .storeParentState⟩
  | .storeParentState =>
    if (s.tasks.threads p).length = 1 then
      ⟨{ s.tasks with processState := update s.tasks.processState p .sleeping }, .storeProcessState⟩
    else ⟨s.tasks, .storeProcessState⟩
  | .storeProcessState =>
    if (s.tasks.threads p).length = 1 then
      ⟨{ s.tasks with processState := update s.tasks.processState p .sleeping }, .storeFrontState⟩
    else ⟨s.tasks, .getTime⟩
  | .storeFrontState =>
    match s.tasks.threads p with
    | [front] =>
      ⟨{ s.tasks with threadState := update s.tasks.threadState front .sleeping }, .getTime⟩
    | _ => ⟨s.tasks, .getTime⟩
  | .getTime => ⟨s.tasks, .storeSleepUntil ((now + nanoseconds) % 2 ^ 64)⟩
  | .storeSleepUntil wakeTime =>
    ⟨{ s.tasks with sleepUntil := update s.tasks.sleepUntil t wakeTime }, .stored wakeTime⟩
  | .stored wakeTime => ⟨s.tasks, .stored wakeTime⟩

/-- What happens while a thread is in `Sleep`: its next step, a pass of the scheduler that
    looks at thread `u` at `time u`, the end of a pass that goes on with the thread, and
    anything else that others do. -/
inductive Event where
  | step (now : Nat)
  | pass (time : Thread → Nat)
  | resume
  | others (tasks : Custom)

/-- The state after an event. -/
def next (t : Thread) (nanoseconds : Nat) (s : Sleeper) : Event → Option Sleeper
  | .step now => some (s.sleep t nanoseconds now)
  | .pass time => (s.tasks.prepare time).map fun tasks => { s with tasks := tasks }
  | .resume =>
    if s.tasks.threadState t = .ready then
      some { s with tasks := s.tasks.switchTo (s.tasks.threadParent t, t) }
    else none
  | .others tasks => some { s with tasks := tasks }

/-- Others keep the lists in order and leave the thread alone. They may be threads of any
    process or on any CPU, whose current process and thread the tasks name. -/
structure Leaves (t : Thread) (tasks tasks' : Custom) : Prop where
  sound : Sound tasks'
  threadState : tasks'.threadState t = tasks.threadState t
  sleepUntil : tasks'.sleepUntil t = tasks.sleepUntil t

/-- The events are possible one after another, and the time does not go back. -/
def Runs (t : Thread) (nanoseconds : Nat) : Nat → Sleeper → List Event → Prop
  | _, _, [] => True
  | clock, s, e :: events =>
    ∃ s', s.next t nanoseconds e = some s' ∧
      match e with
      | .step now => clock ≤ now ∧ Runs t nanoseconds now s' events
      | .pass time => clock ≤ time t ∧ Runs t nanoseconds (time t) s' events
      | .resume => Runs t nanoseconds clock s' events
      | .others tasks => Leaves t s.tasks tasks ∧ Runs t nanoseconds clock s' events

/-- Every pass of a run meets a condition in the state before it. -/
def Passes (t : Thread) (nanoseconds : Nat) (P : Sleeper → (Thread → Nat) → Prop) :
    Sleeper → List Event → Prop
  | _, [] => True
  | s, e :: events =>
    (∀ time, e = .pass time → P s time) ∧
      ∀ s', s.next t nanoseconds e = some s' → Passes t nanoseconds P s' events

/-- A pass that finds the thread asleep in `Sleep`, called at `start`, does not make it ready
    before the time is over, and does so if the time that was stored is over. -/
def RightPass (t : Thread) (nanoseconds start : Nat) (s : Sleeper) (time : Thread → Nat) : Prop :=
  s.pc ≠ .storeThreadState → s.tasks.threadState t = .sleeping →
    ∀ tasks, s.tasks.prepare time = some tasks →
      (tasks.threadState t = .ready → start + nanoseconds ≤ time t) ∧
      ∀ wakeTime, s.pc = .stored wakeTime → wakeTime < time t → tasks.threadState t = .ready

/-- What the scheduler finds in `SleepUntil` if `stale` was there at the call. -/
def due (stale : Nat) (s : Sleeper) : Nat :=
  match s.pc with
  | .stored wakeTime => wakeTime
  | _ => stale

/-- A pass that looks at the thread in `Sleep` does not come between the time it finds and the
    end of the sleep, and one after the time that was stored does look at it if it sleeps. -/
def TimelyPass (t : Thread) (nanoseconds start stale : Nat) (s : Sleeper) (time : Thread → Nat) :
    Prop :=
  s.pc ≠ .storeThreadState →
    (s.tasks.Reached t → s.due stale < time t → start + nanoseconds ≤ time t) ∧
    ∀ wakeTime, s.pc = .stored wakeTime → wakeTime < time t → s.tasks.threadState t = .sleeping →
      s.tasks.Reached t

/-! ## Section 3: Runs -/

/-- Nothing has woken the thread since it called `Sleep`. -/
structure Fresh (t : Thread) (stale : Nat) (s : Sleeper) : Prop where
  asleep : s.tasks.threadState t = .sleeping ↔ s.pc ≠ .storeThreadState
  sleepUntil : s.tasks.sleepUntil t = s.due stale

/-- What holds in a run as long as its passes are right. -/
structure Tracked (t : Thread) (nanoseconds start stale clock : Nat) (s : Sleeper) : Prop where
  sound : Sound s.tasks
  recorded : ∀ wakeTime, s.pc = .stored wakeTime → s.tasks.threadState t = .sleeping →
    s.tasks.sleepUntil t = wakeTime
  fresh : Fresh t stale s ∨ start + nanoseconds ≤ clock

namespace Tracked

variable {t : Thread} {nanoseconds start stale clock : Nat} {s : Sleeper} {time : Thread → Nat}

variable {tasks : Custom}

variable (h : Tracked t nanoseconds start stale clock s)

include h

theorem ready_iff (hprepare : s.tasks.prepare time = some tasks)
    (hasleep : s.tasks.threadState t = .sleeping) :
    tasks.threadState t = .ready ↔ s.tasks.Reached t ∧ s.tasks.sleepUntil t < time t := by
  rcases prepare_cases h.sound hprepare t with ⟨hwake, hready⟩ | ⟨hwake, hsame, -⟩
  · simp [hready, hwake]
  · have hstill := hsame.mpr hasleep
    rw [hstill]
    exact ⟨(fun heq => nomatch heq), fun hlook => absurd ⟨hasleep, hlook⟩ hwake⟩

theorem rightPass_iff (hclock : clock ≤ time t) (hprepare : s.tasks.prepare time = some tasks) :
    RightPass t nanoseconds start s time ↔ TimelyPass t nanoseconds start stale s time := by
  have hready := h.ready_iff hprepare
  constructor
  · intro hright hpc
    refine ⟨fun hreached hdue => ?_, fun wakeTime hstored htime hasleep => ?_⟩
    · rcases h.fresh with hfresh | hlate
      · have hasleep := hfresh.asleep.mpr hpc
        refine (hright hpc hasleep tasks hprepare).1 ((hready hasleep).mpr ⟨hreached, ?_⟩)
        rw [hfresh.sleepUntil]
        exact hdue
      · exact Nat.le_trans hlate hclock
    · have hnow := (hright hpc hasleep tasks hprepare).2 wakeTime hstored htime
      exact ((hready hasleep).mp hnow).1
  · intro htimely hpc hasleep tasks' hprepare'
    obtain rfl := Option.mem_unique hprepare hprepare'
    obtain ⟨hearly, hlook⟩ := htimely hpc
    refine ⟨fun hnow => ?_, fun wakeTime hstored htime => ?_⟩
    · obtain ⟨hreached, hover⟩ := (hready hasleep).mp hnow
      rcases h.fresh with hfresh | hlate
      · exact hearly hreached (hfresh.sleepUntil ▸ hover)
      · exact Nat.le_trans hlate hclock
    · refine (hready hasleep).mpr ⟨hlook wakeTime hstored htime hasleep, ?_⟩
      rw [h.recorded wakeTime hstored hasleep]
      exact htime

theorem pass (hclock : clock ≤ time t) (hprepare : s.tasks.prepare time = some tasks)
    (hright : RightPass t nanoseconds start s time) :
    Tracked t nanoseconds start stale (time t) { s with tasks := tasks } := by
  rcases prepare_cases h.sound hprepare t with ⟨⟨hasleep, -⟩, hready⟩ | ⟨-, hsame, huntil⟩
  · refine ⟨h.sound.prepare hprepare, fun _ _ hstill => ?_, ?_⟩
    · rw [show tasks.threadState t = .ready from hready] at hstill
      cases hstill
    · rcases h.fresh with hfresh | hlate
      · exact Or.inr ((hright (hfresh.asleep.mp hasleep) hasleep tasks hprepare).1 hready)
      · exact Or.inr (Nat.le_trans hlate hclock)
  · refine ⟨h.sound.prepare hprepare, fun wakeTime hstored hstill => ?_, ?_⟩
    · exact huntil.trans (h.recorded wakeTime hstored (hsame.mp hstill))
    · rcases h.fresh with hfresh | hlate
      · exact Or.inl ⟨hsame.trans hfresh.asleep, huntil.trans hfresh.sleepUntil⟩
      · exact Or.inr (Nat.le_trans hlate hclock)

theorem others (hleaves : Leaves t s.tasks tasks) :
    Tracked t nanoseconds start stale clock { s with tasks := tasks } := by
  refine ⟨hleaves.sound, fun wakeTime hstored hasleep => ?_, ?_⟩
  · exact hleaves.sleepUntil.trans (h.recorded wakeTime hstored (hleaves.threadState ▸ hasleep))
  · rcases h.fresh with hfresh | hlate
    · refine Or.inl ⟨?_, hleaves.sleepUntil.trans hfresh.sleepUntil⟩
      rw [hleaves.threadState]
      exact hfresh.asleep
    · exact Or.inr hlate

theorem resume (hready : s.tasks.threadState t = .ready) :
    Tracked t nanoseconds start stale clock
      { s with tasks := s.tasks.switchTo (s.tasks.threadParent t, t) } := by
  have hrunning : (s.tasks.switchTo (s.tasks.threadParent t, t)).threadState t = .running := by
    simp [switchTo, mark]
  refine ⟨h.sound.switchTo rfl, fun _ _ hasleep => ?_, ?_⟩
  · rw [show _ = TaskState.running from hrunning] at hasleep
    cases hasleep
  · rcases h.fresh with hfresh | hlate
    · refine Or.inl ⟨?_, hfresh.sleepUntil⟩
      have hpc := hfresh.asleep
      rw [hready] at hpc
      rw [show _ = TaskState.running from hrunning]
      simpa using hpc
    · exact Or.inr hlate

theorem store {now : Nat} (hnow : clock ≤ now) {pc : SleepPc} (hsound : Sound tasks)
    (huntil : tasks.sleepUntil t = s.tasks.sleepUntil t)
    (hstate : tasks.threadState t = .sleeping ∨ (tasks.threadState t = s.tasks.threadState t ∧ s.pc ≠ .storeThreadState))
    (hbefore : ∀ wakeTime, s.pc ≠ .stored wakeTime)
    (hafter : pc ≠ .storeThreadState ∧ ∀ wakeTime, pc ≠ .stored wakeTime) :
    Tracked t nanoseconds start stale now ⟨tasks, pc⟩ := by
  have hdue : ∀ s : Sleeper, (∀ wakeTime, s.pc ≠ .stored wakeTime) → s.due stale = stale := by
    intro s hpc
    unfold due
    split
    · next hstored => exact absurd hstored (hpc _)
    · rfl
  refine ⟨hsound, fun wakeTime hstored => absurd hstored (hafter.2 wakeTime), ?_⟩
  rcases h.fresh with hfresh | hlate
  · have hasleep : tasks.threadState t = .sleeping := by
      rcases hstate with hsleeping | ⟨hsame, hpc⟩
      · exact hsleeping
      · exact hsame.trans (hfresh.asleep.mpr hpc)
    refine Or.inl ⟨⟨fun _ => hafter.1, fun _ => hasleep⟩, ?_⟩
    show tasks.sleepUntil t = _
    rw [huntil, hfresh.sleepUntil, hdue s hbefore, hdue _ hafter.2]
  · exact Or.inr (Nat.le_trans hlate hnow)

theorem step {now : Nat} (hnow : clock ≤ now) :
    Tracked t nanoseconds start stale now (s.sleep t nanoseconds now) := by
  have hstates := h.sound.states
  unfold sleep
  dsimp only
  split
  · next hpc => exact h.store hnow (hstates _ _ _) rfl (by simp) (by simp [hpc]) (by simp)
  · next hpc =>
    split <;> exact h.store hnow (hstates _ _ _) rfl (by simp [hpc]) (by simp [hpc]) (by simp)
  · next hpc =>
    split <;> exact h.store hnow (hstates _ _ _) rfl (by simp [hpc]) (by simp [hpc]) (by simp)
  · next hpc =>
    split
    · next front _ =>
      refine h.store hnow (hstates _ _ _) rfl ?_ (by simp [hpc]) (by simp)
      by_cases hfront : t = front <;> simp [hfront, hpc]
    · exact h.store hnow (hstates _ _ _) rfl (by simp [hpc]) (by simp [hpc]) (by simp)
  · next hpc => exact h.store hnow (hstates _ _ _) rfl (by simp [hpc]) (by simp [hpc]) (by simp)
  · -- the time to wake up is stored
    next wakeTime hpc =>
    refine ⟨hstates _ _ _, fun later hstored _ => ?_, ?_⟩
    · obtain rfl : wakeTime = later := by simpa using hstored
      simp
    · rcases h.fresh with hfresh | hlate
      · refine Or.inl ⟨?_, by simp [due]⟩
        have hasleep := hfresh.asleep.mpr (by simp [hpc])
        simpa using hasleep
      · exact Or.inr (Nat.le_trans hlate hnow)
  · next wakeTime hpc =>
    obtain ⟨tasks, pc⟩ := s
    obtain rfl : pc = .stored wakeTime := hpc
    exact ⟨h.sound, h.recorded, h.fresh.imp id fun hlate => Nat.le_trans hlate hnow⟩

end Tracked

theorem Tracked.passes_iff {t : Thread} {nanoseconds start stale clock : Nat} {s : Sleeper}
    {events : List Event} (h : Tracked t nanoseconds start stale clock s)
    (hruns : Runs t nanoseconds clock s events) :
    Passes t nanoseconds (RightPass t nanoseconds start) s events ↔
      Passes t nanoseconds (TimelyPass t nanoseconds start stale) s events := by
  induction events generalizing clock s with
  | nil => simp [Passes]
  | cons e events ih =>
    obtain ⟨s', hnext, hrest⟩ := hruns
    simp only [Passes, hnext, Option.some.injEq, forall_eq']
    cases e with
    | step now =>
      cases hnext
      simp [ih (h.step hrest.1) hrest.2]
    | pass time =>
      obtain ⟨tasks, hprepare, rfl⟩ := Option.map_eq_some_iff.mp hnext
      have hpass := h.rightPass_iff hrest.1 hprepare
      -- what follows is compared after passes that were right so far
      simp only [Event.pass.injEq, forall_eq', ← hpass]
      exact and_congr_right fun hright => ih (h.pass hrest.1 hprepare hright) hrest.2
    | resume =>
      simp only [next, Option.ite_none_right_eq_some, Option.some.injEq] at hnext
      obtain ⟨hready, rfl⟩ := hnext
      simp [ih (h.resume hready) hrest]
    | others tasks =>
      cases hnext
      simp [ih (h.others hrest.1) hrest.2]

/-- A running thread calls `Sleep` at `start`, with any number of threads in its process, any
    value left in `SleepUntil`, and passes of the scheduler between its steps. It is woken at
    the right time exactly if no pass comes to it between the time it finds in `SleepUntil`,
    which is that of an earlier call until its own is stored, and the end of the sleep, and if
    the passes after the stored time look at it. -/
theorem sleeps_right_iff (t : Thread) (nanoseconds start : Nat) (tasks : Custom)
    (events : List Event) (hsound : Sound tasks) (hrunning : tasks.threadState t = .running)
    (hruns : Runs t nanoseconds start ⟨tasks, .storeThreadState⟩ events) :
    Passes t nanoseconds (RightPass t nanoseconds start) ⟨tasks, .storeThreadState⟩ events ↔
      Passes t nanoseconds (TimelyPass t nanoseconds start (tasks.sleepUntil t))
        ⟨tasks, .storeThreadState⟩ events := by
  refine Tracked.passes_iff ⟨hsound, by simp, Or.inl ⟨?_, rfl⟩⟩ hruns
  simp [hrunning]

/-- Process 1 with some of the threads 7 and 8, process 2 with thread 9, and one CPU that runs
    a thread of them. -/
def fewThreads (threads : List Thread) (cp : Process) (ct : Thread)
    (threadState : Thread → TaskState) (sleepUntil : Thread → Nat) : Custom :=
  { processVector := ⟨[1, 2], []⟩
    threadVector := fun p => if p = 1 then ⟨threads, []⟩ else if p = 2 then ⟨[9], []⟩ else ⟨[], []⟩
    childVector := fun _ => ⟨[], []⟩
    parent := fun _ => none
    threadParent := fun t => if t = 7 ∨ t = 8 then 1 else if t = 9 then 2 else 0
    affinity := fun _ => true
    processState := fun _ => .running
    threadState := threadState
    sleepUntil := sleepUntil
    currentProcess := some cp
    currentThread := some ct
    idleProcess := 0
    idleThread := 0
    stopScheduler := false
    schedulerUpdateTrapFrame := false
    deletedProcesses := []
    deletedThreads := []
    stackDepth := 8 }

theorem sound_fewThreads {threads : List Thread} {cp : Process} {ct : Thread}
    {threadState : Thread → TaskState} {sleepUntil : Thread → Nat} (hnodup : threads.Nodup)
    (hthreads : ∀ t ∈ threads, t = 7 ∨ t = 8)
    (hcurrent : (fewThreads threads cp ct threadState sleepUntil).threadParent ct = cp) :
    Sound (fewThreads threads cp ct threadState sleepUntil) := by
  refine ⟨by simp [fewThreads, processList], fun p => ?_, fun p t ht => ?_, by simp [fewThreads],
    rfl, ?_⟩
  · by_cases h1 : p = 1
    · simpa [fewThreads, Custom.threads, h1] using hnodup
    · by_cases h2 : p = 2 <;> simp [fewThreads, Custom.threads, h1, h2]
  · by_cases h1 : p = 1
    · have hmem : t ∈ threads := by simpa [fewThreads, h1] using ht
      simp [fewThreads, h1, hthreads t hmem]
    · by_cases h2 : p = 2
      · have hmem : t = 9 := by simpa [fewThreads, h2] using ht
        simp [fewThreads, h2, hmem]
      · simp [fewThreads, h1, h2] at ht
  · intro p t hp ht
    cases hp
    cases ht
    exact hcurrent

/-- Thread 7, the only one of its process, sleeps from 1000 to 1501: a pass at 1400 does not
    wake it, one at 1600 does. -/
theorem sleeps_right_iff_undisturbed :
    Sound (fewThreads [7] 1 7 (fun _ => .running) fun _ => 0) ∧
      (Passes 7 500 (RightPass 7 500 1000)
          ⟨fewThreads [7] 1 7 (fun _ => .running) fun _ => 0, .storeThreadState⟩
          [.step 1000, .step 1000, .step 1000, .step 1000, .step 1001, .step 1001,
            .pass fun _ => 1400, .pass fun _ => 1600] ↔
        Passes 7 500 (TimelyPass 7 500 1000 0)
          ⟨fewThreads [7] 1 7 (fun _ => .running) fun _ => 0, .storeThreadState⟩
          [.step 1000, .step 1000, .step 1000, .step 1000, .step 1001, .step 1001,
            .pass fun _ => 1400, .pass fun _ => 1600]) := by
  have hsound : Sound (fewThreads [7] 1 7 (fun _ => .running) fun _ => 0) :=
    sound_fewThreads (by decide) (by decide) rfl
  refine ⟨hsound, sleeps_right_iff 7 500 1000 _ _ hsound rfl ?_⟩
  refine ⟨_, rfl, by decide, _, rfl, by decide, _, rfl, by decide, _, rfl, by decide, _, rfl,
    by decide, _, rfl, by decide, ?_⟩
  exact ⟨_, rfl, by decide, _, rfl, by decide, trivial⟩

/-- Thread 7 calls `Sleep` for 500 at 1000. A pass at 1001, before the time is stored, makes it
    ready. And thread 7 of a process that another CPU runs a thread of, with 1500 stored,
    still sleeps after a pass at 2000. -/
theorem woken_too_early :
    (∃ tasks, Runs 7 500 1000 ⟨fewThreads [7] 1 7 (fun _ => .running) fun _ => 0, .storeThreadState⟩
        [.step 1000, .pass fun _ => 1001] ∧
      (((⟨fewThreads [7] 1 7 (fun _ => .running) fun _ => 0, .storeThreadState⟩ : Sleeper).sleep
        7 500 1000).tasks.prepare fun _ => 1001) = some tasks ∧
      tasks.threadState 7 = .ready) ∧
    ¬ Passes 7 500 (RightPass 7 500 1000)
      ⟨fewThreads [7] 1 7 (fun _ => .running) fun _ => 0, .storeThreadState⟩
      [.step 1000, .pass fun _ => 1001] ∧
    (∃ tasks, (fewThreads [7, 8] 2 9 (fun t => if t = 7 then .sleeping else .running)
        fun _ => 1500).prepare (fun _ => 2000) = some tasks ∧ tasks.threadState 7 = .sleeping) ∧
    ¬ RightPass 7 500 1000
      ⟨fewThreads [7, 8] 2 9 (fun t => if t = 7 then .sleeping else .running) fun _ => 1500,
        .stored 1500⟩ fun _ => 2000 := by
  refine ⟨⟨_, ⟨_, rfl, by decide, _, rfl, by decide, trivial⟩, rfl, rfl⟩, ?_, ⟨_, rfl, rfl⟩, ?_⟩
  · intro hpasses
    have hpass := (hpasses.2 _ rfl).1 _ rfl (by simp [sleep]) rfl _ rfl
    exact absurd (hpass.1 rfl) (by decide)
  · intro hpass
    have hready := (hpass (by simp) rfl _ rfl).2 1500 rfl (by decide)
    exact absurd hready (by decide)

end Sleeper

end Fennix.Tasking.Custom
