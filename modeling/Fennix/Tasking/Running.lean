import Fennix.Framework.System
import Fennix.Tasking.Scheduler

/-! # The running thread

    What a call of `Schedule` keeps, and that over every run, with the states of
    the tasks changed between the calls, exactly the current thread is running, and a
    call finds a thread that can run if there is one.
-/

namespace Fennix.Tasking.Custom

open Function (update update_self update_of_ne update_apply)

/-! ## Section 1: What the states can become -/

/-- `s'` has the same tasks as `s`, each thread is as it was or has become ready,
    and a process is terminated only if it was or one of its threads was. -/
def Settles (s s' : Custom) : Prop :=
  ∃ ps ts su, s' = { s with processState := ps, threadState := ts, sleepUntil := su } ∧
    (∀ t, ts t = s.threadState t ∨ ts t = .ready) ∧
    ∀ p, ps p = .terminated →
      s.processState p = .terminated ∨ ∃ t ∈ s.threads p, s.threadState t = .terminated

theorem Settles.refl (s : Custom) : Settles s s :=
  ⟨s.processState, s.threadState, s.sleepUntil, rfl, fun _ => Or.inl rfl, fun _ => Or.inl⟩

variable {s s' mid : Custom} {p : Process} {t : Thread} {time : Thread → Nat}
  {found : Option (Process × Thread)}

theorem Settles.trans {s'' : Custom} (h : Settles s s') (h' : Settles s' s'') : Settles s s'' := by
  obtain ⟨ps, ts, su, rfl, hts, hps⟩ := h
  obtain ⟨ps', ts', su', rfl, hts', hps'⟩ := h'
  refine ⟨ps', ts', su', rfl, ?_, ?_⟩
  · intro t
    obtain heq | hready := hts' t
    · rw [heq]
      exact hts t
    · exact Or.inr hready
  · intro p hp
    obtain hprocess | ⟨t, ht, hthread⟩ := hps' p hp
    · exact hps p hprocess
    · refine Or.inr ⟨t, ht, ?_⟩
      obtain heq | hready := hts t
      · rw [← heq]
        exact hthread
      · rw [show ts t = .terminated from hthread] at hready
        cases hready

theorem Settles.foldl {α : Type} {body : Custom → α → Custom} (h : ∀ s a, Settles s (body s a))
    (l : List α) (s : Custom) : Settles s (l.foldl body s) :=
  List.foldlRecOn l body (Settles.refl s) fun s' hs' a _ => hs'.trans (h s' a)

theorem Settles.noneTerminated (h : Settles s s') (hnone : NoneTerminated s) :
    NoneTerminated s' := by
  obtain ⟨ps, ts, su, rfl, hts, hps⟩ := h
  intro p hp
  obtain ⟨hprocess, hthreads⟩ := hnone p hp
  refine ⟨?_, ?_⟩
  · intro hterminated
    obtain h | ⟨t, ht, h⟩ := hps p hterminated
    · exact hprocess h
    · exact hthreads t ht h
  · intro t ht
    show ts t ≠ .terminated
    obtain heq | hready := hts t
    · rw [heq]
      exact hthreads t ht
    · rw [hready]
      decide

theorem Settles.intact (h : Settles s s') (hintact : Intact s) : Intact s' := by
  obtain ⟨ps, ts, su, rfl, -⟩ := h
  exact hintact

theorem updatedState_terminated (h : s.updatedState p = .terminated) :
    s.processState p = .terminated ∨ ∃ t ∈ s.threads p, s.threadState t = .terminated := by
  unfold updatedState at h
  split at h
  · rename_i hterminated
    exact Or.inl hterminated
  · split at h
    · rename_i t hthreads
      exact Or.inr ⟨t, by rw [hthreads]; exact List.mem_singleton_self t, h⟩
    · split at h
      · cases h
      · split at h
        · cases h
        · exact Or.inl h

theorem settles_updateState (s : Custom) (p : Process) : Settles s (s.updateState p) := by
  refine ⟨_, s.threadState, s.sleepUntil, rfl, fun _ => Or.inl rfl, ?_⟩
  intro q hq
  by_cases hqp : q = p
  · subst hqp
    rw [update_self] at hq
    exact updatedState_terminated hq
  · rw [update_of_ne hqp] at hq
    exact Or.inl hq

theorem settles_updateProcessState (s : Custom) : Settles s s.updateProcessState :=
  Settles.foldl settles_updateState s.processList s

theorem settles_ready (s : Custom) (p : Process) (t : Thread) (c d : Prop) [Decidable c]
    [Decidable d] (su : Thread → Nat) :
    Settles s { s with
      processState := if c then update s.processState p .ready else s.processState
      threadState := if d then update s.threadState t .ready else s.threadState
      sleepUntil := su } := by
  refine ⟨_, _, su, rfl, ?_, ?_⟩
  · intro u
    split
    · by_cases hu : u = t
      · subst hu
        exact Or.inr (update_self ..)
      · exact Or.inl (update_of_ne hu ..)
    · exact Or.inl rfl
  · intro q hq
    split at hq
    · by_cases hqp : q = p
      · subst hqp
        rw [update_self] at hq
        cases hq
      · rw [update_of_ne hqp] at hq
        exact Or.inl hq
    · exact Or.inl hq

theorem settles_wakeUpThread (time : Thread → Nat) (p : Process) (pState : TaskState) (s : Custom)
    (t : Thread) : Settles s (wakeUpThread time p pState s t) := by
  unfold wakeUpThread
  split
  · exact settles_ready s p t (pState = .sleeping) True _
  · exact Settles.refl s

theorem settles_wakeUpProcess (time : Thread → Nat) (s : Custom) (p : Process) :
    Settles s (wakeUpProcess time s p) := by
  unfold wakeUpProcess
  dsimp only
  split
  · exact Settles.foldl (settles_wakeUpThread time p _) _ s
  · exact Settles.refl s

theorem settles_wakeUpThreads (time : Thread → Nat) (s : Custom) :
    Settles s (s.wakeUpThreads time) :=
  Settles.foldl (settles_wakeUpProcess time) s.processList s

theorem settles_preempt (s : Custom) (cp : Process) (ct : Thread) : Settles s (s.preempt cp ct) :=
  settles_ready s cp ct _ _ s.sleepUntil

theorem preempt_not_running (s : Custom) (cp : Process) (ct : Thread) :
    (s.preempt cp ct).threadState ct ≠ .running := by
  unfold preempt
  dsimp only
  split
  · rw [update_self]
    decide
  · assumption

/-- `s'` differs from `s` in the tasks and their states only, and each thread is in
    the state it was in or ready. -/
structure Keeps (s s' : Custom) : Prop where
  affinity : s'.affinity = s.affinity
  currentProcess : s'.currentProcess = s.currentProcess
  currentThread : s'.currentThread = s.currentThread
  idleThread : s'.idleThread = s.idleThread
  stopScheduler : s'.stopScheduler = s.stopScheduler
  schedulerUpdateTrapFrame : s'.schedulerUpdateTrapFrame = s.schedulerUpdateTrapFrame
  threadState : ∀ t, s'.threadState t = s.threadState t ∨ s'.threadState t = .ready

theorem Settles.keeps (h : Settles s s') : Keeps s s' := by
  obtain ⟨ps, ts, su, rfl, hts, -⟩ := h
  exact ⟨rfl, rfl, rfl, rfl, rfl, rfl, hts⟩

theorem Removes.keeps (h : Removes s s') : Keeps s s' := by
  obtain ⟨pv, tv, cv, dp, dt, rfl⟩ := h
  exact ⟨rfl, rfl, rfl, rfl, rfl, rfl, fun _ => Or.inl rfl⟩

theorem Keeps.trans {s'' : Custom} (h : Keeps s s') (h' : Keeps s' s'') : Keeps s s'' where
  affinity := h'.affinity.trans h.affinity
  currentProcess := h'.currentProcess.trans h.currentProcess
  currentThread := h'.currentThread.trans h.currentThread
  idleThread := h'.idleThread.trans h.idleThread
  stopScheduler := h'.stopScheduler.trans h.stopScheduler
  schedulerUpdateTrapFrame := h'.schedulerUpdateTrapFrame.trans h.schedulerUpdateTrapFrame
  threadState := by
    intro t
    obtain heq | hready := h'.threadState t
    · rw [heq]
      exact h.threadState t
    · exact Or.inr hready

theorem Keeps.not_running (h : Keeps s s') (hnot : s.threadState t ≠ .running) :
    s'.threadState t ≠ .running := by
  obtain heq | hready := h.threadState t
  · rw [heq]
    exact hnot
  · rw [hready]
    decide

theorem prepare_spec (h : s.prepare time = some mid) :
    Keeps s mid ∧ ∀ cp ct, s.currentProcess = some cp → s.currentThread = some ct →
      mid.threadState ct ≠ .running := by
  unfold prepare at h
  split at h
  · rename_i cp ct hcp hct
    split at h
    · cases h
    · obtain ⟨s₁, hclean, rfl⟩ := Option.map_eq_some_iff.mp h
      have hkeeps : Keeps (s.preempt cp ct) (s₁.updateProcessState.wakeUpThreads time) :=
        (ofDeletion_removes.cleanupTerminated hclean).keeps.trans
          ((settles_updateProcessState s₁).trans (settles_wakeUpThreads time _)).keeps
      refine ⟨(settles_preempt s cp ct).keeps.trans hkeeps, ?_⟩
      intro cp' ct' hcp' hct'
      obtain rfl : ct = ct' := Option.mem_unique hct hct'
      exact hkeeps.not_running (preempt_not_running s cp ct)
  · rename_i hcurrent
    cases h
    exact ⟨(Settles.refl s).keeps, fun cp ct hcp hct => absurd hct (hcurrent cp ct hcp)⟩

theorem prepare_settles (hintact : Intact s) (hnone : NoneTerminated s) (time : Thread → Nat) :
    ∃ mid, s.prepare time = some mid ∧ Settles s mid := by
  unfold prepare
  split
  · rename_i cp ct _ _
    have hpreempt := settles_preempt s cp ct
    rw [hintact.freed, if_neg Bool.false_ne_true,
      (hpreempt.intact hintact).cleanupTerminated (hpreempt.noneTerminated hnone)]
    exact ⟨_, rfl, hpreempt.trans
      ((settles_updateProcessState _).trans (settles_wakeUpThreads time _))⟩
  · exact ⟨s, rfl, Settles.refl s⟩

/-! ## Section 2: What the searches find -/

theorem firstThread_spec {p' : Process} (h : s.firstThread p = some (p', t)) :
    p' = p ∧ s.processState p = .ready ∧ t ∈ s.threads p ∧ s.eligible t = true := by
  unfold firstThread at h
  split at h
  · rename_i hready
    obtain ⟨t', hfind, heq⟩ := Option.map_eq_some_iff.mp h
    cases heq
    exact ⟨rfl, hready, List.mem_of_find?_eq_some hfind, List.find?_some hfind⟩
  · cases h

theorem findSome_spec {l : List Process} (h : l.findSome? s.firstThread = some (p, t)) :
    p ∈ l ∧ s.processState p = .ready ∧ t ∈ s.threads p ∧ s.eligible t = true := by
  obtain ⟨q, hq, hfirst⟩ := List.exists_of_findSome?_eq_some h
  obtain ⟨rfl, hspec⟩ := firstThread_spec hfirst
  exact ⟨hq, hspec⟩

theorem tryProcess_cases (h : s.tryProcess p = some (s', found)) :
    (s' = s ∧ found = s.firstThread p) ∨ (Removes s s' ∧ found = none) := by
  unfold tryProcess at h
  split at h
  · cases h
  · split at h
    · cases h
      exact Or.inl ⟨rfl, rfl⟩
    · obtain ⟨s₁, hremove, heq⟩ := Option.map_eq_some_iff.mp h
      cases heq
      exact Or.inr ⟨ofDeletion_removes.removeProcess hremove, rfl⟩

theorem removes_tryProcess (h : s.tryProcess p = some (s', found)) : Removes s s' := by
  obtain ⟨rfl, -⟩ | ⟨hremoves, -⟩ := tryProcess_cases h
  · exact Removes.refl _
  · exact hremoves

theorem Removes.eligible (h : Removes s s') : s'.eligible = s.eligible := by
  obtain ⟨pv, tv, cv, dp, dt, rfl⟩ := h
  rfl

theorem findNewProcess_spec (h : s.findNewProcess = some (s', found)) :
    Removes s s' ∧ ∀ p t, found = some (p, t) → s.eligible t = true := by
  obtain ⟨hall, hturn⟩ := Std.Vector.scan_inv (P := Removes s)
    (fun ht _ _ hturn => ht.trans (removes_tryProcess hturn)) h (Removes.refl s)
  refine ⟨hall, ?_⟩
  rintro p t rfl
  obtain ⟨s₁, q, hremoves, htry⟩ := hturn _ rfl
  obtain ⟨-, hfirst⟩ | ⟨-, hnone⟩ := tryProcess_cases htry
  · rw [← hremoves.eligible]
    exact (firstThread_spec hfirst.symm).2.2.2
  · cases hnone

/-- The threads behind `ct` in the list of a process. -/
def followers (s : Custom) (p : Process) (ct : Thread) : List Thread :=
  ((s.threads p).dropWhile (· ≠ ct)).tail

theorem mem_of_mem_followers {ct : Thread} (h : t ∈ s.followers p ct) : t ∈ s.threads p :=
  (List.dropWhile_sublist _).subset (List.mem_of_mem_tail h)

/-- A search that starts at the current thread finds a thread behind it, or a thread of a
    ready process. -/
theorem search_cases (h : s.search = some (mid, found)) :
    (∀ cp ct, s.currentProcess = some cp → s.currentThread ≠ some ct) ∧
        s.findNewProcess = some (mid, found) ∨
      ∃ cp ct, s.currentProcess = some cp ∧ s.currentThread = some ct ∧ mid = s ∧
        cp ∉ s.deletedProcesses ∧ ∀ p t, found = some (p, t) → s.eligible t = true ∧
          (p = cp ∧ t ∈ s.followers cp ct ∨
            s.processState p = .ready ∧ p ∈ s.processList ∧ t ∈ s.threads p) := by
  unfold search at h
  split at h
  · next cp ct hcp hct =>
    split at h
    · cases h
    · next hdeleted =>
      cases h
      refine Or.inr ⟨cp, ct, hcp, hct, rfl, hdeleted, fun p t hfound => ?_⟩
      rw [Option.or_eq_some_iff, Option.or_eq_some_iff] at hfound
      obtain hthread | ⟨-, hprocess | ⟨-, hall⟩⟩ := hfound
      · obtain ⟨u, hfind, heq⟩ := Option.map_eq_some_iff.mp hthread
        cases heq
        exact ⟨List.find?_some hfind, Or.inl ⟨rfl, List.mem_of_find?_eq_some hfind⟩⟩
      · obtain ⟨hp, hready, ht, heligible⟩ := findSome_spec hprocess
        have hp := (List.dropWhile_suffix _).mem (List.mem_of_mem_filter hp)
        exact ⟨heligible, Or.inr ⟨hready, hp, ht⟩⟩
      · obtain ⟨hp, hready, ht, heligible⟩ := findSome_spec hall
        exact ⟨heligible, Or.inr ⟨hready, hp, ht⟩⟩
  · next hnone => exact Or.inl ⟨hnone, h⟩

theorem search_spec (h : s.search = some (mid, found)) :
    Removes s mid ∧ ∀ p t, found = some (p, t) → s.eligible t = true := by
  obtain ⟨-, hnew⟩ | ⟨cp, ct, -, -, rfl, -, hfound⟩ := search_cases h
  · exact findNewProcess_spec hnew
  · exact ⟨Removes.refl _, fun p t heq => (hfound p t heq).1⟩

theorem findNewProcess_returns (hintact : Intact s) (hnone : NoneTerminated s) :
    s.findNewProcess = some (s, s.schedulerSearchProcessThread) := by
  apply Std.Vector.search_of_unchanged
  intro p hp
  rw [tryProcess, hintact.1, if_neg List.not_mem_nil]
  split
  · rfl
  · rename_i hready
    rw [hintact.removeProcess (hnone p hp).1 (hnone p hp).2, firstThread, if_neg hready]
    rfl

theorem search_returns (hintact : Intact s) (hnone : NoneTerminated s) :
    ∃ found, s.search = some (s, found) := by
  unfold search
  split
  · rw [hintact.1, if_neg List.not_mem_nil]
    exact ⟨_, rfl⟩
  · exact ⟨_, findNewProcess_returns hintact hnone⟩

/-! ## Section 3: One call -/

/-- `StopScheduler` and `SchedulerUpdateTrapFrame` are false. -/
def Plain (s : Custom) : Prop := s.stopScheduler = false ∧ s.schedulerUpdateTrapFrame = false

/-- A running thread is the current one. -/
def OnlyCurrentRuns (s : Custom) : Prop :=
  ∀ t, s.threadState t = .running →
    (∃ cp, s.currentProcess = some cp) ∧ s.currentThread = some t

/-- The state in which a call selects, and what it finds. -/
def select (time : Thread → Nat) (s : Custom) : Option (Custom × Option (Process × Thread)) :=
  (s.prepare time).bind search

theorem schedule_eq (hplain : Plain s) (time : Thread → Nat) :
    s.schedule time = (s.select time).bind fun r => r.1.dispatch r.2 := by
  rw [schedule, hplain.1, if_neg Bool.false_ne_true, select, Option.bind_assoc]
  apply Option.bind_congr
  intro mid hmid
  have hflag : mid.schedulerUpdateTrapFrame = false :=
    (prepare_spec hmid).1.schedulerUpdateTrapFrame.trans hplain.2
  rw [hflag]
  split
  · exact if_neg Bool.false_ne_true
  · rfl

theorem schedule_cases (hplain : Plain s) (h : s.schedule time = some s') :
    ∃ mid found, s.select time = some (mid, found) ∧
      s' = mid.switchTo (found.getD (mid.idleProcess, mid.idleThread)) := by
  rw [schedule_eq hplain] at h
  obtain ⟨⟨mid, found⟩, hselect, hdispatch⟩ := Option.bind_eq_some_iff.mp h
  refine ⟨mid, found, hselect, ?_⟩
  unfold dispatch at hdispatch
  dsimp only at hdispatch
  split at hdispatch
  · cases hdispatch
  · exact (Option.some.inj hdispatch).symm

theorem select_spec (h : s.select time = some (mid, found)) :
    Keeps s mid ∧
      (∀ cp ct, s.currentProcess = some cp → s.currentThread = some ct →
        mid.threadState ct ≠ .running) ∧
      ∀ p t, found = some (p, t) → mid.eligible t = true := by
  obtain ⟨s₁, hprepare, hsearch⟩ := Option.bind_eq_some_iff.mp h
  obtain ⟨hkeeps, hcurrent⟩ := prepare_spec hprepare
  obtain ⟨hremoves, hfound⟩ := search_spec hsearch
  refine ⟨hkeeps.trans hremoves.keeps, ?_, ?_⟩
  · intro cp ct hcp hct
    exact hremoves.keeps.not_running (hcurrent cp ct hcp hct)
  · rw [hremoves.eligible]
    exact hfound

theorem select_none_running (hruns : OnlyCurrentRuns s) (h : s.select time = some (mid, found))
    (t : Thread) : mid.threadState t ≠ .running := by
  intro hrunning
  obtain ⟨hkeeps, hcurrent, -⟩ := select_spec h
  obtain hsame | hready := hkeeps.threadState t
  · obtain ⟨⟨cp, hcp⟩, hct⟩ := hruns t (hsame.symm.trans hrunning)
    exact hcurrent cp t hcp hct hrunning
  · rw [hrunning] at hready
    cases hready

theorem switchTo_running (hnone : ∀ t, mid.threadState t ≠ .running) (next : Process × Thread)
    (u : Thread) : (mid.switchTo next).threadState u = .running ↔ u = next.2 := by
  show update mid.threadState _ _ u = _ ↔ _
  by_cases hu : u = next.2
  · rw [hu, update_self]
    exact ⟨fun _ => rfl, fun _ => rfl⟩
  · rw [update_of_ne hu]
    exact ⟨fun h => absurd h (hnone u), fun h => absurd h hu⟩

theorem switchTo_noneTerminated (hnone : NoneTerminated mid) (next : Process × Thread) :
    NoneTerminated (mid.switchTo next) := by
  intro p hp
  obtain ⟨hprocess, hthreads⟩ := hnone p hp
  refine ⟨?_, ?_⟩
  · show update mid.processState _ _ p ≠ _
    rw [update_apply]
    split
    · decide
    · exact hprocess
  · intro t ht
    show update mid.threadState _ _ t ≠ _
    rw [update_apply]
    split
    · decide
    · exact hthreads t ht

theorem Intact.dispatch (h : Intact s) (found : Option (Process × Thread)) :
    s.dispatch found = some (s.switchTo (found.getD (s.idleProcess, s.idleThread))) := by
  rw [Custom.dispatch, h.freed, if_neg Bool.false_ne_true]

theorem schedule_returns (hplain : Plain s) (hintact : Intact s) (hnone : NoneTerminated s)
    (time : Thread → Nat) : ∃ s', s.schedule time = some s' ∧ Intact s' ∧ NoneTerminated s' := by
  obtain ⟨mid, hmid, hsettles⟩ := prepare_settles hintact hnone time
  have hintact' := hsettles.intact hintact
  have hnone' := hsettles.noneTerminated hnone
  obtain ⟨found, hfound⟩ := search_returns hintact' hnone'
  refine ⟨mid.switchTo (found.getD (mid.idleProcess, mid.idleThread)), ?_, hintact',
    switchTo_noneTerminated hnone' _⟩
  rw [schedule_eq hplain, select, hmid, Option.bind_some, hfound, Option.bind_some]
  exact hintact'.dispatch found

/-! ## Section 4: Runs -/

/-- A call of `Schedule`, with the time it reads, or a change of one state. -/
inductive Event where
  | schedule (time : Thread → Nat)
  | setThread (t : Thread) (state : TaskState) (sleepUntil : Nat)
  | setProcess (p : Process) (state : TaskState)

/-- The states that are given to tasks between the calls. -/
def Settable (state : TaskState) : Prop :=
  state ∈ [TaskState.ready, .waiting, .blocked, .sleeping, .stopped]

/-- The effect of an event. -/
def apply (s : Custom) : Event → Option Custom
  | .schedule time => s.schedule time
  | .setThread t state sleepUntil =>
    some { s with
      threadState := update s.threadState t state
      sleepUntil := update s.sleepUntil t sleepUntil }
  | .setProcess p state => some { s with processState := update s.processState p state }

/-- The states of an event are settable. -/
def Event.Allowed : Event → Prop
  | .schedule _ => True
  | .setThread _ state _ => Settable state
  | .setProcess _ state => Settable state

/-- Runs from a given state. -/
def runsFrom (start : Custom) : System Custom Event where
  init := fun s => s = start
  step := fun s event s' => event.Allowed ∧ s.apply event = some s'

/-- What every run keeps. -/
structure Disciplined (s : Custom) : Prop where
  plain : Plain s
  runs : OnlyCurrentRuns s

theorem Settable.ne_running {state : TaskState} (h : Settable state) : state ≠ .running := by
  rintro rfl
  exact absurd h (by unfold Settable; decide)

theorem Settable.ne_terminated {state : TaskState} (h : Settable state) :
    state ≠ .terminated := by
  rintro rfl
  exact absurd h (by unfold Settable; decide)

theorem Disciplined.schedule (hs : Disciplined s) (h : s.schedule time = some s') :
    Disciplined s' := by
  obtain ⟨mid, found, hselect, rfl⟩ := schedule_cases hs.plain h
  have hkeeps := (select_spec hselect).1
  refine ⟨⟨hkeeps.stopScheduler.trans hs.plain.1,
    hkeeps.schedulerUpdateTrapFrame.trans hs.plain.2⟩, ?_⟩
  intro t ht
  obtain rfl := (switchTo_running (select_none_running hs.runs hselect) _ t).mp ht
  exact ⟨⟨_, rfl⟩, rfl⟩

theorem Disciplined.apply {event : Event} (hs : Disciplined s) (hallowed : event.Allowed)
    (h : s.apply event = some s') : Disciplined s' := by
  cases event with
  | schedule time => exact hs.schedule h
  | setThread t state sleepUntil =>
    cases h
    refine ⟨hs.plain, ?_⟩
    intro u hu
    change update s.threadState t state u = .running at hu
    by_cases hut : u = t
    · subst hut
      rw [update_self] at hu
      exact absurd hu hallowed.ne_running
    · rw [update_of_ne hut] at hu
      exact hs.runs u hu
  | setProcess p state =>
    cases h
    exact ⟨hs.plain, hs.runs⟩

theorem NoneTerminated.apply {event : Event} (hintact : Intact s) (hs : NoneTerminated s)
    (hplain : Plain s) (hallowed : event.Allowed) (h : s.apply event = some s') :
    Intact s' ∧ NoneTerminated s' := by
  cases event with
  | schedule time =>
    obtain ⟨s₁, hs₁, hcalm⟩ := schedule_returns hplain hintact hs time
    obtain rfl := Option.mem_unique hs₁ h
    exact hcalm
  | setThread t state sleepUntil =>
    cases h
    refine ⟨hintact, ?_⟩
    intro p hp
    refine ⟨(hs p hp).1, ?_⟩
    intro u hu
    show update s.threadState t state u ≠ _
    rw [update_apply]
    split
    · exact hallowed.ne_terminated
    · exact (hs p hp).2 u hu
  | setProcess p state =>
    cases h
    refine ⟨hintact, ?_⟩
    intro q hq
    refine ⟨?_, (hs q hq).2⟩
    show update s.processState p state q ≠ _
    rw [update_apply]
    split
    · exact hallowed.ne_terminated
    · exact (hs q hq).1

theorem disciplined_of_reachable {start : Custom} (hplain : Plain start)
    (hnone : ∀ t, start.threadState t ≠ .running) (h : (runsFrom start).Reachable s) :
    Disciplined s := by
  refine System.Reachable.invariant ?_ ?_ h
  · rintro _ rfl
    exact ⟨hplain, fun t ht => absurd ht (hnone t)⟩
  · rintro s event s' hs ⟨hallowed, hstep⟩
    exact hs.apply hallowed hstep

theorem noneTerminated_of_reachable {start : Custom} (hplain : Plain start)
    (hnone : ∀ t, start.threadState t ≠ .running) (hintact : Intact start)
    (hstart : NoneTerminated start) (h : (runsFrom start).Reachable s) :
    Intact s ∧ NoneTerminated s := by
  induction h with
  | init heq =>
    obtain rfl := heq
    exact ⟨hintact, hstart⟩
  | step hreachable hstep ih =>
    exact NoneTerminated.apply ih.1 ih.2
      (disciplined_of_reachable hplain hnone hreachable).plain hstep.1 hstep.2

/-- **State discipline.** Over every run from a state in which no thread is
    running, each call of `Schedule` makes current the idle thread or a thread
    with affinity that was ready when it was selected, and this is then the only
    running thread. If nothing is terminated at the start, every call returns. -/
theorem schedule_discipline {start s : Custom} (hplain : Plain start)
    (hnone : ∀ t, start.threadState t ≠ .running) (h : (runsFrom start).Reachable s)
    (time : Thread → Nat) :
    (∀ s', s.schedule time = some s' → ∃ mid found t, s.select time = some (mid, found) ∧
      s'.currentThread = some t ∧
      (t = s.idleThread ∨ s.affinity t = true ∧ mid.threadState t = .ready) ∧
      ∀ u, s'.threadState u = .running ↔ u = t) ∧
    (Intact start → NoneTerminated start → ∃ s', s.schedule time = some s') := by
  have hs := disciplined_of_reachable hplain hnone h
  refine ⟨?_, ?_⟩
  · intro s' hs'
    obtain ⟨mid, found, hselect, rfl⟩ := schedule_cases hs.plain hs'
    have hrunning := switchTo_running (select_none_running hs.runs hselect)
      (found.getD (mid.idleProcess, mid.idleThread))
    obtain ⟨hkeeps, -, hfound⟩ := select_spec hselect
    refine ⟨mid, found, _, hselect, rfl, ?_, hrunning⟩
    cases found with
    | none => exact Or.inl hkeeps.idleThread
    | some next =>
      have heligible := hfound next.1 next.2 rfl
      rw [eligible, Bool.and_eq_true, decide_eq_true_iff, hkeeps.affinity] at heligible
      exact Or.inr ⟨heligible.2, heligible.1⟩
  · intro hintact hterminated
    obtain ⟨hintact, hcalm⟩ := noneTerminated_of_reachable hplain hnone hintact hterminated h
    obtain ⟨s', hs', -⟩ := schedule_returns hs.plain hintact hcalm time
    exact ⟨s', hs'⟩

/-- The idle process with thread 0, and a process with the threads 1 and 2, of
    which 2 has no affinity. -/
def twoProcesses : Custom where
  processVector := ⟨[0, 1], []⟩
  threadVector := fun p => ⟨if p = 0 then [0] else if p = 1 then [1, 2] else [], []⟩
  childVector := fun _ => ⟨[], []⟩
  parent := fun _ => none
  threadParent := fun t => if t = 0 then 0 else 1
  affinity := fun t => t ≠ 2
  processState := fun _ => .ready
  threadState := fun _ => .ready
  sleepUntil := fun _ => 0
  currentProcess := none
  currentThread := none
  idleProcess := 0
  idleThread := 0
  stopScheduler := false
  schedulerUpdateTrapFrame := false
  deletedProcesses := []
  deletedThreads := []
  stackDepth := 16

theorem twoProcesses_noneTerminated : NoneTerminated twoProcesses := by
  have hready : TaskState.ready ≠ .terminated := by decide
  exact fun p _ => ⟨hready, fun t _ => hready⟩

/-- A run in which thread 0 is blocked before the first call. -/
theorem schedule_discipline_blocked :
    ∃ s s' mid found, (runsFrom twoProcesses).Reachable s ∧ s.schedule (fun _ => 5) = some s' ∧
      s.select (fun _ => 5) = some (mid, found) ∧ s'.currentThread = some 1 ∧
      mid.threadState 1 = .ready ∧ ∀ u, s'.threadState u = .running ↔ u = 1 := by
  have hstart : (runsFrom twoProcesses).Reachable twoProcesses := .init rfl
  have hblocked : Settable .blocked := by
    unfold Settable
    decide
  have hreachable := hstart.step
    (show (runsFrom twoProcesses).step _ (.setThread 0 .blocked 0) _ from ⟨hblocked, rfl⟩)
  have hready : TaskState.ready ≠ .running := by decide
  obtain ⟨hcall, hreturns⟩ := schedule_discipline ⟨rfl, rfl⟩ (fun _ => hready) hreachable
    fun _ => 5
  obtain ⟨s', hs'⟩ := hreturns ⟨rfl, rfl⟩ twoProcesses_noneTerminated
  obtain ⟨mid, found, t, hmid, ht, hchosen, hrunning⟩ := hcall s' hs'
  have hct : s'.currentThread = some 1 := by
    have heval := congrArg (Option.map currentThread) hs'
    exact (Option.some.inj heval).symm
  obtain rfl : 1 = t := Option.mem_unique hct ht
  obtain hidle | ⟨-, hready⟩ := hchosen
  · exact absurd hidle (by decide)
  · exact ⟨_, s', mid, found, hreachable, hs', hmid, hct, hready, hrunning⟩

theorem search_ne_none (hintact : Intact s) (hnone : NoneTerminated s) (hp : p ∈ s.processList)
    (hready : s.processState p = .ready) (ht : t ∈ s.threads p) (heligible : s.eligible t = true) :
    s.search ≠ some (s, none) := by
  intro hsearch
  have hlast : s.schedulerSearchProcessThread = none := by
    unfold search at hsearch
    split at hsearch
    · rw [hintact.1, if_neg List.not_mem_nil, Option.some.injEq, Prod.mk.injEq,
        Option.or_eq_none_iff, Option.or_eq_none_iff] at hsearch
      exact hsearch.2.2.2
    · rw [findNewProcess_returns hintact hnone, Option.some.injEq, Prod.mk.injEq] at hsearch
      exact hsearch.2
  have hfirst := List.findSome?_eq_none_iff.mp hlast p hp
  rw [firstThread, if_pos hready, Option.map_eq_none_iff] at hfirst
  exact List.find?_eq_none.mp hfirst t ht heligible

/-- **No idling.** Over every run without terminated tasks, a call of `Schedule` goes to a
    thread that can run if a process that is ready has one. -/
theorem schedule_does_not_idle {start : Custom} (hplain : Plain start)
    (hrunning : ∀ t, start.threadState t ≠ .running) (hintact : Intact start)
    (hstart : NoneTerminated start) (h : (runsFrom start).Reachable s)
    (hcall : s.schedule time = some s') :
    ∃ mid, s.prepare time = some mid ∧
      ((∃ p ∈ mid.processList, mid.processState p = .ready ∧
        ∃ t ∈ mid.threads p, mid.eligible t = true) →
      ∃ t, s'.currentThread = some t ∧ mid.eligible t = true) := by
  obtain ⟨hintact, hnone⟩ := noneTerminated_of_reachable hplain hrunning hintact hstart h
  obtain ⟨mid, hmid, hsettles⟩ := prepare_settles hintact hnone time
  refine ⟨mid, hmid, fun ⟨p, hp, hready, t, ht, heligible⟩ => ?_⟩
  have hintact' := hsettles.intact hintact
  have hnone' := hsettles.noneTerminated hnone
  obtain ⟨found, hsearch⟩ := search_returns hintact' hnone'
  rw [schedule_eq (disciplined_of_reachable hplain hrunning h).plain, select, hmid,
    Option.bind_some, hsearch, Option.bind_some, hintact'.dispatch, Option.some.injEq] at hcall
  cases found with
  | none => exact absurd hsearch (search_ne_none hintact' hnone' hp hready ht heligible)
  | some next => exact ⟨next.2, hcall ▸ rfl, (search_spec hsearch).2 next.1 next.2 rfl⟩

/-- With all threads ready the first call finds one that is. -/
theorem schedule_does_not_idle_first :
    ∃ s', twoProcesses.schedule (fun _ => 5) = some s' ∧
      ∃ t, s'.currentThread = some t ∧ twoProcesses.eligible t = true := by
  have hrunning : TaskState.ready ≠ .running := by decide
  have hstart : (runsFrom twoProcesses).Reachable twoProcesses := .init rfl
  have hcall : twoProcesses.schedule (fun _ => 5) = some _ := rfl
  obtain ⟨mid, hmid, hfinds⟩ := schedule_does_not_idle ⟨rfl, rfl⟩ (fun _ => hrunning) ⟨rfl, rfl⟩
    twoProcesses_noneTerminated hstart hcall
  cases hmid
  exact ⟨_, hcall, hfinds ⟨0, by decide, rfl, 0, by decide, rfl⟩⟩

end Fennix.Tasking.Custom
