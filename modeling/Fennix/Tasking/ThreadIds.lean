import Fennix.Tasking.Tasks
import Mathlib.Data.BitVec
import Mathlib.Data.List.Nodup

/-! # The IDs of threads

    The constructor of `TCB` in `Kernel/tasking/thread.cpp` gives a thread the ID of its
    process plus the number of threads that the process has. `~TCB` takes the thread out
    of them, so the number comes again, and with it the ID.

    - `History`: how many threads there were when a thread was created, without any ID.
    - `Follows.run`: the IDs are those that the history gives.
    - `living_ids_distinct_iff`: no two threads that live have the same ID exactly if no
      thread is created next to one that was created with as many others.
-/

namespace Fennix.Tasking

open Function (update)

/-! ## Section 1: Creating and destroying -/

/-- The tasks with their IDs. `PID` and `TID` are both `pid_t`. -/
structure NumberedTasks where
  tasks : Custom
  processId : Process → BitVec 32
  threadId : Thread → BitVec 32

namespace NumberedTasks

/-- What the constructor of `TCB` does with the process: the ID is computed at its
    beginning, the thread is put into `Threads` at its end. -/
def createThread (s : NumberedTasks) (p : Process) (t : Thread) (threadNotReady : Bool) :
    NumberedTasks :=
  let threads := s.tasks.threads p ++ [t]
  { s with
    threadId := update s.threadId t (s.processId p + BitVec.ofNat 32 (s.tasks.threads p).length)
    tasks :=
      { s.tasks with
        threadParent := update s.tasks.threadParent t p
        threadVector := update s.tasks.threadVector p ⟨threads, (s.tasks.threadVector p).behind.tail⟩
        processState :=
          if threads.length = 1 ∧ s.tasks.processState p = .waiting ∧ threadNotReady = false then
            update s.tasks.processState p .ready
          else s.tasks.processState } }

/-- A thread of a process is created or destroyed. -/
inductive Event where
  | create (t : Thread) (threadNotReady : Bool)
  | destroy (t : Thread)
  deriving DecidableEq

/-- One event in a process. A new thread is no other object, and what is destroyed is a
    thread of the process. -/
def step (p : Process) (s : NumberedTasks) : Event → Option NumberedTasks
  | .create t threadNotReady =>
    if s.tasks.freed p t ∨ t ∈ s.tasks.threads p then none
    else some (s.createThread p t threadNotReady)
  | .destroy t =>
    if t ∈ s.tasks.threads p then
      (s.tasks.deleteThread t).map fun tasks => { s with tasks := tasks }
    else none

/-- A sequence of events in a process. -/
def run (p : Process) (s : NumberedTasks) (events : List Event) : Option NumberedTasks :=
  events.foldlM (step p) s

/-- The IDs of the threads of a process are pairwise distinct. -/
def DistinctIds (s : NumberedTasks) (p : Process) : Prop :=
  ((s.tasks.threads p).map s.threadId).Nodup

instance (s : NumberedTasks) (p : Process) : Decidable (s.DistinctIds p) :=
  inferInstanceAs (Decidable (List.Nodup _))

/-! ## Section 2: The history of a process -/

/-- The threads that live, and for each how many others there were when it was created. -/
structure History where
  living : List Thread
  others : Thread → Nat

namespace History

/-- What an event adds to the history. -/
def next (h : History) : Event → History
  | .create t _ => ⟨h.living ++ [t], update h.others t h.living.length⟩
  | .destroy t => ⟨h.living.erase t, h.others⟩

/-- The history of a process that starts without threads. -/
def of (events : List Event) : History := events.foldl next ⟨[], fun _ => 0⟩

@[simp] theorem of_append (events : List Event) (e : Event) :
    of (events ++ [e]) = (of events).next e := by
  simp [of]

/-- No two threads that live were created with the same number of others, as far as 32
    bits can tell. -/
def Distinct (h : History) : Prop := (h.living.map fun t => h.others t % 2 ^ 32).Nodup

variable {h : History} {t : Thread}

theorem Distinct.destroy (hdistinct : h.Distinct) (t : Thread) : (h.next (.destroy t)).Distinct :=
  (hdistinct.sublist (List.erase_sublist.map _))

theorem distinct_create (ht : t ∉ h.living) (b : Bool) :
    (h.next (.create t b)).Distinct ↔
      h.Distinct ∧ ∀ u ∈ h.living, h.others u % 2 ^ 32 ≠ h.living.length % 2 ^ 32 := by
  have hsame : (h.living.map fun u => update h.others t h.living.length u % 2 ^ 32) =
      h.living.map fun u => h.others u % 2 ^ 32 := by
    refine List.map_congr_left fun u hu => ?_
    have hne : u ≠ t := fun heq => ht (heq ▸ hu)
    simp [hne]
  simp only [Distinct, next, List.map_append, List.map_cons, List.map_nil, hsame,
    Function.update_self, List.nodup_append, List.nodup_singleton, true_and, List.mem_singleton,
    List.forall_mem_map, forall_eq]

end History

/-! ## Section 3: The IDs follow the history -/

/-- The process has the threads of the history, and their IDs are counted from its own. -/
structure Follows (p : Process) (s : NumberedTasks) (h : History) : Prop where
  threads : s.tasks.threads p = h.living
  nodup : h.living.Nodup
  parent : ∀ t ∈ h.living, s.tasks.threadParent t = p
  id : ∀ t ∈ h.living, s.threadId t = s.processId p + BitVec.ofNat 32 (h.others t)

namespace Follows

variable {p : Process} {s s' : NumberedTasks} {h : History} {t : Thread} {e : Event}

theorem createThread (hf : Follows p s h) (ht : t ∉ h.living) (b : Bool) :
    Follows p (s.createThread p t b) (h.next (.create t b)) := by
  have hne : ∀ u ∈ h.living, u ≠ t := fun u hu heq => ht (heq ▸ hu)
  refine ⟨?_, ?_, fun u hu => ?_, fun u hu => ?_⟩
  · simp [NumberedTasks.createThread, History.next, Custom.threads, ← hf.threads]
  · exact List.nodup_append.mpr ⟨hf.nodup, List.nodup_singleton t, by simpa using hne⟩
  · obtain hu | hu := List.mem_append.mp hu
    · simp [NumberedTasks.createThread, hne u hu, hf.parent u hu]
    · simp [NumberedTasks.createThread, List.mem_singleton.mp hu]
  · obtain hu | hu := List.mem_append.mp hu
    · simp [NumberedTasks.createThread, History.next, hne u hu, hf.id u hu]
    · simp [NumberedTasks.createThread, History.next, List.mem_singleton.mp hu, hf.threads]

theorem deleteThread {tasks : Custom} (hf : Follows p s h) (ht : t ∈ h.living)
    (hdelete : s.tasks.deleteThread t = some tasks) :
    Follows p { s with tasks := tasks } (h.next (.destroy t)) := by
  simp only [Custom.deleteThread, hf.parent t ht, Option.ite_none_left_eq_some,
    Option.map_eq_some_iff] at hdelete
  obtain ⟨-, v, herase, rfl⟩ := hdelete
  have helements : v.elements = h.living.erase t := by
    rw [Std.Vector.eraseFind, Std.Vector.erase] at herase
    obtain ⟨last, -, rfl⟩ := Option.map_eq_some_iff.mp herase
    have hlt := List.idxOf_lt_length_iff.mpr (hf.threads ▸ ht)
    rw [List.erase_eq_eraseIdx_of_idxOf rfl, ← hf.threads]
    exact if_pos hlt
  have hsub : ∀ u ∈ h.living.erase t, u ∈ h.living := fun u => List.mem_of_mem_erase
  refine ⟨?_, hf.nodup.erase t, fun u hu => hf.parent u (hsub u hu), fun u hu => hf.id u (hsub u hu)⟩
  simp [Custom.threads, History.next, helements]

theorem step (hf : Follows p s h) (hstep : s.step p e = some s') : Follows p s' (h.next e) := by
  cases e with
  | create t b =>
    simp only [NumberedTasks.step, Option.ite_none_left_eq_some, not_or] at hstep
    obtain ⟨⟨-, ht⟩, hs'⟩ := hstep
    cases hs'
    exact hf.createThread (hf.threads ▸ ht) b
  | destroy t =>
    simp only [NumberedTasks.step, Option.ite_none_right_eq_some, Option.map_eq_some_iff] at hstep
    obtain ⟨ht, tasks, hdelete, rfl⟩ := hstep
    exact hf.deleteThread (hf.threads ▸ ht) hdelete

theorem run {events : List Event} (hnew : s.tasks.threads p = [])
    (hrun : s.run p events = some s') : Follows p s' (History.of events) := by
  induction events using List.reverseRecOn generalizing s' with
  | nil =>
    cases hrun
    exact ⟨hnew, List.nodup_nil, by simp [History.of], by simp [History.of]⟩
  | append_singleton events e ih =>
    simp only [NumberedTasks.run, List.foldlM_append, List.foldlM_cons, List.foldlM_nil] at hrun
    obtain ⟨mid, hmid, hlast⟩ := Option.bind_eq_some_iff.mp hrun
    rw [History.of_append]
    exact (ih hmid).step (by simpa using hlast)

theorem distinctIds_iff (hf : Follows p s h) : s.DistinctIds p ↔ h.Distinct := by
  have hsame : ∀ t ∈ h.living, ∀ u ∈ h.living,
      (s.threadId t = s.threadId u ↔ h.others t % 2 ^ 32 = h.others u % 2 ^ 32) := by
    intro t ht u hu
    rw [hf.id t ht, hf.id u hu, BitVec.add_right_inj, ← BitVec.toNat_inj, BitVec.toNat_ofNat,
      BitVec.toNat_ofNat]
  rw [DistinctIds, hf.threads, History.Distinct, List.nodup_map_iff_inj_on hf.nodup,
    List.nodup_map_iff_inj_on hf.nodup]
  constructor
  · intro hinj t ht u hu heq
    exact hinj t ht u hu ((hsame t ht u hu).mpr heq)
  · intro hinj t ht u hu heq
    exact hinj t ht u hu ((hsame t ht u hu).mp heq)

end Follows

/-! ## Section 4: Threads that live at the same time -/

section runs

variable {p : Process} {s s' : NumberedTasks} {events before after : List Event}

theorem run_append (hrun : s.run p (before ++ after) = some s') :
    ∃ mid, s.run p before = some mid ∧ mid.run p after = some s' := by
  rw [run, List.foldlM_append] at hrun
  exact Option.bind_eq_some_iff.mp hrun

theorem not_living_of_create {t : Thread} {b : Bool} (hnew : s.tasks.threads p = [])
    (hrun : s.run p (before ++ .create t b :: after) = some s') :
    t ∉ (History.of before).living := by
  obtain ⟨mid, hmid, hrest⟩ := run_append hrun
  obtain ⟨next, hstep, -⟩ := Option.bind_eq_some_iff.mp hrest
  simp only [step, Option.ite_none_left_eq_some, not_or] at hstep
  exact (Follows.run hnew hmid).threads ▸ hstep.1.2

theorem distinct_iff_creations (hnew : s.tasks.threads p = []) (hrun : s.run p events = some s') :
    (∀ before after, events = before ++ after → (History.of before).Distinct) ↔
      ∀ before t b after, events = before ++ .create t b :: after →
        ∀ u ∈ (History.of before).living,
          (History.of before).others u % 2 ^ 32 ≠ (History.of before).living.length % 2 ^ 32 := by
  constructor
  · intro hall before t b after heq
    have ht := not_living_of_create hnew (heq ▸ hrun)
    have hdistinct := hall (before ++ [.create t b]) after (by simpa using heq)
    rw [History.of_append, History.distinct_create ht] at hdistinct
    exact hdistinct.2
  · intro hcreations before
    -- the beginnings get longer by one event
    induction before using List.reverseRecOn with
    | nil => simp [History.of, History.Distinct]
    | append_singleton before e ih =>
      intro after heq
      have heq : events = before ++ e :: after := by simpa using heq
      have hdistinct := ih (e :: after) heq
      rw [History.of_append]
      cases e with
      | create t b =>
        have ht := not_living_of_create hnew (heq ▸ hrun)
        exact (History.distinct_create ht b).mpr ⟨hdistinct, hcreations before t b after heq⟩
      | destroy t => exact hdistinct.destroy t

end runs

/-- In every sequence of creations and destructions in a process, the IDs of the threads
    that live are pairwise distinct at each time exactly if no thread is created while one
    lives that was created with as many other threads. -/
theorem living_ids_distinct_iff (p : Process) (s s' : NumberedTasks) (events : List Event)
    (hnew : s.tasks.threads p = []) (hrun : s.run p events = some s') :
    (∀ before after mid, events = before ++ after → s.run p before = some mid →
        mid.DistinctIds p) ↔
      ∀ before t threadNotReady after, events = before ++ .create t threadNotReady :: after →
        ∀ u ∈ (History.of before).living,
          (History.of before).others u % 2 ^ 32 ≠ (History.of before).living.length % 2 ^ 32 := by
  rw [← distinct_iff_creations hnew hrun]
  constructor
  · intro hids before after heq
    obtain ⟨mid, hmid, -⟩ := run_append (heq ▸ hrun)
    exact (Follows.run hnew hmid).distinctIds_iff.mp (hids before after mid heq hmid)
  · intro hall before after mid heq hmid
    exact (Follows.run hnew hmid).distinctIds_iff.mpr (hall before after heq)

/-- A process with the ID 100 and no threads. -/
def newProcess : NumberedTasks where
  tasks :=
    { processVector := ⟨[1], []⟩
      threadVector := fun _ => ⟨[], []⟩
      childVector := fun _ => ⟨[], []⟩
      parent := fun _ => none
      threadParent := fun _ => 0
      affinity := fun _ => true
      processState := fun _ => .waiting
      threadState := fun _ => .ready
      sleepUntil := fun _ => 0
      currentProcess := none
      currentThread := none
      idleProcess := 0
      idleThread := 0
      stopScheduler := false
      schedulerUpdateTrapFrame := false
      deletedProcesses := []
      deletedThreads := []
      stackDepth := 8 }
  processId := fun _ => 100
  threadId := fun _ => 0

/-- The second of two threads is replaced. -/
theorem living_ids_distinct_iff_last :
    ∃ s', newProcess.run 1 [.create 7 false, .create 8 false, .destroy 8, .create 9 false] =
        some s' ∧
      ((∀ before after mid,
          [.create 7 false, .create 8 false, .destroy 8, .create 9 false] = before ++ after →
          newProcess.run 1 before = some mid → mid.DistinctIds 1) ↔
        ∀ before t threadNotReady after,
          [.create 7 false, .create 8 false, .destroy 8, .create 9 false] =
            before ++ .create t threadNotReady :: after →
          ∀ u ∈ (History.of before).living,
            (History.of before).others u % 2 ^ 32 ≠ (History.of before).living.length % 2 ^ 32) :=
  ⟨_, rfl, living_ids_distinct_iff 1 newProcess _ _ rfl rfl⟩

/-- The first of two threads is destroyed and another one created: the two that live have
    the ID 101. -/
theorem two_threads_one_id :
    ∃ s', newProcess.run 1 [.create 7 false, .create 8 false, .destroy 7, .create 9 false] =
        some s' ∧
      s'.tasks.threads 1 = [8, 9] ∧ s'.threadId 8 = 101 ∧ s'.threadId 9 = 101 ∧
      ¬ s'.DistinctIds 1 :=
  ⟨_, rfl, rfl, rfl, rfl, by decide⟩

end NumberedTasks

end Fennix.Tasking
