import Fennix.Std.Vector
import Mathlib.Logic.Function.Basic

/-! # Tasks

    The processes and threads of the scheduler in
    `Kernel/tasking/scheduler/custom.cpp`, and how they are deleted: `PopProcess`
    and `RemoveProcess` there, `PCB::~PCB` in `Kernel/tasking/process.cpp` and
    `TCB::~TCB` in `Kernel/tasking/thread.cpp`.

    A destructor takes its object out of the vectors that hold it, while loops over
    these vectors are under way. The model notes what has been deleted; an access
    to a deleted object has no result, nor has a destructor that calls destructors
    deeper than the stack allows. A destructor frees other things as well, which no
    task state depends on.
-/

namespace Fennix.Tasking

open Function (update)

/-! ## Section 1: Tasks -/

/-- `enum TaskState`. -/
inductive TaskState where
  | unknownStatus
  | ready
  | running
  | sleeping
  | blocked
  | stopped
  | waiting
  | zombie
  | coreDump
  | terminated
  | frozen
  deriving DecidableEq

/-- A `PCB *`. -/
abbrev Process := Nat

/-- A `TCB *`. -/
abbrev Thread := Nat

/-- The scheduler with its tasks. `affinity` is the one for the CPU. -/
structure Custom where
  processVector : Std.Vector Process
  threadVector : Process → Std.Vector Thread
  childVector : Process → Std.Vector Process
  parent : Process → Option Process
  threadParent : Thread → Process
  affinity : Thread → Bool
  processState : Process → TaskState
  threadState : Thread → TaskState
  sleepUntil : Thread → Nat
  currentProcess : Option Process
  currentThread : Option Thread
  idleProcess : Process
  idleThread : Thread
  stopScheduler : Bool
  schedulerUpdateTrapFrame : Bool
  /-- The tasks that have been deleted, in this order. -/
  deletedProcesses : List Process
  deletedThreads : List Thread
  /-- How deep calls of `~PCB` can be nested. -/
  stackDepth : Nat

namespace Custom

/-- `ProcessList`. -/
abbrev processList (s : Custom) : List Process := s.processVector.elements

/-- `Threads` of a process. -/
abbrev threads (s : Custom) (p : Process) : List Thread := (s.threadVector p).elements

/-- `Children` of a process. -/
abbrev children (s : Custom) (p : Process) : List Process := (s.childVector p).elements

/-- One of the two has been deleted. -/
def freed (s : Custom) (p : Process) (t : Thread) : Bool :=
  p ∈ s.deletedProcesses ∨ t ∈ s.deletedThreads

/-! ## Section 2: Deleting -/

/-- `PopProcess`. -/
def popProcess (s : Custom) (p : Process) : Option Custom :=
  if p ∈ s.processList then
    (s.processVector.eraseFind p).map fun v => { s with processVector := v }
  else some s

/-- `delete` of a thread, with `~TCB`. -/
def deleteThread (s : Custom) (t : Thread) : Option Custom :=
  let p := s.threadParent t
  if s.freed p t then none
  else
    ((s.threadVector p).eraseFind t).map fun v =>
      { s with
        threadVector := update s.threadVector p v
        deletedThreads := s.deletedThreads ++ [t] }

/-- The end of `~PCB`: the process is taken out of the children of its parent. -/
def leaveParent (s : Custom) (p : Process) : Option Custom :=
  match s.parent p with
  | none => some s
  | some q =>
    if q ∈ s.deletedProcesses then none
    else
      ((s.childVector q).eraseFind p).map fun v =>
        { s with childVector := update s.childVector q v }

/-- `delete` of a process, with `~PCB`. -/
def deleteProcess : Nat → Custom → Process → Option Custom
  | 0, _, _ => none
  | depth + 1, s, p =>
    if p ∈ s.deletedProcesses then none
    else
      (s.popProcess p).bind fun s =>
        (Std.Vector.forEach (fun s => s.childVector p) (deleteProcess depth) s).bind fun s =>
          (Std.Vector.forEach (fun s => s.threadVector p) deleteThread s).bind fun s =>
            (s.leaveParent p).map fun s =>
              { s with deletedProcesses := s.deletedProcesses ++ [p] }

/-- The body of the loops over the threads of a process that is kept. -/
def removeThread (s : Custom) (t : Thread) : Option Custom :=
  if t ∈ s.deletedThreads then none
  else if s.threadState t = .terminated then s.deleteThread t
  else some s

/-- `RemoveProcess`, which is also the body of the loop of `CleanupTerminated`. -/
def removeProcess (s : Custom) (p : Process) : Option Custom :=
  if p ∈ s.deletedProcesses then none
  else if s.processState p = .terminated then deleteProcess s.stackDepth s p
  else Std.Vector.forEach (fun s => s.threadVector p) removeThread s

/-- `CleanupTerminated`. -/
def cleanupTerminated (s : Custom) : Option Custom :=
  Std.Vector.forEach processVector removeProcess s

/-! ## Section 3: What a deletion changes -/

/-- `s'` is `s` with other vectors and more deleted. -/
def Removes (s s' : Custom) : Prop :=
  ∃ pv tv cv dp dt, s' = { s with
    processVector := pv, threadVector := tv, childVector := cv
    deletedProcesses := dp, deletedThreads := dt }

theorem Removes.refl (s : Custom) : Removes s s :=
  ⟨s.processVector, s.threadVector, s.childVector, s.deletedProcesses, s.deletedThreads, rfl⟩

theorem Removes.trans {s s' s'' : Custom} (h : Removes s s') (h' : Removes s' s'') :
    Removes s s'' := by
  obtain ⟨_, _, _, _, _, rfl⟩ := h
  obtain ⟨pv, tv, cv, dp, dt, rfl⟩ := h'
  exact ⟨pv, tv, cv, dp, dt, rfl⟩

section Removes

variable {s s' : Custom} {p : Process} {t : Thread}

theorem popProcess_cases (h : s.popProcess p = some s') :
    ∃ v, v.elements.Sublist s.processList ∧ (s.processList.Nodup → p ∉ v.elements) ∧
      s' = { s with processVector := v } := by
  unfold popProcess at h
  split at h
  · next hmem =>
    obtain ⟨v, hv, rfl⟩ := Option.map_eq_some_iff.mp h
    exact ⟨v, (Std.Vector.erase_spec hv).1,
      fun hnodup => Std.Vector.not_mem_eraseFind hnodup hmem hv, rfl⟩
  · next hmem =>
    cases h
    exact ⟨s.processVector, List.Sublist.refl _, fun _ => hmem, rfl⟩

theorem deleteThread_cases (h : s.deleteThread t = some s') :
    ∃ v, (s.threadVector (s.threadParent t)).eraseFind t = some v ∧
      s' = { s with
        threadVector := update s.threadVector (s.threadParent t) v
        deletedThreads := s.deletedThreads ++ [t] } := by
  unfold deleteThread at h
  dsimp only at h
  split at h
  · cases h
  · obtain ⟨v, hv, rfl⟩ := Option.map_eq_some_iff.mp h
    exact ⟨v, hv, rfl⟩

theorem leaveParent_cases (h : s.leaveParent p = some s') :
    ∃ cv, s' = { s with childVector := cv } := by
  unfold leaveParent at h
  split at h
  · cases h
    exact ⟨s.childVector, rfl⟩
  · split at h
    · cases h
    · obtain ⟨v, -, rfl⟩ := Option.map_eq_some_iff.mp h
      exact ⟨_, rfl⟩

theorem deleteProcess_cases {depth : Nat} (h : deleteProcess depth s p = some s') :
    ∃ depth' s₁ s₂ s₃ s₄, depth = depth' + 1 ∧ p ∉ s.deletedProcesses ∧
      s.popProcess p = some s₁ ∧
      Std.Vector.forEach (fun s => s.childVector p) (deleteProcess depth') s₁ = some s₂ ∧
      Std.Vector.forEach (fun s => s.threadVector p) deleteThread s₂ = some s₃ ∧
      s₃.leaveParent p = some s₄ ∧
      s' = { s₄ with deletedProcesses := s₄.deletedProcesses ++ [p] } := by
  cases depth with
  | zero => cases h
  | succ depth =>
    unfold deleteProcess at h
    split at h
    · cases h
    · next hp =>
      obtain ⟨s₁, hpop, h⟩ := Option.bind_eq_some_iff.mp h
      obtain ⟨s₂, hchildren, h⟩ := Option.bind_eq_some_iff.mp h
      obtain ⟨s₃, hthreads, h⟩ := Option.bind_eq_some_iff.mp h
      obtain ⟨s₄, hparent, rfl⟩ := Option.map_eq_some_iff.mp h
      exact ⟨depth, s₁, s₂, s₃, s₄, rfl, hp, hpop, hchildren, hthreads, hparent, rfl⟩

theorem removeThread_cases (h : s.removeThread t = some s') :
    (s.threadState t ≠ .terminated ∧ s' = s) ∨
      (s.threadState t = .terminated ∧ s.deleteThread t = some s') := by
  unfold removeThread at h
  split at h
  · cases h
  · split at h
    · next hstate => exact .inr ⟨hstate, h⟩
    · next hstate => exact .inl ⟨hstate, (Option.some.inj h).symm⟩

/-- A relation of the states before and after the steps of a deletion. -/
structure OfDeletion (R : Custom → Custom → Prop) : Prop where
  refl : ∀ s, R s s
  trans : ∀ {s₁ s₂ s₃}, R s₁ s₂ → R s₂ s₃ → R s₁ s₃
  deleteThread : ∀ {s t s'}, s.deleteThread t = some s' → R s s'
  leaveParent : ∀ {s p s'}, s.leaveParent p = some s' → R s s'
  deleted : ∀ {s p s₁ s₂}, s.popProcess p = some s₁ → R s₁ s₂ →
    R s { s₂ with deletedProcesses := s₂.deletedProcesses ++ [p] }

namespace OfDeletion

variable {R : Custom → Custom → Prop} (hR : OfDeletion R)

include hR

theorem forEach {α : Type} {get : Custom → Std.Vector α} {body : Custom → α → Option Custom}
    (hbody : ∀ {s a s'}, body s a = some s' → R s s')
    (h : Std.Vector.forEach get body s = some s') : R s s' :=
  Std.Vector.forEach_rel hR.refl hR.trans hbody h

theorem deleteProcess {depth : Nat} (h : Custom.deleteProcess depth s p = some s') : R s s' := by
  induction depth generalizing s p s' with
  | zero => cases h
  | succ depth ih =>
    obtain ⟨_, s₁, s₂, s₃, s₄, hdepth, -, hpop, hchildren, hthreads, hparent, rfl⟩ :=
      deleteProcess_cases h
    cases hdepth
    refine hR.deleted hpop (hR.trans (hR.forEach ih hchildren) ?_)
    exact hR.trans (hR.forEach hR.deleteThread hthreads) (hR.leaveParent hparent)

theorem removeProcess (h : s.removeProcess p = some s') : R s s' := by
  unfold Custom.removeProcess at h
  split at h
  · cases h
  · split at h
    · exact hR.deleteProcess h
    · refine hR.forEach ?_ h
      intro s t s' hturn
      obtain ⟨-, rfl⟩ | ⟨-, hdelete⟩ := removeThread_cases hturn
      · exact hR.refl _
      · exact hR.deleteThread hdelete

theorem cleanupTerminated (h : s.cleanupTerminated = some s') : R s s' :=
  hR.forEach hR.removeProcess h

end OfDeletion

theorem ofDeletion_removes : OfDeletion Removes where
  refl := Removes.refl
  trans := Removes.trans
  deleteThread := by
    intro s t s' h
    obtain ⟨v, -, rfl⟩ := deleteThread_cases h
    exact ⟨s.processVector, _, s.childVector, s.deletedProcesses, _, rfl⟩
  leaveParent := by
    intro s p s' h
    obtain ⟨cv, rfl⟩ := leaveParent_cases h
    exact ⟨s.processVector, s.threadVector, cv, s.deletedProcesses, s.deletedThreads, rfl⟩
  deleted := by
    intro s p s₁ s₂ hpop h
    obtain ⟨v, -, -, rfl⟩ := popProcess_cases hpop
    obtain ⟨pv, tv, cv, dp, dt, rfl⟩ := h
    exact ⟨pv, tv, cv, _, dt, rfl⟩

end Removes

/-! ## Section 4: Nothing to delete -/

/-- Nothing has been deleted. -/
def Intact (s : Custom) : Prop := s.deletedProcesses = [] ∧ s.deletedThreads = []

/-- No task of the list is terminated. -/
def NoneTerminated (s : Custom) : Prop :=
  ∀ p ∈ s.processList, s.processState p ≠ .terminated ∧
    ∀ t ∈ s.threads p, s.threadState t ≠ .terminated

section Intact

variable {s : Custom} {p : Process}

theorem Intact.freed (h : Intact s) (p : Process) (t : Thread) : s.freed p t = false := by
  rw [Custom.freed, h.1, h.2]
  simp

theorem Intact.removeProcess (hintact : Intact s) (hprocess : s.processState p ≠ .terminated)
    (hthreads : ∀ t ∈ s.threads p, s.threadState t ≠ .terminated) :
    s.removeProcess p = some s := by
  rw [Custom.removeProcess, hintact.1, if_neg List.not_mem_nil, if_neg hprocess]
  apply Std.Vector.forEach_of_unchanged
  intro t ht
  rw [removeThread, hintact.2, if_neg List.not_mem_nil, if_neg (hthreads t ht)]

theorem Intact.cleanupTerminated (hintact : Intact s) (hnone : NoneTerminated s) :
    s.cleanupTerminated = some s := by
  apply Std.Vector.forEach_of_unchanged
  intro p hp
  exact hintact.removeProcess (hnone p hp).1 (hnone p hp).2

end Intact

end Custom

end Fennix.Tasking
