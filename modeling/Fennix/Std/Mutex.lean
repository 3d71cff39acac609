import Fennix.Framework.System
import Mathlib.Data.List.Nodup
import Mathlib.Logic.Function.Basic

/-! # Mutexes

    `mutex` of `Kernel/include_std/mutex` and `Kernel/library/std/mutex.cpp`: `lock`,
    `try_lock` and `unlock`, one access at a time, by any number of threads.

    A call of `lock` that finds the mutex locked puts its thread into `Waiting`, blocks it
    and yields, in three steps. `unlock` stores that the mutex is free and then unblocks
    the first thread in `Waiting`, if there is one.

    - `Sound`: what holds as long as no thread runs between the steps of such a call of
      `lock` or of the end of `unlock`.
    - `run_lost`: two threads are enough for a thread that nobody unblocks.
    - `lost_wakeup_iff`: when no wake-up is lost.
    - `mutex_exclusive`: at most one thread has the mutex.
-/

namespace Fennix.Std.Mutex

open Function (update update_apply)

/-! ## Section 1: The steps of a thread -/

/-- The next access of a thread. `trying` if the exchange is the one of `try_lock`. -/
inductive Pc (Thread : Type*) where
  | outside
  | exchange (trying : Bool)
  | pushBack
  | block
  | yield
  | setHolder
  | remove
  | clearHolder
  | storeUnlocked
  | testEmpty
  | front
  | popFront (next : Thread)
  | unblock (next : Thread)
  deriving DecidableEq

/-- The mutex, where each thread is, and whether its state is `Blocked`. -/
structure State (Thread : Type*) where
  locked : Bool
  waiting : List Thread
  holder : Option Thread
  pc : Thread → Pc Thread
  blocked : Thread → Bool

namespace State

variable {Thread : Type*} [DecidableEq Thread]

/-- The thread goes on at `next`. -/
def goTo (s : State Thread) (t : Thread) (next : Pc Thread) : State Thread :=
  { s with pc := update s.pc t next }

/-- One access of `lock`, `try_lock` or `unlock`. A thread that is blocked does not run, and
    the list is not empty where its front is taken. -/
def access (s : State Thread) (t : Thread) : Pc Thread → Option (State Thread)
  | .outside => none
  | .exchange trying =>
    some ({ s with locked := true }.goTo t
      (if s.locked then if trying then .outside else .pushBack else .setHolder))
  | .pushBack => some ({ s with waiting := s.waiting ++ [t] }.goTo t .block)
  | .block => some ({ s with blocked := update s.blocked t true }.goTo t .yield)
  | .yield => if s.blocked t then none else some (s.goTo t (.exchange false))
  | .setHolder => some ({ s with holder := some t }.goTo t .remove)
  | .remove => some ({ s with waiting := s.waiting.filter (· ≠ t) }.goTo t .outside)
  | .clearHolder => some ({ s with holder := none }.goTo t .storeUnlocked)
  | .storeUnlocked => some ({ s with locked := false }.goTo t .testEmpty)
  | .testEmpty => some (s.goTo t (if s.waiting = [] then .outside else .front))
  | .front => s.waiting.head?.map fun next => s.goTo t (.popFront next)
  | .popFront next =>
    if s.waiting = [] then none
    else some ({ s with waiting := s.waiting.tail }.goTo t (.unblock next))
  | .unblock next => some ({ s with blocked := update s.blocked next false }.goTo t .outside)

/-- No thread has used the mutex. -/
def new : State Thread :=
  { locked := false
    waiting := []
    holder := none
    pc := fun _ => .outside
    blocked := fun _ => false }

/-- The mutex is free, no thread is in a call except those that are blocked, and there is
    such a thread. -/
def Lost (s : State Thread) : Prop :=
  s.locked = false ∧ (∀ t, s.pc t = .outside ∨ s.blocked t = true) ∧ ∃ t, s.blocked t = true

end State

/-- What a thread does: call one of the functions, or its next access. -/
inductive Action (Thread : Type*) where
  | lock (t : Thread)
  | tryLock (t : Thread)
  | unlock (t : Thread)
  | access (t : Thread)

/-- The effect of an action. `unlock` is called by the holder. -/
def act {Thread : Type*} [DecidableEq Thread] (s : State Thread) : Action Thread → Option (State Thread)
  | .lock t => if s.pc t = .outside then some (s.goTo t (.exchange false)) else none
  | .tryLock t => if s.pc t = .outside then some (s.goTo t (.exchange true)) else none
  | .unlock t =>
    if s.pc t = .outside ∧ s.holder = some t then some (s.goTo t .clearHolder) else none
  | .access t => s.access t (s.pc t)

/-- Any number of threads that use the mutex, in any order. -/
def mutexSystem (Thread : Type*) [DecidableEq Thread] : System (State Thread) (Action Thread) where
  init := fun s => s = .new
  step := fun s action s' => act s action = some s'

/-! ## Section 2: Calls that are not disturbed -/

variable {Thread : Type*}

/-- The thread has found the mutex locked and is not blocked yet, or it has unlocked the
    mutex and not unblocked the next thread yet. -/
def Pc.inSection : Pc Thread → Bool
  | .pushBack | .block | .testEmpty | .front | .popFront _ | .unblock _ => true
  | _ => false

/-- The thread is not there, and it is not about to take the mutex after it has waited. -/
def Pc.idle : Pc Thread → Bool
  | .outside | .exchange true | .setHolder | .clearHolder => true
  | _ => false

theorem Pc.inSection_of_idle {pc : Pc Thread} (h : pc.idle = true) : pc.inSection = false := by
  cases pc with
  | outside | exchange _ | setHolder | clearHolder => rfl
  | _ => simp [idle] at h

/-- No thread runs between the steps of another one there. -/
def Undisturbed (s : State Thread) : Action Thread → Prop
  | .access t => ∀ u, u ≠ t → (s.pc u).inSection = false
  | _ => True

/-- The thread sees to it that the mutex is taken or the next thread is unblocked. -/
def Active (s : State Thread) (t : Thread) : Prop :=
  s.pc t = .testEmpty ∨ s.pc t = .front ∨ (∃ next, s.pc t = .popFront next) ∨
    (∃ next, s.pc t = .unblock next) ∨ s.pc t = .exchange false ∨
    (s.pc t = .yield ∧ s.blocked t = false)

/-- What the steps keep if nothing comes between them: the threads in `waiting` are those
    that are blocked or about to be, and if there are some, the mutex is locked or a thread
    sees to the next one. -/
structure Sound (s : State Thread) : Prop where
  alone : ∀ t u, (s.pc t).inSection = true → (s.pc u).inSection = true → t = u
  blockedAt : ∀ t, s.blocked t = true → s.pc t = .yield
  waits : ∀ t ∈ s.waiting, s.pc t = .block ∨ (s.pc t = .yield ∧ s.blocked t = true)
  nodup : s.waiting.Nodup
  registered : ∀ t, s.pc t = .block → t ∈ s.waiting
  listed : ∀ t, s.blocked t = true → t ∈ s.waiting ∨ ∃ u, s.pc u = .unblock t
  lockedAt : ∀ t, s.pc t = .pushBack ∨ s.pc t = .block → s.locked = true
  head : ∀ u next, s.pc u = .popFront next → s.waiting.head? = some next
  popped : ∀ u next, s.pc u = .unblock next →
    next ∉ s.waiting ∧ s.pc next = .yield ∧ s.blocked next = true
  cared : s.locked = false → s.waiting ≠ [] → ∃ u, Active s u

theorem Active.of_same {s s' : State Thread} {u : Thread} (h : Active s u)
    (hpc : s'.pc u = s.pc u) (hblocked : s'.blocked u = s.blocked u) : Active s' u := by
  rw [Active, hpc, hblocked]
  exact h

theorem exists_active {s s' : State Thread} {t : Thread} (h : ∃ u, Active s u)
    (ht : ¬ Active s t) (hpc : ∀ u, u ≠ t → s'.pc u = s.pc u)
    (hblocked : s'.blocked = s.blocked) : ∃ u, Active s' u := by
  obtain ⟨u, hu⟩ := h
  have hne : u ≠ t := fun heq => ht (heq ▸ hu)
  exact ⟨u, hu.of_same (hpc u hne) (congrFun hblocked u)⟩

namespace Sound

variable {s s' : State Thread} {t : Thread}

theorem new : Sound (State.new : State Thread) := by
  constructor <;> simp [State.new, Pc.inSection]

theorem mem_waiting (h : Sound s) (halone : ∀ u, u ≠ t → (s.pc u).inSection = false)
    {v : Thread} (hv : s.blocked v = true) (hpc : s.pc t ≠ .unblock v) : v ∈ s.waiting := by
  rcases h.listed v hv with hmem | ⟨u, hu⟩
  · exact hmem
  · have hne : u ≠ t := fun heq => hpc (heq ▸ hu)
    have hout := halone u hne
    rw [hu] at hout
    simp [Pc.inSection] at hout

variable [DecidableEq Thread]

/-- Steps of a thread that is idle and does not go into a section, with no effect on the
    threads that wait. -/
theorem quiet (h : Sound s) {next : Pc Thread} {locked : Bool} {holder : Option Thread}
    (hlocked : locked = false → s.locked = false) (hidle : (s.pc t).idle = true)
    (hnext : next.inSection = false) :
    Sound ({ s with locked := locked, holder := holder }.goTo t next) := by
  have hout := Pc.inSection_of_idle hidle
  have hyield : s.pc t ≠ .yield := by grind [Pc.idle]
  have hactive : ¬ Active s t := by grind [Active, Pc.idle]
  clear hidle
  obtain ⟨halone, hblocked, hwaits, hnodup, hregistered, hlisted, hlockedAt, hhead, hpopped,
    hcared⟩ := h
  constructor
  case listed =>
    intro v hv
    rcases hlisted v hv with hmem | ⟨u, hu⟩
    · exact Or.inl hmem
    · have hne : u ≠ t := by grind [Pc.inSection]
      exact Or.inr ⟨u, by simp [State.goTo, hne, hu]⟩
  case cared =>
    intro hfree hwaiting
    refine exists_active (hcared (hlocked hfree) hwaiting) hactive (fun u hu => ?_) rfl
    simp [State.goTo, hu]
  all_goals
    simp only [State.goTo]
    grind [update_apply, Pc.inSection]

section alone

variable (h : Sound s) (halone : ∀ u, u ≠ t → (s.pc u).inSection = false) {next : Thread}

include h halone

omit [DecidableEq Thread] in
theorem blocked_listed (hpc : ∀ v, s.pc t ≠ .unblock v) (v : Thread) (hv : s.blocked v = true) :
    v ∈ s.waiting :=
  h.mem_waiting halone hv (hpc v)

/-- Steps that only move the thread and lock or unlock the mutex. -/
theorem moves {locked : Bool} {pc : Pc Thread}
    (hfrom : s.pc t ≠ .block ∧ (∀ v, s.pc t ≠ .unblock v) ∧
      (s.pc t = .yield → s.blocked t = false))
    (hto : match pc with
      | .block | .unblock _ => False
      | .pushBack => locked = true
      | .popFront v => s.waiting.head? = some v
      | _ => True)
    (hcared : locked = false → s.waiting ≠ [] →
      ∃ u, Active ({ s with locked := locked }.goTo t pc) u) :
    Sound ({ s with locked := locked }.goTo t pc) := by
  have hmem := h.blocked_listed halone hfrom.2.1
  obtain ⟨-, hblocked, hwaits, hnodup, hregistered, -, -, -, hpopped, -⟩ := h
  constructor
  case cared => exact hcared
  all_goals
    simp only [State.goTo]
    grind [update_apply, Pc.inSection]

theorem pushBack (hpc : s.pc t = .pushBack) :
    Sound ({ s with waiting := s.waiting ++ [t] }.goTo t .block) := by
  have hmem := h.blocked_listed halone (by simp [hpc])
  have hlocked := h.lockedAt t (Or.inl hpc)
  obtain ⟨-, hblocked, hwaits, hnodup, hregistered, -, -, hhead, hpopped, -⟩ := h
  constructor
  case cared => simp [State.goTo, hlocked]
  all_goals
    simp only [State.goTo]
    grind [update_apply, Pc.inSection]

theorem block (hpc : s.pc t = .block) :
    Sound ({ s with blocked := update s.blocked t true }.goTo t .yield) := by
  have hmem := h.blocked_listed halone (by simp [hpc])
  have hlocked := h.lockedAt t (Or.inr hpc)
  obtain ⟨-, hblocked, hwaits, hnodup, hregistered, -, -, hhead, hpopped, -⟩ := h
  constructor
  case cared => simp [State.goTo, hlocked]
  all_goals
    simp only [State.goTo]
    grind [update_apply, Pc.inSection]

theorem remove (hpc : s.pc t = .remove) :
    Sound ({ s with waiting := s.waiting.filter (· ≠ t) }.goTo t .outside) := by
  have ht : ¬ Active s t := by grind [Active]
  have hself : s.waiting.filter (· ≠ t) = s.waiting := by
    rw [List.filter_eq_self]
    grind [h.waits]
  rw [hself]
  refine h.moves halone (by simp [hpc]) trivial fun hfree hwaiting => ?_
  exact exists_active (h.cared hfree hwaiting) ht (fun u hu => by simp [State.goTo, hu]) rfl

theorem popFront (hpc : s.pc t = .popFront next) :
    Sound ({ s with waiting := s.waiting.tail }.goTo t (.unblock next)) := by
  have hmem := h.blocked_listed halone (by simp [hpc])
  obtain ⟨rest, hrest⟩ : ∃ rest, s.waiting = next :: rest := by
    exact List.head?_eq_some_iff.mp (h.head t next hpc)
  obtain ⟨-, hblocked, hwaits, hnodup, hregistered, -, hlockedAt, -, hpopped, -⟩ := h
  constructor
  case listed =>
    intro v hv
    have hv : v ∈ next :: rest := hrest ▸ hmem v hv
    rcases List.mem_cons.mp hv with rfl | hv
    · exact Or.inr ⟨t, by simp [State.goTo]⟩
    · exact Or.inl (by simpa [State.goTo, hrest] using hv)
  case cared => exact fun _ _ => ⟨t, by simp [Active, State.goTo]⟩
  all_goals
    simp only [State.goTo, hrest, List.tail_cons]
    grind [update_apply, Pc.inSection]

theorem unblock (hpc : s.pc t = .unblock next) :
    Sound ({ s with blocked := update s.blocked next false }.goTo t .outside) := by
  have hmem : ∀ v, s.blocked v = true → v ≠ next → v ∈ s.waiting :=
    fun v hv hne => h.mem_waiting halone hv (by simp [hpc, hne.symm])
  obtain ⟨hout, hyield, -⟩ := h.popped t next hpc
  have hne : next ≠ t := by grind
  obtain ⟨-, hblocked, hwaits, hnodup, hregistered, -, hlockedAt, hhead, -, -⟩ := h
  constructor
  case cared => exact fun _ _ => ⟨next, by simp [Active, State.goTo, hne, hyield]⟩
  all_goals
    simp only [State.goTo]
    grind [update_apply, Pc.inSection]

theorem access (hstep : s.access t (s.pc t) = some s') : Sound s' := by
  cases hpc : s.pc t <;> simp only [State.access, hpc, reduceCtorEq, Option.some.injEq,
    Option.ite_none_left_eq_some, Option.map_eq_some_iff] at hstep
  case exchange trying =>
    subst hstep
    cases trying with
    | true => exact h.quiet (by simp) (by simp [hpc, Pc.idle]) (by cases s.locked <;> rfl)
    | false => exact h.moves halone (by simp [hpc]) (by cases s.locked <;> trivial) (by simp)
  case pushBack => exact hstep ▸ h.pushBack halone hpc
  case block => exact hstep ▸ h.block halone hpc
  case yield =>
    exact hstep.2 ▸ h.moves halone (by simpa [hpc] using hstep.1) trivial fun _ _ =>
      ⟨t, by simp [Active, State.goTo]⟩
  case setHolder => exact hstep ▸ h.quiet id (by simp [hpc, Pc.idle]) rfl
  case remove => exact hstep ▸ h.remove halone hpc
  case clearHolder => exact hstep ▸ h.quiet id (by simp [hpc, Pc.idle]) rfl
  case storeUnlocked =>
    exact hstep ▸ h.moves halone (by simp [hpc]) trivial fun _ _ => ⟨t, by simp [Active, State.goTo]⟩
  case testEmpty =>
    refine hstep ▸ h.moves halone (by simp [hpc]) (by grind) fun _ hwaiting => ?_
    exact ⟨t, by simp [Active, State.goTo, hwaiting]⟩
  case front =>
    obtain ⟨next, hnext, rfl⟩ := hstep
    exact h.moves halone (by simp [hpc]) hnext fun _ _ => ⟨t, by simp [Active, State.goTo]⟩
  case popFront next => exact hstep.2 ▸ h.popFront halone hpc
  case unblock next => exact hstep ▸ h.unblock halone hpc

end alone

theorem step {action : Action Thread} (h : Sound s) (hundisturbed : Undisturbed s action)
    (hstep : act s action = some s') : Sound s' := by
  cases action with
  | lock | tryLock =>
    simp only [act, Option.ite_none_right_eq_some, Option.some.injEq] at hstep
    exact hstep.2 ▸ h.quiet id (by simp [hstep.1, Pc.idle]) rfl
  | unlock t =>
    simp only [act, Option.ite_none_right_eq_some, Option.some.injEq] at hstep
    exact hstep.2 ▸ h.quiet id (by simp [hstep.1.1, Pc.idle]) rfl
  | access t => exact h.access hundisturbed hstep

theorem of_reachable (h : ((mutexSystem Thread).restrict Undisturbed).Reachable s) : Sound s := by
  refine h.invariant ?_ ?_
  · rintro s rfl
    exact new
  · rintro s action s' hsound ⟨hundisturbed, hstep⟩
    exact hsound.step hundisturbed hstep

omit [DecidableEq Thread] in
theorem not_lost (h : Sound s) : ¬ s.Lost := by
  rintro ⟨hfree, hquiet, t, ht⟩
  have hblocked : ∀ u, s.pc u ≠ .outside → s.blocked u = true :=
    fun u hu => (hquiet u).resolve_left hu
  -- whoever unblocks `t` would be blocked itself
  have hmem : t ∈ s.waiting := by
    rcases h.listed t ht with hmem | ⟨u, hu⟩
    · exact hmem
    · have := h.blockedAt u (hblocked u (by simp [hu]))
      simp [hu] at this
  obtain ⟨u, hu⟩ := h.cared hfree (List.ne_nil_of_mem hmem)
  have hyield : s.pc u = .yield := h.blockedAt u (hblocked u (by grind [Active]))
  have hblocked : s.blocked u = true := hblocked u (by simp [hyield])
  simp [Active, hyield, hblocked] at hu

end Sound

/-! ## Section 3: Runs of any kind -/

section runs

variable [DecidableEq Thread]

theorem reachable_undisturbed [Subsingleton Thread] {s : State Thread}
    (h : (mutexSystem Thread).Reachable s) :
    ((mutexSystem Thread).restrict Undisturbed).Reachable s := by
  induction h with
  | init hinit => exact .init hinit
  | @step s action s' _ hstep ih =>
    have hundisturbed : Undisturbed s action := by
      cases action with
      | access t => exact fun u hne => absurd (Subsingleton.elim u t) hne
      | _ => trivial
    exact .step ih ⟨hundisturbed, hstep⟩

/-- Between the exchange of one thread and its registration another one unlocks. -/
def lostRun (a b : Thread) : List (Action Thread) :=
  [.lock a, .access a, .access a, .access a, .lock b, .access b, .unlock a, .access a, .access a,
    .access a, .access b, .access b]

/-- The state after it: the thread that was late is blocked, and the mutex is free. -/
def lostState (b : Thread) : State Thread :=
  { locked := false
    waiting := [b]
    holder := none
    pc := update (fun _ => .outside) b .yield
    blocked := update (fun _ => false) b true }

theorem run_lost {a b : Thread} (hne : a ≠ b) :
    (lostRun a b).foldlM act .new = some (lostState b) := by
  have hne' := hne.symm
  simp [lostRun, act, State.access, State.goTo, State.new, lostState, hne, hne']
  funext t
  by_cases hb : t = b
  · simp [hb]
  · by_cases ha : t = a <;> simp [ha, hb, hne]

theorem lost_lostState (b : Thread) : (lostState b).Lost := by
  refine ⟨rfl, fun t => ?_, b, by simp [lostState]⟩
  by_cases hb : t = b
  · simp [lostState, hb]
  · simp [lostState, hb]

end runs

/-- No wake-up is lost, whatever the interleaving, exactly if there is at most one thread.
    For any number of threads none is lost in an interleaving in which no thread runs between
    a failed exchange of another one and its `Block`, or between its store in `unlock` and the
    `Unblock`. -/
theorem lost_wakeup_iff (Thread : Type*) [DecidableEq Thread] :
    ((∀ s, (mutexSystem Thread).Reachable s → ¬ s.Lost) ↔ Subsingleton Thread) ∧
      ∀ s, ((mutexSystem Thread).restrict Undisturbed).Reachable s → ¬ s.Lost := by
  refine ⟨⟨fun hnever => ?_, fun _ s h => ?_⟩, fun s h => (Sound.of_reachable h).not_lost⟩
  · constructor
    intro a b
    by_contra hne
    exact hnever _ (.foldlM id (.init rfl) (run_lost hne)) (lost_lostState b)
  · exact (Sound.of_reachable (reachable_undisturbed h)).not_lost

/-- Thread 1 finds the mutex locked, thread 0 unlocks it and finds nobody waiting, and then
    thread 1 blocks. -/
theorem late_thread_lost :
    ∃ s : State (Fin 2), (mutexSystem (Fin 2)).Reachable s ∧ s.Lost ∧ s.locked = false ∧
      s.pc 0 = .outside ∧ s.pc 1 = .yield ∧ s.blocked 1 = true :=
  ⟨lostState 1, .foldlM id (.init rfl) (run_lost (a := 0) (by decide)), lost_lostState 1, rfl, rfl,
    rfl, rfl⟩

/-! ## Section 4: Mutual exclusion -/

/-- The thread has taken the mutex and has not stored yet that it is free. -/
def State.Owns (s : State Thread) (t : Thread) : Prop :=
  s.pc t = .setHolder ∨ s.pc t = .storeUnlocked ∨ s.holder = some t

/-- The thread that owns the mutex is `owner`, who is the holder where `unlock` starts. -/
structure OwnedBy (owner : Option Thread) (s : State Thread) : Prop where
  locked : s.locked = owner.isSome
  owns : ∀ t, s.Owns t ↔ owner = some t
  clears : ∀ t, s.pc t = .clearHolder → s.holder = some t
  between : ∀ t, s.pc t = .setHolder ∨ s.pc t = .storeUnlocked → s.holder = none

/-- An access that `OwnedBy` is not about. -/
def Pc.plain : Pc Thread → Bool
  | .setHolder | .storeUnlocked | .clearHolder => false
  | _ => true

variable [DecidableEq Thread] {s s' : State Thread} {owner : Option Thread}

theorem OwnedBy.moves {t : Thread} {next : Pc Thread} (h : OwnedBy owner s)
    (hpc : (s.pc t).plain) (hnext : next.plain)
    (hs' : s' = { s' with locked := s.locked, holder := s.holder, pc := update s.pc t next }) :
    OwnedBy owner s' := by
  obtain ⟨hlocked, howns, hclears, hbetween⟩ := h
  rw [hs']
  constructor <;> simp only [State.Owns, update_apply] at * <;> grind [Pc.plain]

theorem OwnedBy.step {action : Action Thread} (h : OwnedBy owner s)
    (hstep : act s action = some s') : ∃ owner', OwnedBy owner' s' := by
  have ⟨hlocked, howns, hclears, hbetween⟩ := h
  have hfree : s.locked = false → s.holder = none := by
    cases hholder : s.holder <;> grind [State.Owns]
  simp only [State.Owns] at howns
  cases action with
  | lock t | tryLock t =>
    simp only [act, Option.ite_none_right_eq_some, Option.some.injEq] at hstep
    obtain ⟨hpc, rfl⟩ := hstep
    exact ⟨owner, h.moves (by rw [hpc]; rfl) rfl rfl⟩
  | unlock t =>
    simp only [act, Option.ite_none_right_eq_some, Option.some.injEq] at hstep
    obtain ⟨hpc, rfl⟩ := hstep
    exact ⟨owner, by constructor <;> simp only [State.Owns, State.goTo, update_apply] <;> grind⟩
  | access t =>
    cases hpc : s.pc t <;> simp only [act, State.access, hpc, reduceCtorEq, Option.some.injEq,
      Option.ite_none_left_eq_some, Option.map_eq_some_iff] at hstep
    -- only the exchange of a free mutex and the store of `unlock` change the owner
    case exchange | setHolder | clearHolder | storeUnlocked =>
      subst hstep
      exact ⟨if s.pc t = .storeUnlocked then none else if s.locked then owner else some t,
        by constructor <;> simp only [State.Owns, State.goTo, update_apply] <;> grind⟩
    all_goals
      first
      | subst hstep
      | obtain ⟨_, rfl⟩ := hstep
      | obtain ⟨_, _, rfl⟩ := hstep
      exact ⟨owner, h.moves (by rw [hpc]; rfl) (by first | rfl | split <;> rfl) rfl⟩

/-- **Mutual exclusion**: in every interleaving of `lock`, `try_lock` and `unlock` at most one
    thread owns the mutex, and it is locked exactly as long as there is such a thread. -/
theorem mutex_exclusive (h : (mutexSystem Thread).Reachable s) :
    (∀ t u, s.Owns t → s.Owns u → t = u) ∧ (s.locked = true ↔ ∃ t, s.Owns t) := by
  obtain ⟨owner, h⟩ : ∃ owner, OwnedBy owner s := by
    induction h with
    | init hnew =>
      obtain rfl := hnew
      exact ⟨none, by constructor <;> simp [State.new, State.Owns]⟩
    | step _ hstep ih => exact ih.choose_spec.step hstep
  refine ⟨fun t u ht hu => ?_, ?_⟩
  · exact Option.some.inj (((h.owns t).mp ht).symm.trans ((h.owns u).mp hu))
  · simp only [h.locked, h.owns, Option.isSome_iff_exists]

/-- While the first of two threads holds the mutex, the second one does not own it. -/
theorem mutex_exclusive_two :
    ∃ s : State Bool, (mutexSystem Bool).Reachable s ∧ s.Owns true ∧ ¬ s.Owns false := by
  have hreach : (mutexSystem Bool).Reachable _ := .foldlM id (.init rfl)
    (show [.lock true, .access true, .lock false].foldlM act .new = some _ from rfl)
  refine ⟨_, hreach, Or.inl rfl, fun h => ?_⟩
  cases (mutex_exclusive hreach).1 true false (Or.inl rfl) h

end Fennix.Std.Mutex
