import Fennix.Framework.System
import Fennix.Tasking.Signal
import Mathlib.Logic.Relation

/-! # Delivery of signals

    What a call of `SendSignal` does is a sequence of small changes, each to one process
    whose lock is not held (`Touch`). Everything that runs of the calls keep follows from
    what one such change keeps.

    - `kill_iff`: when `SIGKILL` kills.
-/

namespace Fennix.Tasking

open Function (update update_self update_of_ne)

namespace Kernel

/-! ## Section 1: What a call does -/

/-- A change to one process. -/
inductive Touch (p : Process) : Kernel → Kernel → Prop where
  | lastSignal {k} (sig : Signo) :
    Touch p k (k.modifySignal p fun s => { s with lastSignal := some sig })
  | trampoline {k} : Touch p k (k.modifySignal p fun s => { s with trampoline := true })
  | push {k} (info : SignalInfo) (hhandler : ((k.signals p).sa info.sig).isHandler = true) :
    Touch p k (k.modifySignal p fun s => { s with queue := s.queue ++ [info] })
  | exitCode {k} (code : Int) : Touch p k (k.setExitCode p code)
  | state {k} (state : TaskState) : Touch p k (k.setState p state)

/-- Changes to processes whose locks are not held. -/
def Touches (locked : List Process) : Kernel → Kernel → Prop :=
  Relation.ReflTransGen fun k k' => ∃ p, p ∉ locked ∧ Touch p k k'

namespace Touches

variable {locked : List Process} {k k' k'' : Kernel} {p : Process}

theorem refl (locked : List Process) (k : Kernel) : Touches locked k k :=
  Relation.ReflTransGen.refl

theorem trans (h : Touches locked k k') (h' : Touches locked k' k'') : Touches locked k k'' :=
  Relation.ReflTransGen.trans h h'

theorem single (hp : p ∉ locked) (h : Touch p k k') : Touches locked k k' :=
  Relation.ReflTransGen.single ⟨p, hp, h⟩

theorem unlock (h : Touches (p :: locked) k k') : Touches locked k k' := by
  refine Relation.ReflTransGen.mono ?_ k k' h
  rintro k k' ⟨q, hq, htouch⟩
  exact ⟨q, fun hmem => hq (List.mem_cons_of_mem p hmem), htouch⟩

theorem invariant {Inv : Kernel → Prop} (hstep : ∀ {k k' p}, p ∉ locked → Touch p k k' → Inv k → Inv k')
    (h : Touches locked k k') (hk : Inv k) : Inv k' := by
  induction h with
  | refl => exact hk
  | tail _ hs ih =>
    obtain ⟨p, hp, htouch⟩ := hs
    exact hstep hp htouch ih

end Touches

/-- What a call of `SendSignal` reads and never changes. -/
structure SameTables (k k' : Kernel) : Prop where
  sa : ∀ p, (k'.signals p).sa = (k.signals p).sa
  disposition : ∀ p, (k'.signals p).disposition = (k.signals p).disposition
  watchers : ∀ p, (k'.signals p).watchers = (k.signals p).watchers
  executionMode : k'.executionMode = k.executionMode
  compatibility : k'.compatibility = k.compatibility
  mask : k'.mask = k.mask
  threads : k'.tasks.threads = k.tasks.threads

theorem SameTables.refl (k : Kernel) : SameTables k k :=
  ⟨fun _ => rfl, fun _ => rfl, fun _ => rfl, rfl, rfl, rfl, rfl⟩

theorem SameTables.trans {k k' k'' : Kernel} (h : SameTables k k') (h' : SameTables k' k'') :
    SameTables k k'' where
  sa := fun p => (h'.sa p).trans (h.sa p)
  disposition := fun p => (h'.disposition p).trans (h.disposition p)
  watchers := fun p => (h'.watchers p).trans (h.watchers p)
  executionMode := h'.executionMode.trans h.executionMode
  compatibility := h'.compatibility.trans h.compatibility
  mask := h'.mask.trans h.mask
  threads := h'.threads.trans h.threads

section Touch

variable {k k' : Kernel} {p q : Process}

theorem signals_modifySignal (k : Kernel) (p q : Process) (f : Signal → Signal) :
    (k.modifySignal p f).signals q = if q = p then f (k.signals q) else k.signals q := by
  show update k.signals p _ q = _
  rw [Function.update_apply]
  split
  · next h => rw [h]
  · rfl

theorem modifySignal_signals_self (k : Kernel) (p : Process) (f : Signal → Signal) :
    (k.modifySignal p f).signals p = f (k.signals p) := by
  rw [signals_modifySignal, if_pos rfl]

theorem sameTables_modifySignal {f : Signal → Signal} (hsa : ∀ s, (f s).sa = s.sa)
    (hdisposition : ∀ s, (f s).disposition = s.disposition)
    (hwatchers : ∀ s, (f s).watchers = s.watchers) : SameTables k (k.modifySignal p f) := by
  refine ⟨fun q => ?_, fun q => ?_, fun q => ?_, rfl, rfl, rfl, rfl⟩
  all_goals
    rw [signals_modifySignal]
    split
  · exact hsa _
  · rfl
  · exact hdisposition _
  · rfl
  · exact hwatchers _
  · rfl

theorem Touch.sameTables (h : Touch p k k') : SameTables k k' := by
  cases h with
  | lastSignal | trampoline | push =>
    exact sameTables_modifySignal (fun _ => rfl) (fun _ => rfl) (fun _ => rfl)
  | exitCode | state => exact ⟨fun _ => rfl, fun _ => rfl, fun _ => rfl, rfl, rfl, rfl, rfl⟩

theorem Touches.sameTables {locked : List Process} (h : Touches locked k k') : SameTables k k' := by
  refine Touches.invariant ?_ h (.refl k)
  intro k₁ k₂ q _ htouch hk
  exact hk.trans htouch.sameTables

end Touch

/-- The action that is recorded for a signal. -/
abbrev action (k : Kernel) (p : Process) (sig : Signo) : SignalAction := (k.signals p).sa sig

theorem received_signals (k : Kernel) (p : Process) (sig : Signo) :
    (k.received p sig).signals p = { k.signals p with lastSignal := some sig } :=
  modifySignal_signals_self k p _

theorem isHandler_iff (act : SignalAction) :
    act.isHandler = true ↔ act.handler ≠ sigDfl ∧ act.handler ≠ sigIgn := by
  simp [SignalAction.isHandler]

section Send

variable {send : Kernel → Process → Option (Int × Kernel)} {me : Thread} {k k' : Kernel}
  {p : Process} {info : SignalInfo} {r : Int} {locked : List Process}

theorem sendWith_eq (send : Kernel → Process → Option (Int × Kernel)) (me : Thread) (k : Kernel)
    (p : Process) (info : SignalInfo) :
    sendWith send me k p info =
      if (k.action p info.sig).handler ≠ sigDfl then
        if k.executionMode p = .kernel then some (-einval, k.received p info.sig)
        else if (k.action p info.sig).handler = sigIgn then some (0, k.received p info.sig)
        else completeSignal send (k.received p info.sig) p info
      else if blocks (k.mask me) info.sig then some (0, k.received p info.sig)
      else some ((k.received p info.sig).takeDefault p info.sig info.val) := by
  have hsa : ((k.received p info.sig).signals p).sa = (k.signals p).sa := by
    rw [received_signals]
  simp only [sendWith, hsa]
  rfl

/-- Without a handler the signal is dropped if the sender blocks it, and otherwise has its
    default effect. -/
theorem sendWith_default (h : (k.action p info.sig).handler = sigDfl) :
    sendWith send me k p info =
      some (if blocks (k.mask me) info.sig then (0, k.received p info.sig)
        else (k.received p info.sig).takeDefault p info.sig info.val) := by
  rw [sendWith_eq, if_neg (not_not_intro h), apply_ite some]

/-- A call that returns has only recorded the signal, or the signal had its default effect,
    or the watchers were told and it is in the queue. -/
theorem sendWith_cases (h : sendWith send me k p info = some (r, k')) :
    (k' = k.received p info.sig ∧
        ((k.action p info.sig).handler ≠ sigDfl ∨ blocks (k.mask me) info.sig = true) ∧
        ((k.action p info.sig).isHandler = true → k.executionMode p = .kernel)) ∨
      (k' = ((k.received p info.sig).takeDefault p info.sig info.val).2 ∧
        (k.action p info.sig).handler = sigDfl ∧ ¬ blocks (k.mask me) info.sig = true) ∨
      (k.action p info.sig).isHandler = true ∧ ∃ k₁ k₂ whos,
        (k.received p info.sig).initTrampoline p = some k₁ ∧
        notifyWatchers send k₁ whos = some k₂ ∧
        k' = k₂.modifySignal p fun s => { s with queue := s.queue ++ [info] } := by
  rw [sendWith_eq] at h
  split at h
  · next hset =>
    split at h
    · next hkernel =>
      cases h
      exact .inl ⟨rfl, .inl hset, fun _ => hkernel⟩
    · next hmode =>
      split at h
      · next hign =>
        cases h
        exact .inl ⟨rfl, .inl hset, fun hact => absurd hign ((isHandler_iff _).mp hact).2⟩
      · next hign =>
        have hmode' : (k.received p info.sig).executionMode p ≠ .kernel := hmode
        rw [completeSignal, if_neg hmode'] at h
        obtain ⟨k₁, hinit, h⟩ := Option.bind_eq_some_iff.mp h
        obtain ⟨k₂, hnotify, heq⟩ := Option.map_eq_some_iff.mp h
        exact .inr (.inr ⟨(isHandler_iff _).mpr ⟨hset, hign⟩, k₁, k₂, _, hinit, hnotify,
          (Prod.mk.inj heq).2.symm⟩)
  · next hdfl =>
    split at h
    · next hblocks =>
      cases h
      exact .inl ⟨rfl, .inr hblocks, fun hact => absurd ((isHandler_iff _).mp hact).1 hdfl⟩
    · next hblocks =>
      have heq := congrArg Prod.snd (Option.some.inj h)
      exact .inr (.inl ⟨heq.symm, not_not.mp hdfl, hblocks⟩)

theorem touches_received (hp : p ∉ locked) (sig : Signo) :
    Touches locked k (k.received p sig) := .single hp (.lastSignal sig)

theorem touches_takeDefault (hp : p ∉ locked) (sig : Signo) (val : BitVec 64) :
    Touches locked k (k.takeDefault p sig val).2 := by
  have hdie : ∀ state, Touches locked k (k.die p sig val state).2 := fun state =>
    (Touches.single hp (.exitCode _)).trans (.single hp (.state _))
  unfold takeDefault
  cases (k.signals p).disposition sig with
  | term => exact hdie .zombie
  | ign => exact .refl locked k
  | core => exact hdie .coreDump
  | stop => exact .single hp (.state .stopped)
  | cont => exact .single hp (.state .ready)

theorem initTrampoline_cases (h : k.initTrampoline p = some k') :
    k' = k ∨ k' = k.modifySignal p fun s => { s with trampoline := true } := by
  unfold initTrampoline at h
  split at h
  · exact .inl (Option.some.inj h).symm
  · split at h
    · exact .inr (Option.some.inj h).symm
    · exact .inr (Option.some.inj h).symm
    · cases h
    · exact .inl (Option.some.inj h).symm

theorem touches_initTrampoline (hp : p ∉ locked) (h : k.initTrampoline p = some k') :
    Touches locked k k' := by
  obtain rfl | rfl := initTrampoline_cases h
  · exact .refl locked k'
  · exact .single hp .trampoline

theorem touches_notifyWatchers {whos : List Process}
    (hsend : ∀ {k who r k'}, send k who = some (r, k') → Touches locked k k')
    (h : notifyWatchers send k whos = some k') : Touches locked k k' := by
  induction whos generalizing k with
  | nil =>
    obtain rfl := Option.some.inj h
    exact .refl locked k
  | cons who rest ih =>
    obtain ⟨⟨r, k₁⟩, hone, hrest⟩ := Option.bind_eq_some_iff.mp h
    exact (hsend hone).trans (ih hrest)

theorem touches_sendWith (hp : p ∉ locked)
    (hsend : ∀ {k who r k'}, send k who = some (r, k') → Touches (p :: locked) k k')
    (h : sendWith send me k p info = some (r, k')) : Touches locked k k' := by
  have hreceived : Touches locked k (k.received p info.sig) := touches_received hp info.sig
  obtain ⟨rfl, -⟩ | ⟨rfl, -⟩ | ⟨hhandler, k₁, k₂, whos, hinit, hnotify, rfl⟩ := sendWith_cases h
  · exact hreceived
  · exact hreceived.trans (touches_takeDefault hp info.sig info.val)
  · have hbefore : Touches locked k k₂ := hreceived.trans
      ((touches_initTrampoline hp hinit).trans (touches_notifyWatchers hsend hnotify).unlock)
    refine hbefore.trans (.single hp (.push info ?_))
    rw [hbefore.sameTables.sa]
    exact hhandler

theorem touches_sendSignal {depth : Nat} (hp : p ∉ locked)
    (h : sendSignal depth locked me k p info = some (r, k')) : Touches locked k k' := by
  induction depth generalizing locked k p info r k' with
  | zero => exact touches_sendWith hp (fun hnone => by cases hnone) h
  | succ depth ih =>
    refine touches_sendWith hp ?_ h
    intro k who r k' hnested
    split at hnested
    · cases hnested
    · next hfree => exact ih hfree hnested

end Send

/-! ## Section 2: Runs -/

/-- The calls, with what they are called with. -/
inductive SignalEvent where
  | setAction (p : Process) (sig : Signo) (act : SignalAction)
  | setMask (t : Thread) (mask : BitVec 64)
  | send (me : Thread) (p : Process) (info : SignalInfo)
  | handle (p : Process) (t : Thread) (reread : Option SignalInfo)

/-- The effect of a call. -/
def applySignal (depth : Nat) (k : Kernel) : SignalEvent → Option Kernel
  | .setAction p sig act => some (k.setAction p sig act)
  | .setMask t mask => some (k.setMask t mask)
  | .send me p info => (sendSignal depth [] me k p info).map Prod.snd
  | .handle p t reread => if t ∈ k.tasks.threads p then k.handleSignal p t reread else none

/-- Runs of the calls. -/
def signalRuns (depth : Nat) (start : Kernel → Prop) : System Kernel SignalEvent where
  init := start
  step := fun k event k' => k.applySignal depth event = some k'

/-- The tables are as they are constructed, and nothing is queued. -/
def Fresh (k : Kernel) : Prop :=
  ∀ p, (k.signals p).queue = [] ∧ (k.signals p).sa = (fun _ => ⟨0, 0, 0, 0⟩) ∧
    (k.signals p).disposition = getDefaultSignalDisposition

section Events

variable {depth : Nat} {k k' : Kernel} {p : Process} {t : Thread}

/-- What `HandleSignal` does: it may take the first signal that is available, which has a
    handler, out of the queue, and it may set the mask of the thread. -/
theorem handleSignal_cases {reread : Option SignalInfo} (h : k.handleSignal p t reread = some k') :
    k' = k ∨ ∃ info mask, (k.signals p).queue.find? (k.available t) = some info ∧
      k' = { k.modifySignal p fun s => { s with queue := s.queue.eraseP (k.available t) } with
        mask := mask } := by
  unfold handleSignal at h
  split at h
  · exact .inl (Option.some.inj h).symm
  · obtain ⟨⟨sigI, k₁⟩, hget, h⟩ := Option.bind_eq_some_iff.mp h
    unfold getAvailableSignal at hget
    split at hget
    · cases hget
      exact .inl (Option.some.inj h).symm
    · next info hfind =>
      split at hget
      · cases hget
        refine .inr ⟨info, ?_⟩
        dsimp only at h
        split at h
        · exact ⟨k.mask, hfind, (Option.some.inj h).symm⟩
        · split at h
          · exact ⟨_, hfind, (Option.some.inj h).symm⟩
          · cases h
      · cases hget

/-- The queues after a call: a process has lost a signal for which it was available or that
    is now ignored, or it has got signals with handlers, or its queue is as it was. -/
theorem applySignal_cases {event : SignalEvent} (h : k.applySignal depth event = some k') :
    (∃ p sig act, event = .setAction p sig act ∧ k' = k.setAction p sig act) ∨
      (∃ t mask, event = .setMask t mask ∧ k' = k.setMask t mask) ∨
      (∃ me p info, event = .send me p info ∧ Touches [] k k') ∨
      (∃ p t reread, event = .handle p t reread ∧ t ∈ k.tasks.threads p ∧
        (k' = k ∨ ∃ info mask, (k.signals p).queue.find? (k.available t) = some info ∧
          k' = { k.modifySignal p fun s => { s with queue := s.queue.eraseP (k.available t) } with
            mask := mask })) := by
  cases event with
  | setAction p sig act => exact .inl ⟨p, sig, act, rfl, (Option.some.inj h).symm⟩
  | setMask t mask => exact .inr (.inl ⟨t, mask, rfl, (Option.some.inj h).symm⟩)
  | send me p info =>
    obtain ⟨⟨r, k₁⟩, hsend, rfl⟩ := Option.map_eq_some_iff.mp h
    exact .inr (.inr (.inl ⟨me, p, info, rfl, touches_sendSignal List.not_mem_nil hsend⟩))
  | handle p t reread =>
    simp only [applySignal] at h
    split at h
    · next ht => exact .inr (.inr (.inr ⟨p, t, reread, rfl, ht, handleSignal_cases h⟩))
    · cases h

end Events

/-! ## Section 3: `SIGKILL` -/

/-- The process is dead, with the exit code of `SIGKILL`. -/
def Killed (k : Kernel) (p : Process) : Prop :=
  (k.tasks.processState p = .zombie ∨ k.tasks.processState p = .terminated) ∧
    k.exitCode p = k.makeExitCode p .kill

/-- Where no action is set, the disposition is the default one. -/
def Regular (k : Kernel) : Prop :=
  ∀ p sig, (k.action p sig).handler = sigDfl →
    (k.signals p).disposition sig = getDefaultSignalDisposition sig

section Kill

variable {depth : Nat} {k k' : Kernel} {p : Process}

theorem SameTables.regular (h : SameTables k k') (hk : Regular k) : Regular k' := by
  intro q sig hdfl
  rw [action, h.sa] at hdfl
  rw [h.disposition]
  exact hk q sig hdfl

theorem Regular.setAction (hk : Regular k) (p : Process) (sig : Signo) (act : SignalAction) :
    Regular (k.setAction p sig act) := by
  intro q sig' hdfl
  rw [action] at hdfl
  rw [Kernel.setAction, signals_modifySignal] at hdfl ⊢
  split at hdfl
  · next hq =>
    rw [if_pos hq]
    change (update (k.signals q).sa sig act sig').handler = sigDfl at hdfl
    simp only [Signal.setAction]
    by_cases hsig : sig' = sig
    · subst hsig
      rw [update_self] at hdfl
      have hign : act.handler ≠ sigIgn := by
        rw [hdfl]
        decide
      rw [if_neg hign, if_pos hdfl, update_self]
    · rw [update_of_ne hsig] at hdfl
      have hold := hk q sig' hdfl
      split
      · rw [update_of_ne hsig]
        exact hold
      · split
        · rw [update_of_ne hsig]
          exact hold
        · exact hold
  · next hq =>
    rw [if_neg hq]
    exact hk q sig' hdfl

theorem Regular.step {event : SignalEvent} (hk : Regular k)
    (hstep : k.applySignal depth event = some k') : Regular k' := by
  obtain ⟨p, sig, act, -, rfl⟩ | ⟨t, mask, -, rfl⟩ | ⟨me, p, info, -, htouches⟩ |
    ⟨p, t, reread, -, -, rfl | ⟨info, mask, -, rfl⟩⟩ := applySignal_cases hstep
  · exact hk.setAction p sig act
  · exact hk
  · exact htouches.sameTables.regular hk
  · exact hk
  · have hsame : SameTables k
        (k.modifySignal p fun s => { s with queue := s.queue.eraseP (k.available t) }) :=
      sameTables_modifySignal (fun _ => rfl) (fun _ => rfl) (fun _ => rfl)
    exact hsame.regular hk

theorem Fresh.regular (hfresh : Fresh k) : Regular k := by
  intro p sig _
  rw [(hfresh p).2.2]

theorem regular_of_reachable (h : (signalRuns depth Fresh).Reachable k) : Regular k :=
  System.Reachable.invariant (fun _ => Fresh.regular) (fun _ _ _ hk hstep => hk.step hstep) h

/-- A process is as it was, but for its threads. -/
structure Untouched (p : Process) (k k' : Kernel) : Prop where
  signals : k'.signals p = k.signals p
  processState : k'.tasks.processState p = k.tasks.processState p
  exitCode : k'.exitCode p = k.exitCode p

theorem Touch.untouched {q : Process} (h : Touch q k k') (hne : p ≠ q) : Untouched p k k' := by
  cases h with
  | lastSignal | trampoline | push => exact ⟨update_of_ne hne _ _, rfl, rfl⟩
  | exitCode code => exact ⟨rfl, rfl, update_of_ne hne _ _⟩
  | state state => exact ⟨rfl, update_of_ne hne _ _, rfl⟩

theorem Touches.untouched {locked : List Process} (h : Touches locked k k') (hp : p ∈ locked) :
    Untouched p k k' := by
  refine Touches.invariant ?_ h ⟨rfl, rfl, rfl⟩
  intro k₁ k₂ q hq htouch hk
  have hone := htouch.untouched fun heq => hq (heq ▸ hp)
  exact ⟨hone.signals.trans hk.signals, hone.processState.trans hk.processState,
    hone.exitCode.trans hk.exitCode⟩

theorem sendSignal_nested (depth : Nat) (locked : List Process) (me : Thread) (p : Process)
    (val : BitVec 64) :
    ∃ send, (∀ k sig tid, sendSignal depth locked me k p ⟨sig, val, tid⟩ =
        sendWith send me k p ⟨sig, val, tid⟩) ∧
      ∀ {k who r k'}, send k who = some (r, k') → Touches (p :: locked) k k' := by
  cases depth with
  | zero => exact ⟨fun _ _ => none, fun _ _ _ => rfl, nofun⟩
  | succ depth =>
    refine ⟨fun k who => if who ∈ p :: locked then none
      else sendSignal depth (p :: locked) me k who ⟨.chld, val, -1⟩, fun _ _ _ => rfl,
      fun {k who r k'} h => ?_⟩
    dsimp only at h
    split at h
    · cases h
    · next hfree => exact touches_sendSignal hfree h

/-- A call for a signal with an action changes no state of the process, and puts the signal
    into the queue if there is a handler. -/
theorem sendSignal_action {locked : List Process} {me : Thread} (info : SignalInfo) {r : Int}
    (hset : (k.action p info.sig).handler ≠ sigDfl)
    (h : sendSignal depth locked me k p info = some (r, k')) :
    k'.tasks.processState p = k.tasks.processState p ∧ k'.exitCode p = k.exitCode p ∧
      (k.executionMode p ≠ .kernel → (k.action p info.sig).isHandler = true →
        (k'.signals p).queue = (k.signals p).queue ++ [info]) := by
  obtain ⟨send, hsend, hnested⟩ := sendSignal_nested depth locked me p info.val
  rw [hsend k info.sig info.tid] at h
  obtain ⟨rfl, -, hkernel⟩ | ⟨-, hdfl, -⟩ | ⟨-, k₁, k₂, whos, hinit, hnotify, rfl⟩ :=
    sendWith_cases h
  · exact ⟨rfl, rfl, fun hmode hhandler => absurd (hkernel hhandler) hmode⟩
  · exact absurd hdfl hset
  · have hafter := (touches_notifyWatchers hnested hnotify).untouched List.mem_cons_self
    have hbefore : k₁.tasks = k.tasks ∧ k₁.exitCode = k.exitCode ∧
        (k₁.signals p).queue = (k.signals p).queue := by
      obtain rfl | rfl := initTrampoline_cases hinit
      · exact ⟨rfl, rfl, by rw [received_signals]⟩
      · exact ⟨rfl, rfl, by rw [modifySignal_signals_self, received_signals]⟩
    rw [← hbefore.1, ← hbefore.2.1, modifySignal_signals_self, hafter.signals, hbefore.2.2]
    exact ⟨hafter.processState, hafter.exitCode, fun _ _ => rfl⟩

theorem killed_takeDefault (h : (k.signals p).disposition .kill = .term) (val : BitVec 64) :
    ((k.takeDefault p .kill val).2).Killed p := by
  have hstate : k.killedState p .zombie = .zombie ∨ k.killedState p .zombie = .terminated := by
    unfold killedState
    split
    · exact .inr rfl
    · exact .inl rfl
  rw [takeDefault, h]
  refine ⟨?_, update_self _ _ _⟩
  show update _ p _ p = _ ∨ update _ p _ p = _
  rw [update_self]
  exact hstate

/-- **SIGKILL.** After every run, `SIGKILL` kills a process exactly if no action is set for
    it and the thread that sends it does not block it. A process that has been killed stays
    so. -/
theorem kill_iff (h : (signalRuns depth Fresh).Reachable k) (p : Process) (me : Thread)
    (val : BitVec 64) (tid : Int) :
    (¬ k.Killed p →
      ((∃ r k', sendSignal depth [] me k p ⟨.kill, val, tid⟩ = some (r, k') ∧ k'.Killed p) ↔
        (k.action p .kill).handler = sigDfl ∧ blocks (k.mask me) .kill = false)) ∧
    (k.Killed p →
      ∀ r k', sendSignal depth [] me k p ⟨.kill, val, tid⟩ = some (r, k') → k'.Killed p) := by
  have hreceived : (k.received p .kill).Killed p ↔ k.Killed p := Iff.rfl
  by_cases hdfl : (k.action p .kill).handler = sigDfl
  · obtain ⟨send, hsend, -⟩ := sendSignal_nested depth [] me p val
    have hdisposition : ((k.received p .kill).signals p).disposition .kill = .term := by
      rw [received_signals]
      exact regular_of_reachable h p .kill hdfl
    have hkilled := killed_takeDefault (k := k.received p .kill) hdisposition val
    rw [hsend, sendWith_default hdfl]
    cases hblocks : blocks (k.mask me) .kill with
    | true =>
      rw [if_pos rfl]
      refine ⟨fun hnot => iff_of_false ?_ (fun hboth => by cases hboth.2), fun hold r k' heq => ?_⟩
      · rintro ⟨r, k', heq, hdead⟩
        cases heq
        exact hnot (hreceived.mp hdead)
      · cases heq
        exact hreceived.mpr hold
    | false =>
      rw [if_neg Bool.false_ne_true]
      refine ⟨fun _ => iff_of_true ⟨_, _, rfl, hkilled⟩ ⟨hdfl, rfl⟩, fun _ r k' heq => ?_⟩
      rw [← show ((k.received p .kill).takeDefault p .kill val).2 = k' from
        congrArg Prod.snd (Option.some.inj heq)]
      exact hkilled
  · have hsame : ∀ r k', sendSignal depth [] me k p ⟨.kill, val, tid⟩ = some (r, k') →
        (k'.Killed p ↔ k.Killed p) := by
      intro r k' heq
      obtain ⟨hstate, hcode, -⟩ := sendSignal_action _ hdfl heq
      have hcompat := (touches_sendSignal List.not_mem_nil heq).sameTables.compatibility
      unfold Killed makeExitCode
      rw [hstate, hcode, hcompat]
    refine ⟨fun hnot => iff_of_false ?_ fun hboth => hdfl hboth.1, fun hold r k' heq => ?_⟩
    · rintro ⟨r, k', heq, hdead⟩
      exact hnot ((hsame r k' heq).mp hdead)
    · exact (hsame r k' heq).mpr hold

/-- Two user processes, of one thread each. -/
def examplePair : Kernel where
  tasks :=
    { processVector := ⟨[1, 2], []⟩
      threadVector := fun p => ⟨if p = 1 then [1] else if p = 2 then [2] else [], []⟩
      childVector := fun _ => ⟨[], []⟩
      parent := fun _ => none
      threadParent := id
      affinity := fun _ => true
      processState := fun _ => .ready
      threadState := fun _ => .ready
      sleepUntil := fun _ => 0
      currentProcess := none
      currentThread := none
      idleProcess := 0
      idleThread := 0
      stopScheduler := false
      schedulerUpdateTrapFrame := false
      deletedProcesses := []
      deletedThreads := []
      stackDepth := 16 }
  signals := fun _ =>
    { lastSignal := none
      trampoline := false
      queue := []
      sa := fun _ => ⟨0, 0, 0, 0⟩
      watchers := []
      disposition := getDefaultSignalDisposition }
  executionMode := fun _ => .user
  compatibility := fun _ => .linux
  exitCode := fun _ => 0
  mask := fun _ => 0
  threadId := fun t => t
  stateCalls := []

theorem fresh_examplePair : Fresh examplePair := fun _ => ⟨rfl, rfl, rfl⟩

theorem kill_iff_examplePair :
    (signalRuns 0 Fresh).Reachable examplePair ∧ ¬ examplePair.Killed 1 ∧
      ∃ r k', sendSignal 0 [] 2 examplePair 1 ⟨.kill, 0, -1⟩ = some (r, k') ∧ k'.Killed 1 := by
  have hreachable : (signalRuns 0 Fresh).Reachable examplePair := .init fresh_examplePair
  have hnot : ¬ examplePair.Killed 1 := by
    unfold Killed
    decide
  exact ⟨hreachable, hnot,
    ((kill_iff hreachable 1 2 0 (-1)).1 hnot).mpr ⟨rfl, by decide⟩⟩

/-- A process that has set a handler for `SIGKILL` goes on. -/
theorem kill_escaped :
    ∃ k r k', (signalRuns 0 Fresh).Reachable k ∧ k.executionMode 1 = .user ∧
      sendSignal 0 [] 2 k 1 ⟨.kill, 0, -1⟩ = some (r, k') ∧
      k'.tasks.processState 1 = .ready ∧ ¬ k'.Killed 1 := by
  have hset : examplePair.applySignal 0 (.setAction 1 .kill ⟨0x1000, 0, 0, 0⟩) = some _ := rfl
  obtain ⟨r, k', hsend, hready⟩ : ∃ r k', sendSignal 0 [] 2
      (examplePair.setAction 1 .kill ⟨0x1000, 0, 0, 0⟩) 1 ⟨.kill, 0, -1⟩ = some (r, k') ∧
      k'.tasks.processState 1 = .ready := by decide +kernel
  refine ⟨_, r, k', .step (.init fresh_examplePair) hset, rfl, hsend, hready, fun hkilled => ?_⟩
  rw [Killed, hready] at hkilled
  obtain ⟨hdead | hdead, -⟩ := hkilled
  · cases hdead
  · cases hdead

end Kill

end Kernel

end Fennix.Tasking
