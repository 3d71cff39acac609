import Fennix.Tasking.SignalDelivery

/-! # Queues of signals

    Two calls of `SendSignal` with one target are compared (`Agree`): the changes they
    make to other processes are the same unless the masks of the senders differ. The
    queue of the target is followed through runs of all calls.

    - `sending_iff`: when the sender makes no difference, and when a blocked signal stays
      in the queue.
    - `queued_have_handlers`: when the signals of the queue have handlers.
-/

namespace Fennix.Tasking

open Function (update)

namespace Kernel

/-! ## Section 1: The sender -/

/-- No thread belongs to two processes. -/
def Apart (k : Kernel) : Prop :=
  ∀ p q t, t ∈ k.tasks.threads p → t ∈ k.tasks.threads q → p = q

/-- The two are alike for the process: its signals, its state, that of its threads and its
    exit code. -/
structure SameTarget (p : Process) (k₁ k₂ : Kernel) : Prop where
  signals : k₂.signals p = k₁.signals p
  processState : k₂.tasks.processState p = k₁.tasks.processState p
  exitCode : k₂.exitCode p = k₁.exitCode p
  threadState : ∀ t ∈ k₁.tasks.threads p, k₂.tasks.threadState t = k₁.tasks.threadState t

/-- They are alike in all that decides how a call goes on. -/
structure Agree (p : Process) (k₁ k₂ : Kernel) : Prop extends SameTarget p k₁ k₂ where
  allSignals : k₂.signals = k₁.signals
  executionMode : k₂.executionMode = k₁.executionMode
  compatibility : k₂.compatibility = k₁.compatibility
  threads : k₂.tasks.threads = k₁.tasks.threads
  apart : Apart k₁

section Sender

variable {p w : Process} {k k₁ k₂ k₃ : Kernel}

theorem SameTarget.refl (p : Process) (k : Kernel) : SameTarget p k k :=
  ⟨rfl, rfl, rfl, fun _ _ => rfl⟩

theorem Agree.refl (p : Process) (h : Apart k) : Agree p k k :=
  ⟨.refl p k, rfl, rfl, rfl, rfl, h⟩

theorem Agree.symm (h : Agree p k₁ k₂) : Agree p k₂ k₁ where
  signals := h.signals.symm
  processState := h.processState.symm
  exitCode := h.exitCode.symm
  threadState := fun t ht => (h.threadState t (h.threads ▸ ht)).symm
  allSignals := h.allSignals.symm
  executionMode := h.executionMode.symm
  compatibility := h.compatibility.symm
  threads := h.threads.symm
  apart := by
    unfold Apart
    rw [h.threads]
    exact h.apart

theorem Agree.trans (h : Agree p k₁ k₂) (h' : Agree p k₂ k₃) : Agree p k₁ k₃ where
  signals := h'.signals.trans h.signals
  processState := h'.processState.trans h.processState
  exitCode := h'.exitCode.trans h.exitCode
  threadState := fun t ht =>
    (h'.threadState t (h.threads.symm ▸ ht)).trans (h.threadState t ht)
  allSignals := h'.allSignals.trans h.allSignals
  executionMode := h'.executionMode.trans h.executionMode
  compatibility := h'.compatibility.trans h.compatibility
  threads := h'.threads.trans h.threads
  apart := h.apart

theorem Agree.modifySignal (h : Agree p k₁ k₂) (w : Process) (f : Signal → Signal) :
    Agree p (k₁.modifySignal w f) (k₂.modifySignal w f) := by
  have hall : (k₂.modifySignal w f).signals = (k₁.modifySignal w f).signals := by
    simp only [Kernel.modifySignal, h.allSignals]
  exact ⟨⟨congrFun hall p, h.processState, h.exitCode, h.threadState⟩, hall, h.executionMode,
    h.compatibility, h.threads, h.apart⟩

theorem Agree.setState (hw : w ≠ p) (h : Apart k) (state : TaskState) :
    Agree p k (k.setState w state) where
  signals := rfl
  processState := Function.update_of_ne hw.symm _ _
  exitCode := rfl
  threadState := by
    intro t ht
    show (k.tasks.setState w state).threadState t = _
    rw [Custom.threadState_setState, if_neg]
    intro hsingle
    have hmem : t ∈ k.tasks.threads w := by
      rw [hsingle]
      exact List.mem_singleton_self t
    exact hw (h w p t hmem ht)
  allSignals := rfl
  executionMode := rfl
  compatibility := rfl
  threads := rfl
  apart := h

theorem Agree.setExitCode (hw : w ≠ p) (h : Apart k) (code : Int) :
    Agree p k (k.setExitCode w code) :=
  ⟨⟨rfl, rfl, Function.update_of_ne hw.symm _ _, fun _ _ => rfl⟩, rfl, rfl, rfl, rfl, h⟩

theorem Agree.takeDefault (hw : w ≠ p) (h : Apart k) (sig : Signo) (val : BitVec 64) :
    Agree p k (k.takeDefault w sig val).2 := by
  have hdie : ∀ state, Agree p k (k.die w sig val state).2 := by
    intro state
    have hcode := Agree.setExitCode hw h (k.makeExitCode w sig)
    exact hcode.trans (Agree.setState hw hcode.symm.apart _)
  unfold Kernel.takeDefault
  cases (k.signals w).disposition sig with
  | term => exact hdie .zombie
  | ign => exact .refl p h
  | core => exact hdie .coreDump
  | stop => exact Agree.setState hw h .stopped
  | cont => exact Agree.setState hw h .ready

/-- Both calls return, alike for the process, or neither does. -/
def Parallel (p : Process) : Option (Int × Kernel) → Option (Int × Kernel) → Prop :=
  Option.Rel fun x y => Agree p x.2 y.2

variable {send₁ send₂ : Kernel → Process → Option (Int × Kernel)} {info : SignalInfo}

theorem notifyWatchers_parallel
    (hsend : ∀ {k₁ k₂} who, Agree p k₁ k₂ → Parallel p (send₁ k₁ who) (send₂ k₂ who))
    (h : Agree p k₁ k₂) (whos : List Process) :
    Option.Rel (Agree p) (notifyWatchers send₁ k₁ whos) (notifyWatchers send₂ k₂ whos) := by
  induction whos generalizing k₁ k₂ with
  | nil => exact .some h
  | cons who rest ih =>
    have hone := hsend who h
    rw [notifyWatchers, notifyWatchers]
    generalize send₁ k₁ who = x at hone
    generalize send₂ k₂ who = y at hone
    cases hone with
    | none => exact .none
    | some hagree => exact ih hagree

theorem initTrampoline_agree (h : Agree p k₁ k₂) (w : Process) :
    Option.Rel (Agree p) (k₁.initTrampoline w) (k₂.initTrampoline w) := by
  unfold initTrampoline
  rw [h.allSignals, h.compatibility]
  split
  · exact .some h
  · split
    · exact .some (h.modifySignal w _)
    · exact .some (h.modifySignal w _)
    · exact .none
    · exact .some h

theorem completeSignal_parallel
    (hsend : ∀ {k₁ k₂} who, Agree p k₁ k₂ → Parallel p (send₁ k₁ who) (send₂ k₂ who))
    (h : Agree p k₁ k₂) (w : Process) :
    Parallel p (completeSignal send₁ k₁ w info) (completeSignal send₂ k₂ w info) := by
  unfold completeSignal
  rw [h.executionMode]
  split
  · exact .some h
  · have hinit := initTrampoline_agree h w
    generalize k₁.initTrampoline w = x at hinit
    generalize k₂.initTrampoline w = y at hinit
    cases hinit with
    | none => exact .none
    | @some a b hagree =>
      rw [Option.bind_some, Option.bind_some, hagree.allSignals]
      have hnotify := notifyWatchers_parallel hsend hagree
        (if (a.signals w).disposition info.sig = .ign then [] else (a.signals w).watchers)
      generalize notifyWatchers send₁ a _ = x at hnotify
      generalize notifyWatchers send₂ b _ = y at hnotify
      cases hnotify with
      | none => exact .none
      | some hagree =>
        exact .some (hagree.modifySignal w fun s => { s with queue := s.queue ++ [info] })

theorem sendWith_parallel {me₁ me₂ : Thread} (hw : w ≠ p)
    (hsend : ∀ {k₁ k₂} who, Agree p k₁ k₂ → Parallel p (send₁ k₁ who) (send₂ k₂ who))
    (h : Agree p k₁ k₂) :
    Parallel p (sendWith send₁ me₁ k₁ w info) (sendWith send₂ me₂ k₂ w info) := by
  have hreceived : Agree p (k₁.received w info.sig) (k₂.received w info.sig) :=
    h.modifySignal w _
  rw [sendWith_eq, sendWith_eq, action, action, h.allSignals, h.executionMode]
  split
  · split
    · exact .some hreceived
    · split
      · exact .some hreceived
      · exact completeSignal_parallel hsend hreceived w
  · -- Whether the mask blocks it is seen in the state of `w` only.
    have hfirst := Agree.takeDefault hw hreceived.apart info.sig info.val
    have hsecond := Agree.takeDefault hw hreceived.symm.apart info.sig info.val
    split
    · split
      · exact .some hreceived
      · exact .some (hreceived.trans hsecond)
    · split
      · exact .some (hfirst.symm.trans hreceived)
      · exact .some (hfirst.symm.trans (hreceived.trans hsecond))

theorem sendSignal_parallel {me₁ me₂ : Thread} (depth : Nat) {locked : List Process}
    (hp : p ∈ locked) (hw : w ∉ locked) (h : Agree p k₁ k₂) :
    Parallel p (sendSignal depth locked me₁ k₁ w info) (sendSignal depth locked me₂ k₂ w info) := by
  have hne : w ≠ p := fun heq => hw (heq ▸ hp)
  induction depth generalizing locked w k₁ k₂ info with
  | zero => exact sendWith_parallel hne (fun _ _ => .none) h
  | succ depth ih =>
    refine sendWith_parallel hne ?_ h
    intro k₁ k₂ who hagree
    split
    · exact .none
    · next hfree =>
      exact ih (List.mem_cons_of_mem w hp) hfree hagree fun heq =>
        hfree (heq ▸ List.mem_cons_of_mem w hp)

/-- `SetState` would change nothing. -/
def InState (k : Kernel) (p : Process) (state : TaskState) : Prop :=
  k.tasks.processState p = state ∧ ∀ t, k.tasks.threads p = [t] → k.tasks.threadState t = state

/-- The default effect of the signal would change nothing. -/
def Unmoved (k : Kernel) (p : Process) (sig : Signo) : Prop :=
  match (k.signals p).disposition sig with
  | .term => k.exitCode p = k.makeExitCode p sig ∧ k.InState p (k.killedState p .zombie)
  | .ign => True
  | .core => k.exitCode p = k.makeExitCode p sig ∧ k.InState p (k.killedState p .coreDump)
  | .stop => k.InState p .stopped
  | .cont => k.InState p .ready

theorem sameTarget_setState_iff {state : TaskState} :
    SameTarget p k (k.setState p state) ↔ k.InState p state := by
  constructor
  · intro h
    refine ⟨?_, fun t ht => ?_⟩
    · rw [← h.processState]
      exact Function.update_self _ _ _
    · have hmem : t ∈ k.tasks.threads p := by
        rw [ht]
        exact List.mem_singleton_self t
      rw [← h.threadState t hmem]
      show (k.tasks.setState p state).threadState t = state
      rw [Custom.threadState_setState, if_pos ht]
  · rintro ⟨hprocess, hthread⟩
    refine ⟨rfl, ?_, rfl, fun t _ => ?_⟩
    · rw [hprocess]
      exact Function.update_self _ _ _
    · show (k.tasks.setState p state).threadState t = _
      rw [Custom.threadState_setState]
      split
      · next hsingle => exact (hthread t hsingle).symm
      · rfl

variable {sig : Signo}

theorem sameTarget_die_iff {val : BitVec 64} {state : TaskState} :
    SameTarget p k (k.die p sig val state).2 ↔
      k.exitCode p = k.makeExitCode p sig ∧ k.InState p (k.killedState p state) := by
  have hcode : (k.die p sig val state).2.exitCode p = k.makeExitCode p sig :=
    Function.update_self _ _ _
  constructor
  · intro h
    refine ⟨h.exitCode.symm.trans hcode, sameTarget_setState_iff.mp ?_⟩
    exact ⟨rfl, h.processState, rfl, h.threadState⟩
  · rintro ⟨hexit, hin⟩
    have hstate := sameTarget_setState_iff.mpr hin
    exact ⟨rfl, hstate.processState, hcode.trans hexit.symm, hstate.threadState⟩

theorem sameTarget_takeDefault_iff (val : BitVec 64) :
    SameTarget p k (k.takeDefault p sig val).2 ↔ k.Unmoved p sig := by
  unfold Kernel.takeDefault Unmoved
  cases (k.signals p).disposition sig with
  | term => exact sameTarget_die_iff
  | ign => exact iff_of_true (.refl p k) trivial
  | core => exact sameTarget_die_iff
  | stop => exact sameTarget_setState_iff
  | cont => exact sameTarget_setState_iff

theorem unmoved_received : (k.received p sig).Unmoved p sig ↔ k.Unmoved p sig := by
  unfold Unmoved killedState
  rw [received_signals]
  exact Iff.rfl

theorem SameTarget.symm (h : SameTarget p k₁ k₂) (hthreads : k₂.tasks.threads = k₁.tasks.threads) :
    SameTarget p k₂ k₁ :=
  ⟨h.signals.symm, h.processState.symm, h.exitCode.symm,
    fun t ht => (h.threadState t (hthreads ▸ ht)).symm⟩

/-- Both calls return, alike for the process, or neither does. -/
def SameResult (p : Process) : Option (Int × Kernel) → Option (Int × Kernel) → Prop :=
  Option.Rel fun x y => SameTarget p x.2 y.2

theorem Parallel.sameResult {x y : Option (Int × Kernel)} (h : Parallel p x y) :
    SameResult p x y := by
  cases h with
  | none => exact .none
  | some h => exact .some h.toSameTarget

theorem sameResult_some {x y : Int × Kernel} :
    SameResult p (some x) (some y) ↔ SameTarget p x.2 y.2 := by
  constructor
  · intro h
    cases h with
    | some h => exact h
  · exact fun h => .some h

/-- Two threads send the signal to the same effect on the process. -/
def SameEffect (depth : Nat) (k : Kernel) (p : Process) (info : SignalInfo) (a b : Thread) : Prop :=
  SameResult p (sendSignal depth [] a k p info) (sendSignal depth [] b k p info)

theorem sameEffect_of_action (hapart : Apart k) (depth : Nat) (a b : Thread)
    (hset : (k.action p info.sig).handler ≠ sigDfl) : SameEffect depth k p info a b := by
  have hreceived : Agree p (k.received p info.sig) (k.received p info.sig) :=
    (Agree.refl p hapart).modifySignal p _
  -- The nested calls go to processes other than `p`, whose lock is held.
  have hpair : ∃ send₁ send₂, sendSignal depth [] a k p info = sendWith send₁ a k p info ∧
      sendSignal depth [] b k p info = sendWith send₂ b k p info ∧
      ∀ {k₁ k₂} who, Agree p k₁ k₂ → Parallel p (send₁ k₁ who) (send₂ k₂ who) := by
    cases depth with
    | zero => exact ⟨fun _ _ => none, fun _ _ => none, rfl, rfl, fun _ _ => .none⟩
    | succ depth =>
      refine ⟨_, _, rfl, rfl, ?_⟩
      intro k₁ k₂ who h
      split
      · exact .none
      · next hfree => exact sendSignal_parallel depth List.mem_cons_self hfree h
  obtain ⟨send₁, send₂, h₁, h₂, hsend⟩ := hpair
  rw [SameEffect, h₁, h₂, sendWith_eq, sendWith_eq, if_pos hset, if_pos hset]
  split
  · exact .some (.refl p _)
  · split
    · exact .some (.refl p _)
    · exact (completeSignal_parallel hsend hreceived p).sameResult

/-- The sender makes no difference exactly if there is an action for the signal, or both
    senders block it or neither does, or its default effect is none. -/
theorem sameEffect_iff (hapart : Apart k) (depth : Nat) (info : SignalInfo) (a b : Thread) :
    SameEffect depth k p info a b ↔
      (k.action p info.sig).handler ≠ sigDfl ∨
        blocks (k.mask a) info.sig = blocks (k.mask b) info.sig ∨ k.Unmoved p info.sig := by
  by_cases hdfl : (k.action p info.sig).handler = sigDfl
  · obtain ⟨send₁, h₁, -⟩ := sendSignal_nested depth [] a p info.val
    obtain ⟨send₂, h₂, -⟩ := sendSignal_nested depth [] b p info.val
    rw [SameEffect, h₁ k info.sig info.tid, h₂ k info.sig info.tid, sendWith_default hdfl, sendWith_default hdfl, sameResult_some,
      ← unmoved_received, ← sameTarget_takeDefault_iff info.val]
    have hthreads : ((k.received p info.sig).takeDefault p info.sig info.val).2.tasks.threads =
        (k.received p info.sig).tasks.threads :=
      (touches_takeDefault List.not_mem_nil info.sig info.val).sameTables.threads
    have hrefl := SameTarget.refl p
    cases blocks (k.mask a) info.sig <;> cases blocks (k.mask b) info.sig
    · simp [hdfl, hrefl]
    · -- only the second sender blocks it
      simp only [hdfl, Bool.false_eq_true, if_true, if_false, ne_eq, not_true, false_or]
      exact ⟨fun h => h.symm hthreads.symm, fun h => h.symm hthreads⟩
    · simp [hdfl]
    · simp [hdfl, hrefl]
  · exact iff_of_true (sameEffect_of_action hapart depth a b hdfl) (.inl hdfl)

end Sender

/-! ## Section 2: Pending signals -/

/-- Every thread of the process blocks the signal, and the call does not make the process
    ignore it. -/
def KeepsBlocked (p : Process) (sig : Signo) (k : Kernel) : SignalEvent → Prop
  | .setAction q sig' act => (∀ t ∈ k.tasks.threads p, blocks (k.mask t) sig = true) ∧
      ¬ (q = p ∧ sig' = sig ∧ act.handler = sigIgn)
  | _ => ∀ t ∈ k.tasks.threads p, blocks (k.mask t) sig = true

/-- The signal is in the queue of the process. -/
def Queued (p : Process) (info : SignalInfo) (k : Kernel) : Prop :=
  info ∈ (k.signals p).queue

/-- The call has put the signal into the queue, where it stays for as long as every thread
    blocks it and it is not ignored. -/
def StaysPending (depth : Nat) (k k' : Kernel) (p : Process) (info : SignalInfo) : Prop :=
  (k'.signals p).queue = (k.signals p).queue ++ [info] ∧
    ∀ k'', ((signalRuns depth (· = k')).restrict (KeepsBlocked p info.sig)).Reachable k'' →
      Queued p info k''

/-- The process is not the kernel's and has a handler for the signal. -/
def Takes (k : Kernel) (p : Process) (sig : Signo) : Prop :=
  k.executionMode p ≠ .kernel ∧ (k.action p sig).isHandler = true

section Pending

variable {depth : Nat} {p : Process} {k k' : Kernel} {info : SignalInfo}

theorem Touch.queue {q : Process} (h : Touch q k k') (p : Process) :
    (k'.signals p).queue = (k.signals p).queue ∨
      ∃ info, (k.action p info.sig).isHandler = true ∧
        (k'.signals p).queue = (k.signals p).queue ++ [info] := by
  cases h with
  | lastSignal | trampoline =>
    rw [signals_modifySignal]
    split <;> exact .inl rfl
  | push info hhandler =>
    rw [signals_modifySignal]
    split
    · next hq =>
      subst hq
      exact .inr ⟨info, hhandler, rfl⟩
    · exact .inl rfl
  | exitCode code => exact .inl rfl
  | state state => exact .inl rfl

theorem Touches.queued {locked : List Process} (h : Touches locked k k')
    (hqueued : Queued p info k) : Queued p info k' := by
  refine Touches.invariant ?_ h hqueued
  intro k₁ k₂ q _ htouch hmem
  unfold Queued at hmem ⊢
  obtain heq | ⟨info', -, heq⟩ := htouch.queue p
  · rwa [heq]
  · rw [heq]
    exact List.mem_append_left _ hmem

theorem mem_eraseP {q : SignalInfo → Bool} {queue : List SignalInfo} (hnot : q info = false)
    (hmem : info ∈ queue) : info ∈ queue.eraseP q := by
  rw [List.mem_eraseP_of_neg]
  · exact hmem
  · rw [hnot]
    exact Bool.false_ne_true

theorem Queued.step {event : SignalEvent} (hkeeps : KeepsBlocked p info.sig k event)
    (hstep : k.applySignal depth event = some k') (hmem : Queued p info k) :
    Queued p info k' := by
  obtain ⟨q, sig, act, rfl, rfl⟩ | ⟨t, mask, rfl, rfl⟩ | ⟨me, q, info', rfl, htouches⟩ |
    ⟨q, t, reread, rfl, ht, rfl | ⟨info', mask, -, rfl⟩⟩ := applySignal_cases hstep
  · rw [Queued, Kernel.setAction, signals_modifySignal]
    split
    · next hq =>
      simp only [Signal.setAction]
      split
      · next hign =>
        refine mem_eraseP ?_ hmem
        rw [decide_eq_false_iff_not]
        intro hsig
        exact hkeeps.2 ⟨hq.symm, hsig.symm, hign⟩
      · exact hmem
    · exact hmem
  · exact hmem
  · exact htouches.queued hmem
  · exact hmem
  · show info ∈ ((k.modifySignal q fun s =>
      { s with queue := s.queue.eraseP (k.available t) }).signals p).queue
    rw [signals_modifySignal]
    split
    · next hq =>
      refine mem_eraseP ?_ hmem
      have hblocked := hkeeps t (by rw [hq]; exact ht)
      simp [available, hblocked]
    · exact hmem

theorem signals_takeDefault (k : Kernel) (p : Process) (sig : Signo) (val : BitVec 64) :
    (k.takeDefault p sig val).2.signals = k.signals := by
  unfold Kernel.takeDefault
  split <;> rfl

theorem queue_of_not_takes (depth : Nat) (me : Thread) (hnot : ¬ k.Takes p info.sig) :
    ∃ r k', sendSignal depth [] me k p info = some (r, k') ∧
      (k'.signals p).queue = (k.signals p).queue := by
  obtain ⟨send, hsend, -⟩ := sendSignal_nested depth [] me p info.val
  have hreceived : ((k.received p info.sig).signals p).queue = (k.signals p).queue := by
    rw [received_signals]
  rw [hsend k info.sig info.tid, sendWith_eq]
  split
  · next hset =>
    split
    · exact ⟨_, _, rfl, hreceived⟩
    · next hmode =>
      split
      · exact ⟨_, _, rfl, hreceived⟩
      · next hign => exact absurd ⟨hmode, (isHandler_iff _).mpr ⟨hset, hign⟩⟩ hnot
  · split
    · exact ⟨_, _, rfl, hreceived⟩
    · have hsignals := congrFun (signals_takeDefault (k.received p info.sig) p info.sig info.val) p
      exact ⟨_, _, rfl, (congrArg Signal.queue hsignals).trans hreceived⟩

theorem staysPending_iff (depth : Nat) (me : Thread) (k : Kernel) (p : Process)
    (info : SignalInfo) :
    (∀ r k', sendSignal depth [] me k p info = some (r, k') → StaysPending depth k k' p info) ↔
      k.Takes p info.sig := by
  constructor
  · intro hall
    by_contra hnot
    obtain ⟨r, k', hsend, hqueue⟩ := queue_of_not_takes depth me hnot
    have happend := (hall r k' hsend).1
    rw [hqueue] at happend
    have hlength := congrArg List.length happend
    rw [List.length_append, List.length_singleton] at hlength
    omega
  · intro htakes r k' hsend
    have hset := ((isHandler_iff _).mp htakes.2).1
    have hqueue := (sendSignal_action info hset hsend).2.2 htakes.1 htakes.2
    refine ⟨hqueue, fun k'' hreachable => ?_⟩
    refine System.Reachable.invariant ?_ ?_ hreachable
    · rintro k rfl
      rw [Queued, hqueue]
      exact List.mem_append_right _ (List.mem_singleton_self info)
    · rintro k event k' hmem ⟨hkeeps, hstep⟩
      exact hmem.step hkeeps hstep

/-- **Sending.** Two senders have the same effect on a process exactly if there is an action
    for the signal, both block it or neither does, or its default effect is none. A signal
    stays pending while it is blocked and not ignored exactly if the process takes it. -/
theorem sending_iff (hapart : Apart k) (depth : Nat) (p : Process) (info : SignalInfo)
    (a b : Thread) :
    (SameEffect depth k p info a b ↔
      (k.action p info.sig).handler ≠ sigDfl ∨
        blocks (k.mask a) info.sig = blocks (k.mask b) info.sig ∨ k.Unmoved p info.sig) ∧
    ((∀ r k', sendSignal depth [] a k p info = some (r, k') → StaysPending depth k k' p info) ↔
      k.Takes p info.sig) :=
  ⟨sameEffect_iff hapart depth info a b, staysPending_iff depth a k p info⟩

/-- Process 2 has two threads. Thread 3 blocks nothing, and all others block every signal. -/
def exampleSenders : Kernel :=
  { examplePair with
    tasks := { examplePair.tasks with
      threadVector := fun p => ⟨if p = 1 then [1] else if p = 2 then [2, 3] else [], []⟩ }
    mask := fun t => if t = 3 then 0 else BitVec.allOnes 64 }

theorem apart_exampleSenders : Apart exampleSenders := by
  intro p q t hp hq
  have hlists : ∀ p, exampleSenders.tasks.threads p =
      if p = 1 then [1] else if p = 2 then [2, 3] else [] := fun _ => rfl
  rw [hlists] at hp hq
  grind

theorem sending_iff_exampleSenders :
    Apart exampleSenders ∧ SameEffect 0 exampleSenders 1 ⟨.term, 0, -1⟩ 2 1 :=
  ⟨apart_exampleSenders,
    (sending_iff apart_exampleSenders 0 1 ⟨.term, 0, -1⟩ 2 1).1.mpr (.inr (.inl rfl))⟩

/-- Every thread of process 1 blocks `SIGTERM`. Sent by thread 2 it is lost, and sent by
    thread 3 it terminates the process. -/
theorem sender_mask_decides :
    (∀ t ∈ exampleSenders.tasks.threads 1, blocks (exampleSenders.mask t) .term = true) ∧
      ∃ r₁ k₁ r₂ k₂,
        sendSignal 0 [] 2 exampleSenders 1 ⟨.term, 0, -1⟩ = some (r₁, k₁) ∧
        sendSignal 0 [] 3 exampleSenders 1 ⟨.term, 0, -1⟩ = some (r₂, k₂) ∧
        (k₁.signals 1).queue = [] ∧ k₁.tasks.processState 1 = .ready ∧
        (k₂.signals 1).queue = [] ∧ k₂.tasks.processState 1 = .terminated := by
  obtain ⟨r₁, k₁, h₁, hqueue₁, hstate₁⟩ : ∃ r k,
      sendSignal 0 [] 2 exampleSenders 1 ⟨.term, 0, -1⟩ = some (r, k) ∧
        (k.signals 1).queue = [] ∧ k.tasks.processState 1 = .ready := by decide +kernel
  obtain ⟨r₂, k₂, h₂, hqueue₂, hstate₂⟩ : ∃ r k,
      sendSignal 0 [] 3 exampleSenders 1 ⟨.term, 0, -1⟩ = some (r, k) ∧
        (k.signals 1).queue = [] ∧ k.tasks.processState 1 = .terminated := by decide +kernel
  exact ⟨by decide, r₁, k₁, r₂, k₂, h₁, h₂, hqueue₁, hstate₁, hqueue₂, hstate₂⟩

end Pending

/-! ## Section 3: Signals without handler -/

/-- Every signal in a queue has a handler. -/
def AllHandled (k : Kernel) : Prop :=
  ∀ p, ∀ info ∈ (k.signals p).queue, (k.action p info.sig).isHandler = true

/-- The number of instances of a signal in the queue. -/
def instances (k : Kernel) (p : Process) (sig : Signo) : Nat :=
  (k.signals p).queue.countP (·.sig = sig)

/-- No action is set to ignore while two instances of the signal are queued, and none to
    default while one is. -/
def Purged (k : Kernel) : SignalEvent → Prop
  | .setAction p sig act => (act.handler = sigIgn → k.instances p sig ≤ 1) ∧
      (act.handler = sigDfl → k.instances p sig = 0)
  | _ => True

section Handled

variable {depth : Nat} {p : Process} {k k' : Kernel} {t : Thread}

theorem countP_eraseP (q : SignalInfo → Bool) (queue : List SignalInfo) :
    (queue.eraseP q).countP q = queue.countP q - 1 := by
  induction queue with
  | nil => rfl
  | cons info queue ih =>
    cases hq : q info with
    | true => rw [List.eraseP_cons_of_pos hq, List.countP_cons_of_pos hq, Nat.add_sub_cancel]
    | false =>
      have hneg : ¬ q info = true := by
        rw [hq]
        exact Bool.false_ne_true
      rw [List.eraseP_cons_of_neg hneg, List.countP_cons_of_neg hneg,
        List.countP_cons_of_neg hneg, ih]

theorem queue_setAction (k : Kernel) (p : Process) (sig : Signo) (act : SignalAction) :
    ((k.setAction p sig act).signals p).queue =
      if act.handler = sigIgn then (k.signals p).queue.eraseP (·.sig = sig)
      else (k.signals p).queue := by
  rw [Kernel.setAction, modifySignal_signals_self]
  unfold Signal.setAction
  split
  · rfl
  · split <;> rfl

theorem action_setAction (k : Kernel) (p q : Process) (sig sig' : Signo) (act : SignalAction) :
    (k.setAction p sig act).action q sig' =
      if q = p ∧ sig' = sig then act else k.action q sig' := by
  rw [action, Kernel.setAction, signals_modifySignal]
  by_cases hq : q = p
  · rw [if_pos hq]
    change update (k.signals q).sa sig act sig' = _
    by_cases hsig : sig' = sig
    · rw [if_pos ⟨hq, hsig⟩, hsig, Function.update_self]
    · rw [if_neg fun h => hsig h.2, Function.update_of_ne hsig]
  · rw [if_neg hq, if_neg fun h => hq h.1]

theorem allHandled_setAction (hk : AllHandled k) (p : Process) (sig : Signo)
    (act : SignalAction) :
    AllHandled (k.setAction p sig act) ↔
      act.isHandler = true ∨ (k.setAction p sig act).instances p sig = 0 := by
  rw [instances, List.countP_eq_zero]
  constructor
  · intro hall
    by_contra hnot
    push Not at hnot
    obtain ⟨hact, info, hmem, hsig⟩ := hnot
    have hhandler := hall p info hmem
    rw [action_setAction, if_pos ⟨rfl, of_decide_eq_true hsig⟩] at hhandler
    exact hact hhandler
  · intro hor q info hmem
    rw [action_setAction]
    have hold : info ∈ (k.signals q).queue := by
      by_cases hq : q = p
      · subst hq
        rw [queue_setAction] at hmem
        split at hmem
        · exact List.mem_of_mem_eraseP hmem
        · exact hmem
      · rwa [Kernel.setAction, signals_modifySignal, if_neg hq] at hmem
    split
    · next hnew =>
      obtain ⟨rfl, hsig⟩ := hnew
      exact hor.resolve_right fun hnone => hnone info hmem (decide_eq_true hsig)
    · exact hk q info hold

theorem allHandled_setAction_iff (hk : AllHandled k) (p : Process) (sig : Signo)
    (act : SignalAction) :
    AllHandled (k.setAction p sig act) ↔ Purged k (.setAction p sig act) := by
  rw [allHandled_setAction hk, instances, queue_setAction]
  show _ ↔ (_ → k.instances p sig ≤ 1) ∧ (_ → k.instances p sig = 0)
  by_cases hign : act.handler = sigIgn
  · have hdfl : act.handler ≠ sigDfl := by
      rw [hign]
      decide
    have hact : ¬ act.isHandler = true := fun h => ((isHandler_iff act).mp h).2 hign
    rw [if_pos hign, countP_eraseP, or_iff_right hact, and_iff_left fun h => absurd h hdfl,
      forall_prop_of_true hign]
    exact Nat.sub_eq_zero_iff_le
  · rw [if_neg hign]
    by_cases hdfl : act.handler = sigDfl
    · have hact : ¬ act.isHandler = true := fun h => ((isHandler_iff act).mp h).1 hdfl
      rw [or_iff_right hact, and_iff_right fun h => absurd h hign, forall_prop_of_true hdfl]
      rfl
    · exact iff_of_true (.inl ((isHandler_iff act).mpr ⟨hdfl, hign⟩))
        ⟨fun h => absurd h hign, fun h => absurd h hdfl⟩

theorem Touches.allHandled {locked : List Process} (h : Touches locked k k')
    (hk : AllHandled k) : AllHandled k' := by
  refine Touches.invariant ?_ h hk
  intro k₁ k₂ q _ htouch hk p info hmem
  rw [action, htouch.sameTables.sa]
  obtain heq | ⟨info', hhandler, heq⟩ := htouch.queue p
  · rw [heq] at hmem
    exact hk p info hmem
  · rw [heq, List.mem_append, List.mem_singleton] at hmem
    obtain hold | rfl := hmem
    · exact hk p info hold
    · exact hhandler

theorem allHandled_step {event : SignalEvent} (hk : AllHandled k) (hpurged : Purged k event)
    (hstep : k.applySignal depth event = some k') : AllHandled k' := by
  obtain ⟨p, sig, act, rfl, rfl⟩ | ⟨t, mask, rfl, rfl⟩ | ⟨me, p, info, rfl, htouches⟩ |
    ⟨p, t, reread, rfl, ht, rfl | ⟨info, mask, -, rfl⟩⟩ := applySignal_cases hstep
  · exact (allHandled_setAction_iff hk p sig act).mpr hpurged
  · exact hk
  · exact htouches.allHandled hk
  · exact hk
  · intro q info hmem
    change info ∈ ((k.modifySignal p fun s =>
      { s with queue := s.queue.eraseP (k.available t) }).signals q).queue at hmem
    change (((k.modifySignal p fun s =>
      { s with queue := s.queue.eraseP (k.available t) }).signals q).sa info.sig).isHandler = true
    rw [signals_modifySignal] at hmem ⊢
    split at hmem
    · next hq =>
      rw [if_pos hq]
      exact hk q info (List.mem_of_mem_eraseP hmem)
    · next hq =>
      rw [if_neg hq]
      exact hk q info hmem

/-- **Queued signals have handlers.** In a run in which every action is set as `Purged` asks,
    what `GetAvailableSignal` examines has a handler, and so its assertions hold. -/
theorem queued_have_handlers
    (h : ((signalRuns depth Fresh).restrict Purged).Reachable k) (p : Process) (t : Thread) :
    (∀ info, (k.signals p).queue.find? (k.available t) = some info →
      (k.action p info.sig).isHandler = true) ∧
    ∀ reread, k.getAvailableSignal p t reread ≠ none := by
  have hall : AllHandled k := by
    refine System.Reachable.invariant ?_ ?_ h
    · intro k hfresh p info hmem
      rw [(hfresh p).1] at hmem
      cases hmem
    · rintro k event k' hk ⟨hpurged, hstep⟩
      exact allHandled_step hk hpurged hstep
  have hfound : ∀ info, (k.signals p).queue.find? (k.available t) = some info →
      (k.action p info.sig).isHandler = true :=
    fun info hfind => hall p info (List.mem_of_find?_eq_some hfind)
  refine ⟨hfound, fun reread hnone => ?_⟩
  unfold getAvailableSignal at hnone
  split at hnone
  · cases hnone
  · next info hfind =>
    rw [if_pos (hfound info hfind)] at hnone
    cases hnone

/-- Process 1 of `examplePair` with a handler for `SIGUSR1`. -/
def exampleHandler : Kernel := examplePair.setAction 1 .usr1 ⟨0x1000, 0, 0, 0⟩

theorem queued_have_handlers_sent :
    ∃ k, ((signalRuns 0 Fresh).restrict Purged).Reachable k ∧
      ∃ info, (k.signals 1).queue.find? (k.available 1) = some info ∧
        (k.action 1 info.sig).isHandler = true := by
  have hpurged : Purged examplePair (.setAction 1 .usr1 ⟨0x1000, 0, 0, 0⟩) :=
    ⟨fun h => absurd h (by decide), fun h => absurd h (by decide)⟩
  obtain ⟨k, hsend, hfind⟩ : ∃ k, exampleHandler.applySignal 0 (.send 2 1 ⟨.usr1, 0, -1⟩) = some k ∧
      (k.signals 1).queue.find? (k.available 1) = some ⟨.usr1, 0, -1⟩ := by
    decide +kernel
  have hreachable : ((signalRuns 0 Fresh).restrict Purged).Reachable k :=
    .step (.step (.init fresh_examplePair) ⟨hpurged, rfl⟩)
      ⟨show Purged exampleHandler (.send 2 1 ⟨.usr1, 0, -1⟩) from trivial, hsend⟩
  exact ⟨k, hreachable, _, hfind, (queued_have_handlers hreachable 1 1).1 _ hfind⟩

/-- `SIGUSR1` is sent twice and then ignored: `SetAction` discards the first of the two, and
    the second fails the assertion. -/
theorem ignored_signal_stays :
    ∃ k info, (signalRuns 0 Fresh).Reachable k ∧ k.executionMode 1 = .user ∧
      (k.signals 1).queue.find? (k.available 1) = some info ∧
      (k.action 1 info.sig).handler = sigIgn ∧ k.getAvailableSignal 1 1 none = none := by
  obtain ⟨k, hrun, hmode, hfind, haction, hfails⟩ : ∃ k,
      [.setAction 1 .usr1 ⟨0x1000, 0, 0, 0⟩, .send 2 1 ⟨.usr1, 0, -1⟩, .send 2 1 ⟨.usr1, 0, -1⟩,
        .setAction 1 .usr1 ⟨sigIgn, 0, 0, 0⟩].foldlM (applySignal 0) examplePair = some k ∧
      k.executionMode 1 = .user ∧
      (k.signals 1).queue.find? (k.available 1) = some ⟨.usr1, 0, -1⟩ ∧
      (k.action 1 .usr1).handler = sigIgn ∧ (k.getAvailableSignal 1 1 none).isNone := by
    decide +kernel
  exact ⟨k, _, .foldlM id (.init fresh_examplePair) hrun, hmode, hfind, haction,
    Option.isNone_iff_eq_none.mp hfails⟩

end Handled

end Kernel

end Fennix.Tasking
