import Fennix.Tasking.Deleting
import Fennix.Tasking.Running
import Fennix.Tasking.SignalDelivery

/-! # Stopped and dead processes

    A signal stops or kills a process with `PCB::SetState`, which sets the state of
    its thread as well only if it has one thread. `Schedule` looks at the states of
    the processes and at those of the threads, copies some of them to the others, and
    searches the current process for a ready thread whatever the state of the process.

    `halted_do_not_run`: in runs in which signals halt processes only as `Steady` asks,
    a halted process stays as it is and is not selected.
-/

namespace Fennix.Tasking

open Function (update update_of_ne update_self)

/-- The states that a process is stopped or killed with. -/
def TaskState.halting (state : TaskState) : Bool :=
  state = .stopped || state = .zombie || state = .coreDump

namespace Custom

/-! ## Section 1: A halted process -/

/-- The process has one thread, in this state, or several, of which none is terminated and
    not all are sleeping. -/
def Held (s : Custom) (p : Process) (state : TaskState) : Prop :=
  (∃ t, s.threads p = [t] ∧ s.threadState t = state) ∨
    2 ≤ (s.threads p).length ∧ (∀ t ∈ s.threads p, s.threadState t ≠ .terminated) ∧
      ∃ t ∈ s.threads p, s.threadState t ≠ .sleeping

/-- The process is in this state, and nothing that `Schedule` does changes that. -/
structure Rests (p : Process) (state : TaskState) (s : Custom) : Prop where
  halting : state.halting = true
  processState : s.processState p = state
  idle : p ≠ s.idleProcess
  held : p ∉ s.deletedProcesses → s.Held p state
  followers : ∀ ct, p ∉ s.deletedProcesses → s.currentProcess = some p →
    s.currentThread = some ct → ∀ t ∈ s.followers p ct, s.eligible t = false

section Rests

variable {s s' : Custom} {p q : Process} {t : Thread} {state : TaskState}

theorem Rests.ne (h : Rests p state s) {other : TaskState} (hother : other.halting = false) :
    state ≠ other := by
  intro heq
  have := h.halting
  rw [heq, hother] at this
  cases this

theorem Held.not_terminated (h : s.Held p state) (hstate : state ≠ .terminated)
    (ht : t ∈ s.threads p) : s.threadState t ≠ .terminated := by
  obtain ⟨u, hthreads, hu⟩ | ⟨-, hnone, -⟩ := h
  · rw [hthreads, List.mem_singleton] at ht
    rw [ht, hu]
    exact hstate
  · exact hnone t ht

theorem Held.congr (h : s.Held p state) (hthreads : s'.threads p = s.threads p)
    (hstate : ∀ t ∈ s.threads p, s'.threadState t = s.threadState t) : s'.Held p state := by
  obtain ⟨t, hone, ht⟩ | ⟨hlen, hnone, t, ht, hawake⟩ := h
  · refine .inl ⟨t, hthreads.trans hone, ?_⟩
    rw [hstate t (by rw [hone]; exact List.mem_singleton_self t)]
    exact ht
  · refine .inr ⟨by rw [hthreads]; exact hlen, ?_, t, by rw [hthreads]; exact ht, ?_⟩
    · intro u hu
      rw [hthreads] at hu
      rw [hstate u hu]
      exact hnone u hu
    · rw [hstate t ht]
      exact hawake

variable {ct : Thread} {time : Thread → Nat} {found : Option (Process × Thread)}

theorem not_mem_followers (hs : Sound s) : ct ∉ s.followers p ct := by
  intro hmem
  have hdrop : ((s.threads p).dropWhile (· ≠ ct)).Nodup :=
    (hs.threadsNodup p).sublist (List.dropWhile_sublist _)
  unfold followers at hmem
  cases hlist : (s.threads p).dropWhile (· ≠ ct) with
  | nil =>
    rw [hlist] at hmem
    cases hmem
  | cons u rest =>
    have hne : (s.threads p).dropWhile (· ≠ ct) ≠ [] := by
      rw [hlist]
      exact List.cons_ne_nil u rest
    have hhead := List.head_dropWhile_not (fun x => decide (x ≠ ct)) hne
    simp only [hlist, List.head_cons] at hhead
    obtain rfl : u = ct := by simpa using hhead
    rw [hlist] at hdrop hmem
    exact (List.nodup_cons.mp hdrop).1 hmem

theorem Rests.states (h : Rests p state s) (ps : Process → TaskState) (ts : Thread → TaskState)
    (su : Thread → Nat) (hprocess : ps p = state)
    (hthreads : ∀ t ∈ s.threads p, ts t = s.threadState t) :
    Rests p state { s with processState := ps, threadState := ts, sleepUntil := su } where
  halting := h.halting
  processState := hprocess
  idle := h.idle
  held := fun hp => (h.held hp).congr rfl hthreads
  followers := by
    intro ct hp hcp hct t ht
    have heligible := h.followers ct hp hcp hct t ht
    rw [eligible] at heligible ⊢
    rw [← heligible, ← hthreads t (mem_of_mem_followers ht)]

theorem Rests.removes (h : Rests p state s) (hprogress : Progress p s s') (hremoves : Removes s s') :
    Rests p state s' := by
  have hthreads : p ∉ s'.deletedProcesses → s'.threads p = s.threads p := fun hp => by
    rw [threads, hprogress.spares.resolve_left hp]
  have hdeleted : p ∉ s'.deletedProcesses → p ∉ s.deletedProcesses :=
    fun hp hmem => hp (hprogress.shrinks.deletedProcesses hmem)
  obtain ⟨pv, tv, cv, dp, dt, rfl⟩ := hremoves
  refine ⟨h.halting, h.processState, h.idle, fun hp => ?_, fun ct hp hcp hct t ht => ?_⟩
  · exact (h.held (hdeleted hp)).congr (hthreads hp) fun _ _ => rfl
  · rw [Custom.followers, hthreads hp] at ht
    exact h.followers ct (hdeleted hp) hcp hct t ht

theorem Rests.progress_removeProcess (h : Rests p state s) (hs : Sound s)
    (hremove : s.removeProcess q = some s') : Progress p s s' := by
  have hshrinks := ofDeletion_shrinks.removeProcess hremove
  refine ⟨hshrinks.sound hs, ?_, hshrinks⟩
  by_cases hp : p ∈ s.deletedProcesses
  · exact .inl (hshrinks.deletedProcesses hp)
  · have hprocess : s.processState p ≠ .terminated := by
      rw [h.processState]
      exact h.ne rfl
    exact spares_removeProcess hs hprocess
      (fun t ht => (h.held hp).not_terminated (h.ne rfl) ht) hremove

theorem Rests.removeProcess (h : Rests p state s) (hs : Sound s)
    (hremove : s.removeProcess q = some s') : Rests p state s' :=
  h.removes (h.progress_removeProcess hs hremove) (ofDeletion_removes.removeProcess hremove)

/-! ## Section 2: The stages of `Schedule` -/

theorem Sound.states (h : Sound s) (ps : Process → TaskState) (ts : Thread → TaskState)
    (su : Thread → Nat) :
    Sound { s with processState := ps, threadState := ts, sleepUntil := su } :=
  ⟨h.nodup, h.threadsNodup, h.rooted, h.deleted, h.idle, h.current⟩

theorem Sound.settles (h : Sound s) (hsettles : Settles s s') : Sound s' := by
  obtain ⟨ps, ts, su, rfl, -⟩ := hsettles
  exact h.states ps ts su

theorem Rests.preempt (h : Rests p state s) (hs : Sound s) {cp : Process}
    (hcp : s.currentProcess = some cp) (hct : s.currentThread = some ct) :
    Rests p state (s.preempt cp ct) := by
  have hrunning : state ≠ .running := h.ne rfl
  have hprocess : (s.preempt cp ct).processState p = state := by
    unfold Custom.preempt
    dsimp only
    split
    · next hcpr =>
      have hne : p ≠ cp := by
        rintro rfl
        exact hrunning (h.processState.symm.trans hcpr)
      rw [update_of_ne hne]
      exact h.processState
    · exact h.processState
  by_cases hmem : ct ∈ s.threads p ∧ s.threadState ct = .running
  · -- one of several threads of the process becomes ready
    obtain ⟨hmem, hct'⟩ := hmem
    have hthread : ∀ t, (s.preempt cp ct).threadState t =
        if t = ct then .ready else s.threadState t := by
      intro t
      unfold Custom.preempt
      dsimp only
      rw [if_pos hct', Function.update_apply]
    refine ⟨h.halting, hprocess, h.idle, fun hp => ?_, fun ct' hp hcp' hct'' t ht => ?_⟩
    · obtain ⟨t, hone, ht⟩ | ⟨hlen, hnone, -⟩ := h.held hp
      · rw [hone, List.mem_singleton] at hmem
        rw [← hmem, hct'] at ht
        exact absurd ht.symm hrunning
      · refine .inr ⟨hlen, fun t ht => ?_, ct, hmem, ?_⟩
        · rw [hthread]
          split
          · decide
          · exact hnone t ht
        · rw [hthread, if_pos rfl]
          decide
    · obtain rfl := Option.mem_unique hct hct''
      have hne : t ≠ ct := fun heq => not_mem_followers hs (heq ▸ ht)
      have heligible := h.followers ct hp hcp' hct t ht
      rw [eligible] at heligible ⊢
      rw [hthread, if_neg hne]
      exact heligible
  · refine h.states _ _ _ hprocess fun t ht => ?_
    split
    · next hrun =>
      have hne : t ≠ ct := fun heq => hmem ⟨heq ▸ ht, hrun⟩
      exact update_of_ne hne _ _
    · rfl

theorem Rests.updatedState (h : Rests p state s) (hs : Sound s) (hp : p ∈ s.processList) :
    s.updatedState p = state := by
  unfold Custom.updatedState
  rw [if_neg (by rw [h.processState]; exact h.ne rfl)]
  obtain ⟨t, hone, ht⟩ | ⟨hlen, hnone, t, ht, hawake⟩ :=
    h.held fun hmem => hs.deleted p hmem hp
  · rw [hone]
    exact ht
  · split
    · next hone =>
      rw [hone] at hlen
      simp at hlen
    · have hall : ¬ (s.threads p).all (fun t => s.threadState t = .terminated ||
          s.threadState t = .sleeping) = true := by
        intro hall
        have := List.all_eq_true.mp hall t ht
        simp [hnone t ht, hawake] at this
      rw [if_neg hall, if_neg (by rw [h.processState]; exact h.ne rfl)]
      exact h.processState

theorem Rests.foldl {α : Type} {body : Custom → α → Custom} {l : List α}
    (hsettles : ∀ s a, Settles s (body s a))
    (hbody : ∀ s', Settles s s' → Sound s' → Rests p state s' → ∀ a ∈ l, Rests p state (body s' a))
    (hs : Sound s) (h : Rests p state s) : Rests p state (l.foldl body s) :=
  (List.foldlRecOn (motive := fun s' => Settles s s' ∧ Rests p state s') l body
    ⟨Settles.refl s, h⟩ fun s' hs' a ha => ⟨hs'.1.trans (hsettles s' a),
      hbody s' hs'.1 (hs.settles hs'.1) hs'.2 a ha⟩).2

theorem Rests.updateProcessState (h : Rests p state s) (hs : Sound s) :
    Rests p state s.updateProcessState := by
  refine Rests.foldl settles_updateState ?_ hs h
  rintro _ ⟨ps, ts, su, rfl, -⟩ hs h q hq
  refine h.states _ ts su ?_ fun _ _ => rfl
  by_cases hqp : p = q
  · subst hqp
    rw [update_self]
    exact h.updatedState hs hq
  · rw [update_of_ne hqp]
    exact h.processState

theorem Rests.wakeUpThread (h : Rests p state s) (hs : Sound s) (hqp : p ≠ q)
    (ht : s.threadParent t = q) (time : Thread → Nat) (pState : TaskState) :
    Rests p state (Custom.wakeUpThread time q pState s t) := by
  unfold Custom.wakeUpThread
  split
  · refine h.states _ _ _ ?_ fun u hu => ?_
    · split
      · rw [update_of_ne hqp]
        exact h.processState
      · exact h.processState
    · have hne : u ≠ t := by
        rintro rfl
        exact hqp ((hs.threadParent hu).symm.trans ht)
      exact update_of_ne hne _ _
  · exact h

theorem Rests.wakeUpThreads (h : Rests p state s) (hs : Sound s) (time : Thread → Nat) :
    Rests p state (s.wakeUpThreads time) := by
  refine Rests.foldl (settles_wakeUpProcess time) ?_ hs h
  intro s _ hs h q _
  unfold wakeUpProcess
  generalize hstate : s.processState q = pState
  dsimp only
  split
  · next hawake =>
    have hqp : p ≠ q := by
      rintro rfl
      rw [← hstate, h.processState] at hawake
      obtain heq | heq | heq := hawake
      · exact h.ne rfl heq
      · exact h.ne rfl heq
      · exact h.ne rfl heq
    refine Rests.foldl (settles_wakeUpThread time q pState) ?_ hs h
    rintro _ ⟨ps, ts, su, rfl, -⟩ hs' h' t ht
    exact h'.wakeUpThread hs' hqp (hs.threadParent ht) time pState
  · exact h

/-- The lists are in order, and the processes that were halted rest. -/
def AtRest (halted : Process → TaskState → Prop) (s : Custom) : Prop :=
  Sound s ∧ ∀ p state, halted p state → Rests p state s

variable {halted : Process → TaskState → Prop}

theorem AtRest.removeProcess (h : AtRest halted s) (hremove : s.removeProcess q = some s') :
    AtRest halted s' :=
  ⟨(ofDeletion_shrinks.removeProcess hremove).sound h.1,
    fun p state hp => (h.2 p state hp).removeProcess h.1 hremove⟩

theorem AtRest.prepare (h : AtRest halted s) (hprepare : s.prepare time = some s') : AtRest halted s' := by
  unfold Custom.prepare at hprepare
  split at hprepare
  · next cp ct hcp hct =>
    split at hprepare
    · cases hprepare
    · obtain ⟨s₁, hclean, rfl⟩ := Option.map_eq_some_iff.mp hprepare
      have h₀ : AtRest halted (s.preempt cp ct) := ⟨h.1.settles (settles_preempt s cp ct),
        fun p state hp => (h.2 p state hp).preempt h.1 hcp hct⟩
      obtain ⟨hs₁, h₁⟩ : AtRest halted s₁ := Std.Vector.forEach_inv (P := AtRest halted)
        (fun ht _ _ hturn => ht.removeProcess hturn) hclean h₀
      have hs₂ := hs₁.settles (settles_updateProcessState s₁)
      exact ⟨hs₂.settles (settles_wakeUpThreads time _),
        fun p state hp => ((h₁ p state hp).updateProcessState hs₁).wakeUpThreads hs₂ time⟩
  · cases hprepare
    exact h

theorem Sound.prepare (hs : Sound s) (hprepare : s.prepare time = some s') : Sound s' :=
  (show AtRest (fun _ _ => False) s from ⟨hs, fun _ _ hnone => hnone.elim⟩).prepare hprepare |>.1

/-! ## Section 3: What `Schedule` selects -/

theorem Rests.ne_of_ready (h : Rests p state s) (hready : s.processState q = .ready) : q ≠ p := by
  rintro rfl
  exact h.ne rfl (h.processState.symm.trans hready)

/-- What was found is a thread of its process. -/
def Belongs (s : Custom) (found : Option (Process × Thread)) : Prop :=
  ∀ r t, found = some (r, t) → s.threadParent t = r

/-- The process is none of those that were halted. -/
def Free (halted : Process → TaskState → Prop) (q : Process) : Prop :=
  ∀ p state, halted p state → q ≠ p

theorem AtRest.free (h : AtRest halted s) (hready : s.processState q = .ready) : Free halted q :=
  fun p state hp => (h.2 p state hp).ne_of_ready hready

theorem AtRest.found_none (h : AtRest halted s) :
    AtRest halted s ∧ s.Belongs none ∧ ∀ r (t : Thread), none = some (r, t) → Free halted r :=
  ⟨h, by rintro _ _ ⟨⟩, by rintro _ _ ⟨⟩⟩

theorem AtRest.tryProcess (h : AtRest halted s) (htry : s.tryProcess q = some (s', found)) :
    AtRest halted s' ∧ s'.Belongs found ∧ ∀ r t, found = some (r, t) → Free halted r := by
  unfold Custom.tryProcess at htry
  split at htry
  · cases htry
  · split at htry
    · cases htry
      refine ⟨h, fun r t hfound => ?_, fun r t hfound => ?_⟩
      · obtain ⟨rfl, -, ht, -⟩ := firstThread_spec hfound
        exact h.1.threadParent ht
      · obtain ⟨rfl, hready, -⟩ := firstThread_spec hfound
        exact h.free hready
    · obtain ⟨s₁, hremove, heq⟩ := Option.map_eq_some_iff.mp htry
      cases heq
      exact (h.removeProcess hremove).found_none

theorem AtRest.findNewProcess (h : AtRest halted s) (hfind : s.findNewProcess = some (s', found)) :
    AtRest halted s' ∧ s'.Belongs found ∧ ∀ r t, found = some (r, t) → Free halted r := by
  obtain ⟨h', hturn⟩ := Std.Vector.scan_inv (P := AtRest halted)
    (fun ht _ _ hturn => (ht.tryProcess hturn).1) hfind h
  cases found with
  | none => exact h'.found_none
  | some next =>
    obtain ⟨s₁, q, h₁, htry⟩ := hturn next rfl
    exact h₁.tryProcess htry

theorem AtRest.search (h : AtRest halted s) (hsearch : s.search = some (s', found)) :
    AtRest halted s' ∧ s'.Belongs found ∧ ∀ r t, found = some (r, t) → Free halted r := by
  obtain ⟨-, hnew⟩ | ⟨cp, ct, hcp, hct, rfl, hdeleted, hfound⟩ := search_cases hsearch
  · exact h.findNewProcess hnew
  · refine ⟨h, fun r t heq => ?_, fun r t heq => ?_⟩
    · obtain ⟨-, ⟨rfl, ht⟩ | ⟨-, -, ht⟩⟩ := hfound r t heq
      · exact h.1.threadParent (mem_of_mem_followers ht)
      · exact h.1.threadParent ht
    · obtain ⟨heligible, ⟨rfl, ht⟩ | ⟨hready, -⟩⟩ := hfound r t heq
      · rintro r state hr rfl
        rw [(h.2 r state hr).followers ct hdeleted hcp hct t ht] at heligible
        cases heligible
      · exact h.free hready

theorem Sound.switchTo (hs : Sound s) {next : Process × Thread}
    (hparent : s.threadParent next.2 = next.1) : Sound (s.switchTo next) := by
  refine ⟨hs.nodup, hs.threadsNodup, hs.rooted, hs.deleted, hs.idle, fun cp ct hcp hct => ?_⟩
  cases hcp
  cases hct
  exact hparent

theorem Rests.switchTo (h : Rests p state s) (hs : Sound s) {next : Process × Thread}
    (hne : next.1 ≠ p) (hparent : s.threadParent next.2 = next.1) :
    Rests p state (s.switchTo next) := by
  have hmarked := h.states (update s.processState next.1 .running)
    (update s.threadState next.2 .running) s.sleepUntil ?_ ?_
  · refine ⟨hmarked.halting, hmarked.processState, hmarked.idle, hmarked.held, ?_⟩
    intro ct hp hcp
    exact absurd (Option.some.inj hcp) hne
  · rw [update_of_ne (Ne.symm hne)]
    exact h.processState
  · intro t ht
    have htne : t ≠ next.2 := by
      rintro rfl
      exact hne (hparent.symm.trans (hs.threadParent ht))
    exact update_of_ne htne _ _

theorem AtRest.switchTo (h : AtRest halted s) {next : Process × Thread} (hfree : Free halted next.1)
    (hparent : s.threadParent next.2 = next.1) : AtRest halted (s.switchTo next) :=
  ⟨h.1.switchTo hparent,
    fun p state hp => (h.2 p state hp).switchTo h.1 (hfree p state hp) hparent⟩

theorem threadParent_prepare (h : s.prepare time = some s') : s'.threadParent = s.threadParent := by
  unfold Custom.prepare at h
  split at h
  · next cp ct _ _ =>
    split at h
    · cases h
    · obtain ⟨s₁, hclean, rfl⟩ := Option.map_eq_some_iff.mp h
      obtain ⟨_, _, _, heq, -⟩ := (settles_updateProcessState s₁).trans (settles_wakeUpThreads time _)
      obtain ⟨_, _, _, _, _, rfl⟩ := ofDeletion_removes.cleanupTerminated hclean
      rw [heq]
      rfl
  · rw [Option.some.inj h]

theorem threadParent_search (h : s.search = some (s', found)) :
    s'.threadParent = s.threadParent := by
  obtain ⟨_, _, _, _, _, rfl⟩ := (search_spec h).1
  rfl

/-- The call does not restore the frame of the process. -/
def Untrapped (s : Custom) (p : Process) : Prop :=
  s.schedulerUpdateTrapFrame = true → s.currentProcess ≠ some p

/-- Another process is the current one, with one of its threads. -/
def Switched (s : Custom) (p : Process) (s' : Custom) : Prop :=
  ∃ q t, s'.currentProcess = some q ∧ s'.currentThread = some t ∧ q ≠ p ∧ s.threadParent t = q

/-- A call of `Schedule` goes on with the current thread, if its frame is restored, or with
    what the search finds, or with the idle thread. -/
theorem schedule_outcome (hschedule : s.schedule time = some s') :
    s.stopScheduler = true ∧ s' = s ∨
      s.stopScheduler = false ∧ ∃ s₁, s.prepare time = some s₁ ∧
        ((∃ cp ct, s₁.schedulerUpdateTrapFrame = true ∧ s₁.currentProcess = some cp ∧
            s₁.currentThread = some ct ∧
            s' = { s₁.switchTo (cp, ct) with schedulerUpdateTrapFrame := false }) ∨
          ∃ mid found, s₁.search = some (mid, found) ∧
            s' = mid.switchTo (found.getD (mid.idleProcess, mid.idleThread))) := by
  unfold Custom.schedule at hschedule
  split at hschedule
  · next hstop => exact .inl ⟨hstop, (Option.some.inj hschedule).symm⟩
  · next hstop =>
    obtain ⟨s₁, hprepare, hschedule⟩ := Option.bind_eq_some_iff.mp hschedule
    refine .inr ⟨eq_false_of_ne_true hstop, s₁, hprepare, ?_⟩
    have hsearched : (s₁.search.bind fun r => r.1.dispatch r.2) = some s' →
        ∃ mid found, s₁.search = some (mid, found) ∧
          s' = mid.switchTo (found.getD (mid.idleProcess, mid.idleThread)) := by
      intro hbind
      obtain ⟨⟨mid, found⟩, hsearch, hdispatch⟩ := Option.bind_eq_some_iff.mp hbind
      unfold Custom.dispatch at hdispatch
      dsimp only at hdispatch
      split at hdispatch
      · cases hdispatch
      · exact ⟨mid, found, hsearch, (Option.some.inj hdispatch).symm⟩
    split at hschedule
    · next cp ct hcp hct =>
      split at hschedule
      · next hflag =>
        unfold Custom.updateTrapFrame at hschedule
        split at hschedule
        · cases hschedule
        · refine .inl ⟨cp, ct, hflag, hcp, hct, ?_⟩
          rw [← Option.some.inj hschedule]
          unfold Custom.switchTo
          rw [← hcp, ← hct]
          rfl
      · exact .inr (hsearched hschedule)
    · exact .inr (hsearched hschedule)

/-- **One call.** Processes at rest stay at rest, and if the scheduler is not stopped another
    process is the current one after the call. -/
theorem AtRest.schedule (h : AtRest halted s) (htrap : ∀ p state, halted p state → s.Untrapped p)
    (hschedule : s.schedule time = some s') :
    AtRest halted s' ∧ (s.stopScheduler = false → ∀ p state, halted p state → s.Switched p s') := by
  obtain ⟨hstop, rfl⟩ | ⟨-, s₁, hprepare, hcases⟩ := schedule_outcome hschedule
  · refine ⟨h, fun hfalse => ?_⟩
    rw [hstop] at hfalse
    cases hfalse
  have h₁ := h.prepare hprepare
  have hkeeps := (prepare_spec hprepare).1
  obtain ⟨cp, ct, hflag, hcp, hct, rfl⟩ | ⟨mid, found, hsearch, rfl⟩ := hcases
  · -- the current thread goes on
    have hfree : Free halted cp := by
      rintro cp state hp rfl
      exact htrap cp state hp (hkeeps.schedulerUpdateTrapFrame.symm.trans hflag)
        (hkeeps.currentProcess.symm.trans hcp)
    have hparent := h₁.1.current cp ct hcp hct
    obtain ⟨hs₂, h₂⟩ : AtRest halted (s₁.switchTo (cp, ct)) := h₁.switchTo hfree hparent
    refine ⟨⟨⟨hs₂.nodup, hs₂.threadsNodup, hs₂.rooted, hs₂.deleted, hs₂.idle, hs₂.current⟩,
      fun p state hp => ?_⟩, fun _ p state hp => ⟨cp, ct, rfl, rfl, hfree p state hp, ?_⟩⟩
    · have hrests := h₂ p state hp
      exact ⟨hrests.halting, hrests.processState, hrests.idle, hrests.held, hrests.followers⟩
    · rw [← threadParent_prepare hprepare]
      exact hparent
  · obtain ⟨hm, hbelongs, hother⟩ := h₁.search hsearch
    have hfree : Free halted (found.getD (mid.idleProcess, mid.idleThread)).1 := by
      cases found with
      | none => exact fun p state hp => Ne.symm (hm.2 p state hp).idle
      | some next => exact hother next.1 next.2 rfl
    have hparent : mid.threadParent (found.getD (mid.idleProcess, mid.idleThread)).2 =
        (found.getD (mid.idleProcess, mid.idleThread)).1 := by
      cases found with
      | none => exact hm.1.idle
      | some next => exact hbelongs next.1 next.2 rfl
    refine ⟨hm.switchTo hfree hparent, fun _ p state hp => ⟨_, _, rfl, rfl, hfree p state hp, ?_⟩⟩
    rw [← threadParent_prepare hprepare, ← threadParent_search hsearch]
    exact hparent

end Rests

/-- A process that is not the idle one has one thread, or several, of which none is
    terminated and not all are sleeping; if it is the current process, no thread behind the
    current one is ready. -/
structure CanHalt (s : Custom) (p : Process) : Prop where
  idle : p ≠ s.idleProcess
  threads : (∃ t, s.threads p = [t]) ∨
    2 ≤ (s.threads p).length ∧ (∀ t ∈ s.threads p, s.threadState t ≠ .terminated) ∧
      (∃ t ∈ s.threads p, s.threadState t ≠ .sleeping) ∧
      ∀ ct, s.currentProcess = some p → s.currentThread = some ct →
        ∀ t ∈ s.followers p ct, s.eligible t = false

section SetState

variable {s : Custom} {p q : Process} {t ct : Thread} {state : TaskState}

theorem Rests.setState (h : Rests p state s) (hs : Sound s) (hne : p ≠ q) (other : TaskState) :
    Rests p state (s.setState q other) := by
  refine h.states _ _ s.sleepUntil ?_ fun t ht => ?_
  · rw [update_of_ne hne]
    exact h.processState
  · have hnot : s.threads q ≠ [t] := by
      intro hone
      have htq : t ∈ s.threads q := by
        rw [hone]
        exact List.mem_singleton_self t
      exact hne ((hs.threadParent ht).symm.trans (hs.threadParent htq))
    exact (s.threadState_setState q other t).trans (if_neg hnot)

theorem followers_single (hone : s.threads p = [t]) (ct : Thread) : s.followers p ct = [] := by
  rw [followers, hone, List.dropWhile_cons]
  split <;> rfl

theorem CanHalt.rests (h : CanHalt s p) (hhalting : state.halting = true) :
    Rests p state (s.setState p state) := by
  have hprocess : (s.setState p state).processState p = state := by
    change update s.processState p state p = state
    exact update_self p state s.processState
  refine ⟨hhalting, hprocess, h.idle, fun _ => ?_, fun ct _ hcp hct t ht => ?_⟩
  · obtain ⟨t, hone⟩ | ⟨hlen, hnone, hawake, -⟩ := h.threads
    · exact .inl ⟨t, hone, (s.threadState_setState p state t).trans (if_pos hone)⟩
    · have hheld : s.Held p state := .inr ⟨hlen, hnone, hawake⟩
      refine hheld.congr rfl fun t _ => (s.threadState_setState p state t).trans (if_neg ?_)
      exact fun hone => by simp [hone] at hlen
  · have ht' : t ∈ s.followers p ct := ht
    obtain ⟨u, hone⟩ | ⟨hlen, -, -, hbehind⟩ := h.threads
    · rw [followers_single hone] at ht'
      cases ht'
    · have hstate : (s.setState p state).threadState t = s.threadState t :=
        (s.threadState_setState p state t).trans (if_neg fun hone => by simp [hone] at hlen)
      have heligible := hbehind ct hcp hct t ht'
      rw [eligible] at heligible ⊢
      rw [hstate]
      exact heligible

end SetState

end Custom

namespace Kernel

/-! ## Section 4: Deliveries -/

/-- The state that the default effect of a signal sets, if any. -/
def defaultState (k : Kernel) (me : Thread) (p : Process) (sig : Signo) : Option TaskState :=
  if (k.action p sig).handler ≠ sigDfl ∨ blocks (k.mask me) sig then none
  else
    match (k.signals p).disposition sig with
    | .term => some (k.killedState p .zombie)
    | .ign => none
    | .core => some (k.killedState p .coreDump)
    | .stop => some .stopped
    | .cont => some .ready

/-- The tasks are the same, and no state was set. -/
structure SameTasks (k k' : Kernel) : Prop where
  tasks : k'.tasks = k.tasks
  stateCalls : k'.stateCalls = k.stateCalls

/-- The state of the process was set. -/
structure Sets (p : Process) (state : TaskState) (k k' : Kernel) : Prop where
  tasks : k'.tasks = k.tasks.setState p state
  stateCalls : k'.stateCalls = (p, state) :: k.stateCalls

section Deliveries

variable {k k' : Kernel} {p : Process} {me : Thread} {info : SignalInfo} {r : Int}
  {send : Kernel → Process → Option (Int × Kernel)} {locked : List Process}

theorem SameTasks.trans {k'' : Kernel} (h : SameTasks k k') (h' : SameTasks k' k'') :
    SameTasks k k'' :=
  ⟨h'.tasks.trans h.tasks, h'.stateCalls.trans h.stateCalls⟩

theorem sameTasks_notifyWatchers {whos : List Process} (hk : Regular k)
    (hsend : ∀ {k who r k'}, Regular k → send k who = some (r, k') → SameTasks k k' ∧ Regular k')
    (h : notifyWatchers send k whos = some k') : SameTasks k k' := by
  induction whos generalizing k with
  | nil =>
    cases h
    exact ⟨rfl, rfl⟩
  | cons who rest ih =>
    obtain ⟨⟨r, k₁⟩, hone, hrest⟩ := Option.bind_eq_some_iff.mp h
    obtain ⟨hsame, hk₁⟩ := hsend hk hone
    exact hsame.trans (ih hk₁ hrest)

theorem killedState_received (k : Kernel) (p : Process) (sig : Signo) (state : TaskState) :
    (k.received p sig).killedState p state = k.killedState p state := by
  rw [killedState, killedState, received_signals]

theorem takeDefault_sets (hdfl : (k.action p info.sig).handler = sigDfl)
    (hblocks : ¬ blocks (k.mask me) info.sig = true) :
    (k.defaultState me p info.sig = none ∧
        SameTasks k ((k.received p info.sig).takeDefault p info.sig info.val).2) ∨
      ∃ state, k.defaultState me p info.sig = some state ∧
        Sets p state k ((k.received p info.sig).takeDefault p info.sig info.val).2 := by
  have hdies : ∀ state, Sets p (k.killedState p state) k
      ((k.received p info.sig).die p info.sig info.val state).2 := by
    intro state
    rw [← killedState_received k p info.sig state]
    exact ⟨rfl, rfl⟩
  have hneither : ¬ ((k.action p info.sig).handler ≠ sigDfl ∨
      blocks (k.mask me) info.sig = true) := by
    rw [not_or, not_not]
    exact ⟨hdfl, hblocks⟩
  rw [defaultState, if_neg hneither, takeDefault, received_signals]
  dsimp only
  cases (k.signals p).disposition info.sig with
  | term => exact .inr ⟨_, rfl, hdies .zombie⟩
  | ign => exact .inl ⟨rfl, rfl, rfl⟩
  | core => exact .inr ⟨_, rfl, hdies .coreDump⟩
  | stop => exact .inr ⟨_, rfl, rfl, rfl⟩
  | cont => exact .inr ⟨_, rfl, rfl, rfl⟩

theorem sendWith_sets (hp : p ∉ locked) (hk : Regular k)
    (hsend : ∀ {k who r k'}, Regular k → send k who = some (r, k') → SameTasks k k' ∧ Regular k')
    (h : sendWith send me k p info = some (r, k')) :
    (k.defaultState me p info.sig = none ∧ SameTasks k k') ∨
      ∃ state, k.defaultState me p info.sig = some state ∧ Sets p state k k' := by
  obtain ⟨rfl, hnone, -⟩ | ⟨rfl, hdfl, hblocks⟩ | ⟨hhandler, k₁, k₂, whos, hinit, hnotify, rfl⟩ :=
    sendWith_cases h
  · exact .inl ⟨if_pos hnone, rfl, rfl⟩
  · exact takeDefault_sets hdfl hblocks
  · have hbefore : Touches locked k k₁ :=
      (touches_received hp info.sig).trans (touches_initTrampoline hp hinit)
    have hsame : SameTasks k k₁ := by
      obtain rfl | rfl := initTrampoline_cases hinit
      · exact ⟨rfl, rfl⟩
      · exact ⟨rfl, rfl⟩
    have hnotified := sameTasks_notifyWatchers (hbefore.sameTables.regular hk) hsend hnotify
    obtain ⟨htasks, hcalls⟩ := hsame.trans hnotified
    exact .inl ⟨if_pos (.inl ((isHandler_iff _).mp hhandler).1), htasks, hcalls⟩

theorem defaultState_chld (hk : Regular k) : k.defaultState me p .chld = none := by
  unfold defaultState
  split
  · rfl
  · next hneither =>
    rw [not_or, not_not] at hneither
    rw [hk p .chld hneither.1]
    rfl

theorem sendSignal_sets {depth : Nat} (hp : p ∉ locked) (hk : Regular k)
    (h : sendSignal depth locked me k p info = some (r, k')) :
    (k.defaultState me p info.sig = none ∧ SameTasks k k') ∨
      ∃ state, k.defaultState me p info.sig = some state ∧ Sets p state k k' := by
  induction depth generalizing locked k p info r k' with
  | zero => exact sendWith_sets hp hk (fun _ hnone => by cases hnone) h
  | succ depth ih =>
    refine sendWith_sets hp hk ?_ h
    intro k who r k' hk hnested
    split at hnested
    · cases hnested
    · next hfree =>
      refine ⟨?_, (touches_sendSignal hfree hnested).sameTables.regular hk⟩
      obtain ⟨-, hsame⟩ | ⟨state, hstate, -⟩ := ih hfree hk hnested
      · exact hsame
      · rw [defaultState_chld hk] at hstate
        cases hstate

end Deliveries

/-! ## Section 5: Runs -/

/-- A call of `Schedule`, or one of the calls for signals. -/
inductive TaskEvent where
  | schedule (time : Thread → Nat)
  | signal (event : SignalEvent)

/-- The effect of a call. No signal is sent to a process that has been deleted. -/
def applyTask (depth : Nat) (k : Kernel) : TaskEvent → Option Kernel
  | .schedule time => (k.tasks.schedule time).map fun tasks => { k with tasks := tasks }
  | .signal (.send me p info) =>
    if p ∈ k.tasks.deletedProcesses then none else k.applySignal depth (.send me p info)
  | .signal event => k.applySignal depth event

/-- Runs from kernels whose tables are as constructed and in which no state has been set. -/
def taskRuns (depth : Nat) : System Kernel TaskEvent where
  init := fun k => Fresh k ∧ k.tasks.Sound ∧ k.stateCalls = []
  step := fun k event k' => k.applyTask depth event = some k'

/-- What `PCB::SetState` was last called with for the process. -/
def lastSet (k : Kernel) (p : Process) : Option TaskState :=
  (k.stateCalls.find? (·.1 = p)).map (·.2)

/-- The process was last put into this state, in which it must not run. -/
def HaltedIn (k : Kernel) (p : Process) (state : TaskState) : Prop :=
  k.lastSet p = some state ∧ state.halting = true

/-- A signal halts a process only as `CanHalt` says, and no call of `Schedule` restores the
    frame of a halted process. -/
def Steady (k : Kernel) : TaskEvent → Prop
  | .schedule _ => ∀ p state, k.HaltedIn p state → k.tasks.Untrapped p
  | .signal (.send me p info) => ∀ state, k.defaultState me p info.sig = some state →
      state.halting = true → k.tasks.CanHalt p
  | .signal _ => True

/-- The tasks are in order, and what was halted rests. -/
structure Obeyed (k : Kernel) : Prop where
  regular : Regular k
  sound : k.tasks.Sound
  rests : ∀ p state, k.HaltedIn p state → Custom.Rests p state k.tasks

section Runs

variable {depth : Nat} {k k' : Kernel} {p q : Process} {state : TaskState}

theorem lastSet_cons (k : Kernel) (call : Process × TaskState) (p : Process) :
    { k with stateCalls := call :: k.stateCalls }.lastSet p =
      if call.1 = p then some call.2 else k.lastSet p := by
  unfold lastSet
  rw [List.find?_cons]
  by_cases hp : call.1 = p
  · simp [hp]
  · simp [hp]

theorem Obeyed.sets (hk : Obeyed k) (hregular : Regular k') (hsets : Sets p state k k')
    (hhalt : state.halting = true → k.tasks.CanHalt p) : Obeyed k' := by
  refine ⟨hregular, ?_, fun q state' hhalted => ?_⟩
  · rw [hsets.tasks]
    exact hk.sound.states _ _ k.tasks.sleepUntil
  · rw [hsets.tasks]
    obtain ⟨hlast, hhalting⟩ := hhalted
    have hcons : k'.lastSet q = if p = q then some state else k.lastSet q := by
      rw [← lastSet_cons k (p, state) q]
      unfold lastSet
      rw [hsets.stateCalls]
    rw [hcons] at hlast
    split at hlast
    · next hpq =>
      subst hpq
      cases hlast
      exact (hhalt hhalting).rests hhalting
    · next hpq =>
      exact (hk.rests q state' ⟨hlast, hhalting⟩).setState hk.sound (Ne.symm hpq) state

theorem Obeyed.same (hk : Obeyed k) (hregular : Regular k') (hsame : SameTasks k k') :
    Obeyed k' := by
  refine ⟨hregular, ?_, ?_⟩
  · rw [hsame.tasks]
    exact hk.sound
  · intro q state hhalted
    rw [HaltedIn, lastSet, hsame.stateCalls] at hhalted
    rw [hsame.tasks]
    exact hk.rests q state hhalted

theorem sameTasks_applySignal {event : SignalEvent} (hstep : k.applySignal depth event = some k')
    (hsend : ∀ me p info, event ≠ .send me p info) : SameTasks k k' := by
  obtain ⟨p, sig, act, -, rfl⟩ | ⟨t, mask, -, rfl⟩ | ⟨me, p, info, rfl, -⟩ |
    ⟨p, t, reread, -, -, rfl | ⟨info, mask, -, rfl⟩⟩ := applySignal_cases hstep
  · exact ⟨rfl, rfl⟩
  · exact ⟨rfl, rfl⟩
  · exact absurd rfl (hsend me p info)
  · exact ⟨rfl, rfl⟩
  · exact ⟨rfl, rfl⟩

theorem Obeyed.other (hk : Obeyed k) (depth : Nat) (event : SignalEvent)
    (hstep : k.applySignal depth event = some k') (hsend : ∀ me p info, event ≠ .send me p info) :
    Obeyed k' :=
  hk.same (hk.regular.step hstep) (sameTasks_applySignal hstep hsend)

theorem Obeyed.schedule (hk : Obeyed k) {time : Thread → Nat} (hsteady : Steady k (.schedule time))
    (hstep : k.applyTask depth (.schedule time) = some k') : Obeyed k' := by
  obtain ⟨tasks, hschedule, rfl⟩ := Option.map_eq_some_iff.mp hstep
  obtain ⟨hsound, hrests⟩ := (Custom.AtRest.schedule ⟨hk.sound, hk.rests⟩ hsteady hschedule).1
  exact ⟨hk.regular, hsound, hrests⟩

/-- **One step.** -/
theorem Obeyed.step {event : TaskEvent} (hk : Obeyed k) (hsteady : Steady k event)
    (hstep : k.applyTask depth event = some k') : Obeyed k' := by
  cases event with
  | schedule time => exact hk.schedule hsteady hstep
  | signal event =>
    cases event with
    | send me p info =>
      simp only [applyTask] at hstep
      split at hstep
      · cases hstep
      · have hregular := hk.regular.step hstep
        obtain ⟨⟨r, k₁⟩, hsend, rfl⟩ := Option.map_eq_some_iff.mp hstep
        obtain ⟨-, hsame⟩ | ⟨state, hstate, hsets⟩ :=
          sendSignal_sets List.not_mem_nil hk.regular hsend
        · exact hk.same hregular hsame
        · exact hk.sets hregular hsets (hsteady state hstate)
    | setAction p sig act => exact hk.other depth (.setAction p sig act) hstep (by rintro _ _ _ ⟨⟩)
    | setMask t mask => exact hk.other depth (.setMask t mask) hstep (by rintro _ _ _ ⟨⟩)
    | handle p t reread => exact hk.other depth (.handle p t reread) hstep (by rintro _ _ _ ⟨⟩)

theorem obeyed_of_reachable (h : ((taskRuns depth).restrict Steady).Reachable k) : Obeyed k := by
  refine System.Reachable.invariant ?_ ?_ h
  · rintro k ⟨hfresh, hsound, hnone⟩
    refine ⟨hfresh.regular, hsound, fun p state hhalted => ?_⟩
    rw [HaltedIn, lastSet, hnone] at hhalted
    cases hhalted.1
  · rintro k event k' hk ⟨hsteady, hstep⟩
    exact hk.step hsteady hstep

/-- **Halted processes.** In a run whose steps are as `Steady` asks, a process that was last
    put into a state in which it must not run is in that state, and a call of `Schedule` that
    is not refused selects another process and none of its threads. -/
theorem halted_do_not_run (h : ((taskRuns depth).restrict Steady).Reachable k)
    (hhalted : k.HaltedIn p state) :
    k.tasks.processState p = state ∧
      ∀ time k', ((taskRuns depth).restrict Steady).step k (.schedule time) k' →
        k.tasks.stopScheduler = false →
        ∃ q t, k'.tasks.currentProcess = some q ∧ k'.tasks.currentThread = some t ∧
          q ≠ p ∧ t ∉ k.tasks.threads p := by
  have hk := obeyed_of_reachable h
  refine ⟨(hk.rests p state hhalted).processState, ?_⟩
  rintro time k' ⟨hsteady, hstep⟩ hgo
  obtain ⟨tasks, hschedule, rfl⟩ := Option.map_eq_some_iff.mp hstep
  obtain ⟨-, hswitched⟩ := Custom.AtRest.schedule ⟨hk.sound, hk.rests⟩ hsteady hschedule
  obtain ⟨q, t, hq, ht, hne, hparent⟩ := hswitched hgo p state hhalted
  refine ⟨q, t, hq, ht, hne, fun hmem => hne ?_⟩
  exact hparent.symm.trans (hk.sound.threadParent hmem)

/-- Process 1 with the threads 1 and 3, of which thread 1 runs. -/
def exampleThreads : Kernel :=
  { examplePair with
    tasks := { examplePair.tasks with
      threadVector := fun p => ⟨if p = 1 then [1, 3] else if p = 2 then [2] else [], []⟩
      threadParent := fun t => if t = 3 then 1 else t
      processState := fun p => if p = 1 then .running else .ready
      threadState := fun t => if t = 1 then .running else .ready
      currentProcess := some 1
      currentThread := some 1 } }

theorem sound_exampleThreads : exampleThreads.tasks.Sound := by
  have hlists : ∀ p, exampleThreads.tasks.threads p =
      if p = 1 then [1, 3] else if p = 2 then [2] else [] := fun _ => rfl
  refine ⟨by decide, fun p => ?_, fun p t ht => ?_, fun p hp => (List.not_mem_nil hp).elim,
    rfl, ?_⟩
  · rw [hlists]
    grind
  · change t ∈ exampleThreads.tasks.threads p ++ [] at ht
    rw [hlists] at ht
    change (if t = 3 then 1 else t) = p
    grind
  · intro cp ct hcp hct
    cases hcp
    cases hct
    rfl

theorem sound_examplePair : examplePair.tasks.Sound := by
  have hlists : ∀ p, examplePair.tasks.threads p =
      if p = 1 then [1] else if p = 2 then [2] else [] := fun _ => rfl
  refine ⟨by decide, fun p => ?_, fun p t ht => ?_, fun p hp => (List.not_mem_nil hp).elim,
    rfl, fun cp ct hcp => (Option.some_ne_none cp hcp.symm).elim⟩
  · rw [hlists]
    grind
  · change t ∈ examplePair.tasks.threads p ++ [] at ht
    rw [hlists] at ht
    change t = p
    grind

theorem halted_do_not_run_stopped :
    ∃ k k', ((taskRuns 0).restrict Steady).Reachable k ∧ k.HaltedIn 1 .stopped ∧
      k.tasks.processState 1 = .stopped ∧
      ((taskRuns 0).restrict Steady).step k (.schedule fun _ => 0) k' ∧
      ∃ q t, k'.tasks.currentProcess = some q ∧ k'.tasks.currentThread = some t ∧
        q ≠ 1 ∧ t ∉ k.tasks.threads 1 := by
  obtain ⟨k, hsend, hlast, hflag, hgo, k', hschedule, -⟩ : ∃ k,
      examplePair.applyTask 0 (.signal (.send 2 1 ⟨.stop, 0, -1⟩)) = some k ∧
      k.lastSet 1 = some .stopped ∧ k.tasks.schedulerUpdateTrapFrame = false ∧
      k.tasks.stopScheduler = false ∧
      ∃ k', k.applyTask 0 (.schedule fun _ => 0) = some k' ∧ k'.lastSet 1 = some .stopped := by
    decide +kernel
  have hsteady : Steady examplePair (.signal (.send 2 1 ⟨.stop, 0, -1⟩)) :=
    fun _ _ _ => ⟨by decide, .inl ⟨1, rfl⟩⟩
  have hstep' : ((taskRuns 0).restrict Steady).step k (.schedule fun _ => 0) k' := by
    refine ⟨fun p state _ htrap => ?_, hschedule⟩
    rw [hflag] at htrap
    cases htrap
  have hreachable : ((taskRuns 0).restrict Steady).Reachable k :=
    .step (.init ⟨fresh_examplePair, sound_examplePair, rfl⟩) ⟨hsteady, hsend⟩
  have hhalted : k.HaltedIn 1 .stopped := ⟨hlast, rfl⟩
  obtain ⟨hstate, hselects⟩ := halted_do_not_run hreachable hhalted
  exact ⟨k, k', hreachable, hhalted, hstate, hstep', hselects _ k' hstep' hgo⟩

/-- Process 1 is stopped while its thread 1 runs: `Schedule` goes on with its thread 3, and
    the process is running again. -/
theorem stopped_process_runs :
    ∃ k k', (taskRuns 0).Reachable k ∧ k.HaltedIn 1 .stopped ∧
      (taskRuns 0).step k (.schedule fun _ => 0) k' ∧ k'.HaltedIn 1 .stopped ∧
      k'.tasks.processState 1 = .running ∧ k'.tasks.currentThread = some 3 ∧
      3 ∈ k.tasks.threads 1 := by
  obtain ⟨k, hsend, hlast, hmem, k', hschedule, hlast', hstate, hthread⟩ : ∃ k,
      exampleThreads.applyTask 0 (.signal (.send 2 1 ⟨.stop, 0, -1⟩)) = some k ∧
      k.lastSet 1 = some .stopped ∧ 3 ∈ k.tasks.threads 1 ∧
      ∃ k', k.applyTask 0 (.schedule fun _ => 0) = some k' ∧ k'.lastSet 1 = some .stopped ∧
        k'.tasks.processState 1 = .running ∧ k'.tasks.currentThread = some 3 := by
    decide +kernel
  have hstart : (taskRuns 0).Reachable exampleThreads :=
    .init ⟨fun _ => ⟨rfl, rfl, rfl⟩, sound_exampleThreads, rfl⟩
  exact ⟨k, k', hstart.step hsend, ⟨hlast, rfl⟩, hschedule, ⟨hlast', rfl⟩, hstate, hthread, hmem⟩

end Runs

end Kernel

end Fennix.Tasking
