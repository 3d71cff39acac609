import Fennix.Framework.Cycle
import Fennix.Tasking.Running

/-! # Round robin

    In a system in which nothing sleeps or terminates and no state is changed from
    outside, the three searches of `Schedule` together are one scan of all threads
    that starts behind the current one and goes around the list.
-/

namespace Fennix.Tasking.Custom

open Function (update update_self update_of_ne update_apply)

/-! ## Section 1: The setting -/

/-- All threads, in the order of the lists. -/
def allThreads (s : Custom) : List Thread := s.processList.flatMap s.threads

/-- The threads that are ready or current. -/
def live (s : Custom) : List Thread :=
  s.allThreads.filter fun t => s.threadState t = .ready || s.currentThread = some t

/-- No thread sleeps or is terminated, and the ready threads can be selected.
    Between calls the current thread and its process are running; before the first
    call they may be ready. -/
structure Calm (s : Custom) : Prop where
  plain : Plain s
  intact : Intact s
  nodup : s.allThreads.Nodup
  awake : ∀ t ∈ s.allThreads, s.threadState t ≠ .sleeping
  kept : ∀ t ∈ s.allThreads, s.threadState t ≠ .terminated
  affinity : ∀ t ∈ s.allThreads, s.threadState t = .ready → s.affinity t = true
  ready : ∀ p ∈ s.processList, (∃ t ∈ s.threads p, s.threadState t = .ready) →
    s.processState p = .ready ∨ s.processState p = .running ∧ s.currentProcess = some p
  current : ∃ cp ct, s.currentProcess = some cp ∧ s.currentThread = some ct ∧
    cp ∈ s.processList ∧ ct ∈ s.threads cp ∧ s.affinity ct = true ∧
    (s.threadState ct = .ready ∨ s.threadState ct = .running) ∧
    (s.processState cp = .ready ∨ s.processState cp = .running)

/-- The setting in which scheduling is round robin: no process is terminated
    either. -/
structure Quiet (s : Custom) : Prop extends Calm s where
  living : ∀ p ∈ s.processList, s.processState p ≠ .terminated

variable {s : Custom} {cp : Process} {ct : Thread}

theorem Quiet.noneTerminated (hs : Quiet s) : NoneTerminated s := by
  intro p hp
  exact ⟨hs.living p hp, fun t ht => hs.kept t (List.mem_flatMap.mpr ⟨p, hp, ht⟩)⟩

/-- The threads that a number of calls select. -/
def selections : List (Thread → Nat) → Custom → Option (List Thread)
  | [], _ => some []
  | time :: times, s =>
    (s.schedule time).bind fun s' =>
      s'.currentThread.bind fun t => (selections times s').map fun rest => t :: rest

/-! ## Section 2: The searches -/

/-- Every process that has a thread to take can be searched. -/
def Open (s : Custom) (l : List Process) : Prop :=
  ∀ p ∈ l, (∃ t ∈ s.threads p, s.eligible t = true) → s.processState p = .ready

theorem findSome_firstThread {l : List Process} (h : Open s l) :
    (l.findSome? s.firstThread).map Prod.snd = (l.flatMap s.threads).find? s.eligible := by
  induction l with
  | nil => rfl
  | cons p l ih =>
    have htail : Open s l := fun q hq => h q (List.mem_cons_of_mem p hq)
    rw [List.findSome?_cons, List.flatMap_cons, List.find?_append, firstThread]
    cases hfind : (s.threads p).find? s.eligible with
    | none =>
      have hnone : (if s.processState p = .ready then (none : Option Thread).map fun t => (p, t)
          else none) = none := by
        split <;> rfl
      rw [hnone, Option.none_or]
      exact ih htail
    | some t =>
      have hready := h p List.mem_cons_self
        ⟨t, List.mem_of_find?_eq_some hfind, List.find?_some hfind⟩
      rw [if_pos hready]
      rfl

theorem search_eq {P₁ P₂ : List Process} {T₁ T₂ : List Thread} (hcp : s.currentProcess = some cp)
    (hct : s.currentThread = some ct) (hlist : s.processList = P₁ ++ cp :: P₂)
    (hthreads : s.threads cp = T₁ ++ ct :: T₂) (hcp₁ : cp ∉ P₁) (hcp₂ : cp ∉ P₂) (hct₁ : ct ∉ T₁)
    (hintact : Intact s) (h : Open s s.processList) :
    ∃ found, s.search = some (s, found) ∧ found.map Prod.snd =
      (((T₂ ++ P₂.flatMap s.threads).find? s.eligible).or (s.allThreads.find? s.eligible)) := by
  refine ⟨_, by rw [search, hcp, hct, hintact.1]; exact if_neg List.not_mem_nil, ?_⟩
  have hthread : (s.getNextAvailableThread cp ct).map Prod.snd = T₂.find? s.eligible := by
    rw [getNextAvailableThread, hthreads, Cycle.dropWhile_ne hct₁, Option.map_map]
    exact Option.map_id'
  have hprocess : (s.getNextAvailableProcess cp).map Prod.snd =
      (P₂.flatMap s.threads).find? s.eligible := by
    have hfilter : (cp :: P₂).filter (fun p => decide (p ≠ cp)) = P₂ := by
      rw [List.filter_cons_of_neg (by simp)]
      exact List.filter_eq_self.mpr fun p hp => decide_eq_true fun heq => hcp₂ (heq ▸ hp)
    rw [getNextAvailableProcess, hlist, Cycle.dropWhile_ne hcp₁, hfilter]
    apply findSome_firstThread
    intro p hp
    exact h p (hlist ▸ List.mem_append_right P₁ (List.mem_cons_of_mem cp hp))
  have hall : s.schedulerSearchProcessThread.map Prod.snd = s.allThreads.find? s.eligible :=
    findSome_firstThread h
  rw [Option.map_or, Option.map_or, hthread, hprocess, hall, List.find?_append, Option.or_assoc]

theorem search_mem {p : Process} {t : Thread} (hcp : s.currentProcess = some cp)
    (hct : s.currentThread = some ct) (hmem : cp ∈ s.processList)
    (h : s.search = some (s, some (p, t))) : p ∈ s.processList ∧ t ∈ s.threads p := by
  obtain ⟨hnone, -⟩ | ⟨cp', ct', hcp', -, -, -, hfound⟩ := search_cases h
  · exact absurd hct (hnone cp ct hcp)
  · obtain ⟨-, ⟨rfl, ht⟩ | ⟨-, hmem'⟩⟩ := hfound p t rfl
    · obtain rfl := Option.mem_unique hcp hcp'
      exact ⟨hmem, mem_of_mem_followers ht⟩
    · exact hmem'

/-! ## Section 3: The states before a search -/

/-- The state with the current thread ready again and other states of the
    processes. -/
def prepared (s : Custom) (ct : Thread) (ps : Process → TaskState) : Custom :=
  { s with processState := ps, threadState := update s.threadState ct .ready }

/-- Every process with a ready thread is ready. -/
def ReadyAbove (s : Custom) (ps : Process → TaskState) : Prop :=
  ∀ p ∈ s.processList, (∃ t ∈ s.threads p, s.threadState t = .ready) → ps p = .ready

theorem preempt_eq (hp : s.processState cp = .ready ∨ s.processState cp = .running)
    (ht : s.threadState ct = .ready ∨ s.threadState ct = .running) :
    s.preempt cp ct = s.prepared ct (update s.processState cp .ready) := by
  have hprocess : (if s.processState cp = .running then update s.processState cp .ready
      else s.processState) = update s.processState cp .ready := by
    obtain hp | hp := hp
    · rw [if_neg (by rw [hp]; decide), ← hp, Function.update_eq_self]
    · exact if_pos hp
  have hthread : (if s.threadState ct = .running then update s.threadState ct .ready
      else s.threadState) = update s.threadState ct .ready := by
    obtain ht | ht := ht
    · rw [if_neg (by rw [ht]; decide), ← ht, Function.update_eq_self]
    · exact if_pos ht
  rw [preempt, hprocess, hthread, prepared]

theorem updatedState_ready {p : Process} {t : Thread} (ht : t ∈ s.threads p)
    (hthread : s.threadState t = .ready) (hp : s.processState p = .ready) :
    s.updatedState p = .ready := by
  rw [updatedState, if_neg (by rw [hp]; decide)]
  split
  · rename_i u hu
    rw [hu] at ht
    rw [← List.mem_singleton.mp ht]
    exact hthread
  · rw [if_neg, if_neg (by rw [hp]; decide), hp]
    intro hall
    have h := List.all_eq_true.mp hall t ht
    rw [hthread] at h
    exact absurd h (by decide)

theorem ReadyAbove.updateState (h : ReadyAbove s s.processState) (p : Process) :
    ReadyAbove s (s.updateState p).processState := by
  rintro q hq ⟨t, ht, hthread⟩
  have hready := h q hq ⟨t, ht, hthread⟩
  show update s.processState p (s.updatedState p) q = .ready
  by_cases hqp : q = p
  · subst hqp
    rw [update_self]
    exact updatedState_ready ht hthread hready
  · rw [update_of_ne hqp]
    exact hready

theorem foldl_updateState_ready (l : List Process) (h : ReadyAbove s s.processState) :
    ∃ ps, l.foldl updateState s = { s with processState := ps } ∧ ReadyAbove s ps := by
  induction l generalizing s with
  | nil => exact ⟨s.processState, rfl, h⟩
  | cons p l ih =>
    obtain ⟨ps, heq, hps⟩ := ih (show ReadyAbove (s.updateState p) _ from h.updateState p)
    exact ⟨ps, heq, hps⟩

/-- `UpdateProcessState` changes only process states, and keeps a process ready
    that has a ready thread. -/
theorem updateProcessState_ready (h : ReadyAbove s s.processState) :
    ∃ ps, s.updateProcessState = { s with processState := ps } ∧ ReadyAbove s ps :=
  foldl_updateState_ready s.processList h

theorem foldl_eq_self {α β : Type} {f : β → α → β} {l : List α} {b : β}
    (h : ∀ a ∈ l, f b a = b) : l.foldl f b = b :=
  List.foldlRecOn (motive := (· = b)) l f rfl fun _ hb a ha => hb ▸ h a ha

theorem wakeUpThreads_eq (h : ∀ t ∈ s.allThreads, s.threadState t ≠ .sleeping) (time : Thread → Nat) :
    s.wakeUpThreads time = s := by
  apply foldl_eq_self
  intro p hp
  unfold wakeUpProcess
  dsimp only
  split
  · apply foldl_eq_self
    intro t ht
    exact if_neg fun hsleeping => h t (List.mem_flatMap.mpr ⟨p, hp, ht⟩) hsleeping.1
  · rfl

theorem Quiet.prepare_eq (hs : Quiet s) (hcp : s.currentProcess = some cp)
    (hct : s.currentThread = some ct)
    (hp : s.processState cp = .ready ∨ s.processState cp = .running)
    (ht : s.threadState ct = .ready ∨ s.threadState ct = .running)
    (hunique : ∀ p ∈ s.processList, ct ∈ s.threads p → p = cp) (time : Thread → Nat) :
    ∃ ps, s.prepare time = some (s.prepared ct ps) ∧ ReadyAbove (s.prepared ct ps) ps := by
  have hpre := preempt_eq hp ht
  have hsettles := settles_preempt s cp ct
  have hclean := (hsettles.intact hs.intact).cleanupTerminated
    (hsettles.noneTerminated hs.noneTerminated)
  have habove : ReadyAbove (s.preempt cp ct) (s.preempt cp ct).processState := by
    rw [hpre]
    rintro p hmem ⟨t, htmem, hthread⟩
    change update s.threadState ct .ready t = .ready at hthread
    show update s.processState cp .ready p = .ready
    by_cases hpcp : p = cp
    · rw [hpcp, update_self]
    · have htct : t ≠ ct := by
        rintro rfl
        exact hpcp (hunique p hmem htmem)
      rw [update_of_ne htct] at hthread
      rw [update_of_ne hpcp]
      obtain hready | ⟨-, hcurrent⟩ := hs.ready p hmem ⟨t, htmem, hthread⟩
      · exact hready
      · exact absurd (Option.mem_unique hcurrent hcp) hpcp
  obtain ⟨ps, hupdate, hps⟩ := updateProcessState_ready habove
  have hawake : ∀ t ∈ s.allThreads, update s.threadState ct .ready t ≠ .sleeping := by
    intro t htmem
    rw [update_apply]
    split
    · decide
    · exact hs.awake t htmem
  have hprepare : s.prepare time = (s.preempt cp ct).cleanupTerminated.map
      fun s => s.updateProcessState.wakeUpThreads time := by
    rw [prepare, hcp, hct]
    exact if_neg (by rw [hs.intact.freed]; exact Bool.false_ne_true)
  refine ⟨ps, ?_, ?_⟩
  · rw [hprepare, hclean, Option.map_some, hupdate, hpre]
    exact congrArg some (wakeUpThreads_eq hawake time)
  · rw [hpre] at hps
    exact hps

/-! ## Section 4: One call -/

/-- Where the current thread is in the lists. -/
structure Position (s : Custom) (cp : Process) (ct : Thread) (P₁ P₂ : List Process)
    (T₁ T₂ : List Thread) : Prop where
  list : s.processList = P₁ ++ cp :: P₂
  threads : s.threads cp = T₁ ++ ct :: T₂

section Position

variable {s : Custom} {cp : Process} {ct : Thread} {P₁ P₂ : List Process} {T₁ T₂ : List Thread}

theorem exists_position (hcp : cp ∈ s.processList) (hct : ct ∈ s.threads cp) :
    ∃ P₁ P₂ T₁ T₂, Position s cp ct P₁ P₂ T₁ T₂ := by
  obtain ⟨P₁, P₂, hlist⟩ := List.append_of_mem hcp
  obtain ⟨T₁, T₂, hthreads⟩ := List.append_of_mem hct
  exact ⟨P₁, P₂, T₁, T₂, hlist, hthreads⟩

variable (h : Position s cp ct P₁ P₂ T₁ T₂)

include h

theorem Position.allThreads_eq :
    s.allThreads = (P₁.flatMap s.threads ++ T₁) ++ ct :: (T₂ ++ P₂.flatMap s.threads) := by
  rw [allThreads, h.list, List.flatMap_append, List.flatMap_cons, h.threads]
  simp only [List.append_assoc, List.cons_append]

theorem Position.not_before (hnodup : s.allThreads.Nodup) : ct ∉ P₁.flatMap s.threads ++ T₁ := by
  rw [h.allThreads_eq] at hnodup
  intro hmem
  exact List.disjoint_of_nodup_append hnodup hmem List.mem_cons_self

theorem Position.not_after (hnodup : s.allThreads.Nodup) : ct ∉ T₂ ++ P₂.flatMap s.threads := by
  rw [h.allThreads_eq] at hnodup
  exact (List.nodup_cons.mp hnodup.of_append_right).1

theorem Position.unique (hnodup : s.allThreads.Nodup) {p : Process} (hp : p ∈ s.processList)
    (hct : ct ∈ s.threads p) : p = cp := by
  rw [h.list, List.mem_append, List.mem_cons] at hp
  obtain hp | hp | hp := hp
  · exact absurd (List.mem_append_left T₁ (List.mem_flatMap.mpr ⟨p, hp, hct⟩))
      (h.not_before hnodup)
  · exact hp
  · exact absurd (List.mem_append_right T₂ (List.mem_flatMap.mpr ⟨p, hp, hct⟩))
      (h.not_after hnodup)

theorem Position.mem_threads : ct ∈ s.threads cp := by
  rw [h.threads]
  exact List.mem_append_right T₁ List.mem_cons_self

end Position

section Prepared

variable {s : Custom} {ct : Thread} {ps : Process → TaskState}

variable {t : Thread}

theorem ReadyAbove.open (h : ReadyAbove (s.prepared ct ps) ps) :
    Open (s.prepared ct ps) s.processList := by
  rintro p hp ⟨t, ht, heligible⟩
  rw [eligible, Bool.and_eq_true, decide_eq_true_iff] at heligible
  exact h p hp ⟨t, ht, heligible.1⟩

theorem switchTo_prepared_state (p : Process) (t u : Thread) :
    ((s.prepared ct ps).switchTo (p, t)).threadState u =
      if u = t then .running else if u = ct then .ready else s.threadState u := by
  show update (update s.threadState ct .ready) t .running u = _
  rw [update_apply, update_apply]

variable (hs : Quiet s) (hct : s.currentThread = some ct) (haffinity : s.affinity ct = true)

include hs hct haffinity

theorem Quiet.eligible_prepared (ht : t ∈ s.allThreads) :
    (s.prepared ct ps).eligible t =
      (decide (s.threadState t = .ready) || decide (s.currentThread = some t)) := by
  show (decide (update s.threadState ct .ready t = .ready) && s.affinity t) = _
  rw [hct]
  by_cases htct : t = ct
  · subst htct
    rw [update_self, haffinity]
    simp
  · rw [update_of_ne htct]
    by_cases hready : s.threadState t = .ready
    · rw [hready, hs.affinity t ht hready]
      rfl
    · simp only [hready, Option.some.injEq, Ne.symm htct, decide_false, Bool.false_and,
        Bool.or_self]

theorem Quiet.filter_prepared (ps : Process → TaskState) :
    s.allThreads.filter (s.prepared ct ps).eligible = s.live :=
  List.filter_congr fun _ ht => hs.eligible_prepared hct haffinity ht

theorem Quiet.search_prepared {cp : Process} {P₁ P₂ : List Process} {T₁ T₂ : List Thread}
    (hcp : s.currentProcess = some cp) (hpos : Position s cp ct P₁ P₂ T₁ T₂)
    (habove : ReadyAbove (s.prepared ct ps) ps) :
    ∃ p t i, (s.prepared ct ps).search = some (s.prepared ct ps, some (p, t)) ∧ s.live[i]? = some ct ∧
      s.live[(i + 1) % s.live.length]? = some t := by
  have hcp₁ : cp ∉ P₁ := fun hmem => hpos.not_before hs.nodup
    (List.mem_append_left T₁ (List.mem_flatMap.mpr ⟨cp, hmem, hpos.mem_threads⟩))
  have hcp₂ : cp ∉ P₂ := fun hmem => hpos.not_after hs.nodup
    (List.mem_append_right T₂ (List.mem_flatMap.mpr ⟨cp, hmem, hpos.mem_threads⟩))
  have hct₁ : ct ∉ T₁ := fun hmem => hpos.not_before hs.nodup (List.mem_append_right _ hmem)
  obtain ⟨found, hsearch, hfound⟩ := search_eq (s := s.prepared ct ps) hcp hct hpos.list
    hpos.threads hcp₁ hcp₂ hct₁ hs.intact habove.open
  have heligible : (s.prepared ct ps).eligible ct = true := by
    rw [hs.eligible_prepared hct haffinity (by
      rw [hpos.allThreads_eq]; exact List.mem_append_right _ List.mem_cons_self), hct]
    simp
  have hlive := hs.filter_prepared hct haffinity ps
  rw [hpos.allThreads_eq] at hlive
  have hscan := Cycle.scan_eq (P₁.flatMap s.threads ++ T₁) (T₂ ++ P₂.flatMap s.threads) heligible
  rw [hlive, ← hpos.allThreads_eq] at hscan
  rw [List.filter_append, List.filter_cons_of_pos heligible] at hlive
  have hlength : 0 < s.live.length := by
    rw [← hlive, List.length_append, List.length_cons]
    omega
  have hnext := List.getElem?_eq_getElem (Nat.mod_lt
    (((P₁.flatMap s.threads ++ T₁).filter (s.prepared ct ps).eligible).length + 1) hlength)
  obtain ⟨⟨p, t⟩, rfl, ht⟩ := Option.map_eq_some_iff.mp ((hfound.trans hscan).trans hnext)
  refine ⟨p, t, _, hsearch, ?_, hnext.trans (congrArg some ht.symm)⟩
  rw [← hlive, List.getElem?_append_right (Nat.le_refl _), Nat.sub_self]
  rfl

theorem Quiet.live_switchTo (p : Process) (heligible : (s.prepared ct ps).eligible t = true) :
    ((s.prepared ct ps).switchTo (p, t)).live = s.live := by
  rw [← hs.filter_prepared hct haffinity ps]
  apply List.filter_congr
  intro u hu
  rw [switchTo_prepared_state]
  show (_ || decide (some t = some u)) = _
  by_cases hut : u = t
  · rw [hut, heligible, decide_eq_true rfl, Bool.or_true]
  · rw [if_neg hut, hs.eligible_prepared hct haffinity hu, hct]
    by_cases huct : u = ct
    · simp [huct]
    · simp [huct, Ne.symm hut, Ne.symm huct]

theorem Quiet.switchTo_prepared (habove : ReadyAbove (s.prepared ct ps) ps)
    (hnone : NoneTerminated (s.prepared ct ps)) {p : Process} (hp : p ∈ s.processList)
    (ht : t ∈ s.threads p) (heligible : (s.prepared ct ps).eligible t = true) :
    Quiet ((s.prepared ct ps).switchTo (p, t)) := by
  have hready : ∀ u, ((s.prepared ct ps).switchTo (p, t)).threadState u = .ready →
      u = ct ∨ s.threadState u = .ready := by
    intro u hu
    rw [switchTo_prepared_state] at hu
    split at hu
    · cases hu
    · split at hu
      · rename_i huct
        exact Or.inl huct
      · exact Or.inr hu
  have hnext := switchTo_noneTerminated hnone (p, t)
  refine ⟨⟨hs.plain, hs.intact, hs.nodup, ?_, ?_, ?_, ?_, ?_⟩, fun q hq => (hnext q hq).1⟩
  · intro u hu
    rw [switchTo_prepared_state]
    split
    · decide
    · split
      · decide
      · exact hs.awake u hu
  · intro u hu
    obtain ⟨q, hq, hu⟩ := List.mem_flatMap.mp hu
    exact (hnext q hq).2 u hu
  · intro u hu huready
    obtain rfl | hstate := hready u huready
    · exact haffinity
    · exact hs.affinity u hu hstate
  · rintro q hq ⟨u, hu, huready⟩
    show update ps p .running q = .ready ∨ update ps p .running q = .running ∧ some p = some q
    by_cases hqp : q = p
    · subst hqp
      exact Or.inr ⟨update_self .., rfl⟩
    · rw [update_of_ne hqp]
      refine Or.inl (habove q hq ⟨u, hu, ?_⟩)
      show update s.threadState ct .ready u = .ready
      rw [update_apply]
      split
      · rfl
      · rename_i huct
        exact (hready u huready).resolve_left huct
  · rw [eligible, Bool.and_eq_true] at heligible
    refine ⟨p, t, rfl, rfl, hp, ht, heligible.2, ?_, ?_⟩
    · rw [switchTo_prepared_state, if_pos rfl]
      exact Or.inr rfl
    · exact Or.inr (update_self ..)

end Prepared

/-- **One call** selects the live thread after the current one, and keeps the
    setting and the live threads. -/
theorem Quiet.schedule (hs : Quiet s) (time : Thread → Nat) :
    ∃ s' i, s.schedule time = some s' ∧ Quiet s' ∧ s'.live = s.live ∧
      s.currentThread = s.live[i]? ∧ s'.currentThread = s.live[(i + 1) % s.live.length]? := by
  obtain ⟨cp, ct, hcp, hct, hmem, htmem, haffinity, ht, hp⟩ := hs.current
  obtain ⟨P₁, P₂, T₁, T₂, hpos⟩ := exists_position hmem htmem
  obtain ⟨ps, hprepare, habove⟩ :=
    hs.prepare_eq hcp hct hp ht (fun p hp hct => hpos.unique hs.nodup hp hct) time
  obtain ⟨mid, hmid, hsettles⟩ := prepare_settles hs.intact hs.noneTerminated time
  obtain rfl := Option.mem_unique hmid hprepare
  have hnone := hsettles.noneTerminated hs.noneTerminated
  obtain ⟨p, t, i, hsearch, hcurrent, hnext⟩ :=
    hs.search_prepared hct haffinity hcp hpos habove
  have heligible := (search_spec hsearch).2 p t rfl
  obtain ⟨hpmem, htmem'⟩ := search_mem (s := s.prepared ct ps) hcp hct hmem hsearch
  refine ⟨(s.prepared ct ps).switchTo (p, t), i, ?_,
    hs.switchTo_prepared hct haffinity habove hnone hpmem htmem' heligible,
    hs.live_switchTo hct haffinity p heligible, hct.trans hcurrent.symm, hnext.symm⟩
  rw [schedule_eq hs.plain, select, hprepare, Option.bind_some, hsearch, Option.bind_some]
  exact Intact.dispatch (s := s.prepared ct ps) hs.intact (some (p, t))

/-! ## Section 5: Runs -/

theorem Quiet.live_nodup (hs : Quiet s) : s.live.Nodup := hs.nodup.filter _

theorem Quiet.selections (hs : Quiet s) {i : Nat} (hi : i < s.live.length)
    (hcurrent : s.currentThread = s.live[i]?) (times : List (Thread → Nat)) :
    ∃ sel, s.selections times = some sel ∧ sel.length = times.length ∧
      ∀ k, k < sel.length → sel[k]? = s.live[(i + 1 + k) % s.live.length]? := by
  induction times generalizing s i with
  | nil => exact ⟨[], rfl, rfl, fun k hk => absurd hk (Nat.not_lt_zero k)⟩
  | cons time times ih =>
    obtain ⟨s', j, hschedule, hs', hlive, hj, hnext⟩ := hs.schedule time
    -- a thread is only once in the list, so the position is the one we know
    obtain rfl : i = j := (List.getElem?_inj hi hs.live_nodup).mp (hcurrent.symm.trans hj)
    have hlt : (i + 1) % s.live.length < s.live.length := Nat.mod_lt _ (Nat.zero_lt_of_lt hi)
    obtain ⟨t, ht⟩ : ∃ t, s.live[(i + 1) % s.live.length]? = some t :=
      ⟨_, List.getElem?_eq_getElem hlt⟩
    obtain ⟨sel, hsel, hlength, hturn⟩ := ih hs' (hlive ▸ hlt) (hlive ▸ hnext)
    refine ⟨t :: sel, ?_, congrArg (· + 1) hlength, ?_⟩
    · rw [Custom.selections, hschedule, Option.bind_some, hnext, ht, Option.bind_some, hsel]
      rfl
    · intro k hk
      cases k with
      | zero => exact ht.symm
      | succ k =>
        rw [List.getElem?_cons_succ, hturn k (Nat.lt_of_succ_lt_succ hk), hlive]
        congr 1
        rw [Nat.add_assoc, Nat.mod_add_mod]
        congr 1
        omega

/-- **Round robin.** In a quiet system, after any number of calls, as many further
    calls as there are live threads select each of them exactly once. -/
theorem schedule_round_robin {s : Custom} (hs : Quiet s) (before within : List (Thread → Nat))
    (hwithin : within.length = s.live.length) :
    ∃ first window, s.selections (before ++ within) = some (first ++ window) ∧
      first.length = before.length ∧ window.length = within.length ∧
      window.Perm s.live ∧ ∀ t ∈ s.live, window.count t = 1 := by
  obtain ⟨s', i, -, -, -, hcurrent, -⟩ := hs.schedule fun _ => 0
  have hi : i < s.live.length := by
    obtain ⟨cp, ct, -, hct, -⟩ := hs.current
    exact (List.getElem?_eq_some_iff.mp (hcurrent.symm.trans hct)).1
  obtain ⟨sel, hsel, hlength, hturn⟩ := hs.selections hi hcurrent (before ++ within)
  rw [List.length_append] at hlength
  have hwindow : (sel.drop before.length).length = within.length := by
    rw [List.length_drop]
    omega
  have hperm : (sel.drop before.length).Perm s.live := by
    apply Cycle.window_perm (i := i + 1 + before.length) (hwindow.trans hwithin)
    intro k hk
    rw [List.getElem?_drop, hturn _ (by omega), ← Nat.add_assoc (i + 1)]
  refine ⟨sel.take before.length, sel.drop before.length, ?_, ?_, hwindow, hperm, ?_⟩
  · rw [List.take_append_drop]
    exact hsel
  · rw [List.length_take]
    omega
  · intro t ht
    rw [hperm.count_eq, List.count_eq_one_of_mem hs.live_nodup ht]

/-- A process with thread 0 and one with the threads 1, 2 and 3, of which 1 is
    current and 2 is blocked. -/
def twoOfThree : Custom :=
  { twoProcesses with
    threadVector := fun p => ⟨if p = 0 then [0] else if p = 1 then [1, 2, 3] else [], []⟩
    affinity := fun _ => true
    threadState := fun t => if t = 2 then .blocked else .ready
    currentProcess := some 1
    currentThread := some 1 }

theorem twoOfThree_quiet : Quiet twoOfThree where
  plain := ⟨rfl, rfl⟩
  intact := ⟨rfl, rfl⟩
  nodup := by decide
  awake := by decide
  kept := by decide
  affinity := by decide
  ready := by decide
  current := ⟨1, 1, by decide⟩
  living := by decide

/-- The second, third and fourth call. -/
theorem schedule_round_robin_three :
    ∃ first window, twoOfThree.selections (List.replicate 4 fun _ => 7) = some (first ++ window) ∧
      first.length = 1 ∧ window.Perm [0, 1, 3] := by
  obtain ⟨first, window, hsel, hfirst, -, hperm, -⟩ := schedule_round_robin twoOfThree_quiet
    (List.replicate 1 fun _ => 7) (List.replicate 3 fun _ => 7) (by decide)
  exact ⟨first, window, hsel, hfirst, hperm⟩

/-- Process 2 is terminated and has no threads. Process 1 with thread 1 is its
    child. -/
def terminatedParent : Custom :=
  { twoProcesses with
    processVector := ⟨[0, 1, 2], []⟩
    threadVector := fun p => ⟨if p = 0 then [0] else if p = 1 then [1] else [], []⟩
    childVector := fun p => ⟨if p = 2 then [1] else [], []⟩
    parent := fun p => if p = 1 then some 2 else none
    affinity := fun _ => true
    processState := fun p => if p = 2 then .terminated else .ready
    currentProcess := some 0
    currentThread := some 0 }

theorem terminatedParent_calm : Calm terminatedParent where
  plain := ⟨rfl, rfl⟩
  intact := ⟨rfl, rfl⟩
  nodup := by decide
  awake := by decide
  kept := by decide
  affinity := by decide
  ready := by decide
  current := ⟨0, 0, by decide⟩

/-- The threads 0 and 1 are ready. The first call deletes process 2 and with it its
    child, so that thread 1 is never selected. -/
theorem child_of_terminated_not_selected :
    Calm terminatedParent ∧ terminatedParent.live = [0, 1] ∧
      terminatedParent.selections (List.replicate 2 fun _ => 7) = some [0, 0] := by
  refine ⟨terminatedParent_calm, by decide, ?_⟩
  decide +kernel

end Fennix.Tasking.Custom
