import Fennix.Tasking.Tasks

/-! # What deletions leave alone

    Deleting tasks keeps the lists of the scheduler in order (`Sound`), and a process
    that is not deleted keeps its threads unless one of them is terminated (`Spares`).
    The vectors may hold deleted tasks behind their end, which the loops come to; of
    these it is enough to know whose threads they were.
-/

namespace Fennix.Tasking.Custom

open Function (update)

/-! ## Section 1: Lists in order -/

/-- No task is listed twice, the threads that a vector holds or held belong to its process,
    deleted processes are not listed, and the idle thread and the current one belong to the
    processes they run in. -/
structure Sound (s : Custom) : Prop where
  nodup : s.processList.Nodup
  threadsNodup : ∀ p, (s.threads p).Nodup
  rooted : ∀ p, ∀ t ∈ (s.threadVector p).elements ++ (s.threadVector p).behind,
    s.threadParent t = p
  deleted : ∀ p ∈ s.deletedProcesses, p ∉ s.processList
  idle : s.threadParent s.idleThread = s.idleProcess
  current : ∀ cp ct, s.currentProcess = some cp → s.currentThread = some ct →
    s.threadParent ct = cp

theorem Sound.threadParent {s : Custom} (h : Sound s) {p : Process} {t : Thread}
    (ht : t ∈ s.threads p) : s.threadParent t = p :=
  h.rooted p t (List.mem_append_left _ ht)

/-- `s'` has fewer processes in the list, and its lists are in order if those of `s` are. -/
structure Shrinks (s s' : Custom) : Prop where
  list : s'.processList.Sublist s.processList
  deletedProcesses : s.deletedProcesses ⊆ s'.deletedProcesses
  sound : Sound s → Sound s'

theorem Shrinks.refl (s : Custom) : Shrinks s s :=
  ⟨List.Sublist.refl _, List.Subset.refl _, id⟩

theorem Shrinks.trans {s s' s'' : Custom} (h : Shrinks s s') (h' : Shrinks s' s'') :
    Shrinks s s'' :=
  ⟨h'.list.trans h.list, List.Subset.trans h.deletedProcesses h'.deletedProcesses,
    fun hs => h'.sound (h.sound hs)⟩

section Shrinks

variable {s s' : Custom} {p q : Process} {t : Thread}

theorem shrinks_popProcess (h : s.popProcess p = some s') : Shrinks s s' := by
  obtain ⟨v, hlist, -, rfl⟩ := popProcess_cases h
  refine ⟨hlist, List.Subset.refl _, fun hs => ?_⟩
  exact ⟨hs.nodup.sublist hlist, hs.threadsNodup, hs.rooted,
    fun q hq hmem => hs.deleted q hq (hlist.subset hmem), hs.idle, hs.current⟩

theorem shrinks_deleteThread (h : s.deleteThread t = some s') : Shrinks s s' := by
  obtain ⟨v, hv, rfl⟩ := deleteThread_cases h
  obtain ⟨hlist, hslots⟩ := Std.Vector.erase_spec hv
  refine ⟨List.Sublist.refl _, List.Subset.refl _, fun hs => ?_⟩
  refine ⟨hs.nodup, fun q => ?_, fun q u hu => ?_, hs.deleted, hs.idle, hs.current⟩
  · show (update s.threadVector (s.threadParent t) v q).elements.Nodup
    rw [Function.update_apply]
    split
    · exact (hs.threadsNodup _).sublist hlist
    · exact hs.threadsNodup q
  · change u ∈ (update s.threadVector (s.threadParent t) v q).elements ++
      (update s.threadVector (s.threadParent t) v q).behind at hu
    rw [Function.update_apply] at hu
    split at hu
    · next hq =>
      rw [hq]
      exact hs.rooted _ u (hslots u hu)
    · exact hs.rooted q u hu

theorem shrinks_leaveParent (h : s.leaveParent p = some s') : Shrinks s s' := by
  obtain ⟨cv, rfl⟩ := leaveParent_cases h
  exact ⟨List.Sublist.refl _, List.Subset.refl _, fun hs =>
    ⟨hs.nodup, hs.threadsNodup, hs.rooted, hs.deleted, hs.idle, hs.current⟩⟩

theorem ofDeletion_shrinks : OfDeletion Shrinks where
  refl := Shrinks.refl
  trans := Shrinks.trans
  deleteThread := shrinks_deleteThread
  leaveParent := shrinks_leaveParent
  deleted := by
    intro s p s₁ s₂ hpop hafter
    have hall := (shrinks_popProcess hpop).trans hafter
    refine ⟨hall.list, fun q hq => List.mem_append_left _ (hall.deletedProcesses hq), fun hs => ?_⟩
    have hs₂ := hall.sound hs
    refine ⟨hs₂.nodup, hs₂.threadsNodup, hs₂.rooted, fun q hq => ?_, hs₂.idle, hs₂.current⟩
    obtain hq | hq := List.mem_append.mp hq
    · exact hs₂.deleted q hq
    · rw [List.mem_singleton.mp hq]
      -- it was taken out of the list first
      obtain ⟨v, -, hout, rfl⟩ := popProcess_cases hpop
      exact fun hmem => hout hs.nodup (hafter.list.subset hmem)

end Shrinks

/-! ## Section 2: The threads of one process -/

/-- The process has been deleted, or it has the threads it had. -/
def Spares (p : Process) (s s' : Custom) : Prop :=
  p ∈ s'.deletedProcesses ∨ s'.threadVector p = s.threadVector p

section Spares

variable {s s' : Custom} {p q : Process} {t : Thread}

theorem Spares.trans {s'' : Custom} (h : Spares p s s') (h' : Spares p s' s'')
    (hshrinks : Shrinks s' s'') : Spares p s s'' := by
  obtain hdeleted | hsame := h
  · exact .inl (hshrinks.deletedProcesses hdeleted)
  · obtain hdeleted | hsame' := h'
    · exact .inl hdeleted
    · exact .inr (hsame'.trans hsame)

/-- What is known in a loop that deletes. -/
structure Progress (p : Process) (s t : Custom) : Prop where
  sound : Sound t
  spares : Spares p s t
  shrinks : Shrinks s t

theorem Progress.refl (hs : Sound s) : Progress p s s := ⟨hs, .inr rfl, .refl s⟩

theorem Progress.next {t t' : Custom} (h : Progress p s t) (hspares : Spares p t t')
    (hshrinks : Shrinks t t') : Progress p s t' :=
  ⟨hshrinks.sound h.sound, h.spares.trans hspares hshrinks, h.shrinks.trans hshrinks⟩

theorem spares_deleteThread (hne : s.threadParent t ≠ p) (h : s.deleteThread t = some s') :
    Spares p s s' := by
  obtain ⟨v, -, rfl⟩ := deleteThread_cases h
  exact .inr (Function.update_of_ne (Ne.symm hne) _ _)

theorem spares_forEach_threads (hs : Sound s) (hne : q ≠ p) {body : Custom → Thread → Option Custom}
    (hbody : ∀ {t u t'}, body t u = some t' → t' = t ∨ t.deleteThread u = some t')
    (h : Std.Vector.forEach (fun s => s.threadVector q) body s = some s') : Progress p s s' := by
  refine Std.Vector.forEach_inv (P := Progress p s) ?_ h (.refl hs)
  intro t u t' k ht _ hslot hturn
  obtain rfl | hdelete := hbody hturn
  · exact ht
  · have hparent := ht.sound.rooted q u (Std.Vector.mem_of_slot hslot)
    exact ht.next (spares_deleteThread (by rwa [hparent]) hdelete) (shrinks_deleteThread hdelete)

theorem spares_deleteProcess {depth : Nat} (hs : Sound s)
    (h : deleteProcess depth s q = some s') : Spares p s s' := by
  induction depth generalizing s q s' with
  | zero => cases h
  | succ depth ih =>
    obtain ⟨_, s₁, s₂, s₃, s₄, heq, -, hpop, hchildren, hthreads, hparent, rfl⟩ :=
      deleteProcess_cases h
    obtain rfl := Nat.succ.inj heq
    by_cases hne : q = p
    · exact .inl (List.mem_append_right _ (by rw [hne]; exact List.mem_singleton_self p))
    · have htaken : s₁.threadVector p = s.threadVector p := by
        obtain ⟨v, -, -, rfl⟩ := popProcess_cases hpop
        rfl
      have hleft : s₄.threadVector p = s₃.threadVector p := by
        obtain ⟨cv, rfl⟩ := leaveParent_cases hparent
        rfl
      have hpopped : Progress p s s₁ :=
        (Progress.refl hs).next (.inr htaken) (shrinks_popProcess hpop)
      have hemptied : Progress p s s₂ := by
        refine Std.Vector.forEach_inv (P := Progress p s) ?_ hchildren hpopped
        intro t child t' k ht _ _ hturn
        exact ht.next (ih ht.sound hturn) (ofDeletion_shrinks.deleteProcess hturn)
      have hthreadless := spares_forEach_threads hemptied.sound hne (fun h => .inr h) hthreads
      have hall := (hemptied.next hthreadless.spares hthreadless.shrinks).next
        (.inr hleft) (shrinks_leaveParent hparent)
      obtain hdeleted | hsame := hall.spares
      · exact .inl (List.mem_append_left _ hdeleted)
      · exact .inr hsame

theorem spares_removeProcess (hs : Sound s) (hprocess : s.processState p ≠ .terminated)
    (hthreads : ∀ t ∈ s.threads p, s.threadState t ≠ .terminated)
    (h : s.removeProcess q = some s') : Spares p s s' := by
  unfold removeProcess at h
  split at h
  · cases h
  · split at h
    · exact spares_deleteProcess hs h
    · by_cases hne : q = p
      · subst hne
        -- no turn of the loop changes anything
        have hsame : s' = s := by
          refine Std.Vector.forEach_inv (P := (· = s)) ?_ h rfl
          rintro t u t' k rfl hk hslot hturn
          have hu := Std.Vector.mem_elements_of_slot hslot hk
          obtain ⟨-, rfl⟩ | ⟨hstate, -⟩ := removeThread_cases hturn
          · rfl
          · exact absurd hstate (hthreads u hu)
        rw [hsame]
        exact .inr rfl
      · refine (spares_forEach_threads hs hne ?_ h).spares
        intro t u t' hturn
        exact (removeThread_cases hturn).imp (·.2) (·.2)

end Spares

end Fennix.Tasking.Custom
