import Fennix.Fs.DescriptorOpen

/-! # Descriptor numbers

    `usr_open` and `usr_dup` search the table for the smallest number that is
    free, below the soft limit of the process. `usr_dup2` takes its number from
    the caller and asks no limit.

    Two things can go wrong: a `usr_dup2` to a number at the limit or above, and
    a failure of `usr_open` that comes out positive and so looks like a
    descriptor.
-/

namespace Fennix.Fs.FileDescriptorTable

open Fennix.Fs.Path

variable {σ : Type} (fs : Nat → InodeOperations σ) (pcb : Pcb)

/-! ## Section 1: The property -/

/-- All keys are below the soft limit. -/
def BelowLimit (s : FileDescriptorTable σ) : Prop :=
  ∀ fd, s.fileMap fd ≠ none → fd < pcb.openFiles

/-- `fd` is the smallest number not in use. -/
def IsSmallestFree (s : FileDescriptorTable σ) (fd : Int) : Prop :=
  0 ≤ fd ∧ s.fileMap fd = none ∧ ∀ other, 0 ≤ other → other < fd → s.fileMap other ≠ none

/-- The call chooses the number itself. -/
def TableCall.Chooses : TableCall → Prop
  | .usrOpen _ _ _ => True
  | .usrDup _ => True
  | .usrDup2 _ _ => False
  | .usrClose _ => False

/-- The descriptor that a successful call returns or closes. -/
def TableCall.subject (ret : Int) : TableCall → Int
  | .usrClose fd => fd
  | _ => ret

/-- What a call is meant to do to the numbers. -/
structure NumbersRight (s : FileDescriptorTable σ) (call : TableCall) (ret : Int)
    (s' : FileDescriptorTable σ) : Prop where
  smallest : 0 ≤ ret → call.Chooses → s.IsSmallestFree ret ∧ s'.fileMap ret ≠ none
  limit : BelowLimit pcb s'
  failure : ret < 0 → s'.fileMap = s.fileMap
  others : 0 ≤ ret → ∀ fd, fd ≠ call.subject ret → s'.fileMap fd = s.fileMap fd

/-- `usr_dup2` is asked for a number below the limit, and `usr_open` does not
    give up with an error that is negative already. -/
def Granted (s : FileDescriptorTable σ) : TableCall → Prop
  | .usrOpen pathname flags mode =>
    ∀ c, openError fs pcb s pathname flags mode = some c → 0 < c
  | .usrDup2 oldfd newfd => s.fileMap oldfd ≠ none → newfd < pcb.openFiles
  | .usrDup _ => True
  | .usrClose _ => True

/-- Runs of calls from a table with all its keys below the limit. -/
def numberCalls : System (FileDescriptorTable σ) TableCall where
  init := fun s => Sound s ∧ BelowLimit pcb s
  step := (tableCalls fs pcb).step

/-! ## Section 2: One call -/

section Calls

variable {fs pcb}
variable {s s' : FileDescriptorTable σ} {ret : Int}

variable (h : BelowLimit pcb s)

include h

theorem BelowLimit.of_eq (hmap : s'.fileMap = s.fileMap) : BelowLimit pcb s' := by
  intro fd hfd
  rw [hmap] at hfd
  exact h fd hfd

theorem BelowLimit.update {fd : Int} {f : Option Fildes} (hfd : f ≠ none → fd < pcb.openFiles)
    (hmap : s'.fileMap = Function.update s.fileMap fd f) : BelowLimit pcb s' := by
  intro other hother
  rw [hmap] at hother
  by_cases heq : other = fd
  · subst heq
    rw [Function.update_self] at hother
    exact hfd hother
  · rw [Function.update_of_ne heq] at hother
    exact h other hother

variable {call : TableCall}

/-- A call that leaves the map alone does right if it says that it has failed,
    or if it has not chosen a number. -/
theorem NumbersRight.unchanged (hmap : s'.fileMap = s.fileMap) (hret : ret < 0 ∨ ¬call.Chooses) :
    NumbersRight pcb s call ret s' where
  smallest := by
    intro hpos hchooses
    obtain hneg | hnot := hret
    · omega
    · exact absurd hchooses hnot
  limit := h.of_eq hmap
  failure := fun _ => hmap
  others := fun _ fd _ => congrFun hmap fd

/-- A successful call that changes the entry of its subject alone does right if
    the number is, as far as it has chosen it. -/
theorem NumbersRight.changed {f : Option Fildes} (hpos : 0 ≤ ret)
    (hmap : s'.fileMap = Function.update s.fileMap (call.subject ret) f)
    (hlimit : f ≠ none → call.subject ret < pcb.openFiles)
    (hsmallest : call.Chooses → s.IsSmallestFree ret ∧ s'.fileMap ret ≠ none) :
    NumbersRight pcb s call ret s' where
  smallest := fun _ => hsmallest
  limit := h.update hlimit hmap
  failure := by
    intro hneg
    omega
  others := by
    intro _ fd hfd
    rw [hmap, Function.update_of_ne hfd]

theorem NumbersRight.chosen {f : Fildes} (hsubject : call.subject ret = ret) (hpos : 0 ≤ ret)
    (hfree : ret = getFreeFileDescriptor pcb s.fileMap)
    (hmap : s'.fileMap = Function.update s.fileMap ret (some f)) :
    NumbersRight pcb s call ret s' := by
  obtain ⟨hnone, hlimit, hsmaller⟩ := free_spec pcb (hfree ▸ hpos)
  rw [← hfree] at hnone hlimit hsmaller
  have hentered : s'.fileMap ret ≠ none := by
    rw [hmap, Function.update_self]
    exact Option.some_ne_none f
  apply NumbersRight.changed h hpos
  · rw [hsubject]
    exact hmap
  · rw [hsubject]
    exact fun _ => hlimit
  · exact fun _ => ⟨⟨hpos, hnone, hsmaller⟩, hentered⟩

theorem usrOpen_numbersRight_iff {pathname : Option Str} {flags mode : BitVec 32}
    (hopen : s.usrOpen fs pcb pathname flags mode = some (ret, s')) :
    NumbersRight pcb s (.usrOpen pathname flags mode) ret s' ↔
      Granted fs pcb s (.usrOpen pathname flags mode) := by
  obtain ⟨-, ⟨hmap, ⟨hneg, hnone⟩ | ⟨c, hc, rfl⟩⟩ | ⟨path, f, -, hnone, hpos, hfree, hmap, -⟩⟩ :=
    usrOpen_cases hopen
  · refine iff_of_true (NumbersRight.unchanged h hmap (Or.inl hneg)) ?_
    intro c hc
    cases hnone.symm.trans hc
  · constructor
    · intro hright c' hc'
      obtain rfl := Option.mem_unique hc hc'
      by_contra hneg
      -- the number is returned as a descriptor, but it is not entered
      obtain ⟨hfree, hentered⟩ := hright.smallest (by omega) trivial
      rw [hmap] at hentered
      exact hentered hfree.2.1
    · intro hgranted
      have hc := hgranted c hc
      exact NumbersRight.unchanged h hmap (Or.inl (by omega))
  · refine iff_of_true (NumbersRight.chosen h rfl hpos hfree hmap) ?_
    intro c hc
    cases hnone.symm.trans hc

theorem usrDup_numbersRight {oldfd : Int} (hdup : s.usrDup pcb oldfd = (ret, s')) :
    NumbersRight pcb s (.usrDup oldfd) ret s' := by
  obtain ⟨hneg, rfl⟩ | ⟨f, -, hpos, hfree, rfl⟩ := usrDup_cases hdup
  · exact NumbersRight.unchanged h rfl (Or.inl hneg)
  · exact NumbersRight.chosen h rfl hpos hfree rfl

theorem usrDup2_numbersRight_iff {oldfd newfd : Int}
    (hdup : s.usrDup2 fs oldfd newfd = some (ret, s')) :
    NumbersRight pcb s (.usrDup2 oldfd newfd) ret s' ↔
      Granted fs pcb s (.usrDup2 oldfd newfd) := by
  obtain ⟨hneg, rfl, hwhy⟩ | ⟨-, rfl, rfl, rfl, hold⟩ | ⟨f, mid, r, hpos, hf, -, rfl, -, rfl⟩ :=
    usrDup2_cases hdup
  · refine iff_of_true (NumbersRight.unchanged h rfl (Or.inl hneg)) ?_
    intro hsome
    obtain hnegative | hnone := hwhy
    · omega
    · exact absurd hnone hsome
  · exact iff_of_true (NumbersRight.unchanged h rfl (Or.inr id)) (fun _ => h _ hold)
  · constructor
    · intro hright _
      refine hright.limit ret ?_
      show Function.update s.fileMap ret (some (duplicate f)) ret ≠ none
      rw [Function.update_self]
      exact Option.some_ne_none _
    · intro hgranted
      have hopen : s.fileMap oldfd ≠ none := by
        rw [hf]
        exact Option.some_ne_none f
      exact NumbersRight.changed h hpos rfl (fun _ => hgranted hopen) False.elim

theorem usrClose_numbersRight {fd : Int} (hclose : s.usrClose fs fd = some (ret, s')) :
    NumbersRight pcb s (.usrClose fd) ret s' := by
  obtain ⟨-, rfl, rfl⟩ | ⟨f, r, v', -, -, rfl, rfl⟩ := usrClose_cases hclose
  · exact NumbersRight.unchanged h rfl (Or.inr id)
  · exact NumbersRight.changed h (Int.le_refl 0) rfl (fun hne => absurd rfl hne) False.elim

theorem numbersRight_iff_granted (hinvoke : s.invoke fs pcb call = some (ret, s')) :
    NumbersRight pcb s call ret s' ↔ Granted fs pcb s call := by
  cases call with
  | usrOpen pathname flags mode => exact usrOpen_numbersRight_iff h hinvoke
  | usrDup oldfd => exact iff_of_true (usrDup_numbersRight h (Option.some.inj hinvoke)) trivial
  | usrDup2 oldfd newfd => exact usrDup2_numbersRight_iff h hinvoke
  | usrClose fd => exact iff_of_true (usrClose_numbersRight h hinvoke) trivial

end Calls

/-! ## Section 3: Runs -/

theorem inv_of_granted {s : FileDescriptorTable σ}
    (h : ((numberCalls fs pcb).restrict (Granted fs pcb)).Reachable s) :
    Sound s ∧ BelowLimit pcb s := by
  refine h.invariant (fun _ hs => hs) ?_
  intro s call s' hs hstep
  obtain ⟨hgranted, ret, hinvoke⟩ := hstep
  exact ⟨hs.1.invoke fs pcb hinvoke, ((numbersRight_iff_granted hs.2 hinvoke).mpr hgranted).limit⟩

/-- In every run of granted calls all keys are below the limit, and the next call
    does right exactly if it is granted, too. -/
theorem numbers_right_iff {s : FileDescriptorTable σ}
    (h : ((numberCalls fs pcb).restrict (Granted fs pcb)).Reachable s) :
    BelowLimit pcb s ∧ ∀ call,
      ((∀ pathname flags mode, call ≠ .usrOpen pathname flags mode) →
        ∃ ret s', s.invoke fs pcb call = some (ret, s')) ∧
      ∀ ret s', s.invoke fs pcb call = some (ret, s') →
        (NumbersRight pcb s call ret s' ↔ Granted fs pcb s call) := by
  obtain ⟨hsound, hlimit⟩ := inv_of_granted fs pcb h
  refine ⟨hlimit, fun call => ⟨hsound.invoke_returns fs pcb, ?_⟩⟩
  intro ret s' hinvoke
  exact numbersRight_iff_granted hlimit hinvoke

theorem init_smallTable : (numberCalls (fun _ => directories) smallProcess).init smallTable := by
  refine ⟨⟨?_⟩, ?_⟩
  · intro fd f hf
    cases hf
  · intro fd hfd
    exact absurd rfl hfd

theorem granted_smallTable : Granted (fun _ => directories) smallProcess smallTable
    (.usrOpen (some ['/', 'a']) oRdonly 0) := by
  have herror : openError (fun _ => directories) smallProcess smallTable (some ['/', 'a'])
      oRdonly 0 = none := by decide +kernel
  intro c hc
  cases herror.symm.trans hc

/-- Opening `/a` from the empty table takes 0, the smallest number. -/
theorem numbers_right_smallTable :
    ∃ s', smallTable.usrOpen (fun _ => directories) smallProcess (some ['/', 'a']) oRdonly 0 =
        some (0, s') ∧
      NumbersRight smallProcess smallTable (.usrOpen (some ['/', 'a']) oRdonly 0) 0 s' := by
  have heval : ((smallTable.usrOpen (fun _ => directories) smallProcess (some ['/', 'a']) oRdonly
      0).map Prod.fst) = some 0 := by decide +kernel
  obtain ⟨⟨ret, s'⟩, hopen, rfl⟩ := Option.map_eq_some_iff.mp heval
  obtain ⟨-, hcalls⟩ := numbers_right_iff (fun _ => directories) smallProcess
    (.init init_smallTable)
  exact ⟨s', hopen, ((hcalls (.usrOpen (some ['/', 'a']) oRdonly 0)).2 _ s' hopen).mpr
    granted_smallTable⟩

/-- With a limit of four descriptors, 0 is duplicated to 7. -/
theorem dup2_ignores_limit :
    ∃ s s', ((numberCalls (fun _ => directories) smallProcess).restrict
        (Granted (fun _ => directories) smallProcess)).Reachable s ∧
      s.usrDup2 (fun _ => directories) 0 7 = some (7, s') ∧ s'.fileMap 7 ≠ none ∧
      ¬BelowLimit smallProcess s' := by
  obtain ⟨ret, s, hopen, s', hdup, hkey⟩ : ∃ ret s,
      smallTable.invoke (fun _ => directories) smallProcess
        (.usrOpen (some ['/', 'a']) oRdonly 0) = some (ret, s) ∧
      ∃ s', s.usrDup2 (fun _ => directories) 0 7 = some (7, s') ∧ s'.fileMap 7 ≠ none := by
    decide +kernel
  refine ⟨s, s', .step (.init init_smallTable) ⟨granted_smallTable, ret, hopen⟩, hdup, hkey, ?_⟩
  intro hlimit
  exact absurd (hlimit 7 hkey) (by decide)

end Fennix.Fs.FileDescriptorTable
