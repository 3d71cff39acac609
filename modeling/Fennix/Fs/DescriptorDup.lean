import Fennix.Fs.DescriptorFork
import Fennix.Fs.DescriptorOpen
import Fennix.Fs.DescriptorOffset

/-! # Duplicated descriptors

    A descriptor can be duplicated in four ways: by `usr_dup`, by `usr_dup2`, and
    by the commands `F_DUPFD` and `F_DUPFD_CLOEXEC` of `linux_fcntl` in
    `Kernel/subsystem/linux/syscall.cpp`, which both go through `usr_dup2`. All
    of them build the new record from the node and the mode alone.
-/

namespace Fennix.Fs

/-! ## Section 1: `linux_fcntl` -/

/-- `linux_EBADF`. -/
def linuxEbadf : Int := 9

/-- `linux_EINVAL`. -/
def linuxEinval : Int := 22

/-- `linux_ENOSYS`. -/
def linuxEnosys : Int := 38

/-- `linux_FD_CLOEXEC`. -/
def fdCloexec : BitVec 32 := 1#32

/-- The commands `F_GETLK` to `F_GETSIG`, `F_SETOWN_EX` to `F_GETOWNER_UIDS` and
    `F_OFD_GETLK` to `F_OFD_SETLKW`. -/
def notImplemented : List Int := [5, 6, 7, 8, 9, 10, 11, 15, 16, 17, 36, 37, 38]

namespace FileDescriptorTable

variable {σ : Type} (fs : Nat → InodeOperations σ) (pcb : Pcb)

/-- `GetFlags`. -/
def getFlags (s : FileDescriptorTable σ) (fd : Int) : Int :=
  match s.fileMap fd with
  | none => -ebadf
  | some fildes => fildes.flags.toInt

/-- `SetFlags`. -/
def setFlags (s : FileDescriptorTable σ) (fd : Int) (flags : BitVec 32) :
    Int × FileDescriptorTable σ :=
  match s.fileMap fd with
  | none => (-ebadf, s)
  | some fildes =>
    (0, { s with fileMap := Function.update s.fileMap fd (some { fildes with flags := flags }) })

/-- The pointer `arg` as an `int`. -/
def intArg (arg : BitVec 64) : BitVec 32 := arg.setWidth 32

/-- `F_DUPFD`. -/
def fDupfd (s : FileDescriptorTable σ) (fd : Int) (arg : BitVec 64) :
    Option (Int × FileDescriptorTable σ) :=
  (s.usrDup2 fs fd (intArg arg).toInt).bind fun (ret, s) =>
    (convertErrnoToLinux ret).map fun ret => (ret, s)

/-- `F_SETFL`. -/
def fSetfl (s : FileDescriptorTable σ) (fd : Int) (arg : BitVec 64) :
    Int × FileDescriptorTable σ :=
  let old := BitVec.ofInt 32 (s.getFlags fd)
  if intArg arg &&& oAppend ≠ 0 then (0, (s.setFlags fd (old ||| oAppend)).2)
  else (0, (s.setFlags fd (old &&& ~~~oAppend)).2)

/-- `F_DUPFD_CLOEXEC`, which looks for the old descriptor after the call. -/
def fDupfdCloexec (s : FileDescriptorTable σ) (fd : Int) (arg : BitVec 64) :
    Option (Int × FileDescriptorTable σ) :=
  (s.usrDup2 fs fd (intArg arg).toInt).bind fun (ret, s) =>
    if ret < 0 then (convertErrnoToLinux ret).map fun ret => (ret, s)
    else
      match s.fileMap fd with
      | none => some (-linuxEbadf, s)
      | some fildes =>
        let marked : Fildes := { fildes with flags := fildes.flags ||| fdCloexec }
        some (ret, { s with fileMap := Function.update s.fileMap fd (some marked) })

/-- `linux_fcntl`. -/
def linuxFcntl (s : FileDescriptorTable σ) (fd cmd : Int) (arg : BitVec 64) :
    Option (Int × FileDescriptorTable σ) :=
  if cmd = 0 then s.fDupfd fs fd arg
  else if cmd = 1 ∨ cmd = 3 then (convertErrnoToLinux (s.getFlags fd)).map fun ret => (ret, s)
  else if cmd = 2 then
    let (ret, s) := s.setFlags fd (intArg arg)
    (convertErrnoToLinux ret).map fun ret => (ret, s)
  else if cmd = 4 then some (s.fSetfl fd arg)
  else if cmd = 1030 then s.fDupfdCloexec fs fd arg
  else if cmd ∈ notImplemented then some (-linuxEnosys, s)
  else some (-linuxEinval, s)

/-! ## Section 2: The property -/

/-- A call that duplicates a descriptor. -/
inductive Duplication where
  | usrDup
  | usrDup2 (newfd : Int)
  | fDupfd (arg : BitVec 64)
  | fDupfdCloexec (arg : BitVec 64)

/-- What the call returns and leaves. -/
def duplicateBy (s : FileDescriptorTable σ) (oldfd : Int) :
    Duplication → Option (Int × FileDescriptorTable σ)
  | .usrDup => some (s.usrDup pcb oldfd)
  | .usrDup2 newfd => s.usrDup2 fs oldfd newfd
  | .fDupfd arg => s.linuxFcntl fs oldfd 0 arg
  | .fDupfdCloexec arg => s.linuxFcntl fs oldfd 1030 arg

/-- `ret` is the smallest number not in use from `arg` on, and no other
    descriptor changes. -/
structure TakesSmallest (s : FileDescriptorTable σ) (arg ret : Int)
    (s' : FileDescriptorTable σ) : Prop where
  free : s.fileMap ret = none
  from_arg : arg ≤ ret
  smallest : ∀ fd, arg ≤ fd → fd < ret → s.fileMap fd ≠ none
  others : ∀ fd, fd ≠ ret → s'.fileMap fd = s.fileMap fd

/-- What a call that duplicates the descriptor `f` is meant to do, if it returns
    a descriptor. A descriptor is marked by either of the two flags for closing. -/
def DupRight (s : FileDescriptorTable σ) (f : Fildes) (ret : Int) (s' : FileDescriptorTable σ) :
    Duplication → Prop
  | .usrDup => ∃ g, s'.fileMap ret = some g ∧ g.flags = f.flags ∧ g.offset = f.offset
  | .usrDup2 _ => ∃ g, s'.fileMap ret = some g ∧ g.flags = f.flags ∧ g.offset = f.offset
  | .fDupfd arg =>
    (∃ g, s'.fileMap ret = some g ∧ g.flags = f.flags ∧ g.offset = f.offset) ∧
      TakesSmallest s (intArg arg).toInt ret s'
  | .fDupfdCloexec arg =>
    (∃ g mark, s'.fileMap ret = some g ∧ (mark = fdCloexec ∨ mark = oCloexec) ∧
        g.flags = f.flags ||| mark ∧ g.offset = f.offset) ∧
      TakesSmallest s (intArg arg).toInt ret s'

/-- When a call does what it is meant to: the old descriptor has no flags and is
    at the start of its file, and `F_DUPFD` is asked for a free number. -/
def Copyable (s : FileDescriptorTable σ) (oldfd : Int) (f : Fildes) : Duplication → Prop
  | .usrDup => f.flags = 0 ∧ f.offset = 0
  | .usrDup2 newfd => newfd = oldfd ∨ f.flags = 0 ∧ f.offset = 0
  | .fDupfd arg => s.fileMap (intArg arg).toInt = none ∧ f.flags = 0 ∧ f.offset = 0
  | .fDupfdCloexec _ => False

/-! ## Section 3: Each call -/

section Calls

variable {fs pcb}
variable {s s' : FileDescriptorTable σ} {oldfd newfd ret : Int} {f : Fildes}

theorem copies_iff (hnew : s'.fileMap ret = some (duplicate f)) :
    (∃ g, s'.fileMap ret = some g ∧ g.flags = f.flags ∧ g.offset = f.offset) ↔
      f.flags = 0 ∧ f.offset = 0 := by
  refine ⟨?_, fun h => ⟨duplicate f, hnew, h.1.symm, h.2.symm⟩⟩
  rintro ⟨g, hg, hflags, hoffset⟩
  obtain rfl := Option.mem_unique hnew hg
  exact ⟨hflags.symm, hoffset.symm⟩

theorem usrDup_right_iff (hf : s.fileMap oldfd = some f) (h : s.usrDup pcb oldfd = (ret, s'))
    (hret : 0 ≤ ret) : DupRight s f ret s' .usrDup ↔ f.flags = 0 ∧ f.offset = 0 := by
  obtain ⟨hneg, -⟩ | ⟨f', hf', -, -, rfl⟩ := usrDup_cases h
  · omega
  · obtain rfl := Option.mem_unique hf hf'
    exact copies_iff (Function.update_self ..)

theorem usrDup2_done (hf : s.fileMap oldfd = some f)
    (h : s.usrDup2 fs oldfd newfd = some (ret, s')) (hret : 0 ≤ ret) :
    ret = newfd ∧ 0 ≤ newfd ∧ (newfd = oldfd ∧ s' = s ∨ newfd ≠ oldfd ∧
      s'.fileMap = Function.update s.fileMap newfd (some (duplicate f))) := by
  obtain ⟨hneg, -⟩ | ⟨hpos, rfl, hsame, rfl, -⟩ | ⟨f', mid, r, hpos, hf', hne, rfl, -, rfl⟩ :=
    usrDup2_cases h
  · omega
  · exact ⟨rfl, hpos, Or.inl ⟨hsame, rfl⟩⟩
  · obtain rfl := Option.mem_unique hf hf'
    exact ⟨rfl, hpos, Or.inr ⟨hne, rfl⟩⟩

theorem usrDup2_ret (h : s.usrDup2 fs oldfd newfd = some (ret, s')) :
    ret = -ebadf ∨ 0 ≤ ret := by
  unfold usrDup2 at h
  split at h
  · exact Or.inl (Prod.mk.inj (Option.some.inj h)).1.symm
  · rename_i hneg
    have hpos := Int.not_lt.mp hneg
    split at h
    · exact Or.inl (Prod.mk.inj (Option.some.inj h)).1.symm
    · split at h
      · cases h
        exact Or.inr hpos
      · obtain ⟨_, -, heq⟩ := Option.map_eq_some_iff.mp h
        cases heq
        exact Or.inr hpos

theorem usrDup2_right_iff (hf : s.fileMap oldfd = some f)
    (h : s.usrDup2 fs oldfd newfd = some (ret, s')) (hret : 0 ≤ ret) :
    DupRight s f ret s' (.usrDup2 newfd) ↔ newfd = oldfd ∨ f.flags = 0 ∧ f.offset = 0 := by
  obtain ⟨rfl, -, ⟨rfl, rfl⟩ | ⟨hne, hmap⟩⟩ := usrDup2_done hf h hret
  · exact iff_of_true ⟨f, hf, rfl, rfl⟩ (Or.inl rfl)
  · rw [or_iff_right hne]
    exact copies_iff (by rw [hmap]; exact Function.update_self ..)

variable {arg : BitVec 64}

theorem fDupfd_done (h : s.fDupfd fs oldfd arg = some (ret, s')) (hret : 0 ≤ ret) :
    s.usrDup2 fs oldfd (intArg arg).toInt = some (ret, s') := by
  obtain ⟨⟨r, mid⟩, hdup, hconvert⟩ := Option.bind_eq_some_iff.mp h
  obtain ⟨ret', hret', heq⟩ := Option.map_eq_some_iff.mp hconvert
  obtain ⟨rfl, rfl⟩ := Prod.mk.inj heq
  obtain rfl | hpos := usrDup2_ret hdup
  · obtain rfl : -linuxEbadf = ret' := Option.some.inj hret'
    exact absurd hret (by decide)
  · rw [convert_nonneg hpos] at hret'
    rw [hdup, Option.some.inj hret']

theorem fDupfd_right_iff (hf : s.fileMap oldfd = some f)
    (h : s.fDupfd fs oldfd arg = some (ret, s')) (hret : 0 ≤ ret) :
    DupRight s f ret s' (.fDupfd arg) ↔
      s.fileMap (intArg arg).toInt = none ∧ f.flags = 0 ∧ f.offset = 0 := by
  obtain ⟨rfl, -, ⟨rfl, rfl⟩ | ⟨hne, hmap⟩⟩ := usrDup2_done hf (fDupfd_done h hret) hret
  · refine iff_of_false ?_ ?_
    · rintro ⟨-, hsmallest⟩
      cases hf.symm.trans hsmallest.free
    · rintro ⟨hnone, -⟩
      cases hf.symm.trans hnone
  · have hcopies := copies_iff (f := f)
      (show s'.fileMap (intArg arg).toInt = some (duplicate f) from
        by rw [hmap]; exact Function.update_self ..)
    refine ⟨fun hright => ⟨hright.2.free, hcopies.mp hright.1⟩, ?_⟩
    rintro ⟨hnone, hplain⟩
    refine ⟨hcopies.mpr hplain, hnone, Int.le_refl _, ?_, ?_⟩
    · intro fd hge hlt
      omega
    · intro fd hfd
      rw [hmap, Function.update_of_ne hfd]

theorem fDupfdCloexec_wrong (hf : s.fileMap oldfd = some f)
    (h : s.fDupfdCloexec fs oldfd arg = some (ret, s')) (hret : 0 ≤ ret) :
    ¬ DupRight s f ret s' (.fDupfdCloexec arg) := by
  obtain ⟨⟨r, mid⟩, hdup, hmark⟩ := Option.bind_eq_some_iff.mp h
  rintro ⟨⟨g, mark, hg, hmarks, hflags, -⟩, hsmallest⟩
  dsimp only at hmark
  split at hmark
  · -- an error of `usr_dup2` stays an error
    rename_i hneg
    obtain rfl | hpos := usrDup2_ret hdup
    · obtain ⟨ret', hret', heq⟩ := Option.map_eq_some_iff.mp hmark
      obtain rfl : -linuxEbadf = ret' := Option.some.inj hret'
      cases heq
      exact absurd hret (by decide)
    · omega
  · rename_i hnneg
    obtain ⟨rfl, -, ⟨rfl, rfl⟩ | ⟨hne, hmap⟩⟩ := usrDup2_done hf hdup (Int.not_lt.mp hnneg)
    · -- the number is the old descriptor, which is in use
      rw [hf] at hmark
      cases hmark
      cases hf.symm.trans hsmallest.free
    · have hold : mid.fileMap oldfd = some f := by
        rw [hmap, Function.update_of_ne (Ne.symm hne)]
        exact hf
      rw [hold] at hmark
      cases hmark
      have hnew : mid.fileMap (intArg arg).toInt = some (duplicate f) := by
        rw [hmap]
        exact Function.update_self ..
      obtain rfl := Option.mem_unique hnew ((Function.update_of_ne hne ..).symm.trans hg)
      obtain ⟨-, hzero⟩ := BitVec.or_eq_zero_iff.mp hflags.symm
      obtain rfl | rfl := hmarks
      · exact absurd hzero (by decide)
      · exact absurd hzero (by decide)

end Calls

theorem Sound.fDupfd_returns {s : FileDescriptorTable σ} (h : Sound s) (oldfd : Int)
    (arg : BitVec 64) :
    (∃ ret s', s.fDupfd fs oldfd arg = some (ret, s')) ∧
      ∃ ret s', s.fDupfdCloexec fs oldfd arg = some (ret, s') := by
  obtain ⟨ret, s', hdup⟩ := h.usrDup2_returns fs oldfd (intArg arg).toInt
  obtain ⟨ret', hret'⟩ : ∃ ret', convertErrnoToLinux ret = some ret' := by
    obtain rfl | hpos := usrDup2_ret hdup
    · exact ⟨_, rfl⟩
    · exact ⟨ret, convert_nonneg hpos⟩
  have hconvert : ((convertErrnoToLinux ret).map fun ret => (ret, s')) = some (ret', s') := by
    rw [hret']
    rfl
  refine ⟨⟨ret', s', by rw [fDupfd, hdup]; exact hconvert⟩, ?_⟩
  rw [fDupfdCloexec, hdup, Option.bind_some]
  dsimp only
  split
  · exact ⟨ret', s', hconvert⟩
  · split
    · exact ⟨_, _, rfl⟩
    · exact ⟨_, _, rfl⟩

/-- **Duplicated descriptors.** Each of the four calls on an open descriptor
    returns, and if it returns a descriptor, it has done what it is meant to
    exactly if the condition holds before the call. -/
theorem duplicate_right_iff {s : FileDescriptorTable σ} {oldfd : Int} {f : Fildes}
    (hf : s.fileMap oldfd = some f) (call : Duplication) :
    (Sound s → ∃ ret s', s.duplicateBy fs pcb oldfd call = some (ret, s')) ∧
      ∀ ret s', s.duplicateBy fs pcb oldfd call = some (ret, s') → 0 ≤ ret →
        (DupRight s f ret s' call ↔ Copyable s oldfd f call) := by
  refine ⟨?_, ?_⟩
  · intro hsound
    cases call with
    | usrDup => exact ⟨_, _, rfl⟩
    | usrDup2 newfd => exact hsound.usrDup2_returns fs oldfd newfd
    | fDupfd arg => exact (hsound.fDupfd_returns fs oldfd arg).1
    | fDupfdCloexec arg => exact (hsound.fDupfd_returns fs oldfd arg).2
  · intro ret s' h hret
    cases call with
    | usrDup => exact usrDup_right_iff hf (Option.some.inj h) hret
    | usrDup2 newfd => exact usrDup2_right_iff hf h hret
    | fDupfd arg => exact fDupfd_right_iff hf h hret
    | fDupfdCloexec arg => exact iff_of_false (fDupfdCloexec_wrong hf h hret) id

/-- The small table with a file at descriptor 1 and, at descriptor 0, one that is
    open for appending and at offset 5. -/
def appendTable : FileDescriptorTable Entries :=
  { smallTable with
    fileMap := fun fd =>
      if fd = 0 then some ⟨0, oAppend, 0, 5⟩ else if fd = 1 then some ⟨0, 0, 0, 0⟩ else none }

/-- Descriptor 1, which has no flags and is at its start, is duplicated well. -/
theorem duplicate_right_iff_plain :
    ∃ s', appendTable.duplicateBy (fun _ => directories) smallProcess 1 .usrDup = some (2, s') ∧
      DupRight appendTable ⟨0, 0, 0, 0⟩ 2 s' .usrDup := by
  have hopen : appendTable.fileMap 1 = some ⟨0, 0, 0, 0⟩ := rfl
  obtain ⟨-, hright⟩ := duplicate_right_iff (fun _ => directories) smallProcess hopen .usrDup
  refine ⟨_, rfl, (hright 2 _ rfl (by decide)).mpr ⟨rfl, rfl⟩⟩

/-- `usr_dup` loses the flag and the offset. `F_DUPFD` from 1 on takes descriptor
    1, which is in use. `F_DUPFD_CLOEXEC` marks the old descriptor. -/
theorem append_descriptor_duplicated :
    (∃ s', appendTable.duplicateBy (fun _ => directories) smallProcess 0 .usrDup = some (2, s') ∧
      s'.fileMap 2 = some ⟨0, 0, 0, 0⟩ ∧
      ¬ DupRight appendTable ⟨0, oAppend, 0, 5⟩ 2 s' .usrDup) ∧
    (∃ s', appendTable.duplicateBy (fun _ => directories) smallProcess 0 (.fDupfd 1) =
        some (1, s') ∧
      ¬ DupRight appendTable ⟨0, oAppend, 0, 5⟩ 1 s' (.fDupfd 1)) ∧
    ∃ s', appendTable.duplicateBy (fun _ => directories) smallProcess 0 (.fDupfdCloexec 2) =
        some (2, s') ∧
      s'.fileMap 0 = some ⟨0, oAppend ||| fdCloexec, 0, 5⟩ ∧ s'.fileMap 2 = some ⟨0, 0, 0, 0⟩ ∧
      ¬ DupRight appendTable ⟨0, oAppend, 0, 5⟩ 2 s' (.fDupfdCloexec 2) := by
  have hopen : appendTable.fileMap 0 = some ⟨0, oAppend, 0, 5⟩ := rfl
  refine ⟨⟨(appendTable.usrDup smallProcess 0).2, rfl, rfl, ?_⟩, ?_, ?_⟩
  · have hrun : appendTable.usrDup smallProcess 0 =
        (2, (appendTable.usrDup smallProcess 0).2) := rfl
    rw [usrDup_right_iff hopen hrun (by decide)]
    decide
  · have heval : ((appendTable.duplicateBy (fun _ => directories) smallProcess 0
        (.fDupfd 1)).map Prod.fst) = some 1 := by decide +kernel
    obtain ⟨⟨ret, s'⟩, hrun, rfl⟩ := Option.map_eq_some_iff.mp heval
    refine ⟨s', hrun, ?_⟩
    have hcall : appendTable.fDupfd (fun _ => directories) 0 1 = some (1, s') := hrun
    rw [fDupfd_right_iff hopen hcall (by decide)]
    decide
  · obtain ⟨s', hrun, hold, hnew⟩ : ∃ s',
        appendTable.fDupfdCloexec (fun _ => directories) 0 2 = some (2, s') ∧
          s'.fileMap 0 = some ⟨0, oAppend ||| fdCloexec, 0, 5⟩ ∧
          s'.fileMap 2 = some ⟨0, 0, 0, 0⟩ := by decide +kernel
    exact ⟨s', hrun, hold, hnew, fDupfdCloexec_wrong hopen hrun (by decide)⟩

end FileDescriptorTable

end Fennix.Fs
