import Fennix.Fs.Vfs
import Mathlib.Logic.Function.Basic

/-! # File descriptors

    `class FileDescriptorTable` of `Kernel/fs/descriptor.cpp`: opening,
    duplicating and closing descriptors, and the calls that read, write and
    seek through one. `FileMap` is a function from numbers to descriptors.
-/

namespace Fennix.Fs

open Fennix.Fs.Path

/-! ## Section 1: Flags and errors -/

/-- `EACCES`. -/
def eacces : Int := 2

/-- `EBADF`. -/
def ebadf : Int := 8

/-- `EFAULT`. -/
def efault : Int := 21

/-- `EMFILE`. -/
def emfile : Int := 33

/-- `O_RDONLY`. -/
def oRdonly : BitVec 32 := 0x1#32

/-- `O_WRONLY`. -/
def oWronly : BitVec 32 := 0x2#32

/-- `O_RDWR`. -/
def oRdwr : BitVec 32 := 0x3#32

/-- `O_APPEND`. -/
def oAppend : BitVec 32 := 0x4#32

/-- `O_CREAT`. -/
def oCreat : BitVec 32 := 0x8#32

/-- `O_EXCL`. -/
def oExcl : BitVec 32 := 0x20#32

/-- `O_TRUNC`. -/
def oTrunc : BitVec 32 := 0x400#32

/-- `S_IRUSR`. -/
def sIrusr : BitVec 32 := 0o400#32

/-- `S_IWUSR`. -/
def sIwusr : BitVec 32 := 0o200#32

/-- A number as `off_t`. -/
def offT (x : Int) : Int := x.bmod (2 ^ 64)

/-! ## Section 2: The table -/

/-- What the calls use of `struct Fildes`. -/
structure Fildes where
  mode : BitVec 32
  flags : BitVec 32
  node : Nat
  offset : Int
  deriving DecidableEq

/-- `std::unordered_map<int, Fildes>`. -/
abbrev FileMap := Int → Option Fildes

/-- `FileMap.insert`, which leaves a key alone that is there. -/
def FileMap.insert (fileMap : FileMap) (fd : Int) (fildes : Fildes) : FileMap :=
  if (fileMap fd).isSome then fileMap else Function.update fileMap fd (some fildes)

/-- `FileMap.erase`. -/
def FileMap.erase (fileMap : FileMap) (fd : Int) : FileMap := Function.update fileMap fd none

/-- What stays the same for a process: its working directory, the directory of
    its descriptors and its soft limit. `uninitialized` is what a `kstat` on the
    stack has as its `Size` before it is written. -/
structure Pcb where
  cwd : Nat
  fdDir : Nat
  openFiles : Nat
  uninitialized : Int

/-- The files and the descriptors of a process. -/
structure FileDescriptorTable (σ : Type) where
  vfs : Vfs σ
  fileMap : FileMap

namespace FileDescriptorTable

variable {σ : Type} (fs : Nat → InodeOperations σ) (pcb : Pcb)

/-! ## Section 3: Opening -/

/-- `ProbeMode` in `AddFileDescriptor`. -/
def probeMode (mode flags : BitVec 32) : Int :=
  if flags &&& oCreat = 0 then 0
  else if flags &&& oRdonly ≠ 0 ∧ mode &&& sIrusr = 0 then -eacces
  else if flags &&& oWronly ≠ 0 ∧ mode &&& sIwusr = 0 then -eacces
  else if flags &&& oRdwr ≠ 0 ∧ (mode &&& sIrusr = 0 ∨ mode &&& sIwusr = 0) then -eacces
  else 0

/-- A `size_t` that is used as a descriptor. -/
def asInt (i : Nat) : Int := (BitVec.ofNat 32 i).toInt

/-- `GetFreeFileDescriptor`. -/
def getFreeFileDescriptor (fileMap : FileMap) : Int :=
  match (List.range pcb.openFiles).find? fun i => (fileMap (asInt i)).isNone with
  | some i => asInt i
  | none => -emfile

/-- The part of `AddFileDescriptor` that creates a file, and the `Error` with
    which it returns, if any. -/
def creation (v : Vfs σ) (path : Str) (mode flags : BitVec 32) : Option (Option Int × Vfs σ) :=
  if flags &&& oCreat = 0 then some (none, v)
  else
    (v.create fs pcb.cwd path mode true).map fun (ret, v) =>
      match ret with
      | .ok _ => (none, v)
      | .error c => (if flags &&& oExcl ≠ 0 then some c else none, v)

/-- The part of `AddFileDescriptor` that prepares a file that was found: it may
    be truncated, and the offset may be at its end. -/
def preparation (v : Vfs σ) (node : Nat) (flags : BitVec 32) : Option (Int × Vfs σ) :=
  (if flags &&& oTrunc = 0 then some v else (v.truncate fs node 0).map Prod.snd).bind fun v =>
    if flags &&& oAppend = 0 then some (0, v)
    else
      (v.stat fs node).bind fun (_, size) =>
        (v.seek fs node (size.getD pcb.uninitialized)).map fun offset => (offset, v)

/-- The end of `AddFileDescriptor`, with a free number. A failed assertion is
    `none`. -/
def installation (s : FileDescriptorTable σ) (fdn : Int) (fd : Fildes) (path : Str) :
    Option (Int × FileDescriptorTable σ) :=
  (s.vfs.createLink fs pcb.fdDir (Nat.toDigits 10 fdn.toNat) path).bind fun (link, v) =>
    match link with
    | .error _ => none
    | .ok _ =>
      (v.openNode fs fd.node fd.flags fd.mode).map fun (_, v) =>
        (fdn, ⟨v, s.fileMap.insert fdn fd⟩)

/-- `AddFileDescriptor`. -/
def addFileDescriptor (s : FileDescriptorTable σ) (path : Str) (mode flags : BitVec 32) :
    Option (Int × FileDescriptorTable σ) :=
  if probeMode mode flags < 0 then some (-eacces, s)
  else
    (creation fs pcb s.vfs path mode flags).bind fun (refused, v) =>
      match refused with
      | some c => some (-c, { s with vfs := v })
      | none =>
        (v.lookup fs pcb.cwd path).bind fun (ret, v) =>
          match ret with
          | .error c => some (-c, { s with vfs := v })
          | .ok node =>
            (preparation fs pcb v node flags).bind fun (offset, v) =>
              let fdn := getFreeFileDescriptor pcb s.fileMap
              if fdn < 0 then some (fdn, { s with vfs := v })
              else installation fs pcb { s with vfs := v } fdn ⟨mode, flags, node, offset⟩ path

/-- `usr_open`. -/
def usrOpen (s : FileDescriptorTable σ) (pathname : Option Str) (flags mode : BitVec 32) :
    Option (Int × FileDescriptorTable σ) :=
  match pathname with
  | none => some (-efault, s)
  | some path => s.addFileDescriptor fs pcb path mode flags

/-! ## Section 4: Closing and duplicating -/

/-- `RemoveFileDescriptor`. -/
def removeFileDescriptor (s : FileDescriptorTable σ) (fd : Int) :
    Option (Int × FileDescriptorTable σ) :=
  match s.fileMap fd with
  | none => some (-ebadf, s)
  | some fildes =>
    (s.vfs.remove fs fildes.node).map fun (_, v) => (0, ⟨v, s.fileMap.erase fd⟩)

/-- `usr_close`. -/
def usrClose (s : FileDescriptorTable σ) (fd : Int) : Option (Int × FileDescriptorTable σ) :=
  match s.fileMap fd with
  | none => some (-ebadf, s)
  | some _ => s.removeFileDescriptor fs fd

/-- The descriptor that `usr_dup` and `usr_dup2` make. -/
def duplicate (fildes : Fildes) : Fildes := ⟨fildes.mode, 0, fildes.node, 0⟩

/-- `usr_dup`. -/
def usrDup (s : FileDescriptorTable σ) (oldfd : Int) : Int × FileDescriptorTable σ :=
  match s.fileMap oldfd with
  | none => (-ebadf, s)
  | some fildes =>
    let newfd := getFreeFileDescriptor pcb s.fileMap
    if newfd < 0 then (-emfile, s)
    else (newfd, { s with fileMap := s.fileMap.insert newfd (duplicate fildes) })

/-- `usr_dup2`. -/
def usrDup2 (s : FileDescriptorTable σ) (oldfd newfd : Int) :
    Option (Int × FileDescriptorTable σ) :=
  if newfd < 0 then some (-ebadf, s)
  else
    match s.fileMap oldfd with
    | none => some (-ebadf, s)
    | some fildes =>
      if newfd = oldfd then some (newfd, s)
      else
        (s.usrClose fs newfd).map fun (_, s) =>
          (newfd, { s with fileMap := s.fileMap.insert newfd (duplicate fildes) })

/-! ## Section 5: Reading, writing and seeking -/

/-- `usr_read`. -/
def usrRead (s : FileDescriptorTable σ) (fd : Int) (count : Nat) : Option (Int × List Byte) :=
  match s.fileMap fd with
  | none => some (-ebadf, [])
  | some fildes => s.vfs.read fs fildes.node count fildes.offset

/-- `usr_write`. -/
def usrWrite (s : FileDescriptorTable σ) (fd : Int) (buf : List Byte) :
    Option (Int × FileDescriptorTable σ) :=
  match s.fileMap fd with
  | none => some (-ebadf, s)
  | some fildes =>
    (s.vfs.write fs fildes.node buf fildes.offset).map fun (ret, v) => (ret, { s with vfs := v })

/-- The position that `usr_lseek` asks the file system for; `SEEK_SET`,
    `SEEK_CUR` and `SEEK_END` are 0, 1 and 2. -/
def requested (s : FileDescriptorTable σ) (fildes : Fildes) (offset whence : Int) :
    Option (Option Int) :=
  if whence = 0 then some (some offset)
  else if whence = 1 then some (some (offT (fildes.offset + offset)))
  else if whence = 2 then
    (s.vfs.stat fs fildes.node).map fun (_, size) => some (offT (size.getD 0 + offset))
  else some none

/-- `usr_lseek`. -/
def usrLseek (s : FileDescriptorTable σ) (fd offset whence : Int) :
    Option (Int × FileDescriptorTable σ) :=
  match s.fileMap fd with
  | none => some (-ebadf, s)
  | some fildes =>
    (s.requested fs fildes offset whence).bind fun position =>
      match position with
      | none => some (-einval, s)
      | some position =>
        (s.vfs.seek fs fildes.node position).map fun newOffset =>
          let fildes := { fildes with offset := newOffset }
          (newOffset, { s with fileMap := Function.update s.fileMap fd (some fildes) })

end FileDescriptorTable

end Fennix.Fs
