import Fennix.Fs.DescriptorTable

/-! # What `usr_open` returns

    A number that is returned should be a new descriptor of the file that the
    path names, and a failure should be negative and leave the table alone.

    `usr_open` returns `-ret.Error` where `Create` or `Lookup` fails. The errors
    that the virtual file system makes itself are positive there, but an error
    of a file system is passed on as it is, and file systems return negative
    ones: such a failure comes out positive.
-/

namespace Fennix.Fs.FileDescriptorTable

open Fennix.Fs.Path

variable {σ : Type} (fs : Nat → InodeOperations σ) (pcb : Pcb)

/-- What `usr_open` is meant to return: a new key whose node is the one that the
    path resolves to, or something negative with the table unchanged. -/
def OpenRight (s : FileDescriptorTable σ) (pathname : Option Str) (ret : Int)
    (s' : FileDescriptorTable σ) : Prop :=
  (0 ≤ ret ∧ ∃ path f, pathname = some path ∧ s.fileMap ret = none ∧ s'.fileMap ret = some f ∧
      s'.vfs.lookup fs pcb.cwd path = some (.ok f.node, s'.vfs)) ∨
    (ret < 0 ∧ s'.fileMap = s.fileMap)

/-- Entries of directories: the number of the directory, a name and an inode. -/
abbrev Entries := List ((Nat × Str) × Inode)

/-- Directories with the errors that the file systems of the kernel return. -/
def directories : InodeOperations Entries where
  lookup := some fun w dir name =>
    match w.lookup (dir.index, name) with
    | some inode => (0, inode)
    | none => (-enoent, ⟨0, 0, 0⟩)
  create := some fun w dir name mode =>
    let inode : Inode := ⟨0, w.length + 10, mode⟩
    (0, inode, ((dir.index, name), inode) :: w)
  remove := some fun w dir name =>
    match w.lookup (dir.index, name) with
    | some _ => (0, w.filter fun entry => entry.1 ≠ (dir.index, name))
    | none => (-enoent, w)

/-- A root with the directory of the descriptors below it. The root has an entry
    `a` that is a directory, and that one has an entry `a`, too. -/
def smallTable : FileDescriptorTable Entries where
  vfs :=
    { tree := (Forest.single ⟨⟨0, 0, sIfdir⟩, 0, false, [], [], []⟩).addChild 0 (by decide)
        ⟨⟨0, 3, sIfdir⟩, 0, false, ['f', 'd'], ['/', 'f', 'd'], []⟩
      world := [((0, ['a']), ⟨0, 1, sIfdir⟩), ((1, ['a']), ⟨0, 2, sIfreg⟩)] }
  fileMap := fun _ => none

/-- A process in the root with room for four descriptors. -/
def smallProcess : Pcb := ⟨0, 1, 4, 0⟩

end Fennix.Fs.FileDescriptorTable
