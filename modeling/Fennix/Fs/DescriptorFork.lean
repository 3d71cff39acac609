import Fennix.Fs.Descriptor
import Fennix.Std.UnorderedMap

/-! # Forking a descriptor table

    `FileDescriptorTable::Fork` of `Kernel/fs/descriptor.cpp` copies the hash map
    of the parent and erases the descriptors with `O_CLOEXEC` while it iterates
    over the copy. The rest of the development has the map as a function from
    numbers to descriptors; here it is the hash map itself.
-/

namespace Fennix.Fs

open Fennix.Std

/-- `O_CLOEXEC`. -/
def oCloexec : BitVec 32 := 0o2000000#32

/-- `FileDescriptorTable::FileMap`. -/
abbrev FileTable (hash : Int → Nat) := UnorderedMap hash Fildes

namespace FileTable

variable {hash : Int → Nat}

/-! ## Section 1: The hash map and the function -/

/-! ## Section 2: `Fork` -/

/-- The descriptor is closed when a program is executed. -/
def Closes (e : Int × Fildes) : Prop := e.2.flags &&& oCloexec ≠ 0

instance : DecidablePred Closes := fun _ => inferInstanceAs (Decidable (_ ≠ _))

/-- `Fork`, with the tables of the parent and the child after it. The result is
    `none` if the loop goes on from an element that was erased. -/
def fork (parent child : FileTable hash) : Option (FileTable hash × FileTable hash) :=
  let copy := child.assign parent
  (UnorderedMap.rangeFor (fun e m => if Closes e then m.erase e.1 else m) copy.stop
    (copy.entries.length + 1) copy.begin copy).map fun child => (parent, child)

/-- What `Fork` is for: the child has the descriptors that are not closed, with
    their number as the size, and the parent's table is unchanged. -/
def ForkRight (parent child : FileTable hash) : Prop :=
  ∃ child', fork parent child = some (parent, child') ∧
    (∀ fd fildes, child'.lookup fd = some fildes ↔
      parent.lookup fd = some fildes ∧ ¬ Closes (fd, fildes)) ∧
    child'.size.toNat = (parent.entries.filter fun e => ¬ Closes e).length

theorem fork_eq (parent child : FileTable hash) :
    fork parent child =
      if ∀ e ∈ parent.entries, ¬ Closes e then some (parent, child.assign parent) else none := by
  have hloop := UnorderedMap.rangeFor_erase Closes (child.assign parent).at_begin
    (Nat.lt_succ_self _)
  rw [show fork parent child = _ from congrArg (Option.map fun child => (parent, child)) hloop]
  show Option.map _ (if ∀ e ∈ parent.entries, ¬ Closes e then _ else _) = _
  split
  · rfl
  · rfl

theorem filter_eq_self {parent : FileTable hash} (h : ∀ e ∈ parent.entries, ¬ Closes e) :
    (parent.entries.filter fun e => ¬ Closes e) = parent.entries :=
  List.filter_eq_self.mpr fun e he => decide_eq_true (h e he)

/-- **Forked table.** `Fork` does what it is for exactly if no descriptor of the
    parent has `O_CLOEXEC` and the child's counter is, before the call, the
    number of the parent's descriptors. For a new child this means that the
    parent has no descriptors. -/
theorem fork_right_iff (parent child : FileTable hash) :
    ForkRight parent child ↔
      (∀ e ∈ parent.entries, ¬ Closes e) ∧ child.size.toNat = parent.entries.length := by
  refine ⟨?_, ?_⟩
  · rintro ⟨child', hfork, -, hsize⟩
    rw [fork_eq] at hfork
    split at hfork
    · rename_i hopen
      cases hfork
      rw [filter_eq_self hopen] at hsize
      exact ⟨hopen, hsize⟩
    · cases hfork
  · rintro ⟨hopen, hsize⟩
    refine ⟨child.assign parent, by rw [fork_eq, if_pos hopen], ?_, ?_⟩
    · intro fd fildes
      refine ⟨fun h => ⟨h, hopen _ (UnorderedMap.lookup_eq_some_iff.mp h)⟩, fun h => h.1⟩
    · rw [filter_eq_self hopen]
      exact hsize

/-- `std::hash<int>`. -/
def hashInt (fd : Int) : Nat := fnv1a 4 (BitVec.ofInt 64 fd)

/-- A file that is open as descriptor 3. -/
def oneOpen (flags : BitVec 32) : FileTable hashInt :=
  UnorderedMap.empty.insert 3 ⟨0, flags, 7, 0⟩

/-- One open descriptor, without `O_CLOEXEC`: the child has it, but its size is
    zero. With `O_CLOEXEC` the loop goes on from an erased element. -/
theorem fork_one_descriptor :
    ((fork (oneOpen 0) UnorderedMap.empty).map fun s => (s.2.lookup 3, s.2.size)) =
        some (some ⟨0, 0, 7, 0⟩, 0) ∧
      (fork (oneOpen oCloexec) UnorderedMap.empty).isNone ∧
      ¬ ForkRight (oneOpen 0) UnorderedMap.empty := by
  have hrun : ((fork (oneOpen 0) UnorderedMap.empty).map fun s => (s.2.lookup 3, s.2.size)) =
      some (some ⟨0, 0, 7, 0⟩, 0) := by
    decide +kernel
  refine ⟨hrun, by decide +kernel, ?_⟩
  rintro ⟨child', hfork, -, hsize⟩
  rw [hfork] at hrun
  have hzero : child'.size = 0 := (Prod.mk.inj (Option.some.inj hrun)).2
  rw [hzero] at hsize
  exact absurd hsize (by decide +kernel)

end FileTable

end Fennix.Fs
