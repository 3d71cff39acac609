import Mathlib.Data.List.Basic
import Mathlib.Tactic.Basic

/-! # Byte arrays

    Files as lists, over any type of bytes.

    - `readAt`: so many bytes from an offset on, as far as there are any.
    - `writeAt`: bytes put over an offset; a gap before it is filled up.
    - `copyFrom`: bytes of a memory that is there everywhere.
    - `overwrite`: bytes put into memory that is already there, or `none` if
      they do not fit.
-/

namespace Fennix.Bytes

variable {α : Type}

/-- The bytes from `offset` on, at most `size` of them. -/
def readAt (file : List α) (offset size : Nat) : List α := (file.drop offset).take size

/-- `file` with `data` put at `offset`; bytes between its end and `offset` are
    `zero`. -/
def writeAt (zero : α) (file : List α) (offset : Nat) (data : List α) : List α :=
  (file ++ List.replicate (offset - file.length) zero).take offset ++ data ++
    file.drop (offset + data.length)

/-- The `size` bytes of `memory` from `offset` on. -/
def copyFrom (memory : Nat → α) (offset size : Nat) : List α :=
  (List.range size).map fun i => memory (offset + i)

/-- `memory` with `data` put at `offset`, if there is room for it. -/
def overwrite (memory : List α) (offset : Nat) (data : List α) : Option (List α) :=
  if offset + data.length ≤ memory.length then
    some (memory.take offset ++ data ++ memory.drop (offset + data.length))
  else none

@[simp] theorem length_readAt (file : List α) (offset size : Nat) :
    (readAt file offset size).length = min size (file.length - offset) := by
  rw [readAt, List.length_take, List.length_drop]

variable {offset : Nat} {data : List α}

theorem readAt_of_le {file : List α} (h : file.length ≤ offset) (size : Nat) :
    readAt file offset size = [] := by
  rw [readAt, List.drop_eq_nil_of_le h, List.take_nil]

theorem readAt_zero (file : List α) (size : Nat) : readAt file 0 size = file.take size := rfl

@[simp] theorem length_copyFrom (memory : Nat → α) (offset size : Nat) :
    (copyFrom memory offset size).length = size := by
  rw [copyFrom, List.length_map, List.length_range]

theorem readAt_copyFrom (memory : Nat → α) (length offset size : Nat) :
    readAt (copyFrom memory 0 length) offset size =
      copyFrom memory offset (min size (length - offset)) := by
  apply List.ext_getElem
  · simp
  · intro i hleft hright
    simp [readAt, copyFrom]

theorem length_writeAt (zero : α) (file : List α) (offset : Nat) (h : 0 < data.length) :
    (writeAt zero file offset data).length = max file.length (offset + data.length) := by
  simp only [writeAt, List.length_append, List.length_take, List.length_replicate,
    List.length_drop]
  omega

theorem writeAt_zero_of_le (zero : α) {file : List α} (h : file.length ≤ data.length) :
    writeAt zero file 0 data = data := by
  rw [writeAt, List.take_zero, List.nil_append, Nat.zero_add, List.drop_eq_nil_of_le h,
    List.append_nil]

theorem overwrite_eq_some {memory memory' : List α}
    (h : overwrite memory offset data = some memory') :
    offset + data.length ≤ memory.length ∧
      memory' = memory.take offset ++ data ++ memory.drop (offset + data.length) := by
  unfold overwrite at h
  split at h
  · rename_i hle
    exact ⟨hle, (Option.some.inj h).symm⟩
  · cases h

theorem length_overwrite {memory memory' : List α} (h : overwrite memory offset data = some memory') :
    memory'.length = memory.length := by
  obtain ⟨hle, rfl⟩ := overwrite_eq_some h
  simp only [List.length_append, List.length_take, List.length_drop]
  omega

end Fennix.Bytes
