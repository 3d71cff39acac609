import Fennix.Framework.Bytes
import Mathlib.Data.BitVec

/-! # What the file systems share

    The error numbers of `Kernel/include/interface/errno.h`, and the clamp that
    `RAMFS::Read` and `USTAR::Read` both make before they copy.
-/

namespace Fennix.Fs

open Bytes

/-- `uint8_t`. -/
abbrev Byte := BitVec 8

/-- A `size_t` that is returned as `ssize_t`. -/
def ssize (size : Nat) : Int := if size < 2 ^ 63 then size else (size : Int) - 2 ^ 64

theorem ssize_of_lt {n : Nat} (h : n < 2 ^ 63) : ssize n = n := if_pos h

theorem ssize_neg {n : Nat} (h : 2 ^ 63 ≤ n) (hn : n < 2 ^ 64) : ssize n < 0 := by
  rw [ssize, if_neg (by omega)]
  omega

/-- `EINVAL`. -/
def einval : Int := 28

/-- `ENOENT`. -/
def enoent : Int := 45

/-- `ENOTDIR`. -/
def enotdir : Int := 57

/-- How many bytes `Read` copies, or `none` if it returns 0 at once. Sizes and
    offsets are `size_t`. -/
def readSize (fileSize size offset : Nat) : Option Nat :=
  let size := if size = 0 then fileSize else size
  if offset > fileSize then none
  else if fileSize - offset = 0 then none
  else some (if (offset + size) % 2 ^ 64 > fileSize then fileSize else size)

variable {fileSize size offset : Nat}

theorem readSize_past (h : fileSize ≤ offset) : readSize fileSize size offset = none := by
  simp only [readSize]
  split
  · rfl
  · exact if_pos (by omega)

theorem readSize_inside {asked : Nat} (hin : offset < fileSize)
    (hasked : (if size = 0 then fileSize else size) = asked) :
    readSize fileSize size offset =
      some (if (offset + asked) % 2 ^ 64 > fileSize then fileSize else asked) := by
  simp only [readSize, hasked]
  rw [if_neg (by omega), if_neg (by omega)]

theorem readSize_fits (hfile : fileSize < 2 ^ 64) (hin : offset < fileSize) (hpos : 1 ≤ size)
    (hfit : offset + size ≤ fileSize) : readSize fileSize size offset = some size := by
  rw [readSize_inside hin (if_neg (Nat.ne_of_gt hpos)), if_neg (by omega)]

theorem readSize_crosses (hin : offset < fileSize) (hpos : 1 ≤ size)
    (hcross : fileSize < offset + size) (hsum : offset + size < 2 ^ 64) :
    readSize fileSize size offset = some fileSize := by
  rw [readSize_inside hin (if_neg (Nat.ne_of_gt hpos)), if_pos (by omega)]

theorem readSize_wraps (hin : offset < fileSize) (hoff : offset < 2 ^ 63) (hsize : size < 2 ^ 64)
    (hwrap : 2 ^ 64 ≤ offset + size) : readSize fileSize size offset = some size := by
  rw [readSize_inside hin (if_neg (by omega)), if_neg (by omega)]

theorem readSize_zero (hin : offset < fileSize) : readSize fileSize 0 offset = some fileSize := by
  rw [readSize_inside hin (if_pos rfl), ite_self]

/-- What a read of `file` is meant to do: return how many bytes there are, at
    most `size`, and store them. -/
def Delivers (file : List Byte) (size offset : Nat) (result : Option (Int × List Byte)) : Prop :=
  result = some (((min size (file.length - offset) : Nat) : Int), readAt file offset size)

theorem delivers_past {file : List Byte} (h : file.length ≤ offset) :
    Delivers file size offset (some (0, [])) := by
  rw [Delivers, readAt_of_le h, Nat.sub_eq_zero_of_le h, Nat.min_zero]
  rfl

end Fennix.Fs
