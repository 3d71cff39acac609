import Mathlib.Data.BitVec
import Mathlib.Data.List.Basic

/-! # The hash of symbol names

    `elf_hash` of `Userspace/libc/interpreter/helper.c`, for 64-bit builds. It is the hash
    of the ELF format computed in 64 bits: the lower half of the result is right, and a
    carry out of it stays in the upper half for the next eight characters.
-/

namespace Fennix.Interpreter

/-- A `char`. -/
abbrev Byte := BitVec 8

/-- One round of the loop of `elf_hash`. -/
def elfHashStep (hash : BitVec 64) (c : Byte) : BitVec 64 :=
  let hash := (hash <<< 4) + c.setWidth 64
  let high := hash &&& 0xF0000000
  let hash := if high ≠ 0 then hash ^^^ (high >>> 24) else hash
  hash &&& ~~~high

/-- `elf_hash`. -/
def elfHash (name : List Byte) : BitVec 64 := name.foldl elfHashStep 0

/-- The hash of the format, in 32 bits. -/
def standardHashStep (hash : BitVec 32) (c : Byte) : BitVec 32 :=
  let hash := (hash <<< 4) + c.setWidth 32
  let high := hash &&& 0xF0000000
  let hash := if high ≠ 0 then hash ^^^ (high >>> 24) else hash
  hash &&& ~~~high

def standardHash (name : List Byte) : BitVec 32 := name.foldl standardHashStep 0

end Fennix.Interpreter
