import Fennix.Memory.Virtual

/-! # Mapping ranges

    The inline functions of `Kernel/include/memory/virtual.hpp` that map and
    unmap a range.
-/

namespace Fennix.Memory

/-- The bytes that a round of the loops over a range advances. -/
def MapType.pageSize : MapType → Nat
  | .twoMiB => 0x200000
  | .fourMiB => 0x400000
  | .oneGiB => 0x40000000
  | _ => 0x1000

/-- The rounds of `for (uintptr_t i = 0; i < Length; i += PageSize)`. A length
    past the last multiple of the size below `2 ^ 64` is never reached: `i`
    wraps to zero first. -/
def loopRounds (length size : Nat) : Option Nat :=
  if length + size ≤ 2 ^ 64 then some ((length + size - 1) / size) else none

/-- The address that is reached after `i` steps of `size` bytes. -/
def stepAddress (address : Word) (size i : Nat) : Word := address + BitVec.ofNat 64 (i * size)

namespace Virtual

variable {σ : Type} (S : Supplier σ)

/-- `n` rounds of the `Map` with a length. -/
def mapSteps (vmm : Virtual) (st : Machine σ) (virtualAddress physicalAddress flags : Word)
    (type : MapType) : Nat → Option (Machine σ)
  | 0 => some st
  | n + 1 =>
    (mapSteps vmm st virtualAddress physicalAddress flags type n).bind fun st' =>
      vmm.map S st' (stepAddress virtualAddress type.pageSize n)
        (stepAddress physicalAddress type.pageSize n) flags type

/-- `Virtual::Map` with a length. -/
def mapRange (vmm : Virtual) (st : Machine σ) (virtualAddress physicalAddress : Word)
    (length : Nat) (flags : Word) (type : MapType) : Option (Machine σ) :=
  (loopRounds length type.pageSize).bind
    (mapSteps S vmm st virtualAddress physicalAddress flags type)

/-- `n` rounds of the `Unmap` with a length. -/
def unmapSteps (vmm : Virtual) (m : Tables) (virtualAddress : Word) (type : MapType) :
    Nat → Option Tables
  | 0 => some m
  | n + 1 =>
    (unmapSteps vmm m virtualAddress type n).bind fun m' =>
      vmm.unmap m' (stepAddress virtualAddress type.pageSize n) type

/-- `Virtual::Unmap` with a length. -/
def unmapRange (vmm : Virtual) (m : Tables) (virtualAddress : Word) (length : Nat)
    (type : MapType) : Option Tables :=
  (loopRounds length type.pageSize).bind (unmapSteps vmm m virtualAddress type)

end Virtual

end Fennix.Memory
