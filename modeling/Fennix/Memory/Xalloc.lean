import Fennix.Framework.Span
import Fennix.Memory.Physical

/-! # Xalloc

    What the two heaps of `Kernel/core/memory/heap_allocators/Xalloc` share.
    Both ask `Xalloc_REQUEST_PAGES` for pages, which whoever embeds the heap
    has to implement; `Wrapper.cpp` does it with `KernelAllocator`. Neither
    heap ever gives a page back.

    Sizes and addresses are 64-bit words, written on `Nat` with an explicit
    `% 2 ^ 64` wherever the source can wrap around.
-/

namespace Fennix.Memory.Xalloc

/-! ## Section 1: Pages and sizes -/

/-- `Xalloc_REQUEST_PAGES`: the address of so many pages. -/
abbrev RequestPages (σ : Type) := σ → Nat → Option (Nat × σ)

/-- `Xalloc_REQUEST_PAGES` of `Wrapper.cpp`. -/
def kernelPages : RequestPages Physical := fun s pages =>
  match s.requestPages pages with
  | (.returned address, s') => some (address, s')
  | _ => none

/-- `XStoP(d)`. -/
def xStoP (d : Nat) : Nat := (d + pageSize - 1) % 2 ^ 64 / pageSize

/-- `XPtoS(d)`. -/
def xPtoS (d : Nat) : Nat := d * pageSize % 2 ^ 64

/-- `Xalloc_BlockSanityKey`. -/
def blockSanityKey : Nat := 0xA110C

/-- `sizeof(Block)`, packed and aligned to 16 bytes, in both heaps. -/
def sizeofBlock : Nat := 48

/-! ## Section 2: Sources that never hand out a page twice -/

/-- A supplier of pages together with the ranges it has handed out, no two of
    which overlap. -/
structure PageSource (σ : Type) where
  request : RequestPages σ
  handedOut : σ → List Span
  handedOut_request : ∀ {s pages address s'}, request s pages = some (address, s') →
    handedOut s' = handedOut s ++ [⟨address, pages * pageSize⟩]
  apart : ∀ s, Span.Apart (handedOut s)

/-- Pages from one page on, with those handed out so far. -/
structure Bump where
  next : Nat
  out : List Span
  packed : Span.Packed out 0 (next * pageSize)

/-- A source that hands out page after page. -/
def bumpSource : PageSource Bump where
  request := fun s pages => some (s.next * pageSize,
    { next := s.next + pages
      out := s.out ++ [⟨s.next * pageSize, pages * pageSize⟩]
      packed := by
        rw [Nat.add_mul]
        exact s.packed.extend (Nat.zero_le _) _ })
  handedOut := Bump.out
  handedOut_request := by
    intro s pages address s' h
    simp only [Option.some.injEq, Prod.mk.injEq] at h
    obtain ⟨rfl, rfl⟩ := h
    rfl
  apart := fun s => s.packed.apart

end Fennix.Memory.Xalloc
