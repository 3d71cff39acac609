import Fennix.Memory.XallocV1
import Fennix.Memory.XallocV2
import Mathlib.Logic.Function.Basic

/-! # The kernel's `malloc`, `calloc`, `realloc` and `free`

    `Kernel/core/memory/memory.cpp` hands each call to the heap that
    `AllocatorType` selects, here one of the two Xalloc heaps, and fills what the
    heap returns with zeros. It does so after `realloc`, too; and the `realloc`
    of both heaps is a `free` and a `malloc` without a copy.
-/

namespace Fennix.Memory

open Xalloc
open Option (map_eq_some_iff bind_eq_some_iff)

/-! ## Section 1: The calls -/

/-- What the kernel uses of a heap, and which pointers are those of its blocks in
    use. -/
structure HeapFunctions (η : Type) where
  malloc : η → Nat → Option (Nat × η)
  calloc : η → Nat → Nat → Option (Nat × η)
  realloc : η → Nat → Nat → Option (Nat × η)
  free : η → Nat → Option η
  inUse : η → Nat → Prop

/-- `MemoryAllocatorType::XallocV1`. -/
def xallocV1 {σ : Type} (request : RequestPages σ) : HeapFunctions (V1.Heap σ) where
  malloc := V1.malloc request
  calloc := V1.calloc request
  realloc := V1.realloc request
  free := V1.free
  inUse := fun heap p => ∃ block ∈ heap.blocks, block.address = p ∧ block.isFree = false

/-- `MemoryAllocatorType::XallocV2`. -/
def xallocV2 {σ : Type} (request : RequestPages σ) : HeapFunctions (V2.Heap σ) where
  malloc := V2.malloc request
  calloc := V2.calloc request
  realloc := V2.realloc request
  free := V2.free
  inUse := fun heap p => ∃ block ∈ heap.blocks, block.data = p ∧ block.isFree = false

/-- The bytes of the memory. -/
abbrev Content := Word → BitVec 8

/-- Byte `i` from a pointer on. -/
def Content.byteAt (memory : Content) (p i : Nat) : BitVec 8 := memory (BitVec.ofNat 64 (p + i))

/-- `memset(p, 0, count)`. -/
def Content.memset (memory : Content) (p count : Nat) : Content := fun a =>
  if (a - BitVec.ofNat 64 p).toNat < count then 0 else memory a

/-- The heap, the memory, and the requested sizes of the live blocks. -/
structure KernelHeap (η : Type) where
  heap : η
  memory : Content
  live : Nat → Option Nat

namespace KernelHeap

variable {η : Type} (f : HeapFunctions η)

/-- A size of zero is taken for 16. -/
def atLeast (size : Word) : Word := if size = 0 then 16 else size

/-- What is left after a call that returned `p` for `requested` bytes and filled
    `count` of them. -/
def handOut (k : KernelHeap η) (p : Nat) (heap : η) (requested count : Nat) :
    Nat × KernelHeap η :=
  (p, { heap := heap
        memory := k.memory.memset p count
        live := if p = 0 then k.live else Function.update k.live p (some requested) })

/-- `malloc`. -/
def malloc (k : KernelHeap η) (size : Word) : Option (Nat × KernelHeap η) :=
  (f.malloc k.heap (atLeast size).toNat).map fun (p, heap) =>
    k.handOut p heap size.toNat (atLeast size).toNat

/-- `calloc`. -/
def calloc (k : KernelHeap η) (n size : Word) : Option (Nat × KernelHeap η) :=
  (f.calloc k.heap n.toNat (atLeast size).toNat).map fun (p, heap) =>
    k.handOut p heap (n.toNat * size.toNat) (n * atLeast size).toNat

/-- `realloc`. -/
def realloc (k : KernelHeap η) (address : Nat) (size : Word) : Option (Nat × KernelHeap η) :=
  (f.realloc k.heap address (atLeast size).toNat).map fun (p, heap) =>
    { k with live := Function.update k.live address none }.handOut p heap size.toNat
      (atLeast size).toNat

/-- `free`. -/
def free (k : KernelHeap η) (address : Nat) : Option (KernelHeap η) :=
  if address = 0 then some k
  else
    (f.free k.heap address).map fun heap =>
      { k with heap := heap, live := Function.update k.live address none }

/-- A call, or a write of one byte by whoever uses the memory. -/
inductive Call where
  | malloc (size : Word)
  | calloc (n size : Word)
  | realloc (address : Nat) (size : Word)
  | free (address : Nat)
  | write (address : Word) (byte : BitVec 8)

/-- The effect of a call. -/
def apply (k : KernelHeap η) : Call → Option (KernelHeap η)
  | .malloc size => (k.malloc f size).map Prod.snd
  | .calloc n size => (k.calloc f n size).map Prod.snd
  | .realloc address size => (k.realloc f address size).map Prod.snd
  | .free address => k.free f address
  | .write address byte => some { k with memory := Function.update k.memory address byte }

/-- Histories that start without live blocks. -/
def histories : System (KernelHeap η) Call where
  init := fun k => k.live = fun _ => none
  step := fun k call k' => k.apply f call = some k'

/-! ## Section 2: What `realloc` keeps -/

/-- The pointer is that of a block in use, and its first `count` bytes are those
    that were at `address` before. -/
def Keeps (k : KernelHeap η) (address p : Nat) (k' : KernelHeap η) (count : Nat) : Prop :=
  f.inUse k'.heap p ∧ ∀ i < count, k'.memory.byteAt p i = k.memory.byteAt address i

/-- The first `count` bytes at `address` are zero. -/
def ZeroBytes (k : KernelHeap η) (address count : Nat) : Prop :=
  ∀ i < count, k.memory.byteAt address i = 0

variable {p : Nat} {size : Word} {k : KernelHeap η}

theorem memset_byteAt (memory : Content) {count i : Nat} (hi : i < count) (hcount : count < 2 ^ 64) :
    (memory.memset p count).byteAt p i = 0 := by
  refine if_pos ?_
  have hoffset : BitVec.ofNat 64 (p + i) - BitVec.ofNat 64 p = BitVec.ofNat 64 i := by
    rw [BitVec.ofNat_add, BitVec.add_comm, BitVec.add_sub_cancel]
  rw [hoffset, BitVec.toNat_ofNat, Nat.mod_eq_of_lt (by omega)]
  exact hi

theorem atLeast_of_ne_zero (h : size ≠ 0) : atLeast size = size := if_neg h

variable {f}

theorem realloc_zero {k' : KernelHeap η} {address : Nat} (hsize : size ≠ 0)
    (h : k.realloc f address size = some (p, k')) :
    f.realloc k.heap address size.toNat = some (p, k'.heap) ∧ ZeroBytes k' p size.toNat := by
  unfold realloc at h
  rw [atLeast_of_ne_zero hsize] at h
  obtain ⟨⟨q, heap⟩, hrealloc, heq⟩ := map_eq_some_iff.mp h
  cases heq
  exact ⟨hrealloc, fun i hi => memset_byteAt _ hi size.isLt⟩

theorem keeps_iff {k' : KernelHeap η} {address count : Nat}
    (huse : ∀ heap heap' address size p, f.realloc heap address size = some (p, heap') → p ≠ 0 →
      f.inUse heap' p) (hsize : size ≠ 0) (hcount : count ≤ size.toNat) (h : k.realloc f address size = some (p, k')) (hp : p ≠ 0) :
    Keeps f k address p k' count ↔ ZeroBytes k address count := by
  obtain ⟨hrealloc, hzero⟩ := realloc_zero hsize h
  refine ⟨?_, ?_⟩
  · rintro ⟨-, hbytes⟩ i hi
    rw [← hbytes i hi]
    exact hzero i (Nat.lt_of_lt_of_le hi hcount)
  · intro hold
    refine ⟨huse _ _ _ _ _ hrealloc hp, ?_⟩
    intro i hi
    rw [hold i hi]
    exact hzero i (Nat.lt_of_lt_of_le hi hcount)

/-! ## Section 3: The two heaps -/

section Heaps

variable {σ : Type} {request : RequestPages σ}

variable {size p : Nat} {heap heap' : V2.Heap σ}

theorem inUse_mallocV1 {heap heap' : V1.Heap σ} (h : V1.malloc request heap size = some (p, heap'))
    (hp : p ≠ 0) : (xallocV1 request).inUse heap' p := by
  obtain ⟨-, rfl, -⟩ | ⟨before, b, after, -, -, -, rfl, rfl⟩ | ⟨-, block, supply, hnew, rfl, rfl⟩ :=
    V1.malloc_cases h
  · exact absurd rfl hp
  · exact ⟨_, List.mem_append_right _ List.mem_cons_self, rfl, rfl⟩
  · refine ⟨block, List.mem_append_right _ (List.mem_singleton_self _), rfl, ?_⟩
    obtain ⟨_, -, hpages⟩ := bind_eq_some_iff.mp hnew
    obtain ⟨_, -, heq⟩ := map_eq_some_iff.mp hpages
    rw [← (Prod.mk.inj heq).1]

theorem inUse_reallocV1 {heap heap' : V1.Heap σ} {address : Nat}
    (h : V1.realloc request heap address size = some (p, heap')) (hp : p ≠ 0) :
    (xallocV1 request).inUse heap' p := by
  unfold V1.realloc at h
  split at h
  · exact inUse_mallocV1 h hp
  · split at h
    · obtain ⟨_, -, heq⟩ := map_eq_some_iff.mp h
      exact absurd (Prod.mk.inj heq).1.symm hp
    · obtain ⟨_, -, hmalloc⟩ := bind_eq_some_iff.mp h
      exact inUse_mallocV1 hmalloc hp

theorem newBlockV2_used {block : V2.Block} (h : V2.newBlock request heap size = some (block, heap')) :
    block.isFree = false := by
  obtain ⟨_, -, hdata⟩ := bind_eq_some_iff.mp h
  obtain ⟨_, -, heq⟩ := map_eq_some_iff.mp hdata
  rw [← (Prod.mk.inj heq).1]

theorem inUse_mallocV2 (h : V2.malloc request heap size = some (p, heap')) (hp : p ≠ 0) :
    (xallocV2 request).inUse heap' p := by
  unfold V2.malloc at h
  split at h
  · exact absurd (Prod.mk.inj (Option.some.inj h)).1.symm hp
  · split at h
    · -- the first block of the heap
      obtain ⟨⟨block, heap₁⟩, hnew, h⟩ := bind_eq_some_iff.mp h
      dsimp only at h
      split at h
      · cases h
      · cases h
        exact ⟨block, List.mem_singleton_self _, rfl, newBlockV2_used hnew⟩
    · obtain ⟨⟨passed, found⟩, -, h⟩ := bind_eq_some_iff.mp h
      dsimp only at h
      split at h
      · split at h
        · cases h
          exact ⟨_, List.mem_append_right _ List.mem_cons_self, rfl, rfl⟩
        · obtain ⟨⟨new, heap₁⟩, hnew, heq⟩ := map_eq_some_iff.mp h
          cases heq
          exact ⟨new, List.mem_append_right _ (List.mem_cons_of_mem _ (List.mem_singleton_self _)),
            rfl, newBlockV2_used hnew⟩
      · obtain ⟨⟨new, heap₁⟩, hnew, heq⟩ := map_eq_some_iff.mp h
        cases heq
        exact ⟨new, List.mem_append_right _ (List.mem_singleton_self _), rfl, newBlockV2_used hnew⟩

theorem inUse_reallocV2 {address : Nat} (h : V2.realloc request heap address size = some (p, heap'))
    (hp : p ≠ 0) : (xallocV2 request).inUse heap' p := by
  unfold V2.realloc at h
  split at h
  · exact inUse_mallocV2 h hp
  · split at h
    · obtain ⟨_, -, heq⟩ := map_eq_some_iff.mp h
      exact absurd (Prod.mk.inj heq).1.symm hp
    · obtain ⟨_, -, hmalloc⟩ := bind_eq_some_iff.mp h
      exact inUse_mallocV2 hmalloc hp

end Heaps

/-- What a history is followed by: every `realloc` of a live block to at least one
    byte that returns a pointer keeps the bytes exactly if they are zero. -/
def KeepsOnlyZeros (f : HeapFunctions η) : Prop :=
  ∀ k, (histories f).Reachable k → ∀ address old, k.live address = some old →
    ∀ (new : Word) p k', new ≠ 0 → k.realloc f address new = some (p, k') → p ≠ 0 →
      (Keeps f k address p k' (min old new.toNat) ↔ ZeroBytes k address (min old new.toNat))

/-- **`realloc`.** With either heap, after every history, `realloc` keeps the bytes
    of a live block exactly if they are all zero. -/
theorem realloc_keeps_iff_zero {σ : Type} (request : RequestPages σ) :
    KeepsOnlyZeros (xallocV1 request) ∧ KeepsOnlyZeros (xallocV2 request) := by
  refine ⟨?_, ?_⟩
  · intro k _ address old _ new p k' hnew hrealloc hp
    exact keeps_iff (fun _ _ _ _ _ => inUse_reallocV1) hnew (Nat.min_le_right ..) hrealloc hp
  · intro k _ address old _ new p k' hnew hrealloc hp
    exact keeps_iff (fun _ _ _ _ _ => inUse_reallocV2) hnew (Nat.min_le_right ..) hrealloc hp

/-- A heap without blocks and a memory of zeros. -/
def fresh (heap : η) : KernelHeap η := ⟨heap, fun _ => 0, fun _ => none⟩

/-- Sixteen bytes are allocated and the first one is set to 1. -/
def oneWritten (f : HeapFunctions η) (heap : η) : Option (Nat × KernelHeap η) :=
  ((fresh heap).malloc f 16).map fun (p, k) =>
    (p, { k with memory := Function.update k.memory (BitVec.ofNat 64 p) 1 })

theorem reachable_oneWritten {heap : η} (h : oneWritten f heap = some (p, k)) :
    (histories f).Reachable k := by
  obtain ⟨⟨q, k₁⟩, hmalloc, heq⟩ := map_eq_some_iff.mp h
  obtain ⟨rfl, rfl⟩ := Prod.mk.inj heq
  have hstart : (histories f).Reachable (fresh heap) := .init rfl
  have hfirst : (fresh heap).apply f (.malloc 16) = some k₁ := by
    rw [apply, hmalloc]
    rfl
  have hsecond : k₁.apply f (.write (BitVec.ofNat 64 q) 1) = some _ := rfl
  exact (hstart.step hfirst).step hsecond

/-- The first byte after the block is enlarged to 32 bytes. -/
def enlarged (f : HeapFunctions η) (heap : η) : Option (Nat × Nat × Option Nat × BitVec 8 × BitVec 8) :=
  (oneWritten f heap).bind fun (p, k) =>
    (k.realloc f p 32).map fun (q, k') =>
      (p, q, k.live p, k.memory.byteAt p 0, k'.memory.byteAt q 0)

theorem loses_byte {heap : η} {q : Nat} (h : enlarged f heap = some (p, q, some 16, 1, 0)) :
    ∃ k k', (histories f).Reachable k ∧ k.live p = some 16 ∧ k.realloc f p 32 = some (q, k') ∧
      ¬ Keeps f k p q k' 16 := by
  obtain ⟨⟨p', k⟩, hwritten, h⟩ := bind_eq_some_iff.mp h
  obtain ⟨⟨q', k'⟩, hrealloc, heq⟩ := map_eq_some_iff.mp h
  simp only [Prod.mk.injEq] at heq
  obtain ⟨rfl, rfl, hlive, hbefore, hafter⟩ := heq
  refine ⟨k, k', reachable_oneWritten hwritten, hlive, hrealloc, ?_⟩
  rintro ⟨-, hbytes⟩
  have hbyte := hbytes 0 (by decide)
  rw [hbefore, hafter] at hbyte
  exact absurd hbyte (by decide)

/-- The byte is lost with both heaps. -/
theorem realloc_loses_byte :
    (∃ k k', (histories (xallocV1 bumpSource.request)).Reachable k ∧ k.live 0x2000 = some 16 ∧
      k.realloc (xallocV1 bumpSource.request) 0x2000 32 = some (0x4000, k') ∧
      ¬ Keeps (xallocV1 bumpSource.request) k 0x2000 0x4000 k' 16) ∧
    ∃ k k', (histories (xallocV2 kernelPages)).Reachable k ∧
      k.live 0xFFFFA00000000000 = some 16 ∧
      k.realloc (xallocV2 kernelPages) 0xFFFFA00000000000 32 =
        some (0xFFFFA00000000010, k') ∧
      ¬ Keeps (xallocV2 kernelPages) k 0xFFFFA00000000000 0xFFFFA00000000010 k' 16 := by
  have hV1 : enlarged (xallocV1 bumpSource.request) V1.freshHeap =
      some (0x2000, 0x4000, some 16, 1, 0) := by decide +kernel
  have hV2 : enlarged (xallocV2 kernelPages) V2.freshHeap =
      some (0xFFFFA00000000000, 0xFFFFA00000000010, some 16, 1, 0) := by decide +kernel
  exact ⟨loses_byte hV1, loses_byte hV2⟩

end KernelHeap

end Fennix.Memory
