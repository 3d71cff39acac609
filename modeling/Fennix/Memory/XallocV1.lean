import Fennix.Framework.System
import Fennix.Memory.Xalloc

/-! # The first Xalloc heap

    `Kernel/core/memory/heap_allocators/Xalloc/XallocV1.cpp`. Every block has
    pages of its own, and a freed block is handed out again to the first
    request that its size is enough for.

    Blocks never share a page if the source of pages does not hand out one
    twice. A block can be too small, though: the size is rounded up to pages,
    and the arguments of `calloc` are multiplied, in 64 bits.
-/

namespace Fennix.Memory.Xalloc.V1

open Option (map_eq_some_iff bind_eq_some_iff)

/-! ## Section 1: The calls -/

/-- `class Block`. -/
structure Block where
  address : Nat
  sanity : Nat
  size : Nat
  isFree : Bool
  deriving DecidableEq, Repr

/-- `class V1` and the source of its pages. The blocks are listed from
    `FirstBlock` on. -/
structure Heap (σ : Type) where
  supply : σ
  blocks : List Block

section calls

variable {σ : Type} (request : RequestPages σ)

/-- `new Block(Size)`, with `IsFree` cleared as all callers do. -/
def newBlock (supply : σ) (size : Nat) : Option (Block × σ) :=
  -- the object itself lies on a page of its own
  (request supply (xStoP sizeofBlock)).bind fun (_, supply) =>
    (request supply (xStoP ((size + 1) % 2 ^ 64))).map fun (address, supply) =>
      (⟨address, blockSanityKey, size, false⟩, supply)

/-- The first loop of `V1::malloc`: the address of the first free block that is
    large enough and the list with the block taken, or `some none` if there is
    no such block. `none` when a sanity check fails, which stops the kernel. -/
def takeBlock : List Block → Nat → Option (Option (Nat × List Block))
  | [], _ => some none
  | block :: rest, size =>
    if block.sanity ≠ blockSanityKey then none
    else if block.isFree && decide (block.size ≥ size) then
      some (some (block.address, { block with isFree := false } :: rest))
    else (takeBlock rest size).map fun found =>
      found.map fun (address, rest) => (address, block :: rest)

/-- `V1::malloc`. A null pointer is `some (0, _)`. -/
def malloc (heap : Heap σ) (size : Nat) : Option (Nat × Heap σ) :=
  if size = 0 then some (0, heap)
  else
    (takeBlock heap.blocks size).bind fun found =>
      match found with
      | some (address, blocks) => some (address, { heap with blocks })
      -- the new block is linked behind the last one
      | none => (newBlock request heap.supply size).map fun (block, supply) =>
          (block.address, ⟨supply, heap.blocks ++ [block]⟩)

/-- The loop of `V1::free`. -/
def freeBlock : List Block → Nat → Option (List Block)
  | [], _ => some []
  | block :: rest, address =>
    if block.sanity ≠ blockSanityKey then none
    else if block.address = address then
      -- "Attempted to free an already freed pointer!"
      if block.isFree then some (block :: rest) else some ({ block with isFree := true } :: rest)
    else (freeBlock rest address).map (block :: ·)

/-- `V1::free`. -/
def free (heap : Heap σ) (address : Nat) : Option (Heap σ) :=
  if address = 0 then some heap
  else (freeBlock heap.blocks address).map fun blocks => { heap with blocks }

/-- `V1::calloc`. -/
def calloc (heap : Heap σ) (numberOfBlocks size : Nat) : Option (Nat × Heap σ) :=
  if numberOfBlocks = 0 ∨ size = 0 then some (0, heap)
  else malloc request heap (numberOfBlocks * size % 2 ^ 64)

/-- `V1::realloc`. -/
def realloc (heap : Heap σ) (address size : Nat) : Option (Nat × Heap σ) :=
  if address = 0 then malloc request heap size
  else if size = 0 then (free heap address).map fun heap => (0, heap)
  else (free heap address).bind fun heap => malloc request heap size

end calls

/-- A call; the arguments are 64-bit words. -/
inductive Call where
  | malloc (size : Word)
  | calloc (numberOfBlocks size : Word)
  | realloc (address size : Word)
  | free (address : Word)

/-- Runs of calls that return, from the heap without blocks on. -/
def heaps {σ : Type} (request : RequestPages σ) : System (Heap σ) Call where
  init := fun heap => heap.blocks = []
  step := fun heap call heap' =>
    match call with
    | .malloc size => ∃ p, malloc request heap size.toNat = some (p, heap')
    | .calloc n size => ∃ p, calloc request heap n.toNat size.toNat = some (p, heap')
    | .realloc address size => ∃ p, realloc request heap address.toNat size.toNat = some (p, heap')
    | .free address => free heap address.toNat = some heap'

/-! ## Section 2: Blocks and their pages -/

/-- The pages of a block. -/
def Block.extent (block : Block) : Span :=
  ⟨block.address, xStoP ((block.size + 1) % 2 ^ 64) * pageSize⟩

/-- `p` is the address of a block in use that has at least `bytes` bytes, all on
    pages of its own, and overlaps no other block in use. -/
def Designates {σ : Type} (heap : Heap σ) (p bytes : Nat) : Prop :=
  ∃ before block after, heap.blocks = before ++ block :: after ∧ block.address = p ∧
    block.isFree = false ∧ bytes ≤ block.size ∧ block.size ≤ block.extent.length ∧
    ∀ b ∈ before ++ after, b.isFree = false → Span.Disjoint block.extent b.extent

/-- The bytes of a request and one more still make whole pages. -/
def Addressable (bytes : Nat) : Prop := bytes + pageSize < 2 ^ 64

/-- The guard on runs. -/
def Modest {σ : Type} (_ : Heap σ) : Call → Prop
  | .malloc size => Addressable size.toNat
  | .calloc n size => Addressable (n.toNat * size.toNat)
  | .realloc _ size => Addressable size.toNat
  | .free _ => True

section blocks

variable {σ : Type} (source : PageSource σ) {heap heap' : Heap σ} {block : Block}
  {size address p : Nat}

/-- The invariant of runs: the blocks have the pages that were handed out for
    them. -/
structure Inv (heap : Heap σ) : Prop where
  owned : (heap.blocks.map Block.extent).Sublist (source.handedOut heap.supply)
  addressable : ∀ b ∈ heap.blocks, 0 < b.size ∧ Addressable b.size

variable {source}

theorem Inv.apart (h : Inv source heap) : Span.Apart (heap.blocks.map Block.extent) :=
  (source.apart heap.supply).sublist h.owned

theorem le_extent_iff (hpos : 0 < block.size) (hlt : block.size < 2 ^ 64) :
    block.size ≤ block.extent.length ↔ Addressable block.size := by
  simp only [Addressable, Block.extent, xStoP, pageSize]
  omega

theorem Inv.le_extent (h : Inv source heap) (hb : block ∈ heap.blocks) :
    block.size ≤ block.extent.length := by
  obtain ⟨hpos, haddressable⟩ := h.addressable block hb
  refine (le_extent_iff hpos ?_).mpr haddressable
  simp only [Addressable] at haddressable
  omega

variable {before after l : List Block}

theorem Inv.designates (h : Inv source heap) (hlist : heap.blocks = before ++ block :: after)
    (hused : block.isFree = false) {bytes : Nat} (hbytes : bytes ≤ block.size) :
    Designates heap block.address bytes := by
  have hmem : block ∈ heap.blocks := by rw [hlist]; simp
  refine ⟨before, block, after, hlist, rfl, hused, hbytes, h.le_extent hmem, ?_⟩
  intro b hb _
  have hapart := h.apart
  rw [hlist, List.map_append, List.map_cons] at hapart
  have hcross := (List.pairwise_cons.mp (Span.Apart.perm hapart List.perm_middle)).1
  apply hcross
  rw [← List.map_append]
  exact List.mem_map_of_mem hb

/-! ## Section 3: What the calls do -/

theorem takeBlock_spec {found : Option (Nat × List Block)} (h : takeBlock l size = some found) :
    (found = none ∧ ∀ b ∈ l, ¬ (b.isFree = true ∧ size ≤ b.size)) ∨
    ∃ before b after, l = before ++ b :: after ∧ b.isFree = true ∧ size ≤ b.size ∧
      found = some (b.address, before ++ { b with isFree := false } :: after) := by
  induction l generalizing found with
  | nil =>
    rw [takeBlock, Option.some.injEq] at h
    exact Or.inl ⟨h.symm, by simp⟩
  | cons b rest ih =>
    unfold takeBlock at h
    split at h
    · cases h
    · split at h
      · rename_i hfits
        rw [Bool.and_eq_true, decide_eq_true_iff] at hfits
        exact Or.inr ⟨[], b, rest, rfl, hfits.1, hfits.2, (Option.some.inj h).symm⟩
      · rename_i hfits
        rw [Bool.and_eq_true, decide_eq_true_iff] at hfits
        obtain ⟨found₁, hrest, rfl⟩ := map_eq_some_iff.mp h
        rcases ih hrest with ⟨rfl, hnone⟩ | ⟨before, b', after, hlist, hfree, hle, rfl⟩
        · exact Or.inl ⟨rfl, List.forall_mem_cons.mpr ⟨hfits, hnone⟩⟩
        · exact Or.inr ⟨b :: before, b', after, by rw [hlist, List.cons_append], hfree, hle, rfl⟩

theorem malloc_cases {request : RequestPages σ}
    (h : malloc request heap size = some (p, heap')) :
    (size = 0 ∧ p = 0 ∧ heap' = heap) ∨
    (∃ before b after, heap.blocks = before ++ b :: after ∧ b.isFree = true ∧ size ≤ b.size ∧
      p = b.address ∧
      heap' = { heap with blocks := before ++ { b with isFree := false } :: after }) ∨
    (0 < size ∧ ∃ block supply, newBlock request heap.supply size = some (block, supply) ∧
      p = block.address ∧ heap' = ⟨supply, heap.blocks ++ [block]⟩) := by
  unfold malloc at h
  split at h
  · rename_i hzero
    simp only [Option.some.injEq, Prod.mk.injEq] at h
    exact Or.inl ⟨hzero, h.1.symm, h.2.symm⟩
  · rename_i hpos
    obtain ⟨found, htake, h⟩ := bind_eq_some_iff.mp h
    rcases takeBlock_spec htake with ⟨rfl, _⟩ | ⟨before, b, after, hlist, hfree, hle, rfl⟩
    · obtain ⟨⟨block, supply⟩, hnew, hval⟩ := map_eq_some_iff.mp h
      simp only [Prod.mk.injEq] at hval
      exact Or.inr (Or.inr ⟨by omega, block, supply, hnew, hval.1.symm, hval.2.symm⟩)
    · simp only [Option.some.injEq, Prod.mk.injEq] at h
      exact Or.inr (Or.inl ⟨before, b, after, hlist, hfree, hle, h.1.symm, h.2.symm⟩)

theorem newBlock_spec {supply supply' : σ}
    (h : newBlock source.request supply size = some (block, supply')) :
    block.size = size ∧ block.isFree = false ∧
      ∃ object, source.handedOut supply' = source.handedOut supply ++ [object, block.extent] := by
  obtain ⟨⟨object, supply₁⟩, hobject, h⟩ := bind_eq_some_iff.mp h
  obtain ⟨⟨address, supply₂⟩, hpages, hval⟩ := map_eq_some_iff.mp h
  rw [Prod.mk.injEq] at hval
  obtain ⟨rfl, rfl⟩ := hval
  refine ⟨rfl, rfl, ⟨object, xStoP sizeofBlock * pageSize⟩, ?_⟩
  rw [source.handedOut_request hpages, source.handedOut_request hobject, List.append_assoc]
  rfl

theorem map_extent_mark (isFree : Bool) :
    (before ++ { block with isFree } :: after).map Block.extent =
      (before ++ block :: after).map Block.extent := by
  simp only [List.map_append, List.map_cons, Block.extent]

theorem Inv.mark (h : Inv source heap) (isFree : Bool)
    (hlist : heap.blocks = before ++ block :: after) :
    Inv source { heap with blocks := before ++ { block with isFree } :: after } := by
  refine ⟨?_, ?_⟩
  · rw [map_extent_mark, ← hlist]
    exact h.owned
  · have hall := h.addressable
    rw [hlist, List.forall_mem_append, List.forall_mem_cons] at hall
    exact List.forall_mem_append.mpr ⟨hall.1, List.forall_mem_cons.mpr hall.2⟩

theorem Inv.malloc (h : Inv source heap) (hsize : Addressable size)
    (hmalloc : malloc source.request heap size = some (p, heap')) :
    Inv source heap' ∧ (p ≠ 0 → Designates heap' p size) := by
  rcases malloc_cases hmalloc with ⟨_, rfl, rfl⟩ | ⟨before, b, after, hlist, _, hle, rfl, rfl⟩ |
    ⟨hpos, block, supply, hnew, rfl, rfl⟩
  · exact ⟨h, fun hp => absurd rfl hp⟩
  · have hinv := h.mark false hlist
    exact ⟨hinv, fun _ => hinv.designates rfl rfl hle⟩
  · obtain ⟨hblock, hused, object, hout⟩ := newBlock_spec hnew
    have hinv : Inv source ⟨supply, heap.blocks ++ [block]⟩ := by
      refine ⟨?_, ?_⟩
      · show (List.map _ (heap.blocks ++ [block])).Sublist (source.handedOut supply)
        rw [hout, List.map_append, List.map_singleton]
        exact h.owned.append (List.sublist_cons_self _ _)
      · refine List.forall_mem_append.mpr ⟨h.addressable, List.forall_mem_singleton.mpr ?_⟩
        rw [hblock]
        exact ⟨hpos, hsize⟩
    exact ⟨hinv, fun _ => hinv.designates rfl hused (by rw [hblock])⟩

/-- Whatever `malloc` was asked for, no block has more than `2 ^ 64` bytes less
    a page on pages of its own. -/
theorem Inv.addressable_of_malloc (h : Inv source heap) (hsize : size < 2 ^ 64)
    (hmalloc : V1.malloc source.request heap size = some (p, heap'))
    {bytes : Nat} (hdesignates : Designates heap' p bytes) : Addressable bytes := by
  obtain ⟨before, block, after, hlist, _, _, hbytes, hextent, _⟩ := hdesignates
  have hmem : block ∈ heap'.blocks := by rw [hlist]; simp
  suffices hblock : Addressable block.size by
    simp only [Addressable] at hblock ⊢
    omega
  rcases malloc_cases hmalloc with ⟨_, _, rfl⟩ | ⟨passed, b, rest, hfound, _, _, _, rfl⟩ |
    ⟨hpos, new, supply, hnew, _, rfl⟩
  · exact (h.addressable block hmem).2
  · exact ((h.mark false hfound).addressable block hmem).2
  · rcases List.mem_append.mp hmem with hold | hlast
    · exact (h.addressable block hold).2
    · obtain ⟨hnewSize, _⟩ := newBlock_spec hnew
      rw [List.mem_singleton.mp hlast] at hextent ⊢
      exact (le_extent_iff (by omega) (by omega)).mp hextent

theorem freeBlock_of_not_used {l' : List Block} (hfree : freeBlock l address = some l')
    (hused : ∀ b ∈ l, b.isFree = false → b.address ≠ address) : l' = l := by
  induction l generalizing l' with
  | nil =>
    rw [freeBlock, Option.some.injEq] at hfree
    exact hfree.symm
  | cons b rest ih =>
    unfold freeBlock at hfree
    split at hfree
    · cases hfree
    · split at hfree
      · rename_i haddress
        split at hfree
        · exact (Option.some.inj hfree).symm
        · rename_i hnot
          exact absurd haddress (hused b (by simp) (by simpa using hnot))
      · obtain ⟨l₁, hrest, rfl⟩ := map_eq_some_iff.mp hfree
        rw [ih hrest fun b' hb' => hused b' (List.mem_cons_of_mem _ hb')]

theorem freeBlock_cases {l' : List Block} (h : freeBlock l address = some l') :
    l' = l ∨ ∃ before b after, l = before ++ b :: after ∧
      l' = before ++ { b with isFree := true } :: after := by
  induction l generalizing l' with
  | nil =>
    rw [freeBlock, Option.some.injEq] at h
    exact Or.inl h.symm
  | cons b rest ih =>
    unfold freeBlock at h
    split at h
    · cases h
    · split at h
      · split at h
        · exact Or.inl (Option.some.inj h).symm
        · exact Or.inr ⟨[], b, rest, rfl, (Option.some.inj h).symm⟩
      · obtain ⟨l₁, hrest, rfl⟩ := map_eq_some_iff.mp h
        rcases ih hrest with rfl | ⟨before, b', after, rfl, rfl⟩
        · exact Or.inl rfl
        · exact Or.inr ⟨b :: before, b', after, rfl, rfl⟩

theorem Inv.free (h : Inv source heap) (hfree : free heap address = some heap') :
    Inv source heap' := by
  unfold V1.free at hfree
  split at hfree
  · rw [← Option.some.inj hfree]
    exact h
  · obtain ⟨blocks, hmark, rfl⟩ := map_eq_some_iff.mp hfree
    rcases freeBlock_cases hmark with rfl | ⟨before, b, after, hlist, rfl⟩
    · exact h
    · exact h.mark true hlist

theorem Inv.step {call : Call} (h : Inv source heap)
    (hstep : ((heaps source.request).restrict Modest).step heap call heap') :
    Inv source heap' := by
  obtain ⟨hmodest, hstep⟩ := hstep
  match call with
  | .malloc size =>
    obtain ⟨p, hmalloc⟩ := hstep
    exact (h.malloc hmodest hmalloc).1
  | .calloc n size =>
    obtain ⟨p, hcalloc⟩ := hstep
    unfold V1.calloc at hcalloc
    split at hcalloc
    · simp only [Option.some.injEq, Prod.mk.injEq] at hcalloc
      rw [← hcalloc.2]
      exact h
    · have hmodest : Addressable (n.toNat * size.toNat) := hmodest
      have hlt : n.toNat * size.toNat < 2 ^ 64 := by
        simp only [Addressable] at hmodest
        omega
      rw [Nat.mod_eq_of_lt hlt] at hcalloc
      exact (h.malloc hmodest hcalloc).1
  | .realloc address size =>
    obtain ⟨p, hrealloc⟩ := hstep
    unfold V1.realloc at hrealloc
    split at hrealloc
    · exact (h.malloc hmodest hrealloc).1
    · split at hrealloc
      · obtain ⟨heap₁, hfree, hval⟩ := map_eq_some_iff.mp hrealloc
        rw [Prod.mk.injEq] at hval
        rw [← hval.2]
        exact h.free hfree
      · obtain ⟨heap₁, hfree, hmalloc⟩ := bind_eq_some_iff.mp hrealloc
        exact ((h.free hfree).malloc hmodest hmalloc).1
  | .free address => exact h.free hstep

end blocks

/-! ## Section 4: Blocks are large enough -/

/-- **Blocks**: with a source that hands out no page twice, in every run of
    modest calls, a pointer that is not null designates a block of at least the
    bytes asked for (by `calloc`: the product of its arguments) that overlaps
    no other block in use, if and only if these bytes can be rounded up to
    pages; and `free` of an address that is not that of a block in use changes
    no block. -/
theorem blocks_large_enough {σ : Type} (source : PageSource σ) {heap : Heap σ}
    (h : ((heaps source.request).restrict Modest).Reachable heap) :
    (∀ (size : Word) p heap', malloc source.request heap size.toNat = some (p, heap') → p ≠ 0 →
      (Designates heap' p size.toNat ↔ Addressable size.toNat)) ∧
    (∀ (n size : Word) p heap', calloc source.request heap n.toNat size.toNat = some (p, heap') →
      p ≠ 0 → (Designates heap' p (n.toNat * size.toNat) ↔ Addressable (n.toNat * size.toNat))) ∧
    ∀ (address : Word) heap', free heap address.toNat = some heap' →
      (∀ b ∈ heap.blocks, b.isFree = false → b.address ≠ address.toNat) → heap' = heap := by
  have hinv : Inv source heap := by
    refine h.invariant ?_ ?_
    · intro heap hinit
      have hnil : heap.blocks = [] := hinit
      exact ⟨by rw [hnil]; exact List.nil_sublist _, by rw [hnil]; simp⟩
    · intro _ _ _ hi hs
      exact hi.step hs
  refine ⟨?_, ?_, ?_⟩
  · intro size p heap' hmalloc hp
    refine ⟨hinv.addressable_of_malloc size.isLt hmalloc, fun hsize => ?_⟩
    exact (hinv.malloc hsize hmalloc).2 hp
  · intro n size p heap' hcalloc hp
    unfold calloc at hcalloc
    split at hcalloc
    · simp only [Option.some.injEq, Prod.mk.injEq] at hcalloc
      exact absurd hcalloc.1.symm hp
    · refine ⟨hinv.addressable_of_malloc (Nat.mod_lt _ (by decide)) hcalloc, fun hsize => ?_⟩
      have hlt : n.toNat * size.toNat < 2 ^ 64 := by
        simp only [Addressable] at hsize
        omega
      rw [Nat.mod_eq_of_lt hlt] at hcalloc
      exact (hinv.malloc hsize hcalloc).2 hp
  · intro address heap' hfree hused
    unfold free at hfree
    split at hfree
    · exact (Option.some.inj hfree).symm
    · obtain ⟨blocks, hmark, rfl⟩ := map_eq_some_iff.mp hfree
      rw [freeBlock_of_not_used hmark hused]

/-- An empty heap; the pages from the first one on have not been handed out. -/
def freshHeap : Heap Bump := ⟨⟨1, [], Span.Packed.nil _ _⟩, []⟩

/-- `calloc` of three times four bytes. -/
theorem blocks_large_enough_freshHeap :
    ∃ heap, calloc bumpSource.request freshHeap 3 4 = some (0x2000, heap) ∧
      Designates heap 0x2000 12 := by
  have heval : ((calloc bumpSource.request freshHeap 3 4).map fun r => r.1) = some 0x2000 := by
    decide
  obtain ⟨⟨p, heap⟩, hcalloc, rfl⟩ := map_eq_some_iff.mp heval
  have hreach : ((heaps bumpSource.request).restrict Modest).Reachable freshHeap := .init rfl
  exact ⟨heap, hcalloc, ((blocks_large_enough bumpSource hreach).2.1 3 4 _ heap hcalloc
    (by decide)).mpr (show 3 * 4 + pageSize < 2 ^ 64 by decide)⟩

/-- `calloc` of `2 ^ 63 + 1` times two bytes hands out a block of two bytes. -/
theorem calloc_wraps :
    ∃ heap, calloc bumpSource.request freshHeap (2 ^ 63 + 1) 2 = some (0x2000, heap) ∧
      (heaps bumpSource.request).Reachable heap ∧
      ¬ Designates heap 0x2000 ((2 ^ 63 + 1) * 2) := by
  obtain ⟨heap, hcalloc, hblocks⟩ : ∃ heap,
      calloc bumpSource.request freshHeap (2 ^ 63 + 1) 2 = some (0x2000, heap) ∧
      heap.blocks = [⟨0x2000, blockSanityKey, 2, false⟩] := by
    decide
  have hstep : (heaps bumpSource.request).step freshHeap
      (.calloc (BitVec.ofNat 64 (2 ^ 63 + 1)) 2) heap := ⟨_, hcalloc⟩
  have hinit : (heaps bumpSource.request).init freshHeap := rfl
  refine ⟨heap, hcalloc, .step (.init hinit) hstep, ?_⟩
  intro hdesignates
  obtain ⟨before, block, after, hlist, _, _, hbytes, _⟩ := hdesignates
  have hmem : block ∈ heap.blocks := by rw [hlist]; simp
  rw [hblocks, List.mem_singleton] at hmem
  rw [hmem] at hbytes
  exact absurd hbytes (by decide)

end Fennix.Memory.Xalloc.V1
