import Fennix.Framework.System
import Fennix.Memory.Xalloc

/-! # The second Xalloc heap

    `Kernel/core/memory/heap_allocators/Xalloc/XallocV2.cpp`. Blocks get their
    data from one area of addresses, of which two counters keep track:
    `HeapSize` is how much of it there is, and `HeapUsed` is meant to be where
    the next block goes.

    When a request does not fit behind `HeapUsed`, its block goes to the end of
    the area instead, but `HeapUsed` only moves on by the size of the block. So
    it comes to point into that block, and the next small block is laid over
    it.
-/

namespace Fennix.Memory.Xalloc.V2

open Option (map_eq_some_iff bind_eq_some_iff)

/-! ## Section 1: The calls -/

/-- `class Block`. -/
structure Block where
  sanity : Nat
  isFree : Bool
  data : Nat
  dataSize : Nat
  deriving DecidableEq, Repr

/-- `class V2` and the source of its pages. The blocks are listed from
    `FirstBlock` on. -/
structure Heap (σ : Type) where
  supply : σ
  baseVirtualAddress : Nat
  heapSize : Nat
  heapUsed : Nat
  blocks : List Block

section calls

variable {σ : Type} (request : RequestPages σ)

/-- `V2::Align`; `& ~0xF` clears the low four bits. -/
def align (size : Nat) : Nat := (size + 0xF) % 2 ^ 64 / 16 * 16

/-- `V2::AllocateHeap`. `Xalloc_MapPages` is false, so the pages are asked for
    and not mapped. -/
def allocateHeap (heap : Heap σ) (size : Nat) : Option (Nat × Heap σ) :=
  let size := align size
  let pages := xStoP size
  if (heap.heapUsed + size) % 2 ^ 64 ≥ heap.heapSize then
    (request heap.supply pages).map fun (_, supply) =>
      ((heap.baseVirtualAddress + heap.heapSize) % 2 ^ 64,
        { heap with
          supply
          heapSize := (heap.heapSize + xPtoS pages) % 2 ^ 64
          heapUsed := (heap.heapUsed + size) % 2 ^ 64 })
  else
    some ((heap.baseVirtualAddress + heap.heapUsed) % 2 ^ 64,
      { heap with heapUsed := (heap.heapUsed + size) % 2 ^ 64 })

/-- `new Block(Size, this)`, with `IsFree` cleared as all callers do. -/
def newBlock (heap : Heap σ) (size : Nat) : Option (Block × Heap σ) :=
  -- the object itself lies on a page of its own
  (request heap.supply (xStoP sizeofBlock)).bind fun (_, supply) =>
    (allocateHeap request { heap with supply } size).map fun (data, heap) =>
      (⟨blockSanityKey, false, data, size⟩, heap)

/-- The loop of `FindFreeBlock`: the blocks it passes, and the rest of the list
    from the block on that it stops at. `none` when a sanity check fails, which
    stops the kernel. -/
def findFreeBlock : List Block → Nat → Option (List Block × List Block)
  | [], _ => some ([], [])
  | block :: rest, size =>
    if block.sanity ≠ blockSanityKey then none
    else if block.isFree && decide (block.dataSize ≥ size) then some ([], block :: rest)
    else (findFreeBlock rest size).map fun (passed, found) => (block :: passed, found)

/-- `V2::malloc`. A null pointer is `some (0, _)`. -/
def malloc (heap : Heap σ) (size : Nat) : Option (Nat × Heap σ) :=
  if size = 0 then some (0, heap)
  else if heap.blocks = [] then
    (newBlock request heap size).bind fun (block, heap) =>
      -- a null result is taken for "nothing found", and `CurrentBlock` is null
      if block.data = 0 then none else some (block.data, { heap with blocks := [block] })
  else
    (findFreeBlock heap.blocks size).bind fun (passed, found) =>
      match found with
      | block :: rest =>
        if block.data ≠ 0 then
          some (block.data,
            { heap with blocks := passed ++ { block with isFree := false } :: rest })
        else
          -- here too, and the list is cut behind the block
          (newBlock request heap size).map fun (new, heap) =>
            (new.data, { heap with blocks := passed ++ [{ block with isFree := false }, new] })
      | [] =>
        (newBlock request heap size).map fun (new, heap) =>
          (new.data, { heap with blocks := passed ++ [new] })

/-- The loop of `V2::free`. -/
def markFree : List Block → Nat → Option (List Block)
  | [], _ => some []
  | block :: rest, address =>
    if block.sanity ≠ blockSanityKey then none
    else if block.data = address then some ({ block with isFree := true } :: rest)
    else (markFree rest address).map (block :: ·)

/-- `V2::free`. -/
def free (heap : Heap σ) (address : Nat) : Option (Heap σ) :=
  if address = 0 then some heap
  else (markFree heap.blocks address).map fun blocks => { heap with blocks }

/-- `V2::calloc`. -/
def calloc (heap : Heap σ) (numberOfBlocks size : Nat) : Option (Nat × Heap σ) :=
  if numberOfBlocks = 0 ∨ size = 0 then some (0, heap)
  else malloc request heap (numberOfBlocks * size % 2 ^ 64)

/-- `V2::realloc`. -/
def realloc (heap : Heap σ) (address size : Nat) : Option (Nat × Heap σ) :=
  if address = 0 ∧ size ≠ 0 then malloc request heap size
  else if size = 0 then (free heap address).map fun heap => (0, heap)
  else (free heap address).bind fun heap => malloc request heap size

end calls

/-- A call; the arguments are 64-bit words. -/
inductive Call where
  | malloc (size : Word)
  | calloc (numberOfBlocks size : Word)
  | realloc (address size : Word)
  | free (address : Word)

/-- Runs of calls that return, from the heap without blocks on. -/
def heaps {σ : Type} (request : RequestPages σ) (base : Word) : System (Heap σ) Call where
  init := fun heap => heap.baseVirtualAddress = base.toNat ∧ heap.heapSize = 0 ∧
    heap.heapUsed = 0 ∧ heap.blocks = []
  step := fun heap call heap' =>
    match call with
    | .malloc size => ∃ p, malloc request heap size.toNat = some (p, heap')
    | .calloc n size => ∃ p, calloc request heap n.toNat size.toNat = some (p, heap')
    | .realloc address size => ∃ p, realloc request heap address.toNat size.toNat = some (p, heap')
    | .free address => free heap address.toNat = some heap'

/-! ## Section 2: Where blocks lie -/

/-- The data of a block. -/
def Block.span (block : Block) : Span := ⟨block.data, block.dataSize⟩

/-- The data of all blocks lies inside the heap and does not overlap. -/
def NoOverlap {σ : Type} (heap : Heap σ) : Prop :=
  Span.Packed (heap.blocks.map Block.span) heap.baseVirtualAddress
    (heap.baseVirtualAddress + heap.heapSize)

/-- What `Align` is meant to compute. -/
def padded (size : Nat) : Nat := (size + 15) / 16 * 16

/-- What the pages of a block are meant to hold. -/
def paged (size : Nat) : Nat := (padded size + 4095) / 4096 * 4096

/-- A new block of this size finds a place: at the end of the heap, if it does
    not fit behind `HeapUsed`, as long as no sum wraps around; and else behind
    `HeapUsed`, if no block reaches into that place. -/
def Room {σ : Type} (heap : Heap σ) (size : Nat) : Prop :=
  if heap.heapSize ≤ heap.heapUsed + padded size then
    heap.baseVirtualAddress + heap.heapSize < 2 ^ 64 ∧ heap.heapSize + paged size < 2 ^ 64
  else
    heap.baseVirtualAddress + heap.heapUsed < 2 ^ 64 ∧
      ∀ t ∈ heap.blocks.map Block.span,
        Span.Disjoint t ⟨heap.baseVirtualAddress + heap.heapUsed, size⟩

/-- A call of `malloc` is for nothing, finds a free block or has room for a new
    one. -/
def Places {σ : Type} (heap : Heap σ) (size : Nat) : Prop :=
  size = 0 ∨ (∃ b ∈ heap.blocks, b.isFree = true ∧ size ≤ b.dataSize) ∨ Room heap size

/-- The guard on runs. -/
def Fitting {σ : Type} (heap : Heap σ) : Call → Prop
  | .malloc size => Places heap size.toNat
  | .calloc n size =>
      (n.toNat = 0 ∨ size.toNat = 0) ∨ Places heap (n.toNat * size.toNat % 2 ^ 64)
  | .realloc address size =>
      ∀ heap', free heap address.toNat = some heap' → Places heap' size.toNat
  | .free _ => True

section blocks

variable {σ : Type} {request : RequestPages σ} {heap heap' : Heap σ} {block : Block}
  {size address p : Nat}

/-- The invariant of runs. -/
structure Inv (heap : Heap σ) : Prop where
  noOverlap : NoOverlap heap
  base_lt : heap.baseVirtualAddress < 2 ^ 64
  base_pos : heap.blocks ≠ [] → 0 < heap.baseVirtualAddress
  empty : heap.blocks = [] → heap.heapSize = 0
  used_le : heap.heapUsed ≤ heap.heapSize
  size_lt : heap.heapSize < 2 ^ 64
  aligned : heap.heapSize % 4096 = 0

theorem Inv.data_ne_zero (h : Inv heap) (hb : block ∈ heap.blocks) : block.data ≠ 0 := by
  have hpos := h.base_pos (List.ne_nil_of_mem hb)
  have hinside : heap.baseVirtualAddress ≤ block.data :=
    (h.noOverlap.inside _ (List.mem_map_of_mem hb)).1
  omega

/-! ## Section 3: New blocks -/

theorem newBlock_cases (h : newBlock request heap size = some (block, heap')) :
    block.dataSize = size ∧ heap'.baseVirtualAddress = heap.baseVirtualAddress ∧
    heap'.blocks = heap.blocks ∧ heap'.heapUsed = (heap.heapUsed + align size) % 2 ^ 64 ∧
    if (heap.heapUsed + align size) % 2 ^ 64 ≥ heap.heapSize then
      block.data = (heap.baseVirtualAddress + heap.heapSize) % 2 ^ 64 ∧
      heap'.heapSize = (heap.heapSize + xPtoS (xStoP (align size))) % 2 ^ 64
    else
      block.data = (heap.baseVirtualAddress + heap.heapUsed) % 2 ^ 64 ∧
      heap'.heapSize = heap.heapSize := by
  obtain ⟨⟨_, supply⟩, _, h⟩ := bind_eq_some_iff.mp h
  obtain ⟨⟨data, heap₁⟩, halloc, hval⟩ := map_eq_some_iff.mp h
  rw [Prod.mk.injEq] at hval
  obtain ⟨rfl, rfl⟩ := hval
  unfold allocateHeap at halloc
  dsimp only at halloc
  split at halloc
  · rename_i hgrow
    obtain ⟨⟨_, supply'⟩, _, hval⟩ := map_eq_some_iff.mp halloc
    rw [Prod.mk.injEq] at hval
    obtain ⟨rfl, rfl⟩ := hval
    rw [if_pos hgrow]
    exact ⟨rfl, rfl, rfl, rfl, rfl, rfl⟩
  · rename_i hfits
    rw [Option.some.injEq, Prod.mk.injEq] at halloc
    obtain ⟨rfl, rfl⟩ := halloc
    rw [if_neg hfits]
    exact ⟨rfl, rfl, rfl, rfl, rfl, rfl⟩

/-- A block that does not fit behind `HeapUsed` lies inside the heap exactly if
    no sum wraps around. -/
theorem Inv.newBlock_end (h : Inv heap) (hsize : size < 2 ^ 64) (hpos : 0 < size)
    (hnew : newBlock request heap size = some (block, heap'))
    (hend : heap.heapSize ≤ heap.heapUsed + padded size) :
    ((heap.baseVirtualAddress ≤ block.data ∧
        block.data + size ≤ heap.baseVirtualAddress + heap'.heapSize) ↔
      heap.baseVirtualAddress + heap.heapSize < 2 ^ 64 ∧ heap.heapSize + paged size < 2 ^ 64) ∧
    (heap.baseVirtualAddress + heap.heapSize < 2 ^ 64 → heap.heapSize + paged size < 2 ^ 64 →
      block.data = heap.baseVirtualAddress + heap.heapSize ∧
      heap'.heapSize = heap.heapSize + paged size ∧
      heap'.heapUsed = heap.heapUsed + padded size) := by
  obtain ⟨_, _, _, hused, hcases⟩ := newBlock_cases hnew
  obtain ⟨_, hbase, _, _, hle, hlt, haligned⟩ := h
  split at hcases
  · obtain ⟨hdata, hsize'⟩ := hcases
    simp only [align, xStoP, xPtoS, padded, paged, pageSize] at *
    omega
  · obtain ⟨hdata, hsize'⟩ := hcases
    simp only [align, padded, paged] at *
    omega

theorem Inv.newBlock_behind (h : Inv heap) (hsize : size < 2 ^ 64)
    (hnew : newBlock request heap size = some (block, heap'))
    (hfits : heap.heapUsed + padded size < heap.heapSize) :
    (heap.baseVirtualAddress ≤ block.data ↔
      heap.baseVirtualAddress + heap.heapUsed < 2 ^ 64) ∧
    (heap.baseVirtualAddress + heap.heapUsed < 2 ^ 64 →
      block.data = heap.baseVirtualAddress + heap.heapUsed) ∧
    heap'.heapSize = heap.heapSize ∧ heap'.heapUsed = heap.heapUsed + padded size := by
  obtain ⟨_, _, _, hused, hcases⟩ := newBlock_cases hnew
  obtain ⟨_, hbase, _, _, hle, hlt, haligned⟩ := h
  split at hcases
  · simp only [align, padded] at *
    omega
  · obtain ⟨hdata, hsize'⟩ := hcases
    simp only [align, padded] at *
    omega

theorem Inv.newBlock_packed (h : Inv heap) (hsize : size < 2 ^ 64) (hpos : 0 < size)
    (hnew : newBlock request heap size = some (block, heap')) :
    (Span.Packed ((heap.blocks ++ [block]).map Block.span) heap.baseVirtualAddress
        (heap.baseVirtualAddress + heap'.heapSize) ↔ Room heap size) ∧
    (Room heap size → heap'.heapUsed ≤ heap'.heapSize ∧ heap'.heapSize < 2 ^ 64 ∧
      heap'.heapSize % 4096 = 0) := by
  obtain ⟨hdataSize, _⟩ := newBlock_cases hnew
  have hspan : block.span = ⟨block.data, size⟩ := by rw [Block.span, hdataSize]
  have hused := h.used_le
  have haligned := h.aligned
  have hsplit : ∀ hi, heap.heapSize ≤ hi →
      (Span.Packed ((heap.blocks ++ [block]).map Block.span) heap.baseVirtualAddress
          (heap.baseVirtualAddress + hi) ↔
        (∀ t ∈ heap.blocks.map Block.span, Span.Disjoint t ⟨block.data, size⟩) ∧
          heap.baseVirtualAddress ≤ block.data ∧
          block.data + size ≤ heap.baseVirtualAddress + hi) := by
    intro hi hle
    rw [List.map_append, List.map_singleton, hspan]
    exact h.noOverlap.concat_iff (by omega)
  unfold Room
  split
  · -- the end of the heap, behind all blocks
    rename_i hend
    obtain ⟨hiff, hvalues⟩ := h.newBlock_end hsize hpos hnew hend
    refine ⟨⟨fun hpacked => ?_, fun hroom => ?_⟩, fun hroom => ?_⟩
    · have hlast := hpacked.inside block.span (by simp)
      rw [hspan] at hlast
      exact hiff.mp hlast
    · obtain ⟨hdata, hsize', _⟩ := hvalues hroom.1 hroom.2
      rw [hsplit _ (by omega)]
      refine ⟨?_, hiff.mpr hroom⟩
      intro t ht
      rw [hdata]
      exact Span.disjoint_of_le (h.noOverlap.inside t ht).2
    · obtain ⟨_, hsize', hused'⟩ := hvalues hroom.1 hroom.2
      simp only [padded, paged] at hsize' hused' hroom
      omega
  · -- behind `HeapUsed`
    rename_i hfits
    have hfits := Nat.lt_of_not_le hfits
    obtain ⟨hiff, hdata, hsize', hused'⟩ := h.newBlock_behind hsize hnew hfits
    have hlt := h.size_lt
    have hpad : size ≤ padded size := by
      simp only [padded]
      omega
    rw [hsize', hsplit _ (Nat.le_refl _)]
    refine ⟨⟨fun hpacked => ?_, fun hroom => ?_⟩, fun _ => by omega⟩
    · have hroom := hiff.mp hpacked.2.1
      rw [hdata hroom] at hpacked
      exact ⟨hroom, hpacked.1⟩
    · rw [hdata hroom.1]
      exact ⟨hroom.2, by omega, by omega⟩

/-! ## Section 4: What the calls do -/

theorem findFreeBlock_spec {l passed found : List Block}
    (h : findFreeBlock l size = some (passed, found)) :
    l = passed ++ found ∧ (∀ b ∈ passed, ¬ (b.isFree = true ∧ size ≤ b.dataSize)) ∧
      ∀ b rest, found = b :: rest → b.isFree = true ∧ size ≤ b.dataSize := by
  induction l generalizing passed found with
  | nil =>
    simp only [findFreeBlock, Option.some.injEq, Prod.mk.injEq] at h
    obtain ⟨rfl, rfl⟩ := h
    simp
  | cons b rest ih =>
    unfold findFreeBlock at h
    split at h
    · cases h
    · split at h
      · rename_i hfits
        rw [Bool.and_eq_true, decide_eq_true_iff] at hfits
        simp only [Option.some.injEq, Prod.mk.injEq] at h
        obtain ⟨rfl, rfl⟩ := h
        refine ⟨rfl, by simp, ?_⟩
        intro b' rest' heq
        obtain ⟨rfl, rfl⟩ := List.cons.inj heq
        exact hfits
      · rename_i hfits
        rw [Bool.and_eq_true, decide_eq_true_iff] at hfits
        obtain ⟨⟨passed', found'⟩, hrest, hval⟩ := map_eq_some_iff.mp h
        rw [Prod.mk.injEq] at hval
        obtain ⟨rfl, rfl⟩ := hval
        obtain ⟨hlist, hpassed, hfound⟩ := ih hrest
        exact ⟨by rw [hlist, List.cons_append], List.forall_mem_cons.mpr ⟨hfits, hpassed⟩, hfound⟩

theorem Inv.malloc_cases (h : Inv heap) (hmalloc : malloc request heap size = some (p, heap')) :
    (size = 0 ∧ heap' = heap) ∨
    (∃ passed b rest, heap.blocks = passed ++ b :: rest ∧ b.isFree = true ∧ size ≤ b.dataSize ∧
      heap' = { heap with blocks := passed ++ { b with isFree := false } :: rest }) ∨
    (0 < size ∧ (∀ b ∈ heap.blocks, ¬ (b.isFree = true ∧ size ≤ b.dataSize)) ∧
      ∃ block heap₁, newBlock request heap size = some (block, heap₁) ∧
        (heap.blocks = [] → block.data ≠ 0) ∧
        heap' = { heap₁ with blocks := heap.blocks ++ [block] }) := by
  unfold malloc at hmalloc
  split at hmalloc
  · rename_i hzero
    simp only [Option.some.injEq, Prod.mk.injEq] at hmalloc
    exact Or.inl ⟨hzero, hmalloc.2.symm⟩
  · rename_i hpos
    split at hmalloc
    · rename_i hnil
      obtain ⟨⟨block, heap₁⟩, hnew, hmalloc⟩ := bind_eq_some_iff.mp hmalloc
      dsimp only at hmalloc
      split at hmalloc
      · cases hmalloc
      · rename_i hdata
        simp only [Option.some.injEq, Prod.mk.injEq] at hmalloc
        refine Or.inr (Or.inr ⟨by omega, by simp [hnil], block, heap₁, hnew, fun _ => hdata, ?_⟩)
        rw [← hmalloc.2, hnil, List.nil_append]
    · rename_i hne
      obtain ⟨⟨passed, found⟩, hfind, hmalloc⟩ := bind_eq_some_iff.mp hmalloc
      obtain ⟨hlist, hpassed, hfound⟩ := findFreeBlock_spec hfind
      match found with
      | b :: rest =>
        obtain ⟨hfree, hle⟩ := hfound b rest rfl
        have hdata := h.data_ne_zero (show b ∈ heap.blocks by rw [hlist]; simp)
        simp only [ne_eq, hdata, not_false_eq_true, if_true, Option.some.injEq,
          Prod.mk.injEq] at hmalloc
        exact Or.inr (Or.inl ⟨passed, b, rest, hlist, hfree, hle, hmalloc.2.symm⟩)
      | [] =>
        rw [List.append_nil] at hlist
        obtain ⟨⟨block, heap₁⟩, hnew, hval⟩ := map_eq_some_iff.mp hmalloc
        simp only [Prod.mk.injEq] at hval
        rw [← hlist] at hval hpassed
        exact Or.inr (Or.inr ⟨by omega, hpassed, block, heap₁, hnew, fun hnil => absurd hnil hne,
          hval.2.symm⟩)

theorem map_span_mark {passed rest : List Block} (isFree : Bool) :
    (passed ++ { block with isFree } :: rest).map Block.span =
      (passed ++ block :: rest).map Block.span := by
  simp only [List.map_append, List.map_cons, Block.span]

theorem Inv.of_spans (h : Inv heap) (hbase : heap'.baseVirtualAddress = heap.baseVirtualAddress)
    (hsize : heap'.heapSize = heap.heapSize) (hused : heap'.heapUsed = heap.heapUsed)
    (hspans : heap'.blocks.map Block.span = heap.blocks.map Block.span) : Inv heap' where
  noOverlap := by
    rw [NoOverlap, hspans, hbase, hsize]
    exact h.noOverlap
  base_lt := by
    rw [hbase]
    exact h.base_lt
  base_pos := by
    intro hne
    rw [hbase]
    apply h.base_pos
    intro hnil
    rw [hnil, List.map_nil, List.map_eq_nil_iff] at hspans
    exact hne hspans
  empty := by
    intro hnil
    rw [hnil, List.map_nil, eq_comm, List.map_eq_nil_iff] at hspans
    rw [hsize]
    exact h.empty hspans
  used_le := by
    rw [hused, hsize]
    exact h.used_le
  size_lt := by
    rw [hsize]
    exact h.size_lt
  aligned := by
    rw [hsize]
    exact h.aligned

theorem Inv.malloc (h : Inv heap) (hsize : size < 2 ^ 64)
    (hmalloc : malloc request heap size = some (p, heap')) :
    (NoOverlap heap' ↔ Places heap size) ∧ (Places heap size → Inv heap') := by
  rcases h.malloc_cases hmalloc with ⟨hzero, rfl⟩ | ⟨passed, b, rest, hlist, hfree, hle, rfl⟩ |
    ⟨hpos, hnone, block, heap₁, hnew, hdata, rfl⟩
  · exact ⟨iff_of_true h.noOverlap (Or.inl hzero), fun _ => h⟩
  · have hinv : Inv { heap with blocks := passed ++ { b with isFree := false } :: rest } :=
      h.of_spans rfl rfl rfl (by rw [map_span_mark, hlist])
    have hplaces : Places heap size :=
      Or.inr (Or.inl ⟨b, by rw [hlist]; simp, hfree, hle⟩)
    exact ⟨iff_of_true hinv.noOverlap hplaces, fun _ => hinv⟩
  · obtain ⟨_, hbase, _⟩ := newBlock_cases hnew
    obtain ⟨hiff, hcounters⟩ := h.newBlock_packed hsize hpos hnew
    have hplaces : Places heap size ↔ Room heap size := by
      refine ⟨fun hp => ?_, fun hr => Or.inr (Or.inr hr)⟩
      rcases hp with hzero | ⟨b, hb, hfits⟩ | hroom
      · omega
      · exact absurd hfits (hnone b hb)
      · exact hroom
    have hoverlap : NoOverlap { heap₁ with blocks := heap.blocks ++ [block] } ↔
        Places heap size := by
      rw [hplaces, ← hiff, NoOverlap, hbase]
    refine ⟨hoverlap, fun hp => ?_⟩
    obtain ⟨hused, hlt, haligned⟩ := hcounters (hplaces.mp hp)
    refine ⟨hoverlap.mpr hp, ?_, ?_, by simp, hused, hlt, haligned⟩
    · show heap₁.baseVirtualAddress < _
      rw [hbase]
      exact h.base_lt
    · intro _
      show 0 < heap₁.baseVirtualAddress
      rw [hbase]
      by_cases hnil : heap.blocks = []
      · -- the first block lies at the base, and is not null
        have hzero := hdata hnil
        have hempty := h.empty hnil
        obtain ⟨_, _, _, _, hcases⟩ := newBlock_cases hnew
        rw [if_pos (by omega)] at hcases
        omega
      · exact h.base_pos hnil

theorem markFree_spans {l l' : List Block} (h : markFree l address = some l') :
    l'.map Block.span = l.map Block.span := by
  induction l generalizing l' with
  | nil =>
    simp only [markFree, Option.some.injEq] at h
    rw [← h]
  | cons b rest ih =>
    unfold markFree at h
    split at h
    · cases h
    · split at h
      · rw [← Option.some.inj h]
        rfl
      · obtain ⟨l₁, hrest, rfl⟩ := map_eq_some_iff.mp h
        rw [List.map_cons, List.map_cons, ih hrest]

theorem Inv.free (h : Inv heap) (hfree : free heap address = some heap') : Inv heap' := by
  unfold V2.free at hfree
  split at hfree
  · rw [← Option.some.inj hfree]
    exact h
  · obtain ⟨blocks, hmark, rfl⟩ := map_eq_some_iff.mp hfree
    exact h.of_spans rfl rfl rfl (markFree_spans hmark)

theorem Inv.calloc (h : Inv heap) {n : Nat}
    (hcalloc : calloc request heap n size = some (p, heap')) :
    (NoOverlap heap' ↔ (n = 0 ∨ size = 0) ∨ Places heap (n * size % 2 ^ 64)) ∧
    ((n = 0 ∨ size = 0) ∨ Places heap (n * size % 2 ^ 64) → Inv heap') := by
  unfold V2.calloc at hcalloc
  split at hcalloc
  · rename_i hzero
    simp only [Option.some.injEq, Prod.mk.injEq] at hcalloc
    obtain ⟨_, rfl⟩ := hcalloc
    exact ⟨iff_of_true h.noOverlap (Or.inl hzero), fun _ => h⟩
  · rename_i hzero
    rw [or_iff_right hzero]
    exact h.malloc (Nat.mod_lt _ (by decide)) hcalloc

theorem Inv.realloc (h : Inv heap) (hsize : size < 2 ^ 64)
    (hrealloc : realloc request heap address size = some (p, heap')) :
    ∃ heap₁, V2.free heap address = some heap₁ ∧
      (NoOverlap heap' ↔ Places heap₁ size) ∧ (Places heap₁ size → Inv heap') := by
  unfold V2.realloc at hrealloc
  split at hrealloc
  · rename_i hnull
    exact ⟨heap, by rw [V2.free, if_pos hnull.1], h.malloc hsize hrealloc⟩
  · split at hrealloc
    · rename_i hzero
      obtain ⟨heap₁, hfree, hval⟩ := map_eq_some_iff.mp hrealloc
      rw [Prod.mk.injEq] at hval
      obtain ⟨_, rfl⟩ := hval
      have hinv := h.free hfree
      exact ⟨heap₁, hfree, iff_of_true hinv.noOverlap (Or.inl hzero), fun _ => hinv⟩
    · obtain ⟨heap₁, hfree, hmalloc⟩ := bind_eq_some_iff.mp hrealloc
      exact ⟨heap₁, hfree, (h.free hfree).malloc hsize hmalloc⟩

theorem Inv.step {base : Word} {call : Call} (h : Inv heap)
    (hstep : (heaps request base).step heap call heap') :
    (NoOverlap heap' ↔ Fitting heap call) ∧ (Fitting heap call → Inv heap') := by
  match call with
  | .malloc size =>
    obtain ⟨p, hmalloc⟩ := hstep
    exact h.malloc size.isLt hmalloc
  | .calloc n size =>
    obtain ⟨p, hcalloc⟩ := hstep
    exact h.calloc hcalloc
  | .realloc address size =>
    obtain ⟨p, hrealloc⟩ := hstep
    obtain ⟨heap₁, hfree, hiff, hinv⟩ := h.realloc size.isLt hrealloc
    have hfitting : Fitting heap (.realloc address size) ↔ Places heap₁ size.toNat := by
      refine ⟨fun hf => hf heap₁ hfree, fun hp heap₂ hfree₂ => ?_⟩
      obtain rfl : heap₁ = heap₂ := Option.mem_unique hfree hfree₂
      exact hp
    rw [hfitting]
    exact ⟨hiff, hinv⟩
  | .free address =>
    have hinv := h.free hstep
    exact ⟨iff_of_true hinv.noOverlap trivial, fun _ => hinv⟩

end blocks

/-! ## Section 5: No overlap -/

/-- **No overlap**: whatever the source of pages does, in every run of fitting
    calls the data of all blocks lies inside the heap and does not overlap, and
    the next call keeps it so if and only if it is fitting. -/
theorem blocks_do_not_overlap {σ : Type} (request : RequestPages σ) (base : Word) {heap : Heap σ}
    (h : ((heaps request base).restrict Fitting).Reachable heap) :
    NoOverlap heap ∧ ∀ call heap', (heaps request base).step heap call heap' →
      (NoOverlap heap' ↔ Fitting heap call) := by
  have hinv : Inv heap := by
    refine h.invariant ?_ ?_
    · intro heap hinit
      obtain ⟨hbase, hsize, hused, hblocks⟩ := hinit
      have := base.isLt
      refine ⟨?_, by omega, fun hne => absurd hblocks hne, fun _ => hsize, by omega, by omega,
        by omega⟩
      rw [NoOverlap, hblocks]
      exact Span.Packed.nil _ _
    · intro heap call heap' hi hs
      exact (hi.step hs.2).2 hs.1
  exact ⟨hinv.noOverlap, fun call heap' hstep => (hinv.step hstep).1⟩

theorem twoBytes_le : 2 ≤ 2 ^ 49 := by decide

/-- A heap at the address that the documentation of the heap uses, over an
    allocator of 16 pages of which two are in use. -/
def freshHeap : Heap Physical where
  supply :=
    { totalMemory := 0x10000
      freeMemory := 0xE000
      reservedMemory := 0x2000
      usedMemory := 0
      pageBitmapIndex := 0
      pageBitmap :=
        { size := 2
          buffer := fun i => if i = 0 then 0b11000000 else 0
          size_le := twoBytes_le } }
  baseVirtualAddress := 0xFFFFA00000000000
  heapSize := 0
  heapUsed := 0
  blocks := []

theorem init_freshHeap : (heaps kernelPages 0xFFFFA00000000000).init freshHeap :=
  ⟨rfl, rfl, rfl, rfl⟩

/-- The first block. -/
theorem blocks_do_not_overlap_freshHeap :
    ∃ heap, malloc kernelPages freshHeap 16 = some (0xFFFFA00000000000, heap) ∧
      NoOverlap heap := by
  have heval : ((malloc kernelPages freshHeap 16).map fun r => r.1) =
      some 0xFFFFA00000000000 := by
    decide +kernel
  obtain ⟨⟨p, heap⟩, hmalloc, rfl⟩ := map_eq_some_iff.mp heval
  have hfitting : Fitting freshHeap (.malloc 16) := by
    refine Or.inr (Or.inr ?_)
    show Room freshHeap 16
    rw [Room, if_pos (by decide)]
    decide
  have hstep : (heaps kernelPages 0xFFFFA00000000000).step freshHeap (.malloc 16) heap :=
    ⟨_, hmalloc⟩
  exact ⟨heap, hmalloc, ((blocks_do_not_overlap kernelPages _ (.init init_freshHeap)).2
    _ _ hstep).mpr hfitting⟩

/-- A small block, a page and another small block: the last one lies inside the
    page. -/
theorem third_block_overlaps :
    ∃ heap₁ heap₂ heap₃, malloc kernelPages freshHeap 16 = some (0xFFFFA00000000000, heap₁) ∧
      malloc kernelPages heap₁ 4096 = some (0xFFFFA00000001000, heap₂) ∧
      malloc kernelPages heap₂ 16 = some (0xFFFFA00000001010, heap₃) ∧
      (heaps kernelPages 0xFFFFA00000000000).Reachable heap₃ ∧ ¬ NoOverlap heap₃ := by
  obtain ⟨heap₁, h₁, heap₂, h₂, heap₃, h₃, hspans⟩ : ∃ heap₁,
      malloc kernelPages freshHeap 16 = some (0xFFFFA00000000000, heap₁) ∧
      ∃ heap₂, malloc kernelPages heap₁ 4096 = some (0xFFFFA00000001000, heap₂) ∧
      ∃ heap₃, malloc kernelPages heap₂ 16 = some (0xFFFFA00000001010, heap₃) ∧
        heap₃.blocks.map Block.span =
          [⟨0xFFFFA00000000000, 16⟩, ⟨0xFFFFA00000001000, 4096⟩, ⟨0xFFFFA00000001010, 16⟩] := by
    decide +kernel
  have hreach : (heaps kernelPages 0xFFFFA00000000000).Reachable heap₃ :=
    .step (.step (.step (.init init_freshHeap)
      (show (heaps kernelPages _).step _ (.malloc 16) heap₁ from ⟨_, h₁⟩))
      (show (heaps kernelPages _).step _ (.malloc 4096) heap₂ from ⟨_, h₂⟩))
      (show (heaps kernelPages _).step _ (.malloc 16) heap₃ from ⟨_, h₃⟩)
  refine ⟨heap₁, heap₂, heap₃, h₁, h₂, h₃, hreach, ?_⟩
  intro hpacked
  have hapart := hpacked.apart
  rw [hspans] at hapart
  have hlast := (List.pairwise_cons.mp (List.pairwise_cons.mp hapart).2).1
    ⟨0xFFFFA00000001010, 16⟩ (List.mem_singleton_self _)
  rw [Span.disjoint_iff (by decide) (by decide)] at hlast
  exact absurd hlast (by decide)

end Fennix.Memory.Xalloc.V2
