import Fennix.Framework.Span
import Fennix.Memory.Vma
import Mathlib.Data.List.TakeWhile

/-! # Kernel virtual allocation

    `VirtualAllocation` of `Kernel/core/memory/va.cpp`: an arena of virtual
    addresses that grows from `BaseAddress` upwards. The list of its regions
    holds those in use and those that were freed; a request takes the first
    freed region that is large enough, and cuts it if it is larger, or else a
    new one at `CurrentBase`.

    The regions tile the arena as long as no request runs over the end of the
    address space. Nothing stops one: the physical allocator grants requests
    past the end of its bitmap, and the assertion on `CurrentBase` is made
    after the addition has wrapped around.
-/

namespace Fennix.Memory

/-! ## Section 1: The calls -/

namespace Virtual

/-- The loop of `FreePages` over `Unmap`. -/
def unmapRounds (vmm : Virtual) (m : Tables) (address : Word) : Nat → Option Tables
  | 0 => some m
  | n + 1 => (unmapRounds vmm m address n).bind fun m' => vmm.unmap m' (pageOf address n) .fourKiB

end Virtual

namespace VirtualAllocation

/-- `struct AllocatedPages`. -/
structure AllocatedPages where
  physicalAddress : Word
  virtualAddress : Word
  pageCount : Nat
  free : Bool
  deriving DecidableEq

/-- What the calls work on: memory, the physical allocator and the fields of
    `VirtualAllocation`. -/
structure Arena where
  machine : Machine Physical
  allocatedPagesList : List AllocatedPages
  baseAddress : Word
  currentBase : Word

/-- `USER_ALLOC_END`. -/
def userAllocEnd : Word := 0xFFFFB00000000000#64

/-- `RW | KRsv | G`. -/
def kernelFlags : Word := PTFlag.rw.mask ||| PTFlag.kRsv.mask ||| PTFlag.g.mask

/-- The search loop of `RequestPages` stops at this region. -/
def AllocatedPages.fits (itr : AllocatedPages) (count : Nat) : Bool :=
  itr.free && decide (count ≤ itr.pageCount)

/-- The two records that a region is split into. -/
def AllocatedPages.split (itr : AllocatedPages) (count : Nat) : List AllocatedPages :=
  [ ⟨itr.physicalAddress + BitVec.ofNat 64 (fromPages count),
      itr.virtualAddress + BitVec.ofNat 64 (fromPages count), itr.pageCount - count, true⟩,
    ⟨itr.physicalAddress, itr.virtualAddress, count, false⟩ ]

variable (vmm : Virtual)

/-- A region of the list is used again: as it is if it has the right size, and
    else split. -/
def reuse (va : Arena) (machine : Machine Physical) (pAddress : Word) (count : Nat)
    (before : List AllocatedPages) (itr : AllocatedPages) (after : List AllocatedPages) :
    Option (AllocatedPages × Arena) :=
  if itr.pageCount = count then
    -- the new pages are mapped, and the record keeps the old ones
    (vmm.mapLength kernelAllocator machine itr.virtualAddress pAddress (fromPages count)
        kernelFlags).map fun machine =>
      ({ itr with free := false },
        { va with machine, allocatedPagesList := before ++ { itr with free := false } :: after })
  else
    -- `pAddress` of the inner block is the one of the record
    (vmm.mapLength kernelAllocator machine itr.virtualAddress itr.physicalAddress (fromPages count)
        kernelFlags).map fun machine =>
      (⟨itr.physicalAddress, itr.virtualAddress, count, false⟩,
        { va with machine, allocatedPagesList := before ++ after ++ itr.split count })

/-- A new region at `CurrentBase`; `none` when the assertion fails. -/
def extend (va : Arena) (machine : Machine Physical) (pAddress : Word) (count : Nat) :
    Option (AllocatedPages × Arena) :=
  (vmm.mapLength kernelAllocator machine va.currentBase pAddress (fromPages count)
      kernelFlags).bind fun machine =>
    let currentBase := va.currentBase + BitVec.ofNat 64 (fromPages count)
    if userAllocEnd > currentBase then
      some (⟨pAddress, va.currentBase, count, false⟩,
        { va with
          machine
          allocatedPagesList := va.allocatedPagesList ++ [⟨pAddress, va.currentBase, count, false⟩]
          currentBase })
    else none

/-- `VirtualAllocation::RequestPages`. -/
def requestPages (va : Arena) (count : Nat) : Option (AllocatedPages × Arena) :=
  (kernelAllocator.request va.machine.supply count).bind fun (pAddress, supply) =>
    -- `memset(pAddress, 0, FROM_PAGES(Count))` comes first
    let machine : Machine Physical :=
      ⟨zeroPages va.machine.tables pAddress (fromPages count / pageSize), supply⟩
    match va.allocatedPagesList.dropWhile (fun itr => !itr.fits count) with
    | itr :: after =>
      reuse vmm va machine pAddress count
        (va.allocatedPagesList.takeWhile fun itr => !itr.fits count) itr after
    | [] => extend vmm va machine pAddress count

/-- `VirtualAllocation::FreePages`. The loop ends at the first region with the
    address. -/
def freePages (va : Arena) (address : Word) (count : Nat) : Option Arena :=
  match va.allocatedPagesList.dropWhile (fun apl => apl.virtualAddress ≠ address) with
  | [] => some va
  | apl :: after =>
    if apl.pageCount ≠ count then some va
    else
      (vmm.unmapRounds va.machine.tables address count).map fun tables =>
        { va with
          -- the virtual address is handed to the physical allocator
          machine := ⟨tables, va.machine.supply.freePages address.toNat count⟩
          allocatedPagesList :=
            (va.allocatedPagesList.takeWhile fun apl => apl.virtualAddress ≠ address) ++
              { apl with free := true } :: after }

/-- A call. -/
inductive Call where
  | requestPages (count : Nat)
  | freePages (address : Word) (count : Nat)

/-- Runs of calls that return on one page table without large pages, from the
    empty list on. Requests are for at least one page. -/
def arenas (base : Word) : System Arena Call where
  init := fun va => va.allocatedPagesList = [] ∧ va.baseAddress = base ∧ va.currentBase = base ∧
    Plain kernelAllocator vmm va.machine
  step := fun va call va' =>
    match call with
    | .requestPages count => 0 < count ∧ ∃ region, requestPages vmm va count = some (region, va')
    | .freePages address count => freePages vmm va address count = some va'

/-- The guard on runs: a request that no freed region serves ends inside the
    address space. -/
def HasRoom (va : Arena) : Call → Prop
  | .requestPages count =>
      (∃ itr ∈ va.allocatedPagesList, itr.fits count = true) ∨
        va.currentBase.toNat + count * pageSize < 2 ^ 64
  | .freePages _ _ => True

/-! ## Section 2: Regions as spans -/

/-- The addresses of a region. -/
def AllocatedPages.span (region : AllocatedPages) : Span :=
  ⟨region.virtualAddress.toNat, region.pageCount * pageSize⟩

/-- The regions, free and in use together, share no address and cover exactly
    the addresses from `BaseAddress` up to `CurrentBase`. -/
def Tiled (va : Arena) : Prop :=
  Span.Tiling (va.allocatedPagesList.map AllocatedPages.span) va.baseAddress.toNat
    va.currentBase.toNat

/-- No address of the region belongs to a region that is in use. -/
def Unused (va : Arena) (region : AllocatedPages) : Prop :=
  ∀ r ∈ va.allocatedPagesList, r.free = false → Span.Disjoint region.span r.span

/-! ## Section 3: What the calls do -/

/-- What a request for `count` pages can do to the arena. -/
inductive Requested (va : Arena) (count : Nat) : AllocatedPages → Arena → Prop where
  /-- A freed region of this size is used again. -/
  | same {before itr after machine} :
      va.allocatedPagesList = before ++ itr :: after → itr.free = true → itr.pageCount = count →
      Requested va count { itr with free := false }
        { va with machine, allocatedPagesList := before ++ { itr with free := false } :: after }
  /-- A larger one is split. -/
  | split {before itr after machine} :
      va.allocatedPagesList = before ++ itr :: after → itr.free = true → count < itr.pageCount →
      Requested va count ⟨itr.physicalAddress, itr.virtualAddress, count, false⟩
        { va with machine, allocatedPagesList := before ++ after ++ itr.split count }
  /-- There is none, and the arena grows. -/
  | fresh {pAddress supply machine} :
      (∀ itr ∈ va.allocatedPagesList, itr.fits count = false) →
      kernelAllocator.request va.machine.supply count = some (pAddress, supply) →
      vmm.mapLength kernelAllocator
          ⟨zeroPages va.machine.tables pAddress (fromPages count / pageSize), supply⟩
          va.currentBase pAddress (fromPages count) kernelFlags = some machine →
      userAllocEnd > va.currentBase + BitVec.ofNat 64 (fromPages count) →
      Requested va count ⟨pAddress, va.currentBase, count, false⟩
        { va with
          machine
          allocatedPagesList := va.allocatedPagesList ++ [⟨pAddress, va.currentBase, count, false⟩]
          currentBase := va.currentBase + BitVec.ofNat 64 (fromPages count) }

section calls

variable {vmm} {va va' : Arena} {region : AllocatedPages} {address : Word} {count : Nat}

theorem AllocatedPages.fits_iff {itr : AllocatedPages} :
    itr.fits count = true ↔ itr.free = true ∧ count ≤ itr.pageCount := by
  rw [AllocatedPages.fits, Bool.and_eq_true, decide_eq_true_iff]

theorem requested_of_some (h : requestPages vmm va count = some (region, va')) :
    Requested vmm va count region va' := by
  obtain ⟨⟨pAddress, supply⟩, hreq, h⟩ := Option.bind_eq_some_iff.mp h
  dsimp only at h
  have hlist := va.allocatedPagesList.takeWhile_append_dropWhile (p := fun itr => !itr.fits count)
  split at h
  · rename_i itr after hdrop
    rw [hdrop] at hlist
    -- the region that the search stops at fits
    have hfits : itr.fits count = true := by
      have hhead := List.head?_dropWhile_not (fun itr => !itr.fits count) va.allocatedPagesList
      rw [hdrop] at hhead
      simpa using hhead
    obtain ⟨hfree, hle⟩ := AllocatedPages.fits_iff.mp hfits
    unfold reuse at h
    split at h
    · rename_i hcount
      obtain ⟨machine, _, hval⟩ := Option.map_eq_some_iff.mp h
      rw [Prod.mk.injEq] at hval
      obtain ⟨rfl, rfl⟩ := hval
      exact .same hlist.symm hfree hcount
    · rename_i hcount
      obtain ⟨machine, _, hval⟩ := Option.map_eq_some_iff.mp h
      rw [Prod.mk.injEq] at hval
      obtain ⟨rfl, rfl⟩ := hval
      exact .split hlist.symm hfree (by omega)
  · rename_i hdrop
    obtain ⟨machine, hmap, h⟩ := Option.bind_eq_some_iff.mp h
    dsimp only at h
    split at h
    · rename_i hend
      rw [Option.some.injEq, Prod.mk.injEq] at h
      obtain ⟨rfl, rfl⟩ := h
      refine .fresh ?_ hreq hmap hend
      intro itr hitr
      simpa using List.dropWhile_eq_nil_iff.mp hdrop itr hitr
    · cases h

/-- `FreePages` is called for a region of the list, with its page count. -/
def Names (va : Arena) (address : Word) (count : Nat) : Prop :=
  ∃ apl ∈ va.allocatedPagesList, apl.virtualAddress = address ∧ apl.pageCount = count

theorem freePages_cases (h : freePages vmm va address count = some va') :
    va' = va ∨ ∃ before apl after tables,
      va.allocatedPagesList = before ++ apl :: after ∧ apl.virtualAddress = address ∧
      apl.pageCount = count ∧ vmm.unmapRounds va.machine.tables address count = some tables ∧
      va' = { va with
        machine := ⟨tables, va.machine.supply.freePages address.toNat count⟩
        allocatedPagesList := before ++ { apl with free := true } :: after } := by
  unfold freePages at h
  have hlist := va.allocatedPagesList.takeWhile_append_dropWhile
    (p := fun apl => decide (apl.virtualAddress ≠ address))
  split at h
  · exact Or.inl (Option.some.inj h).symm
  · rename_i apl after hdrop
    rw [hdrop] at hlist
    have haddress : apl.virtualAddress = address := by
      have hhead := List.head?_dropWhile_not (fun apl => decide (apl.virtualAddress ≠ address))
        va.allocatedPagesList
      rw [hdrop] at hhead
      simpa using hhead
    split at h
    · exact Or.inl (Option.some.inj h).symm
    · rename_i hcount
      obtain ⟨tables, hunmap, rfl⟩ := Option.map_eq_some_iff.mp h
      exact Or.inr ⟨_, apl, after, tables, hlist.symm, haddress, by simpa using hcount, hunmap, rfl⟩

end calls

/-! ## Section 4: The arena stays tiled -/

/-- The invariant of runs. -/
structure Inv (va : Arena) : Prop where
  le : va.baseAddress.toNat ≤ va.currentBase.toNat
  tiled : Tiled va

section tiled

variable {vmm} {va va' : Arena} {region : AllocatedPages} {count : Nat}

theorem fromPages_of_lt (h : count * pageSize < 2 ^ 64) : fromPages count = count * pageSize :=
  Nat.mod_eq_of_lt h

theorem Inv.region_le (h : Inv va) (hr : region ∈ va.allocatedPagesList)
    (hpos : 0 < region.pageCount) :
    va.baseAddress.toNat ≤ region.virtualAddress.toNat ∧
      region.virtualAddress.toNat + region.pageCount * pageSize ≤ va.currentBase.toNat :=
  h.tiled.inside (List.mem_map_of_mem hr) (by simp only [AllocatedPages.span, pageSize]; omega)

variable {itr : AllocatedPages} {before after : List AllocatedPages}

theorem AllocatedPages.span_split (hlt : count < itr.pageCount)
    (hend : itr.virtualAddress.toNat + itr.pageCount * pageSize < 2 ^ 64) :
    (itr.split count).map AllocatedPages.span =
      [⟨itr.span.start + count * pageSize, itr.span.length - count * pageSize⟩,
        ⟨itr.span.start, count * pageSize⟩] := by
  have hpages : fromPages count = count * pageSize :=
    fromPages_of_lt (by simp only [pageSize] at hend ⊢; omega)
  have hsum : (itr.virtualAddress + BitVec.ofNat 64 (count * pageSize)).toNat =
      itr.virtualAddress.toNat + count * pageSize := by
    rw [BitVec.toNat_add, BitVec.toNat_ofNat]
    simp only [pageSize] at hend ⊢
    omega
  simp only [AllocatedPages.split, List.map_cons, List.map_nil, AllocatedPages.span, hpages, hsum,
    Nat.sub_mul]

theorem map_span_set (free : Bool) :
    (before ++ { itr with free } :: after).map AllocatedPages.span =
      (before ++ itr :: after).map AllocatedPages.span := by
  simp only [List.map_append, List.map_cons, AllocatedPages.span]

theorem unused_of_free (h : Inv va) (hlist : va.allocatedPagesList = before ++ itr :: after)
    (hfree : itr.free = true) (hpart : ∀ a, region.span.Covers a → itr.span.Covers a) :
    Unused va region := by
  have hapart := h.tiled.apart
  rw [hlist, List.map_append, List.map_cons] at hapart
  have hcross := (List.pairwise_cons.mp (Span.Apart.perm hapart List.perm_middle)).1
  intro r hr hused
  have hrest : r ∈ before ++ after := by
    rw [hlist, List.mem_append, List.mem_cons] at hr
    rw [List.mem_append]
    rcases hr with hr | hr | hr
    · exact Or.inl hr
    · rw [hr, hfree] at hused
      cases hused
    · exact Or.inr hr
  have hmem : r.span ∈ before.map AllocatedPages.span ++ after.map AllocatedPages.span := by
    rw [← List.map_append]
    exact List.mem_map_of_mem hrest
  exact (hcross _ hmem).mono hpart

theorem toNat_currentBase_add (h : va.currentBase.toNat + count * pageSize < 2 ^ 64) :
    (va.currentBase + BitVec.ofNat 64 (fromPages count)).toNat =
      va.currentBase.toNat + count * pageSize := by
  rw [fromPages_of_lt (by omega), BitVec.toNat_add, BitVec.toNat_ofNat]
  simp only [pageSize] at h ⊢
  omega

theorem hasRoom_of_free (hlist : va.allocatedPagesList = before ++ itr :: after)
    (hfree : itr.free = true) (hle : count ≤ itr.pageCount) : HasRoom va (.requestPages count) := by
  have hitr : itr ∈ va.allocatedPagesList := by
    rw [hlist]
    exact List.mem_append_right _ List.mem_cons_self
  exact Or.inl ⟨itr, hitr, AllocatedPages.fits_iff.mpr ⟨hfree, hle⟩⟩

theorem lt_of_hasRoom (hroom : HasRoom va (.requestPages count))
    (hnone : ∀ itr ∈ va.allocatedPagesList, itr.fits count = false) :
    va.currentBase.toNat + count * pageSize < 2 ^ 64 := by
  rcases hroom with ⟨itr, hitr, hfits⟩ | hlt
  · rw [hnone itr hitr] at hfits
    cases hfits
  · exact hlt

theorem Inv.split (h : Inv va) (hlist : va.allocatedPagesList = before ++ itr :: after)
    (hlt : count < itr.pageCount) :
    Span.Tiling ((before ++ after ++ itr.split count).map AllocatedPages.span)
      va.baseAddress.toNat va.currentBase.toNat := by
  have hitr : itr ∈ va.allocatedPagesList := by
    rw [hlist]
    exact List.mem_append_right _ List.mem_cons_self
  have hend := (h.region_le hitr (by omega)).2
  have htiled := h.tiled
  rw [Tiled, hlist, List.map_append, List.map_cons] at htiled
  have hcut := (htiled.perm List.perm_middle).cut (n := count * pageSize)
    (Nat.mul_le_mul_right pageSize (Nat.le_of_lt hlt))
  refine hcut.perm ?_
  rw [List.map_append, List.map_append,
    AllocatedPages.span_split hlt (Nat.lt_of_le_of_lt hend va.currentBase.isLt)]
  exact @List.perm_append_comm _ [_, _] _

theorem Inv.unused_fresh (h : Inv va) (pAddress : Word) :
    Unused va ⟨pAddress, va.currentBase, count, false⟩ := by
  intro r hr _
  rcases Nat.eq_zero_or_pos r.pageCount with hzero | hpos
  · intro a _ ha
    simp only [Span.Covers, AllocatedPages.span, hzero] at ha
    omega
  · exact (Span.disjoint_of_le (h.region_le hr hpos).2).symm

/-- A new region that ends beyond the address space has an address that no word
    reaches, so it is not tiled. -/
theorem lt_of_tiling {l : List Span} {lo : Nat} {pAddress currentBase hi : Word}
    (hcount : 0 < count)
    (htiled : Span.Tiling
      (l ++ [(AllocatedPages.mk pAddress currentBase count false).span]) lo hi.toNat) :
    currentBase.toNat + count * pageSize < 2 ^ 64 := by
  by_contra hge
  have hlast : (AllocatedPages.mk pAddress currentBase count false).span.Covers
      (currentBase.toNat + count * pageSize - 1) := by
    simp only [Span.Covers, AllocatedPages.span, pageSize]
    omega
  have hcover := (htiled.covers _).mp ⟨_, List.mem_append_right l List.mem_cons_self, hlast⟩
  have hlt := hi.isLt
  have hreached := hcover.2
  omega

/-- Every request hands out an unused region of the right size, and keeps the
    arena tiled exactly if there is room for it. -/
theorem Inv.requestPages (h : Inv va) (hcount : 0 < count)
    (hreq : Requested vmm va count region va') :
    region.pageCount = count ∧ region.free = false ∧ region ∈ va'.allocatedPagesList ∧
      Unused va region ∧ (HasRoom va (.requestPages count) → Inv va') ∧
      (Tiled va' → HasRoom va (.requestPages count)) := by
  cases hreq with
  | same hlist hfree hsize =>
    have hroom := hasRoom_of_free hlist hfree (Nat.le_of_eq hsize.symm)
    refine ⟨hsize, rfl, by simp, ?_, ?_, fun _ => hroom⟩
    · exact unused_of_free h hlist hfree fun a ha => ha
    · intro _
      refine ⟨h.le, ?_⟩
      show Span.Tiling (List.map _ _) _ _
      rw [map_span_set, ← hlist]
      exact h.tiled
  | split hlist hfree hlt =>
    have hroom := hasRoom_of_free hlist hfree (Nat.le_of_lt hlt)
    refine ⟨rfl, rfl, by simp [AllocatedPages.split], ?_, ?_, fun _ => hroom⟩
    · apply unused_of_free h hlist hfree
      intro a ha
      have hle := Nat.mul_le_mul_right pageSize (Nat.le_of_lt hlt)
      exact ⟨ha.1, Nat.lt_of_lt_of_le ha.2 (Nat.add_le_add_left hle _)⟩
    · exact fun _ => ⟨h.le, h.split hlist hlt⟩
  | fresh hnone hreq hmap hend =>
    refine ⟨rfl, rfl, by simp, h.unused_fresh _, ?_, ?_⟩
    · intro hroom
      have hsum := toNat_currentBase_add (lt_of_hasRoom hroom hnone)
      constructor
      · show va.baseAddress.toNat ≤ (va.currentBase + _).toNat
        rw [hsum]
        exact Nat.le_add_right_of_le h.le
      · show Span.Tiling (List.map _ _) _ (va.currentBase + _).toNat
        rw [hsum, List.map_append]
        exact h.tiled.extend h.le _
    · intro htiled
      rw [Tiled, List.map_append] at htiled
      exact Or.inr (lt_of_tiling hcount htiled)

theorem Inv.freePages {address : Word} (h : Inv va)
    (hfree : freePages vmm va address count = some va') : Inv va' := by
  rcases freePages_cases hfree with rfl | ⟨before, apl, after, tables, hlist, _, _, _, rfl⟩
  · exact h
  · refine ⟨h.le, ?_⟩
    show Span.Tiling (List.map _ _) _ _
    rw [map_span_set, ← hlist]
    exact h.tiled

theorem inv_of_reachable {base : Word} (h : ((arenas vmm base).restrict HasRoom).Reachable va) :
    Inv va ∧ va.baseAddress = base := by
  induction h with
  | init hi =>
    obtain ⟨hlist, hbase, hcurrent, _⟩ := hi
    refine ⟨⟨by rw [hbase, hcurrent], ?_⟩, hbase⟩
    rw [Tiled, hlist, hbase, hcurrent]
    exact Span.Tiling.nil _
  | step _ hs ih =>
    rename_i va call va' _
    obtain ⟨hinv, hbase⟩ := ih
    obtain ⟨hroom, hs⟩ := hs
    match call with
    | .requestPages count =>
      obtain ⟨hcount, region, hreq⟩ := hs
      have hreq := requested_of_some hreq
      refine ⟨(hinv.requestPages hcount hreq).2.2.2.2.1 hroom, ?_⟩
      cases hreq <;> exact hbase
    | .freePages address count =>
      refine ⟨hinv.freePages hs, ?_⟩
      rcases freePages_cases hs with rfl | ⟨_, _, _, _, _, _, _, _, rfl⟩ <;> exact hbase

end tiled

/-- `USER_ALLOC_BASE`, where the arena of every process starts. -/
def userAllocBase : Word := 0xFFFFA00000000000#64

/-- The empty arena over some memory. -/
def emptyArena (machine : Machine Physical) : Arena where
  machine
  allocatedPagesList := []
  baseAddress := userAllocBase
  currentBase := userAllocBase

theorem init_emptyArena {machine : Machine Physical} (h : Plain kernelAllocator vmm machine) :
    (arenas vmm userAllocBase).init (emptyArena machine) := ⟨rfl, rfl, rfl, h⟩

theorem plain_freshArea : Plain kernelAllocator ⟨0x1000⟩ VirtualMemoryArea.freshArea.machine :=
  VirtualMemoryArea.init_freshArea.2

/-- Memory with a zeroed page table at page 1 in which only page 7 is free. -/
def lastPageMachine : Machine Physical := ⟨fun _ _ => 0, Physical.lastPageFree⟩

theorem plain_lastPageMachine : Plain kernelAllocator ⟨0x1000⟩ lastPageMachine := by
  refine plain_of_blank ⟨by decide, fun _ => rfl, ?_, ?_⟩
  · show _ = true ∧ _ ≤ 2 ^ 40
    decide
  · show _ = true
    decide

theorem request_lastPageFree :
    ∃ supply, kernelAllocator.request Physical.lastPageFree (2 ^ 52) = some (0x7000, supply) := by
  have hfit : Physical.Fits Physical.lastPageFree.pageBitmap (2 ^ 52) 7 := by
    refine ⟨by decide, by decide, Physical.clearRun_iff.mpr ?_⟩
    intro i hi
    rw [Nat.mod_eq_of_lt (by omega)]
    rcases Nat.lt_or_ge 8 (7 + i) with hgt | hle
    · exact Bitmap.get_of_gt hgt
    · have hbits : ∀ j < 2, Physical.lastPageFree.pageBitmap.get (7 + j) = false := by decide
      exact hbits i (by omega)
  have hused : ∀ k < 7, Physical.lastPageFree.pageBitmap.get k = true := by decide
  have hret := Physical.requestPages_of_first (s := Physical.lastPageFree) (Nat.zero_le 7) hused hfit
  exact ⟨_, request_of_returned (Physical.requestPages_eq_of_fst hret)⟩

end VirtualAllocation

end Fennix.Memory
