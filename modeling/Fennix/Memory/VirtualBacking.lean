import Fennix.Memory.VirtualAllocation

/-! # The pages behind kernel virtual allocation

    A region records the physical pages it is mapped to. That is true of a
    region as long as it is new: `RequestPages` maps other pages than the ones
    in the record when it uses a freed region again, and `FreePages` hands the
    virtual address to the physical allocator, which does not manage it.
-/

namespace Fennix.Memory

open Entry Radix

namespace VirtualAllocation

/-! ## Section 1: Backed regions -/

/-- Physical page `k` of a region. -/
def AllocatedPages.physicalPage (region : AllocatedPages) (k : Nat) : Word :=
  pageOf region.physicalAddress k

/-- The physical pages of a region, as an entry of the physical ledger. -/
def AllocatedPages.backing (region : AllocatedPages) : Memory.AllocatedPages :=
  ⟨region.physicalAddress, region.pageCount, false⟩

/-- Every region in use is mapped page by page to the physical pages in its
    record; they are not free, hold no table and belong to no other region in
    use. -/
structure Backed (vmm : Virtual) (va : Arena) : Prop where
  mapped : ∀ r ∈ va.allocatedPagesList, r.free = false → ∀ k < r.pageCount,
    vmm.getPhysical va.machine.tables (pageOf r.virtualAddress k) = some (r.physicalPage k)
  held : ∀ r ∈ va.allocatedPagesList, r.free = false → ∀ k < r.pageCount,
    va.machine.supply.pageBitmap.get (pageNumber (r.physicalPage k)) = true
  noTable : ∃ own, WellFormed kernelAllocator vmm.pTable va.machine own ∧
    ∀ r ∈ va.allocatedPagesList, r.free = false → ∀ k < r.pageCount, own (r.physicalPage k) = none
  alone : va.allocatedPagesList.Pairwise fun r r' => r.free = false → r'.free = false →
    ∀ k < r.pageCount, ∀ k' < r'.pageCount, r.physicalPage k ≠ r'.physicalPage k'

/-- `va'` is `va` after the physical pages of the region in use that a
    `FreePages` call names, and no others, were given back. -/
def GivesBack (va : Arena) (address : Word) (count : Nat) (va' : Arena) : Prop :=
  ∀ p, va'.machine.supply.pageBitmap.get p = true ↔
    va.machine.supply.pageBitmap.get p = true ∧
      ¬ ∃ r ∈ va.allocatedPagesList, r.free = false ∧ r.virtualAddress = address ∧
        r.pageCount = count ∧ ∃ k < count, pageNumber (r.physicalPage k) = p

/-- The guard on runs: requests have room, stay inside the bitmap of the
    physical allocator and are for pages below the middle of the address
    space, and `FreePages` names no region. -/
def Keeps (va : Arena) : Call → Prop
  | .requestPages count => HasRoom va (.requestPages count) ∧
      va.machine.supply.Contained count ∧ va.machine.supply.pageBitmap.bits ≤ 2 ^ 35
  | .freePages address count => ¬ Names va address count

/-! ## Section 2: Pages of the arena -/

section pages

variable {vmm : Virtual} {v w : Word} {n : Nat}

theorem canonical_of_high (h : 2 ^ 64 - 2 ^ 47 ≤ v.toNat) : Canonical v := Or.inr h

theorem toNat_pageOf {i : Nat} (hi : i < n) (h : v.toNat + n * pageSize ≤ 2 ^ 64) :
    (pageOf v i).toNat = v.toNat + i * pageSize := by
  rw [pageOf, BitVec.toNat_add, BitVec.toNat_ofNat]
  simp only [pageSize] at h ⊢
  omega

theorem ofAddress_ne (hv : 2 ^ 64 - 2 ^ 47 ≤ v.toNat) (h : v.toNat + pageSize ≤ w.toNat) :
    PageMapIndexer.ofAddress v ≠ PageMapIndexer.ofAddress w := by
  intro heq
  have hbase := congrArg BitVec.toNat
    (PageMapIndexer.ofAddress_inj (canonical_of_high hv) (canonical_of_high (by omega)) heq)
  rw [pageBase_toNat, pageBase_toNat] at hbase
  simp only [pageSize] at h
  omega

theorem ofAddress_pageOf_ne (hv : 2 ^ 64 - 2 ^ 47 ≤ v.toNat)
    (hend : v.toNat + n * pageSize ≤ 2 ^ 64) {i j : Nat} (hi : i < j) (hj : j < n) :
    PageMapIndexer.ofAddress (pageOf v i) ≠ PageMapIndexer.ofAddress (pageOf v j) := by
  have hi' := toNat_pageOf (Nat.lt_trans hi hj) hend
  have hj' := toNat_pageOf hj hend
  apply ofAddress_ne
  · omega
  · simp only [pageSize] at hi' hj' ⊢
    omega

theorem Sound.mapRounds_pointer {list : List Memory.AllocatedPages} {st st' : Machine Physical}
    {p flags : Word} (h : Sound vmm list st)
    (hne : ∀ j < n, ∀ i < j,
      PageMapIndexer.ofAddress (pageOf v i) ≠ PageMapIndexer.ofAddress (pageOf v j))
    (hrounds : vmm.mapRounds kernelAllocator st v p flags n = some st') :
    ∀ i < n, (leaf vmm st'.tables (pageOf v i)).map pointer = some (pageOf p i &&& addressMask) := by
  induction n generalizing st' with
  | zero =>
    intro i hi
    omega
  | succ n ih =>
    obtain ⟨st₁, hrounds₁, hmap⟩ := Option.bind_eq_some_iff.mp hrounds
    have hbefore := ih (fun j hj => hne j (by omega)) hrounds₁
    obtain ⟨hsound₁, _⟩ := h.mapRounds hrounds₁
    obtain ⟨_, hself, _, hother⟩ :=
      hsound₁.place (decode_mapEntry (pageOf p n) flags .fourKiB) hmap
    intro i hi
    rcases Nat.lt_or_ge i n with hlt | hge
    · rw [hother _ (hne n (by omega) i hlt)]
      exact hbefore i hlt
    · obtain rfl : i = n := by omega
      rw [hself, Option.map_some, pointer_mapEntry]

end pages

/-! ## Section 3: New regions -/

/-- The invariant of runs that free nothing: all regions are in use. -/
structure AllBacked (vmm : Virtual) (base : Word) (va : Arena) : Prop where
  inv : Inv va
  base_eq : va.baseAddress = base
  used : ∀ r ∈ va.allocatedPagesList, r.free = false
  sound : Sound vmm (va.allocatedPagesList.map AllocatedPages.backing) va.machine
  pointer_eq : ∀ r ∈ va.allocatedPagesList, ∀ k < r.pageCount,
    (leaf vmm va.machine.tables (pageOf r.virtualAddress k)).map pointer = some (r.physicalPage k)
  managed : ∀ r ∈ va.allocatedPagesList,
    r.backing.first + r.pageCount ≤ va.machine.supply.pageBitmap.bits

section fresh

variable {vmm : Virtual} {base : Word} {va va' : Arena} {region : AllocatedPages} {count : Nat}

variable {s : Physical} {address : Word}

theorem granted_of_contained {s' : Physical} {page : Word} (hcount : 0 < count)
    (hcontained : s.Contained count) (hbits : s.pageBitmap.bits ≤ 2 ^ 35)
    (hreq : kernelAllocator.request s count = some (page, s')) :
    ∃ c, page = frame c ∧ c + count ≤ s.pageBitmap.bits ∧ s.Granted c count s' := by
  obtain ⟨A, hret, rfl⟩ := requestFrames_eq_some hreq
  have hlast := (hcontained A s' hret (count - 1) (by omega)).1
  have hsmall : count - 1 < s.pageBitmap.bits := Nat.lt_of_le_of_lt (Nat.le_add_left _ _) hlast
  obtain ⟨c, rfl, hg⟩ := Physical.granted_of_requestPages (by omega) hret
  rw [Nat.mul_div_cancel _ (by simp)] at hlast
  exact ⟨c, rfl, by omega, hg⟩

theorem AllBacked.page_le (h : AllBacked vmm base va) (hr : region ∈ va.allocatedPagesList)
    {k : Nat} (hk : k < region.pageCount) :
    base.toNat ≤ (pageOf region.virtualAddress k).toNat ∧
      (pageOf region.virtualAddress k).toNat + pageSize ≤ va.currentBase.toNat := by
  obtain ⟨hlow, hhigh⟩ := h.inv.region_le hr (by omega)
  have hlt := va.currentBase.isLt
  rw [toNat_pageOf hk (Nat.le_trans hhigh (Nat.le_of_lt hlt)), ← h.base_eq]
  simp only [pageSize] at hhigh ⊢
  omega

theorem AllBacked.used_of_list {before after : List AllocatedPages} (h : AllBacked vmm base va)
    (hlist : va.allocatedPagesList = before ++ region :: after) : region.free = false :=
  h.used region (by rw [hlist]; simp)

theorem AllBacked.requestPages (hbase : 2 ^ 64 - 2 ^ 47 ≤ base.toNat) (h : AllBacked vmm base va)
    (hcount : 0 < count) (hkeeps : Keeps va (.requestPages count))
    (hreq : Requested vmm va count region va') : AllBacked vmm base va' := by
  have hinv := (h.inv.requestPages hcount hreq).2.2.2.2.1 hkeeps.1
  obtain ⟨hroom, hcontained, hbits⟩ := hkeeps
  cases hreq with
  | same hlist hfree _ | split hlist hfree _ => exact absurd hfree (by rw [h.used_of_list hlist]; simp)
  | fresh hnone hreq hmap hlimit =>
    rename_i pAddress supply machine
    obtain ⟨c, rfl, hle, hg⟩ := granted_of_contained hcount hcontained hbits hreq
    obtain ⟨hzero, hrounds⟩ := VirtualMemoryArea.rounds_of_count (show count ≤ 2 ^ 35 by omega)
    rw [Virtual.mapLength, hzero, hrounds] at hmap
    obtain ⟨hsound, hleaf⟩ := h.sound.request hcount false (by omega) hg hreq
    obtain ⟨hsound', hbits', _, hoff⟩ := hsound.mapRounds hmap
    have hlow : base.toNat ≤ va.currentBase.toNat := by
      rw [← h.base_eq]
      exact h.inv.le
    have hend := lt_of_hasRoom hroom hnone
    refine ⟨hinv, h.base_eq, ?_, ?_, ?_, ?_⟩
    · exact List.forall_mem_append.mpr ⟨h.used, List.forall_mem_singleton.mpr rfl⟩
    · show Sound vmm (List.map _ (_ ++ [_])) machine
      rw [List.map_append]
      exact hsound'
    · intro r hr k hk
      show (leaf vmm machine.tables _).map pointer = _
      rcases List.mem_append.mp hr with hold | hnew
      · -- an older region keeps its leaves
        obtain ⟨hge, hpage⟩ := h.page_le hold hk
        rw [hoff, hleaf]
        · exact h.pointer_eq r hold k hk
        · intro i hi
          have hnew := toNat_pageOf hi (Nat.le_of_lt hend)
          apply ofAddress_ne (by omega)
          rw [hnew]
          exact Nat.le_trans hpage (Nat.le_add_right _ _)
      · rw [List.mem_singleton.mp hnew] at hk ⊢
        have hpointer := Sound.mapRounds_pointer hsound
          (fun j hj i hi => ofAddress_pageOf_ne (by omega) (by omega) hi hj) hmap k hk
        rw [hpointer, AllocatedPages.physicalPage, pageOf, frame_add]
        exact congrArg some (isPage_frame (show c + k < 2 ^ 40 by
          have : k < count := hk
          omega))
    · show ∀ r ∈ _ ++ _, _ ≤ machine.supply.pageBitmap.bits
      rw [hbits', hg.bits_eq]
      refine List.forall_mem_append.mpr ⟨h.managed, List.forall_mem_singleton.mpr ?_⟩
      rw [AllocatedPages.backing, Memory.AllocatedPages.first_frame false (by omega)]
      exact hle

theorem freePages_of_not_names (hnames : ¬ Names va address count)
    (hfree : freePages vmm va address count = some va') : va' = va := by
  rcases freePages_cases hfree with heq | ⟨before, apl, after, _, hlist, haddress, hcount, _⟩
  · exact heq
  · exact absurd ⟨apl, by rw [hlist]; simp, haddress, hcount⟩ hnames

theorem allBacked_of_reachable (hbase : 2 ^ 64 - 2 ^ 47 ≤ base.toNat)
    (h : ((arenas vmm base).restrict Keeps).Reachable va) : AllBacked vmm base va := by
  induction h with
  | init hi =>
    obtain ⟨hlist, hbase', hcurrent, own, hwf, hlarge⟩ := hi
    refine ⟨⟨by rw [hbase', hcurrent], ?_⟩, hbase', ?_, ?_, ?_, ?_⟩
    · rw [Tiled, hlist, hbase', hcurrent]
      exact Span.Tiling.nil _
    · rw [hlist]
      simp
    · rw [hlist]
      exact ⟨own, hwf, hlarge, by simp, List.Pairwise.nil⟩
    · rw [hlist]
      simp
    · rw [hlist]
      simp
  | step _ hs ih =>
    rename_i va call va' _
    obtain ⟨hkeeps, hs⟩ := hs
    cases call with
    | requestPages count =>
      obtain ⟨hcount, region, hreq⟩ := hs
      exact ih.requestPages hbase hcount hkeeps (requested_of_some hreq)
    | freePages address count =>
      rw [freePages_of_not_names hkeeps hs]
      exact ih

theorem physicalPage_eq {own : Owner} (h : Live own s region.backing) {k : Nat}
    (hk : k < region.pageCount) :
    region.physicalPage k = frame (region.backing.first + k) ∧
      pageNumber (region.physicalPage k) = region.backing.first + k ∧
      region.backing.Covers (pageNumber (region.physicalPage k)) := by
  have hle : region.backing.first + region.pageCount ≤ 2 ^ 35 := h.le
  have heq : region.physicalPage k = frame (region.backing.first + k) := by
    rw [AllocatedPages.physicalPage, pageOf, ← frame_add]
    exact congrArg (· + _) h.address_eq
  have hnumber : pageNumber (region.physicalPage k) = region.backing.first + k := by
    rw [heq, pageNumber_frame (by omega)]
  refine ⟨heq, hnumber, ?_⟩
  rw [hnumber]
  exact ⟨by omega, show _ < _ + region.pageCount by omega⟩

theorem AllBacked.backed (hbase : 2 ^ 64 - 2 ^ 47 ≤ base.toNat) (h : AllBacked vmm base va) :
    Backed vmm va := by
  obtain ⟨own, hwf, hlarge, hlive, hdisjoint⟩ := h.sound
  have hlive : ∀ r ∈ va.allocatedPagesList, Live own va.machine.supply r.backing :=
    fun r hr => hlive _ (List.mem_map_of_mem hr)
  refine ⟨?_, ?_, ⟨own, hwf, ?_⟩, ?_⟩
  · intro r hr _ k hk
    have hcanonical := canonical_of_high (Nat.le_trans hbase (h.page_le hr hk).1)
    rw [hwf.getPhysical_eq hcanonical, h.pointer_eq r hr k hk, Option.getD_some]
  · intro r hr _ k hk
    obtain ⟨_, hnumber, hcovers⟩ := physicalPage_eq (hlive r hr) hk
    have hmanaged := h.managed r hr
    exact (hlive r hr).held hcovers (by omega)
  · intro r hr _ k hk
    cases hown : own (r.physicalPage k) with
    | none => rfl
    | some path => exact absurd (physicalPage_eq (hlive r hr) hk).2.2 ((hlive r hr).apart hown)
  · have hpairs := List.pairwise_map.mp hdisjoint
    refine hpairs.imp_of_mem ?_
    intro r r' hr hr' hd _ _ k hk k' hk' heq
    apply hd _ (physicalPage_eq (hlive r hr) hk).2.2
    rw [heq]
    exact (physicalPage_eq (hlive r' hr') hk').2.2

theorem freePages_get_of_high (hbits : s.pageBitmap.bits ≤ 2 ^ 40)
    (hlow : 2 ^ 64 - 2 ^ 47 ≤ address.toNat) (hend : address.toNat + count * pageSize < 2 ^ 64)
    (p : Nat) : (s.freePages address.toNat count).pageBitmap.get p = s.pageBitmap.get p := by
  rw [Bool.eq_iff_iff]
  unfold Physical.freePages
  split
  · exact Iff.rfl
  · rw [Physical.freeLoop_get]
    refine ⟨And.left, fun hget => ⟨hget, ?_⟩⟩
    intro t ht _ heq
    have hle := Bitmap.le_of_get hget
    simp only [pageAt, pageSize] at heq hend
    omega

theorem AllBacked.freePages_get (hbase : 2 ^ 64 - 2 ^ 47 ≤ base.toNat) (h : AllBacked vmm base va)
    (hfree : freePages vmm va address count = some va') (p : Nat) :
    va'.machine.supply.pageBitmap.get p = va.machine.supply.pageBitmap.get p := by
  rcases freePages_cases hfree with rfl | ⟨before, apl, after, _, hlist, rfl, rfl, _, rfl⟩
  · rfl
  · have hmem : apl ∈ va.allocatedPagesList := by rw [hlist]; simp
    obtain ⟨own, hwf, _, hlive, _⟩ := h.sound
    have hpos := (hlive _ (List.mem_map_of_mem hmem)).count_pos
    obtain ⟨hlow, hhigh⟩ := h.inv.region_le hmem hpos
    rw [h.base_eq] at hlow
    exact freePages_get_of_high hwf.valid.2 (by omega)
      (Nat.lt_of_le_of_lt hhigh va.currentBase.isLt) p

theorem AllBacked.givesBack_iff (hbase : 2 ^ 64 - 2 ^ 47 ≤ base.toNat) (h : AllBacked vmm base va)
    (hfree : freePages vmm va address count = some va') :
    GivesBack va address count va' ↔ ¬ Names va address count := by
  constructor
  · intro hback hnames
    obtain ⟨r, hr, haddress, hcount⟩ := hnames
    obtain ⟨own, _, _, hlive, _⟩ := id h.sound
    have hpos : 0 < r.pageCount := (hlive _ (List.mem_map_of_mem hr)).count_pos
    -- the first page of the region is in use before and after
    have hheld := (h.backed hbase).held r hr (h.used r hr) 0 hpos
    have hafter := (h.freePages_get hbase hfree _).trans hheld
    exact ((hback _).mp hafter).2
      ⟨r, hr, h.used r hr, haddress, hcount, 0, by omega, rfl⟩
  · intro hnames p
    rw [freePages_of_not_names hnames hfree]
    refine ⟨fun hget => ⟨hget, ?_⟩, And.left⟩
    intro hex
    obtain ⟨r, hr, _, haddress, hcount, _⟩ := hex
    exact hnames ⟨r, hr, haddress, hcount⟩

end fresh

/-! ## Section 4: Physical backing -/

/-- **Physical backing**: for an arena in the kernel half, in every run whose
    requests have room and stay inside the bitmap and that frees no region,
    every region is mapped to the pages in its record, which are its own and
    in use; and the next `FreePages` call gives back the pages it should if and
    only if it names no region. -/
theorem regions_backed (vmm : Virtual) {base : Word} (hbase : 2 ^ 64 - 2 ^ 47 ≤ base.toNat)
    {va : Arena} (h : ((arenas vmm base).restrict Keeps).Reachable va) :
    Backed vmm va ∧ ∀ address count va', freePages vmm va address count = some va' →
      (GivesBack va address count va' ↔ ¬ Names va address count) := by
  have hall := allBacked_of_reachable hbase h
  exact ⟨hall.backed hbase, fun address count va' hfree => hall.givesBack_iff hbase hfree⟩

theorem contained_one (s : Physical) : s.Contained 1 := by
  apply Physical.contained_of_tried
  intro c _ hfit
  exact hfit.1

/-- The first page of the arena is mapped to the page that was handed out. -/
theorem regions_backed_freshArea :
    ∃ va, requestPages ⟨0x1000⟩ (emptyArena VirtualMemoryArea.freshArea.machine) 1 =
        some (⟨0x2000, userAllocBase, 1, false⟩, va) ∧
      (Virtual.mk 0x1000).getPhysical va.machine.tables userAllocBase = some 0x2000 := by
  obtain ⟨va, hreq, hlist⟩ : ∃ va,
      requestPages ⟨0x1000⟩ (emptyArena VirtualMemoryArea.freshArea.machine) 1 =
        some (⟨0x2000, userAllocBase, 1, false⟩, va) ∧
      va.allocatedPagesList = [⟨0x2000, userAllocBase, 1, false⟩] := by
    decide +kernel
  have hkeeps : Keeps (emptyArena VirtualMemoryArea.freshArea.machine) (.requestPages 1) :=
    ⟨Or.inr (show userAllocBase.toNat + 1 * pageSize < 2 ^ 64 by decide), contained_one _,
      show 16 ≤ 2 ^ 35 by decide⟩
  have hreach : ((arenas ⟨0x1000⟩ userAllocBase).restrict Keeps).Reachable va :=
    .step (.init (init_emptyArena _ plain_freshArea)) ⟨hkeeps, by decide, _, hreq⟩
  have hbacked := (regions_backed ⟨0x1000⟩ (by decide) hreach).1
  have hmapped := hbacked.mapped ⟨0x2000, userAllocBase, 1, false⟩
    (by rw [hlist]; exact List.mem_singleton_self _) rfl 0 (by decide)
  rw [show pageOf (AllocatedPages.mk 0x2000 userAllocBase 1 false).virtualAddress 0 =
      userAllocBase from by decide] at hmapped
  exact ⟨va, hreq, hmapped.trans (by decide)⟩

/-- A page is requested and freed: it stays in use. -/
theorem freed_region_keeps_page :
    ∃ region va va', requestPages ⟨0x1000⟩ (emptyArena VirtualMemoryArea.freshArea.machine) 1 =
        some (region, va) ∧
      (arenas ⟨0x1000⟩ userAllocBase).Reachable va ∧
      freePages ⟨0x1000⟩ va region.virtualAddress 1 = some va' ∧
      ¬ GivesBack va region.virtualAddress 1 va' := by
  obtain ⟨va, hreq, hlist, va', hfree, hget⟩ : ∃ va,
      requestPages ⟨0x1000⟩ (emptyArena VirtualMemoryArea.freshArea.machine) 1 =
        some (⟨0x2000, userAllocBase, 1, false⟩, va) ∧
      va.allocatedPagesList = [⟨0x2000, userAllocBase, 1, false⟩] ∧
      ∃ va', freePages ⟨0x1000⟩ va userAllocBase 1 = some va' ∧
        va'.machine.supply.pageBitmap.get 2 = true := by
    decide +kernel
  refine ⟨_, va, va', hreq, .step (.init (init_emptyArena _ plain_freshArea))
    (show (arenas ⟨0x1000⟩ userAllocBase).step _ (.requestPages 1) va from ⟨by decide, _, hreq⟩),
    hfree, ?_⟩
  intro hback
  exact ((hback 2).mp hget).2
    ⟨_, by rw [hlist]; exact List.mem_singleton_self _, rfl, rfl, rfl, 0, by decide, by decide⟩

end VirtualAllocation

end Fennix.Memory
