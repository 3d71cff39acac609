import Fennix.Memory.Vma

/-! # The program break

    `ProgramBreak` of `Kernel/core/memory/brk.cpp`. Growing the heap allocates
    pages and maps them from the break on; shrinking it is meant to take pages
    back from the end.

    What works is growing from a break that is page aligned, or not so far
    that it takes a page more than the difference of the breaks. Shrinking
    takes nothing back: it starts with the page at the break instead of the
    page below it, and `Remap` keeps the user flag. `Gentle` says which calls
    do what they are for.
-/

namespace Fennix.Memory

open Entry Radix
open PageMapIndexer (ofAddress)

/-! ## Section 1: `brk` -/

/-- `ROUND_UP(x, PAGE_SIZE)`. -/
def roundUp (x : Word) : Word := (x + 0x1000#64 - 1#64) &&& ~~~ (0x1000#64 - 1#64)

/-- The error numbers that `brk` returns. -/
inductive Errno where
  | eagain
  | enomem
  deriving DecidableEq, Repr

/-- `class ProgramBreak`. Its page table is that of its `vma`. -/
structure ProgramBreak where
  vma : Area
  heapStart : Word
  break_ : Word

namespace ProgramBreak

variable (vmm : Virtual)

/-- `ProgramBreak::InitBrk`. -/
def initBrk (pb : ProgramBreak) (address : Word) : ProgramBreak :=
  { pb with heapStart := address, break_ := address }

/-- The loop that releases pages: from the page at the break downwards. -/
def releaseRounds (st : Machine Physical) (break_ : Word) : Nat → Option (Machine Physical)
  | 0 => some st
  | n + 1 =>
    (releaseRounds st break_ n).bind fun st' =>
      let page := break_ - BitVec.ofNat 64 (n * 0x1000)
      vmm.remap kernelAllocator st' page page PTFlag.rw.mask .fourKiB

/-- `ProgramBreak::brk`. -/
def brk (pb : ProgramBreak) (address : Word) : Option (Except Errno Word × ProgramBreak) :=
  -- before `InitBrk`
  if pb.heapStart = 0 ∨ pb.break_ = 0 then some (.error .eagain, pb)
  else if address = 0 then some (.ok pb.break_, pb)
  else if address < pb.heapStart then some (.error .enomem, pb)
  else if address > pb.break_ then
    -- counted from the break itself, which need not be page aligned
    let pages := toPages (address - pb.break_).toNat
    (VirtualMemoryArea.requestPages vmm pb.vma pages false false).bind fun (allocated, vma) =>
      if allocated = 0 then some (.error .enomem, { pb with vma })
      else
        (vmm.mapRounds kernelAllocator vma.machine pb.break_ allocated
          (PTFlag.rw.mask ||| PTFlag.us.mask) pages).map fun machine =>
            (.ok address, { pb with vma := { vma with machine }, break_ := roundUp address })
  else
    let pages := toPages (pb.break_ - address).toNat
    -- the list has allocations by their physical address, and the break is none
    (VirtualMemoryArea.freePages vmm pb.vma pb.break_ pages).bind fun vma =>
      (releaseRounds vmm vma.machine pb.break_ pages).map fun machine =>
        (.ok address, { pb with vma := { vma with machine }, break_ := address })

/-- The tables of the process. -/
def tables (pb : ProgramBreak) : Tables := pb.vma.machine.tables

/-- The number of pages that the allocator manages. -/
def managed (pb : ProgramBreak) : Nat := pb.vma.machine.supply.pageBitmap.bits

/-- After `InitBrk` with a page-aligned address: the pages of the allocator lie
    below the heap area, in which nothing is accessible to the user yet. -/
def Started (pb : ProgramBreak) : Prop :=
  ((VirtualMemoryArea.areas vmm).restrict VirtualMemoryArea.Modest).Reachable pb.vma ∧
  pb = pb.initBrk pb.heapStart ∧ pb.heapStart.toNat % pageSize = 0 ∧
  pb.heapStart ≠ 0 ∧ pb.heapStart.toNat ≤ 2 ^ 47 - pageSize ∧
  pb.managed ≤ pageNumber pb.heapStart ∧
  ∀ p, pageNumber pb.heapStart ≤ p → p < 2 ^ 35 →
    userAccessible vmm pb.tables (frame p) = false

/-- Runs of `brk` with addresses from the start of the heap on, as long as the
    calls return. -/
def breaks : System ProgramBreak Word where
  init := Started vmm
  step := fun pb address pb' =>
    pb.heapStart ≤ address ∧ ∃ result, brk vmm pb address = some (result, pb')

/-- The guard on runs. Growing: the heap stays in the lower half and the pages
    that are requested below it, and the last page mapped is the one that the
    address needs. Shrinking: no page is given up, and if the page at the break
    is remapped although it is not part of the heap, its entry does not have
    the user flag. -/
def Gentle (pb : ProgramBreak) (address : Word) : Prop :=
  if pb.break_ < address then
    address.toNat ≤ 2 ^ 47 - pageSize ∧
    pb.managed + toPages (address - pb.break_).toNat ≤ pageNumber pb.heapStart ∧
    (address.toNat - pb.break_.toNat - 1) % pageSize + pb.break_.toNat % pageSize < pageSize
  else
    roundUp address = roundUp pb.break_ ∧
    (pb.break_.toNat % pageSize = 0 → address < pb.break_ →
      (oldEntry vmm pb.tables (ofAddress pb.break_) .fourKiB).getLsbD
        PTFlag.us.bit = false)

/-- What a successful call is for: exactly the pages that overlap the heap up
    to the address are accessible to the user, and pages wholly below the old
    and the new break are where they were. -/
structure Adjusted (pb : ProgramBreak) (address : Word) (pb' : ProgramBreak) : Prop where
  exact : ∀ p, pageNumber pb.heapStart ≤ p → p < 2 ^ 35 →
    (userAccessible vmm pb'.tables (frame p) = true ↔ p * pageSize < address.toNat)
  kept : ∀ p, pageNumber pb.heapStart ≤ p → (p + 1) * pageSize ≤ pb.break_.toNat →
    (p + 1) * pageSize ≤ pb'.break_.toNat →
    vmm.getPhysical pb'.tables (frame p) = vmm.getPhysical pb.tables (frame p)

end ProgramBreak

/-! ## Section 2: Addresses and pages -/

theorem pageBase_eq_frame (v : Word) : pageBase v = frame (pageNumber v) := by
  have := v.isLt
  apply BitVec.eq_of_toNat_eq
  rw [pageBase_toNat, frame_toNat (by simp only [pageNumber, pageSize]; omega)]
  rfl

theorem ofAddress_eq_frame (v : Word) :
    ofAddress v = ofAddress (frame (pageNumber v)) := by
  rw [← pageBase_eq_frame, PageMapIndexer.ofAddress_pageBase]

theorem ofAddress_ne {p : Nat} {v : Word} (hp : p < 2 ^ 35) (hv : pageNumber v < 2 ^ 35)
    (hne : p ≠ pageNumber v) :
    ofAddress (frame p) ≠ ofAddress v := by
  rw [ofAddress_eq_frame v]
  intro h
  exact hne (ofAddress_frame_inj hp hv h)

theorem pageNumber_pageOf {v : Word} {i : Nat} (h : v.toNat + i * pageSize < 2 ^ 64) :
    pageNumber (pageOf v i) = pageNumber v + i := by
  simp only [pageNumber, pageOf, pageSize] at h ⊢
  rw [BitVec.toNat_add, BitVec.toNat_ofNat]
  omega

theorem roundUp_toNat {x : Word} (h : x.toNat + 0xFFF < 2 ^ 64) :
    (roundUp x).toNat = (x.toNat + 0xFFF) / pageSize * pageSize := by
  have hadd : x + 0x1000#64 - 1#64 = x + 0xFFF#64 := by bv_omega
  have hmask : ~~~ (0x1000#64 - 1#64) = 0xFFFFFFFFFFFFF000#64 := by decide
  rw [roundUp, hadd, hmask]
  show (pageBase (x + 0xFFF#64)).toNat = _
  rw [pageBase_toNat, BitVec.toNat_add]
  simp only [BitVec.toNat_ofNat, pageSize]
  omega

theorem getLsbD_us_mapEntry (p raw : Word) :
    (Virtual.mapEntry p (PTFlag.rw.mask ||| PTFlag.us.mask ||| PTFlag.p.mask) .fourKiB raw).getLsbD
      PTFlag.us.bit = true := by
  show (setAddress _ _).getLsbD 2 = true
  rw [getLsbD_setAddress _ _ (Or.inl (by omega)), BitVec.getLsbD_or]
  have hflags : (PTFlag.rw.mask ||| PTFlag.us.mask ||| PTFlag.p.mask).getLsbD 2 = true := by decide
  rw [hflags, Bool.or_true]

/-! ## Section 3: What a call does -/

namespace ProgramBreak

variable {vmm : Virtual} {pb pb' : ProgramBreak} {address : Word} {result : Except Errno Word}

/-- The invariant of runs. -/
structure Inv (vmm : Virtual) (pb : ProgramBreak) : Prop where
  area : VirtualMemoryArea.Inv vmm pb.vma
  aligned : pb.heapStart.toNat % pageSize = 0
  pos : 0 < pb.heapStart.toNat
  start_le : pb.heapStart.toNat ≤ pb.break_.toNat
  top : pb.break_.toNat ≤ 2 ^ 47 - pageSize
  below : pb.managed ≤ pageNumber pb.heapStart
  exact : ∀ p, pageNumber pb.heapStart ≤ p → p < 2 ^ 35 →
    (userAccessible vmm pb.tables (frame p) = true ↔ p * pageSize < pb.break_.toNat)

theorem brk_cases (h : Inv vmm pb) (hstart : pb.heapStart ≤ address)
    (hbrk : brk vmm pb address = some (result, pb')) :
    (pb.break_ < address ∧ ∃ allocated vma,
      VirtualMemoryArea.requestPages vmm pb.vma (toPages (address - pb.break_).toNat) false false =
        some (allocated, vma) ∧
      (allocated = 0 ∨ ∃ machine, vmm.mapRounds kernelAllocator vma.machine pb.break_ allocated
          (PTFlag.rw.mask ||| PTFlag.us.mask) (toPages (address - pb.break_).toNat) =
            some machine ∧
        pb' = ⟨⟨machine, vma.allocatedPagesList⟩, pb.heapStart, roundUp address⟩)) ∨
    (¬ pb.break_ < address ∧ ∃ vma machine,
      VirtualMemoryArea.freePages vmm pb.vma pb.break_ (toPages (pb.break_ - address).toNat) =
        some vma ∧
      releaseRounds vmm vma.machine pb.break_ (toPages (pb.break_ - address).toNat) =
        some machine ∧
      pb' = ⟨⟨machine, vma.allocatedPagesList⟩, pb.heapStart, address⟩) := by
  have hpos := h.pos
  have hle := h.start_le
  have hstart' : pb.heapStart.toNat ≤ address.toNat := BitVec.le_def.mp hstart
  have hne : ∀ {x : Word}, pb.heapStart.toNat ≤ x.toNat → x ≠ 0 := by
    intro x hx heq
    subst heq
    have : (0 : Word).toNat = 0 := rfl
    omega
  unfold brk at hbrk
  rw [if_neg (not_or.mpr ⟨hne (Nat.le_refl _), hne hle⟩), if_neg (hne hstart'),
    if_neg (BitVec.not_lt.mpr hstart)] at hbrk
  split at hbrk
  · rename_i hgrow
    refine Or.inl ⟨hgrow, ?_⟩
    obtain ⟨⟨allocated, vma⟩, hreq, hbrk⟩ := Option.bind_eq_some_iff.mp hbrk
    refine ⟨allocated, vma, hreq, ?_⟩
    dsimp only at hbrk
    split at hbrk
    · exact Or.inl ‹_›
    · obtain ⟨machine, hmap, hval⟩ := Option.map_eq_some_iff.mp hbrk
      rw [Prod.mk.injEq] at hval
      exact Or.inr ⟨machine, hmap, hval.2.symm⟩
  · rename_i hshrink
    refine Or.inr ⟨hshrink, ?_⟩
    obtain ⟨vma, hfree, hbrk⟩ := Option.bind_eq_some_iff.mp hbrk
    obtain ⟨machine, hrelease, hval⟩ := Option.map_eq_some_iff.mp hbrk
    rw [Prod.mk.injEq] at hval
    exact ⟨vma, machine, hfree, hrelease, hval.2.symm⟩

variable {list : List AllocatedPages} {st st' : Machine Physical} {b : Word}

theorem getPhysical_congr {list' : List AllocatedPages} (h : Sound vmm list st)
    (h' : Sound vmm list' st') {p : Nat} (hp : p < 2 ^ 35)
    (hleaf : leaf vmm st'.tables (frame p) = leaf vmm st.tables (frame p)) :
    vmm.getPhysical st'.tables (frame p) = vmm.getPhysical st.tables (frame p) := by
  obtain ⟨own, hwf, _⟩ := h
  obtain ⟨own', hwf', _⟩ := h'
  rw [hwf.getPhysical_eq (canonical_frame hp), hwf'.getPhysical_eq (canonical_frame hp), hleaf]

theorem Inv.of_adjusted (h : Inv vmm pb) (hadjusted : Adjusted vmm pb address pb')
    (harea : VirtualMemoryArea.Inv vmm pb'.vma) (hstart : pb'.heapStart = pb.heapStart)
    (hmanaged : pb'.managed = pb.managed) (hle : pb.heapStart.toNat ≤ pb'.break_.toNat)
    (htop : pb'.break_.toNat ≤ 2 ^ 47 - pageSize)
    (hbreak : ∀ p, p * pageSize < pb'.break_.toNat ↔ p * pageSize < address.toNat) :
    Inv vmm pb' where
  area := harea
  aligned := by
    rw [hstart]
    exact h.aligned
  pos := by
    rw [hstart]
    exact h.pos
  start_le := by
    rw [hstart]
    exact hle
  top := htop
  below := by
    rw [hmanaged, hstart]
    exact h.below
  exact := by
    intro p hp hlt
    rw [hstart] at hp
    rw [hadjusted.exact p hp hlt, hbreak]

theorem grow_pages {a : Word} (hlt : b < a) (htop : a.toNat ≤ 2 ^ 47 - pageSize)
    (hreach : (a.toNat - b.toNat - 1) % pageSize + b.toNat % pageSize < pageSize) :
    0 < toPages (a - b).toNat ∧
    pageNumber b + toPages (a - b).toNat = (a.toNat + 0xFFF) / pageSize := by
  have hlt' : b.toNat < a.toNat := BitVec.lt_def.mp hlt
  rw [BitVec.toNat_sub_of_le (BitVec.le_of_lt hlt)]
  simp only [toPages, pageNumber, pageSize] at *
  omega

/-- Mapping `n` pages from the break on, as far as the lower half is concerned:
    these pages become accessible to the user, all others stay the same. -/
theorem mapRounds_break {q : Word} {n : Nat} (h : Sound vmm list st)
    (hend : pageNumber b + n ≤ 2 ^ 35)
    (hmap : vmm.mapRounds kernelAllocator st b q (PTFlag.rw.mask ||| PTFlag.us.mask) n = some st') :
    (∀ p, pageNumber b ≤ p → p < pageNumber b + n →
      userAccessible vmm st'.tables (frame p) = true) ∧
    ∀ p, p < 2 ^ 35 → ¬ (pageNumber b ≤ p ∧ p < pageNumber b + n) →
      leaf vmm st'.tables (frame p) = leaf vmm st.tables (frame p) := by
  obtain ⟨_, _, hrange, hoff⟩ := h.mapRounds hmap
  have hnumber : ∀ i < n, pageNumber (pageOf b i) = pageNumber b + i := by
    intro i hi
    apply pageNumber_pageOf
    simp only [pageNumber, pageSize] at hend ⊢
    omega
  constructor
  · intro p hp hlt
    obtain ⟨q', raw, hentry⟩ := hrange (p - pageNumber b) (by omega)
    rw [leaf_congr (ofAddress_eq_frame _), hnumber _ (by omega),
      show pageNumber b + (p - pageNumber b) = p by omega] at hentry
    rw [userAccessible, hentry, Option.any_some]
    exact getLsbD_us_mapEntry q' raw
  · intro p hp hnot
    apply hoff
    intro i hi
    have := hnumber i hi
    exact ofAddress_ne hp (by omega) (by omega)

theorem grow_break (h : Inv vmm pb) {n : Nat} (hpages : 0 < n)
    (hroom : pb.managed + n ≤ pageNumber pb.heapStart) (hend : pageNumber pb.break_ + n ≤ 2 ^ 35)
    {allocated : Word} {vma : Area}
    (hreq : VirtualMemoryArea.requestPages vmm pb.vma n false false = some (allocated, vma)) :
    allocated ≠ 0 ∧ ∀ machine, vmm.mapRounds kernelAllocator vma.machine pb.break_ allocated
        (PTFlag.rw.mask ||| PTFlag.us.mask) n = some machine →
      VirtualMemoryArea.Inv vmm ⟨machine, vma.allocatedPagesList⟩ ∧
      machine.supply.pageBitmap.bits = pb.managed ∧
      (∀ p, pageNumber pb.break_ ≤ p → p < pageNumber pb.break_ + n →
        userAccessible vmm machine.tables (frame p) = true) ∧
      ∀ p, pageNumber pb.heapStart ≤ p → p < 2 ^ 35 →
        ¬ (pageNumber pb.break_ ≤ p ∧ p < pageNumber pb.break_ + n) →
        leaf vmm machine.tables (frame p) = leaf vmm pb.tables (frame p) := by
  have hstart : pageNumber pb.heapStart ≤ pageNumber pb.break_ :=
    Nat.div_le_div_right h.start_le
  obtain ⟨harea, c, rfl, hc, hbits, hlist, hleaf⟩ := VirtualMemoryArea.requestPages_spec h.area
    hpages (show pb.managed + n ≤ 2 ^ 35 by omega) hreq
  have hc' : c < pb.managed := hc
  constructor
  · obtain ⟨_, _, _, hlive, _⟩ := harea.sound
    have hpos := (hlive ⟨frame c, n, false⟩ (by rw [hlist]; simp)).first_pos
    rw [AllocatedPages.first_frame false (by omega)] at hpos
    exact frame_ne_zero (by omega) (by omega)
  · intro machine hmap
    obtain ⟨hsound, hbits', _, _⟩ := harea.sound.mapRounds hmap
    obtain ⟨hin, hout⟩ := mapRounds_break harea.sound hend hmap
    refine ⟨⟨hsound, mapped_of_leaf harea.mapped (leaf_of_mapRounds harea.sound hmap)⟩,
      hbits'.trans hbits, hin, ?_⟩
    intro p hp hlt hnot
    rw [hout p hlt hnot]
    apply hleaf
    -- the pages that were requested lie below the heap
    intro q hq hq' heq
    have := ofAddress_frame_inj hlt (by omega) heq
    omega

theorem grow_spec (h : Inv vmm pb) (hgrow : pb.break_ < address)
    (htop : address.toNat ≤ 2 ^ 47 - pageSize)
    (hroom : pb.managed + toPages (address - pb.break_).toNat ≤ pageNumber pb.heapStart)
    (hreach : (address.toNat - pb.break_.toNat - 1) % pageSize + pb.break_.toNat % pageSize <
      pageSize)
    {allocated : Word} {vma : Area}
    (hreq : VirtualMemoryArea.requestPages vmm pb.vma (toPages (address - pb.break_).toNat) false
      false = some (allocated, vma)) :
    allocated ≠ 0 ∧ ∀ machine, vmm.mapRounds kernelAllocator vma.machine pb.break_ allocated
        (PTFlag.rw.mask ||| PTFlag.us.mask) (toPages (address - pb.break_).toNat) = some machine →
      Inv vmm ⟨⟨machine, vma.allocatedPagesList⟩, pb.heapStart, roundUp address⟩ ∧
      Adjusted vmm pb address
        ⟨⟨machine, vma.allocatedPagesList⟩, pb.heapStart, roundUp address⟩ := by
  obtain ⟨hpages, hend⟩ := grow_pages hgrow htop hreach
  generalize toPages (address - pb.break_).toNat = n at *
  have hgrow' : pb.break_.toNat < address.toNat := BitVec.lt_def.mp hgrow
  have hstart := h.start_le
  simp only [pageSize] at htop hend
  obtain ⟨hne, hspec⟩ := grow_break h hpages hroom (by omega) hreq
  refine ⟨hne, ?_⟩
  intro machine hmap
  obtain ⟨harea, hbits, hin, hout⟩ := hspec machine hmap
  have hround : (roundUp address).toNat = (address.toNat + 0xFFF) / 0x1000 * 0x1000 :=
    roundUp_toNat (by omega)
  have hadjusted : Adjusted vmm pb address
      ⟨⟨machine, vma.allocatedPagesList⟩, pb.heapStart, roundUp address⟩ := by
    constructor
    · intro p hp hlt
      by_cases hnew : pageNumber pb.break_ ≤ p ∧ p < pageNumber pb.break_ + n
      · -- a page that is mapped now
        have huser : userAccessible vmm machine.tables (frame p) = true := hin p hnew.1 hnew.2
        simp only [tables, huser, true_iff, pageSize]
        omega
      · -- a page that was in the heap before, or is not in it now
        have hold := h.exact p hp hlt
        simp only [userAccessible, ← hout p hp hlt hnew, pageSize] at hold
        simp only [userAccessible, tables, hold, pageSize]
        simp only [pageNumber, pageSize] at hnew hend
        omega
    · intro p hp hold _
      simp only [pageSize] at hold
      apply getPhysical_congr h.area.sound harea.sound (by omega)
      apply hout p hp (by omega)
      simp only [pageNumber, pageSize]
      omega
  refine ⟨h.of_adjusted hadjusted harea rfl hbits ?_ ?_ ?_, hadjusted⟩
  · simp only [hround]
    omega
  · simp only [hround, pageSize]
    omega
  · intro p
    simp only [hround, pageSize]
    omega

theorem freePages_break (h : Inv vmm pb) (count : Nat) :
    VirtualMemoryArea.freePages vmm pb.vma pb.break_ count = some pb.vma := by
  apply VirtualMemoryArea.freePages_of_not_names
  intro hex
  obtain ⟨ap, hap, haddress, _⟩ := hex
  obtain ⟨_, _, _, hlive, _⟩ := h.area.sound
  have hlt : ap.first < pb.managed := (hlive ap hap).first_lt
  have hbelow := h.below
  have hle := h.start_le
  have hnat := (hlive ap hap).toNat_address
  rw [haddress] at hnat
  simp only [pageNumber, pageSize] at hbelow hnat
  omega

theorem shrink_pages {a : Word} (hle : a ≤ b) (htop : b.toNat ≤ 2 ^ 47 - pageSize)
    (hround : roundUp a = roundUp b) :
    (a.toNat + 0xFFF) / pageSize = (b.toNat + 0xFFF) / pageSize ∧
    toPages (b - a).toNat = if a = b then 0 else 1 := by
  have hle' : a.toNat ≤ b.toNat := BitVec.le_def.mp hle
  simp only [pageSize] at htop
  have hnat := congrArg BitVec.toNat hround
  rw [roundUp_toNat (by omega), roundUp_toNat (by omega)] at hnat
  simp only [pageSize] at hnat ⊢
  refine ⟨by omega, ?_⟩
  rw [BitVec.toNat_sub_of_le hle]
  split
  · rename_i heq
    rw [heq, Nat.sub_self]
    rfl
  · rename_i hne
    have : a.toNat ≠ b.toNat := fun heq => hne (BitVec.eq_of_toNat_eq heq)
    simp only [toPages, pageSize]
    omega

/-- Remapping the page at the break, as far as the heap area is concerned: the
    page itself keeps the user flag of its entry, all others stay the same. -/
theorem remap_break (h : Inv vmm pb) {machine : Machine Physical}
    (hremap : vmm.remap kernelAllocator pb.vma.machine pb.break_ pb.break_ PTFlag.rw.mask .fourKiB =
      some machine) :
    VirtualMemoryArea.Inv vmm ⟨machine, pb.vma.allocatedPagesList⟩ ∧
    machine.supply.pageBitmap.bits = pb.managed ∧
    userAccessible vmm machine.tables (frame (pageNumber pb.break_)) =
      (oldEntry vmm pb.tables (ofAddress pb.break_) .fourKiB).getLsbD
        PTFlag.us.bit ∧
    ∀ p, p < 2 ^ 35 → p ≠ pageNumber pb.break_ →
      leaf vmm machine.tables (frame p) = leaf vmm pb.tables (frame p) := by
  obtain ⟨hsound, hself, hbits, hother⟩ :=
    h.area.sound.place (decode_remapEntry pb.break_ PTFlag.rw.mask .fourKiB) hremap
  have hb := h.top
  refine ⟨⟨hsound, mapped_of_leaf h.area.mapped ?_⟩, hbits, ?_, ?_⟩
  · intro w
    by_cases hw : ofAddress w = ofAddress pb.break_
    · right
      rw [leaf_congr hw, hself]
      rfl
    · left
      exact hother w hw
  · rw [userAccessible, ← leaf_congr (ofAddress_eq_frame pb.break_), hself, Option.any_some]
    exact getLsbD_us_remapEntry _ _
  · intro p hp hne
    apply hother
    apply ofAddress_ne hp _ hne
    simp only [pageNumber, pageSize] at hb ⊢
    omega

theorem oldEntry_of_userAccessible {v : Word} (h : Sound vmm list st)
    (huser : userAccessible vmm st.tables v = true) :
    (oldEntry vmm st.tables (ofAddress v) .fourKiB).getLsbD PTFlag.us.bit = true := by
  obtain ⟨own, hwf, hlarge, _⟩ := h
  cases hleaf : leaf vmm st.tables v with
  | none => simp [userAccessible, hleaf] at huser
  | some e =>
    rw [hwf.oldEntry_of_leaf hlarge hleaf]
    simpa [userAccessible, hleaf] using huser

theorem userAccessible_of_remap {v p : Word} (h : Sound vmm list st)
    (hremap : vmm.remap kernelAllocator st v p PTFlag.rw.mask .fourKiB = some st') {w : Word}
    (huser : userAccessible vmm st.tables w = true) :
    Sound vmm list st' ∧ userAccessible vmm st'.tables w = true := by
  obtain ⟨hsound, hself, _, hother⟩ :=
    h.place (decode_remapEntry p PTFlag.rw.mask .fourKiB) hremap
  refine ⟨hsound, ?_⟩
  by_cases hw : ofAddress w = ofAddress v
  · rw [userAccessible, leaf_congr hw, hself, Option.any_some, getLsbD_us_remapEntry, ← hw]
    exact oldEntry_of_userAccessible h huser
  · rw [userAccessible, hother w hw]
    exact huser

theorem userAccessible_of_shrink (h : Inv vmm pb) (hstart : pb.heapStart ≤ address)
    (hshrink : ¬ pb.break_ < address) (hbrk : brk vmm pb address = some (result, pb')) {w : Word}
    (huser : userAccessible vmm pb.tables w = true) :
    userAccessible vmm pb'.tables w = true := by
  rcases brk_cases h hstart hbrk with ⟨hgrow, _⟩ | ⟨_, vma, machine, hfree, hrelease, rfl⟩
  · exact absurd hgrow hshrink
  rw [freePages_break h, Option.some.injEq] at hfree
  subst hfree
  -- on the rounds of the loop
  have hrounds : ∀ n machine, releaseRounds vmm pb.vma.machine pb.break_ n = some machine →
      Sound vmm pb.vma.allocatedPagesList machine ∧
      userAccessible vmm machine.tables w = true := by
    intro n
    induction n with
    | zero =>
      intro machine hrun
      rw [releaseRounds, Option.some.injEq] at hrun
      subst hrun
      exact ⟨h.area.sound, huser⟩
    | succ n ih =>
      intro machine hrun
      obtain ⟨machine₁, hrun₁, hremap⟩ := Option.bind_eq_some_iff.mp hrun
      obtain ⟨hsound₁, huser₁⟩ := ih machine₁ hrun₁
      exact userAccessible_of_remap hsound₁ hremap huser₁
  exact (hrounds _ machine hrelease).2

/-- The entry of the page at the break, if a shrink gives up no page: it has the
    user flag if and only if the page is part of the heap afterwards. -/
theorem oldEntry_break (h : Inv vmm pb) (hlt : address < pb.break_)
    (hsame : (address.toNat + 0xFFF) / pageSize = (pb.break_.toNat + 0xFFF) / pageSize)
    (hentry : pb.break_.toNat % pageSize = 0 → address < pb.break_ →
      (oldEntry vmm pb.tables (ofAddress pb.break_) .fourKiB).getLsbD
        PTFlag.us.bit = false) :
    (oldEntry vmm pb.tables (ofAddress pb.break_) .fourKiB).getLsbD
      PTFlag.us.bit = true ↔ pageNumber pb.break_ * pageSize < address.toNat := by
  have hlt' : address.toNat < pb.break_.toNat := BitVec.lt_def.mp hlt
  have hb := h.top
  simp only [pageSize] at hb hsame
  by_cases haligned : pb.break_.toNat % pageSize = 0
  · -- the page lies above the heap
    rw [hentry haligned hlt]
    simp only [pageNumber, pageSize] at haligned ⊢
    simp only [Bool.false_eq_true, false_iff]
    omega
  · -- the page is part of the heap and has the user flag
    simp only [pageSize] at haligned
    have huser : userAccessible vmm pb.tables pb.break_ = true := by
      rw [userAccessible, leaf_congr (ofAddress_eq_frame pb.break_)]
      apply (h.exact (pageNumber pb.break_) (Nat.div_le_div_right h.start_le) _).mpr
      · simp only [pageNumber, pageSize]
        omega
      · simp only [pageNumber, pageSize]
        omega
    apply iff_of_true (oldEntry_of_userAccessible h.area.sound huser)
    simp only [pageNumber, pageSize]
    omega

theorem shrink_spec (h : Inv vmm pb) (hstart : pb.heapStart ≤ address)
    (hshrink : ¬ pb.break_ < address) (hround : roundUp address = roundUp pb.break_)
    (hentry : pb.break_.toNat % pageSize = 0 → address < pb.break_ →
      (oldEntry vmm pb.tables (ofAddress pb.break_) .fourKiB).getLsbD
        PTFlag.us.bit = false)
    {machine : Machine Physical}
    (hrelease : releaseRounds vmm pb.vma.machine pb.break_ (toPages (pb.break_ - address).toNat) =
      some machine) :
    Inv vmm ⟨⟨machine, pb.vma.allocatedPagesList⟩, pb.heapStart, address⟩ ∧
    Adjusted vmm pb address ⟨⟨machine, pb.vma.allocatedPagesList⟩, pb.heapStart, address⟩ := by
  have hle : address ≤ pb.break_ := BitVec.not_lt.mp hshrink
  obtain ⟨hsame, hpages⟩ := shrink_pages hle h.top hround
  rw [hpages] at hrelease
  split at hrelease
  · -- the break stays where it is
    rename_i heq
    subst heq
    rw [releaseRounds, Option.some.injEq] at hrelease
    subst hrelease
    exact ⟨h, h.exact, fun _ _ _ _ => rfl⟩
  · -- the page at the break is remapped
    rename_i hne
    have hb := h.top
    have hlt : address < pb.break_ := by
      rw [BitVec.lt_def]
      have hle' := BitVec.le_def.mp hle
      have : address.toNat ≠ pb.break_.toNat := fun heq => hne (BitVec.eq_of_toNat_eq heq)
      omega
    have hlt' := BitVec.lt_def.mp hlt
    have hremap : vmm.remap kernelAllocator pb.vma.machine pb.break_ pb.break_ PTFlag.rw.mask
        .fourKiB = some machine := by
      simpa [releaseRounds] using hrelease
    obtain ⟨harea, hbits, hpage, hother⟩ := remap_break h hremap
    have hadjusted : Adjusted vmm pb address
        ⟨⟨machine, pb.vma.allocatedPagesList⟩, pb.heapStart, address⟩ := by
      constructor
      · intro p hp hlt35
        show userAccessible vmm machine.tables _ = true ↔ _
        by_cases hk : p = pageNumber pb.break_
        · rw [hk, hpage]
          exact oldEntry_break h hlt hsame hentry
        · have hold := h.exact p hp hlt35
          simp only [userAccessible, ← hother p hlt35 hk] at hold
          rw [userAccessible, hold]
          simp only [pageNumber, pageSize] at hk hsame ⊢
          omega
      · intro p hp _ hnew
        simp only [pageSize] at hb hnew
        apply getPhysical_congr h.area.sound harea.sound (by omega)
        apply hother p (by omega)
        simp only [pageNumber, pageSize]
        omega
    refine ⟨h.of_adjusted hadjusted harea rfl hbits (BitVec.le_def.mp hstart) ?_ fun p => Iff.rfl,
      hadjusted⟩
    exact Nat.le_trans (Nat.le_of_lt hlt') hb

/-! ## Section 4: Guarded runs -/

theorem Inv.init (h : Started vmm pb) : Inv vmm pb := by
  obtain ⟨harea, hinit, haligned, hne, htop, hbelow, huser⟩ := h
  have hbreak : pb.break_ = pb.heapStart := by
    rw [hinit]
    rfl
  have hpos : 0 < pb.heapStart.toNat := by
    rcases Nat.eq_zero_or_pos pb.heapStart.toNat with hzero | hpos
    · exact absurd (BitVec.eq_of_toNat_eq hzero) hne
    · exact hpos
  refine ⟨VirtualMemoryArea.inv_of_reachable harea, haligned, hpos, by rw [hbreak],
    by rw [hbreak]; exact htop, hbelow, ?_⟩
  intro p hp hlt
  rw [huser p hp hlt, hbreak]
  simp only [pageNumber, pageSize] at hp haligned ⊢
  simp only [Bool.false_eq_true, false_iff]
  omega

theorem Inv.brk (h : Inv vmm pb) (hstart : pb.heapStart ≤ address) (hgentle : Gentle vmm pb address)
    (hbrk : ProgramBreak.brk vmm pb address = some (result, pb')) :
    Inv vmm pb' ∧ Adjusted vmm pb address pb' := by
  rcases brk_cases h hstart hbrk with ⟨hgrow, allocated, vma, hreq, hrest⟩ |
    ⟨hshrink, vma, machine, hfree, hrelease, rfl⟩
  · rw [Gentle, if_pos hgrow] at hgentle
    obtain ⟨htop, hroom, hreach⟩ := hgentle
    obtain ⟨hne, hspec⟩ := grow_spec h hgrow htop hroom hreach hreq
    rcases hrest with hzero | ⟨machine, hmap, rfl⟩
    · exact absurd hzero hne
    · exact hspec machine hmap
  · rw [Gentle, if_neg hshrink] at hgentle
    obtain ⟨hround, hentry⟩ := hgentle
    rw [freePages_break h, Option.some.injEq] at hfree
    subst hfree
    exact shrink_spec h hstart hshrink hround hentry hrelease

theorem inv_of_reachable (h : ((breaks vmm).restrict (Gentle vmm)).Reachable pb) : Inv vmm pb := by
  induction h with
  | init hi => exact Inv.init hi
  | step _ hs ih =>
    obtain ⟨hgentle, hstart, result, hbrk⟩ := hs
    exact (ih.brk hstart hgentle hbrk).1

/-- **Program break**: in every run of `brk` calls that meet the guard, after
    each call exactly the pages that overlap the heap up to its address are
    accessible to the user in the heap area, and the pages wholly below the old
    and the new break are where they were. -/
theorem brk_adjusts (vmm : Virtual) {pb pb' : ProgramBreak} {address : Word}
    (h : ((breaks vmm).restrict (Gentle vmm)).Reachable pb)
    (hstep : ((breaks vmm).restrict (Gentle vmm)).step pb address pb') :
    Adjusted vmm pb address pb' := by
  obtain ⟨hgentle, hstart, result, hbrk⟩ := hstep
  exact ((inv_of_reachable h).brk hstart hgentle hbrk).2

theorem not_adjusted_of_shrink (h : ((breaks vmm).restrict (Gentle vmm)).Reachable pb)
    (hstart : pb.heapStart ≤ address) (hshrink : ¬ pb.break_ < address)
    (hround : roundUp address ≠ roundUp pb.break_) (hbrk : brk vmm pb address = some (result, pb')) :
    ¬ Adjusted vmm pb address pb' := by
  have hinv := inv_of_reachable h
  have hb := hinv.top
  have hs := hinv.aligned
  have hle : address.toNat ≤ pb.break_.toNat := BitVec.le_def.mp (BitVec.not_lt.mp hshrink)
  have hstart' : pb.heapStart.toNat ≤ address.toNat := BitVec.le_def.mp hstart
  simp only [pageSize] at hb hs
  have hpages : (address.toNat + 0xFFF) / 0x1000 ≠ (pb.break_.toNat + 0xFFF) / 0x1000 := by
    intro heq
    apply hround
    apply BitVec.eq_of_toNat_eq
    rw [roundUp_toNat (by omega), roundUp_toNat (by omega)]
    simp only [pageSize, heq]
  -- the last page of the heap is accessible to the user before and after
  obtain ⟨p, hp⟩ : ∃ p, p + 1 = (pb.break_.toNat + 0xFFF) / 0x1000 :=
    ⟨(pb.break_.toNat + 0xFFF) / 0x1000 - 1, by omega⟩
  have hin : pageNumber pb.heapStart ≤ p := by
    simp only [pageNumber, pageSize]
    omega
  intro hadjusted
  have huser := (hinv.exact p hin (by omega)).mpr (by simp only [pageSize]; omega)
  have hlast := (hadjusted.exact p hin (by omega)).mp
    (userAccessible_of_shrink hinv hstart hshrink hbrk huser)
  simp only [pageSize] at hlast
  omega

/-- A heap that starts at page 256, in an area without allocations. -/
def freshHeap : ProgramBreak :=
  { vma := VirtualMemoryArea.freshArea, heapStart := 0x100000, break_ := 0x100000 }

theorem started_freshHeap : Started ⟨0x1000⟩ freshHeap := by
  refine ⟨.init VirtualMemoryArea.init_freshArea, rfl, by decide, by decide, by decide, ?_, ?_⟩
  · show 16 ≤ _
    decide
  · intro p _ _
    have hnone : leaf ⟨0x1000⟩ freshHeap.tables (frame p) = none :=
      lookup_blank fun k _ => decode_zero k
    rw [userAccessible, hnone]
    rfl

/-- The heap grows by half a page. -/
theorem brk_freshHeap :
    ∃ pb', brk ⟨0x1000⟩ freshHeap 0x100800 = some (.ok 0x100800, pb') ∧
      userAccessible ⟨0x1000⟩ pb'.tables (frame 256) = true ∧
      userAccessible ⟨0x1000⟩ pb'.tables (frame 257) = false := by
  obtain ⟨pb', hbrk, hbehind⟩ : ∃ pb', brk ⟨0x1000⟩ freshHeap 0x100800 = some (.ok 0x100800, pb') ∧
      userAccessible ⟨0x1000⟩ pb'.tables (frame 257) = false := by
    decide +kernel
  have hgentle : Gentle ⟨0x1000⟩ freshHeap 0x100800 := by
    rw [Gentle, if_pos (by decide)]
    refine ⟨by decide, ?_, by decide⟩
    show 16 + _ ≤ _
    decide
  have hadjusted := brk_adjusts ⟨0x1000⟩ (.init started_freshHeap)
    ⟨hgentle, by decide, _, hbrk⟩
  exact ⟨pb', hbrk, (hadjusted.exact 256 (by decide) (by decide)).mpr (by decide), hbehind⟩

/-- The heap grows by a page and shrinks by it again: the page stays accessible
    to the user. -/
theorem shrink_keeps_page :
    ∃ pb₁ pb₂, (breaks ⟨0x1000⟩).Reachable pb₁ ∧ pb₁.heapStart = 0x100000 ∧
      brk ⟨0x1000⟩ pb₁ 0x100000 = some (.ok 0x100000, pb₂) ∧
      userAccessible ⟨0x1000⟩ pb₂.tables (frame 256) = true ∧
      ¬ Adjusted ⟨0x1000⟩ pb₁ 0x100000 pb₂ := by
  obtain ⟨result, pb₁, hgrow, hstart, pb₂, hshrink, huser⟩ : ∃ result pb₁,
      brk ⟨0x1000⟩ freshHeap 0x101000 = some (result, pb₁) ∧ pb₁.heapStart = 0x100000 ∧
      ∃ pb₂, brk ⟨0x1000⟩ pb₁ 0x100000 = some (.ok 0x100000, pb₂) ∧
        userAccessible ⟨0x1000⟩ pb₂.tables (frame 256) = true := by
    decide +kernel
  have hstep : (breaks ⟨0x1000⟩).step freshHeap 0x101000 pb₁ := ⟨by decide, result, hgrow⟩
  refine ⟨pb₁, pb₂, .step (.init started_freshHeap) hstep, hstart, hshrink, huser, ?_⟩
  intro hadjusted
  have hlt := (hadjusted.exact 256 (by rw [hstart]; decide) (by decide)).mp huser
  exact absurd hlt (by decide)

end ProgramBreak

end Fennix.Memory
