import Fennix.Memory.KernelAllocator
import Fennix.Memory.Translation

/-! # Virtual memory areas

    `VirtualMemoryArea` of `Kernel/core/memory/vma.cpp`: the list of the pages
    allocated for a process, which are mapped at their physical addresses.

    Three structures move together: the list, the bitmap of the allocator and
    the page table. `Sound` says how they hang together, and every call keeps
    it up as long as requests ask for at least one page and stay in the lower
    half of the address space.
-/

namespace Fennix.Memory

open Entry Radix
open PageMapIndexer (ofAddress)

/-! ## Section 1: The calls -/

/-- `FROM_PAGES(d)`. -/
def fromPages (d : Nat) : Nat := d * pageSize % 2 ^ 64

/-- Page `i` of a range. -/
def pageOf (address : Word) (i : Nat) : Word := address + BitVec.ofNat 64 (i * pageSize)

/-- `memset(Address, 0, ...)` of whole pages. -/
def zeroPages (m : Tables) (address : Word) : Nat → Tables
  | 0 => m
  | n + 1 => Radix.fill (zeroPages m address n) (pageOf address n) 0

namespace Virtual

variable {σ : Type} (S : Supplier σ)

/-- The rounds of the `Map` that takes a length. -/
def mapRounds (vmm : Virtual) (st : Machine σ) (virtualAddress physicalAddress flags : Word) :
    Nat → Option (Machine σ)
  | 0 => some st
  | n + 1 =>
    (mapRounds vmm st virtualAddress physicalAddress flags n).bind fun st' =>
      vmm.map S st' (pageOf virtualAddress n) (pageOf physicalAddress n) flags .fourKiB

/-- `Virtual::Map` with a length, which takes a step of one page a round. -/
def mapLength (vmm : Virtual) (st : Machine σ) (virtualAddress physicalAddress : Word)
    (length : Nat) (flags : Word) : Option (Machine σ) :=
  mapRounds S vmm st virtualAddress physicalAddress flags ((length + pageSize - 1) / pageSize)

/-- The loop of `FreePages` and `FreeAllPages`: `Remap` of every page to its
    own address, with `RW` alone. -/
def remapRounds (vmm : Virtual) (st : Machine σ) (address : Word) : Nat → Option (Machine σ)
  | 0 => some st
  | n + 1 =>
    (remapRounds vmm st address n).bind fun st' =>
      vmm.remap S st' (pageOf address n) (pageOf address n) PTFlag.rw.mask .fourKiB

end Virtual

/-- `struct AllocatedPages`. -/
structure AllocatedPages where
  address : Word
  pageCount : Nat
  isProtected : Bool
  deriving DecidableEq

/-- What the calls work on: memory, the allocator and `AllocatedPagesList`. -/
structure Area where
  machine : Machine Physical
  allocatedPagesList : List AllocatedPages

namespace VirtualMemoryArea

variable (vmm : Virtual)

/-- `VirtualMemoryArea::RequestPages`. -/
def requestPages (area : Area) (count : Nat) (user protect : Bool) : Option (Word × Area) :=
  (kernelAllocator.request area.machine.supply count).bind fun (address, supply) =>
    -- `memset(Address, 0, Count * PAGE_SIZE)` before the pages are mapped
    let tables := zeroPages area.machine.tables address (fromPages count / pageSize)
    let flags := PTFlag.rw.mask ||| (if user then PTFlag.us.mask else 0)
      ||| (if protect then PTFlag.kRsv.mask else 0)
    (vmm.mapLength kernelAllocator { tables, supply } address address (fromPages count) flags).map
      fun machine => (address,
        { machine, allocatedPagesList := area.allocatedPagesList ++ [⟨address, count, protect⟩] })

/-- `VirtualMemoryArea::FreePages`. The loop ends at the first entry with the
    address, whatever it does there. -/
def freePages (area : Area) (address : Word) (count : Nat) : Option Area :=
  match area.allocatedPagesList.find? (·.address = address) with
  | none => some area
  | some ap =>
    if ap.isProtected then some area
    else if ap.pageCount ≠ count then some area
    else
      -- the pages stay mapped at their own address, with `RW` added
      (vmm.remapRounds kernelAllocator area.machine address count).map fun machine =>
        { machine := { machine with supply := machine.supply.freePages address.toNat count }
          allocatedPagesList := area.allocatedPagesList.eraseP (·.address = address) }

/-- `VirtualMemoryArea::DetachAddress`. -/
def detachAddress (area : Area) (address : Word) : Area :=
  match area.allocatedPagesList.find? (·.address = address) with
  | none => area
  | some ap =>
    if ap.isProtected then area
    else { area with
      allocatedPagesList := area.allocatedPagesList.eraseP (·.address = address) }

/-- One round of `FreeAllPages`. -/
def freeAllocation (st : Machine Physical) (ap : AllocatedPages) : Option (Machine Physical) :=
  vmm.remapRounds kernelAllocator
    { st with supply := st.supply.freePages ap.address.toNat ap.pageCount } ap.address ap.pageCount

/-- `VirtualMemoryArea::FreeAllPages`. -/
def freeAllPages (area : Area) : Option Area :=
  (area.allocatedPagesList.foldlM (freeAllocation vmm) area.machine).map fun machine =>
    { machine, allocatedPagesList := [] }

/-- A call. -/
inductive Call where
  | requestPages (count : Nat) (user protect : Bool)
  | freePages (address : Word) (count : Nat)
  | detachAddress (address : Word)
  | freeAllPages

/-- Runs of calls on one page table without large pages, from the empty list
    on, with any arguments for which the calls return. -/
def areas : System Area Call where
  init := fun area => area.allocatedPagesList = [] ∧ Plain kernelAllocator vmm area.machine
  step := fun area call area' =>
    match call with
    | .requestPages count user protect =>
        ∃ address, requestPages vmm area count user protect = some (address, area')
    | .freePages address count => freePages vmm area address count = some area'
    | .detachAddress address => area' = detachAddress area address
    | .freeAllPages => freeAllPages vmm area = some area'

/-- The guard on runs: requests are for at least one page, and no page that
    they can hand out lies above the lower half of the address space. -/
def Modest (area : Area) : Call → Prop
  | .requestPages count _ _ =>
      0 < count ∧ area.machine.supply.pageBitmap.bits + count ≤ 2 ^ 35
  | _ => True

end VirtualMemoryArea

/-- User code may access the page of `v`, as far as its leaf entry says. -/
def userAccessible (vmm : Virtual) (m : Tables) (v : Word) : Bool :=
  (leaf vmm m v).any fun e => e.getLsbD PTFlag.us.bit

/-! ## Section 2: Allocations, tables and the bitmap -/

namespace AllocatedPages

/-- The number of the first page. -/
def first (ap : AllocatedPages) : Nat := pageNumber ap.address

/-- Page `p` belongs to the allocation. -/
def Covers (ap : AllocatedPages) (p : Nat) : Prop :=
  ap.first ≤ p ∧ p < ap.first + ap.pageCount

theorem first_frame {c count : Nat} (protect : Bool) (hc : c < 2 ^ 52) :
    (AllocatedPages.mk (frame c) count protect).first = c := pageNumber_frame hc

theorem covers_frame {c count p : Nat} (protect : Bool) (hc : c < 2 ^ 52) :
    (AllocatedPages.mk (frame c) count protect).Covers p ↔ c ≤ p ∧ p < c + count := by
  rw [Covers, first_frame protect hc]

/-- No page belongs to both. -/
def Disjoint (ap ap' : AllocatedPages) : Prop := ∀ p, ap.Covers p → ¬ ap'.Covers p

end AllocatedPages

/-- An allocation in the list: a range of pages below the middle of the address
    space that starts inside the bitmap, whose bits are set and that holds no
    table. -/
structure Live (own : Owner) (s : Physical) (ap : AllocatedPages) : Prop where
  address_eq : ap.address = frame ap.first
  first_pos : 0 < ap.first
  first_lt : ap.first < s.pageBitmap.bits
  count_pos : 0 < ap.pageCount
  le : ap.first + ap.pageCount ≤ 2 ^ 35
  held : ∀ {p}, ap.Covers p → p ≤ s.pageBitmap.bits → s.pageBitmap.get p = true
  apart : ∀ {f path}, own f = some path → ¬ ap.Covers (pageNumber f)

/-- The tables are a tree without large pages, and the allocations are live
    and share no page. -/
def Sound (vmm : Virtual) (list : List AllocatedPages) (st : Machine Physical) : Prop :=
  ∃ own, WellFormed kernelAllocator vmm.pTable st own ∧ Entries st.tables own NoLarge ∧
    (∀ ap ∈ list, Live own st.supply ap) ∧ list.Pairwise AllocatedPages.Disjoint

/-- Every page of the allocations is mapped. -/
def Mapped (vmm : Virtual) (list : List AllocatedPages) (m : Tables) : Prop :=
  ∀ ap ∈ list, ∀ p, ap.Covers p → (leaf vmm m (frame p)).isSome

section sound

variable {vmm : Virtual} {list : List AllocatedPages} {st st' : Machine Physical}

variable {s s' : Physical} {n : Nat} {own : Owner} {ap : AllocatedPages} {flags v p : Word}
  {m : Tables}

theorem bits_of_request {N : Nat} {page : Word}
    (hreq : kernelAllocator.request s n = some (page, s')) (h : s.pageBitmap.bits = N) :
    s'.pageBitmap.bits = N := by
  obtain ⟨_, _, _, _, _, hbits, _⟩ := requestFrames_spec hreq
  rw [hbits, h]

theorem Live.placed {own' : Owner} {root e : Word} {target : List TableIndex} {k : Nat}
    (h : Live own st.supply ap)
    (hplaced : Placed kernelAllocator flags root target k e st own st' own')
    (hbits : st'.supply.pageBitmap.bits = st.supply.pageBitmap.bits) :
    Live own' st'.supply ap where
  address_eq := h.address_eq
  first_pos := h.first_pos
  first_lt := by
    rw [hbits]
    exact h.first_lt
  count_pos := h.count_pos
  le := h.le
  held := by
    intro p hp hle
    rw [hbits] at hle
    -- a bit that is set is a page that is taken
    have htaken : kernelAllocator.Taken st.supply (frame p) := by
      show st.supply.pageBitmap.get (pageNumber (frame p)) = true
      rw [pageNumber_frame (by have := hp.2; have := h.le; omega)]
      exact h.held hp hle
    have htaken' : st'.supply.pageBitmap.get (pageNumber (frame p)) = true := hplaced.mono htaken
    rwa [pageNumber_frame (by have := hp.2; have := h.le; omega)] at htaken'
  apart := by
    intro f path hf hcovers
    have htaken : st'.supply.pageBitmap.get (pageNumber f) = true := hplaced.wellFormed.taken hf
    have hle := Bitmap.le_of_get htaken
    rw [hbits] at hle
    -- the page of `f` is held, so `f` is not a new table
    cases hold : own f with
    | some path' => exact h.apart hold hcovers
    | none =>
      rw [(hplaced.frame (h.held hcovers hle) hold).1] at hf
      cases hf

theorem Sound.place {entry : Word → Word} (h : Sound vmm list st)
    (hleaf : ∀ raw, decode 0 (entry raw) = .leaf)
    (hplace : Virtual.place kernelAllocator entry vmm st v flags .fourKiB = some st') :
    Sound vmm list st' ∧
    leaf vmm st'.tables v =
      some (entry (oldEntry vmm st.tables (ofAddress v) .fourKiB)) ∧
    st'.supply.pageBitmap.bits = st.supply.pageBitmap.bits ∧
    ∀ w, ofAddress w ≠ ofAddress v →
      leaf vmm st'.tables w = leaf vmm st.tables w := by
  obtain ⟨own, hwf, hlarge, hlive, hdisjoint⟩ := h
  obtain ⟨own', hplaced, hlarge'⟩ := hwf.place hlarge hleaf hplace
  have hbits : st'.supply.pageBitmap.bits = st.supply.pageBitmap.bits :=
    place_induct (P := fun s => s.pageBitmap.bits = st.supply.pageBitmap.bits) bits_of_request
      hplace rfl
  refine ⟨⟨own', hplaced.wellFormed, hlarge', ?_, hdisjoint⟩, hplaced.leaf_self hlarge, hbits, ?_⟩
  · intro ap hap
    exact (hlive ap hap).placed hplaced hbits
  · intro w hw
    exact hplaced.leaf_other hlarge hw

theorem leaf_congr {w : Word} (h : ofAddress w = ofAddress v) :
    leaf vmm m w = leaf vmm m v := by
  rw [leaf, leaf, h]

theorem getLsbD_us_remapEntry (p raw : Word) :
    (Virtual.remapEntry p (PTFlag.rw.mask ||| PTFlag.p.mask) .fourKiB raw).getLsbD PTFlag.us.bit =
      raw.getLsbD PTFlag.us.bit := by
  show (setAddress _ _).getLsbD 2 = raw.getLsbD 2
  rw [getLsbD_setAddress _ _ (Or.inl (by omega))]
  have hmask : (0xFFF#64).getLsbD 2 = true := by decide
  have hflags : (PTFlag.rw.mask ||| PTFlag.p.mask).getLsbD 2 = false := by decide
  have hone : (1#64).getLsbD 2 = false := by decide
  rw [BitVec.getLsbD_or, BitVec.getLsbD_or, BitVec.getLsbD_and, hmask, hflags, hone,
    Bool.and_true, Bool.or_false, Bool.or_false]

/-- `Remap` of a mapped page with `RW` alone asks for no table, and no page
    becomes or stops being mapped or accessible to the user by it. -/
theorem Sound.remap {e : Word} (h : Sound vmm list st) (hv : Canonical v)
    (hleaf : leaf vmm st.tables v = some e) :
    ∃ st', vmm.remap kernelAllocator st v p PTFlag.rw.mask .fourKiB = some st' ∧
      Sound vmm list st' ∧ st'.supply = st.supply ∧
      ∀ w, (leaf vmm st'.tables w).isSome = (leaf vmm st.tables w).isSome ∧
        userAccessible vmm st'.tables w = userAccessible vmm st.tables w := by
  have hdecode := decode_remapEntry p PTFlag.rw.mask .fourKiB
  obtain ⟨own, hwf, hlarge, _⟩ := id h
  obtain ⟨st', hremap, hsupply⟩ :
      ∃ st', vmm.remap kernelAllocator st v p PTFlag.rw.mask .fourKiB = some st' ∧
        st'.supply = st.supply := hwf.place_of_leaf hlarge hv hleaf
  obtain ⟨hsound, hself, _, hother⟩ := h.place hdecode hremap
  refine ⟨st', hremap, hsound, hsupply, ?_⟩
  intro w
  by_cases hw : ofAddress w = ofAddress v
  · rw [hwf.oldEntry_of_leaf hlarge hleaf] at hself
    simp only [userAccessible, leaf_congr hw, hself, hleaf, Option.any_some,
      getLsbD_us_remapEntry, Option.isSome_some, and_self]
  · simp only [userAccessible, hother w hw, and_self]

theorem Sound.remapRounds {c : Nat} (h : Sound vmm list st) (hle : c + n ≤ 2 ^ 35)
    (hmapped : ∀ p, c ≤ p → p < c + n → (leaf vmm st.tables (frame p)).isSome) :
    ∃ st', vmm.remapRounds kernelAllocator st (frame c) n = some st' ∧ Sound vmm list st' ∧
      st'.supply = st.supply ∧
      ∀ w, (leaf vmm st'.tables w).isSome = (leaf vmm st.tables w).isSome ∧
        userAccessible vmm st'.tables w = userAccessible vmm st.tables w := by
  induction n with
  | zero => exact ⟨st, rfl, h, rfl, fun _ => ⟨rfl, rfl⟩⟩
  | succ n ih =>
    obtain ⟨st₁, hrounds, hsound, hsupply, hsame⟩ :=
      ih (by omega) fun p hp hlt => hmapped p hp (by omega)
    have hsome : (leaf vmm st₁.tables (frame (c + n))).isSome := by
      rw [(hsame _).1]
      exact hmapped (c + n) (by omega) (by omega)
    obtain ⟨e, he⟩ := Option.isSome_iff_exists.mp hsome
    obtain ⟨st₂, hremap, hsound₂, hsupply₂, hsame₂⟩ :=
      hsound.remap (p := frame (c + n)) (canonical_frame (by omega)) he
    refine ⟨st₂, ?_, hsound₂, hsupply₂.trans hsupply, ?_⟩
    · rw [Virtual.remapRounds, hrounds, Option.bind_some, pageOf, frame_add]
      exact hremap
    · intro w
      rw [(hsame₂ w).1, (hsame₂ w).2]
      exact hsame w

theorem Sound.mapRounds (h : Sound vmm list st)
    (hrounds : vmm.mapRounds kernelAllocator st v p flags n = some st') :
    Sound vmm list st' ∧ st'.supply.pageBitmap.bits = st.supply.pageBitmap.bits ∧
    (∀ i < n, ∃ q raw, leaf vmm st'.tables (pageOf v i) =
      some (Virtual.mapEntry q (flags ||| PTFlag.p.mask) .fourKiB raw)) ∧
    ∀ w, (∀ i < n, ofAddress w ≠ ofAddress (pageOf v i)) →
      leaf vmm st'.tables w = leaf vmm st.tables w := by
  induction n generalizing st' with
  | zero =>
    rw [Virtual.mapRounds, Option.some.injEq] at hrounds
    subst hrounds
    exact ⟨h, rfl, fun i hi => by omega, fun _ _ => rfl⟩
  | succ n ih =>
    obtain ⟨st₁, hrounds₁, hmap⟩ := Option.bind_eq_some_iff.mp hrounds
    obtain ⟨hsound₁, hbits₁, hmapped₁, hother₁⟩ := ih hrounds₁
    obtain ⟨hsound, hself, hbits, hother⟩ :=
      hsound₁.place (decode_mapEntry (pageOf p n) flags .fourKiB) hmap
    refine ⟨hsound, hbits.trans hbits₁, ?_, ?_⟩
    · intro i hi
      -- the last round may come back to a page of an earlier one
      by_cases heq : ofAddress (pageOf v i) = ofAddress (pageOf v n)
      · rw [leaf_congr heq]
        exact ⟨_, _, hself⟩
      · rw [hother _ heq]
        apply hmapped₁ i
        by_contra hge
        exact heq (by rw [show i = n by omega])
    · intro w hw
      rw [hother w (hw n (by omega))]
      exact hother₁ w fun i hi => hw i (by omega)

theorem Live.keep (h : Live own s ap) (hbits : s'.pageBitmap.bits = s.pageBitmap.bits)
    (hget : ∀ {p}, ap.Covers p → s.pageBitmap.get p = true → s'.pageBitmap.get p = true) :
    Live own s' ap where
  address_eq := h.address_eq
  first_pos := h.first_pos
  first_lt := by
    rw [hbits]
    exact h.first_lt
  count_pos := h.count_pos
  le := h.le
  held := by
    intro p hp hle
    rw [hbits] at hle
    exact hget hp (h.held hp hle)
  apart := h.apart

theorem Live.toNat_address (h : Live own s ap) : ap.address.toNat = ap.first * pageSize := by
  have := h.le
  rw [h.address_eq, frame_toNat (by omega)]

theorem Live.free_get (h : Live own s ap) (p : Nat) :
    (s.freePages ap.address.toNat ap.pageCount).pageBitmap.get p = true ↔
      s.pageBitmap.get p = true ∧ ¬ ap.Covers p := by
  have := h.le
  rw [h.toNat_address]
  exact Physical.freePages_get s h.first_pos (by omega) p

theorem disjoint_of_pairwise {before after : List AllocatedPages} {ap' : AllocatedPages}
    (h : (before ++ ap :: after).Pairwise AllocatedPages.Disjoint) (hap' : ap' ∈ before ++ after) :
    ap'.Disjoint ap := by
  rw [List.pairwise_append, List.pairwise_cons] at h
  obtain ⟨_, ⟨hafter, _⟩, hcross⟩ := h
  rcases List.mem_append.mp hap' with hb | ha
  · exact hcross ap' hb ap (by simp)
  · intro p hp hp'
    exact hafter ap' ha p hp' hp

theorem Sound.free {before after : List AllocatedPages} (h : Sound vmm (before ++ ap :: after) st) :
    Sound vmm (before ++ after)
      { st with supply := st.supply.freePages ap.address.toNat ap.pageCount } := by
  obtain ⟨own, hwf, hlarge, hlive, hdisjoint⟩ := h
  have hap := hlive ap (by simp)
  have hbits : (st.supply.freePages ap.address.toNat ap.pageCount).pageBitmap.bits =
      st.supply.pageBitmap.bits := Physical.freePages_bits _ _ _
  refine ⟨own, ⟨hwf.tree, hwf.ne_zero, ?_, ?_, ?_⟩, hlarge, ?_, ?_⟩
  · -- no table lies on the pages that are freed
    intro f path hf
    exact (hap.free_get _).mpr ⟨hwf.taken hf, hap.apart hf⟩
  · refine (hap.free_get 0).mpr ⟨hwf.valid.1, fun hcovers => ?_⟩
    have := hap.first_pos
    have := hcovers.1
    omega
  · rw [hbits]
    exact hwf.valid.2
  · intro ap' hap'
    apply (hlive ap' (((List.sublist_cons_self ap after).append_left before).subset hap')).keep hbits
    intro p hp hget
    exact (hap.free_get p).mpr ⟨hget, disjoint_of_pairwise hdisjoint hap' p hp⟩
  · exact hdisjoint.sublist ((List.sublist_cons_self ap after).append_left before)

theorem zeroPages_of_ne {address f : Word} (h : ∀ i < n, f ≠ pageOf address i) :
    zeroPages m address n f = m f := by
  induction n with
  | zero => rfl
  | succ n ih =>
    rw [zeroPages, fill_of_ne _ _ (h n (by omega))]
    exact ih fun i hi => h i (by omega)

theorem granted_of_request {count : Nat} {address : Word} (hle : s.pageBitmap.bits + count ≤ 2 ^ 35)
    (hreq : kernelAllocator.request s count = some (address, s')) :
    ∃ c, address = frame c ∧ c + count ≤ 2 ^ 35 ∧ s.Granted c count s' := by
  obtain ⟨A, hret, hA⟩ := requestFrames_eq_some hreq
  obtain ⟨c, rfl, hg⟩ := Physical.granted_of_requestPages (by omega) hret
  have hlt := hg.lt
  exact ⟨c, hA, by omega, hg⟩

section granted

variable {own : Owner} {supply : Physical} {c count : Nat}

theorem Physical.Granted.apart (hg : st.supply.Granted c count supply)
    (hwf : WellFormed kernelAllocator vmm.pTable st own) {f : Word} {path : List TableIndex}
    (hf : own f = some path) : ¬ (c ≤ pageNumber f ∧ pageNumber f < c + count) := by
  intro hin
  have htaken : st.supply.pageBitmap.get (pageNumber f) = true := hwf.taken hf
  rw [hg.clear hin.1 hin.2] at htaken
  cases htaken

theorem Physical.Granted.zeroPages (hg : st.supply.Granted c count supply)
    (hle : c + count ≤ 2 ^ 35)
    (hwf : WellFormed kernelAllocator vmm.pTable st own) {f : Word} {path : List TableIndex}
    (hf : own f = some path) : zeroPages st.tables (frame c) count f = st.tables f := by
  apply zeroPages_of_ne
  intro i hi heq
  apply hg.apart hwf hf
  rw [heq, pageOf, frame_add, pageNumber_frame (by omega)]
  omega

theorem Physical.Granted.live (hg : st.supply.Granted c count supply) (hle : c + count ≤ 2 ^ 35)
    (hwf : WellFormed kernelAllocator vmm.pTable st own) (hcount : 0 < count) (protect : Bool) :
    Live own supply ⟨frame c, count, protect⟩ := by
  have hfirst : (AllocatedPages.mk (frame c) count protect).first = c :=
    AllocatedPages.first_frame protect (by omega)
  have hpos : 0 < c := by
    rcases Nat.eq_zero_or_pos c with hzero | hpos
    · -- page 0 is never free
      have hclear := hg.clear (Nat.le_of_eq hzero) (by omega)
      rw [hwf.valid.1] at hclear
      cases hclear
    · exact hpos
  refine ⟨by rw [hfirst], by rw [hfirst]; exact hpos, ?_, hcount, ?_, ?_, ?_⟩
  · rw [hfirst, hg.bits_eq]
    exact hg.lt
  · rw [hfirst]
    exact hle
  · intro p hp hple
    rw [AllocatedPages.covers_frame protect (by omega)] at hp
    rw [hg.bits_eq] at hple
    exact hg.get_iff.mpr (Or.inr ⟨hple, hp⟩)
  · intro f path hf
    rw [AllocatedPages.covers_frame protect (by omega)]
    exact hg.apart hwf hf

theorem Physical.Granted.disjoint (hg : st.supply.Granted c count supply)
    (hle : c + count ≤ 2 ^ 35) {ap : AllocatedPages} (hap : Live own st.supply ap)
    (protect : Bool) :
    ap.Disjoint ⟨frame c, count, protect⟩ := by
  intro p hp hp'
  rw [AllocatedPages.covers_frame protect (by omega)] at hp'
  obtain ⟨hfirst, hlast⟩ := hp
  -- the larger of the two first pages belongs to both and lies in the bitmap
  have hlt := hg.lt
  have hlt' := hap.first_lt
  have hset : st.supply.pageBitmap.get (max c ap.first) = true :=
    hap.held ⟨by omega, by omega⟩ (by omega)
  rw [hg.clear (by omega) (by omega)] at hset
  cases hset

end granted

/-- A request hands out pages that hold no table and belong to no allocation,
    and zeroing them changes no mapping. -/
theorem Sound.request {count c : Nat} {supply : Physical} (h : Sound vmm list st)
    (hcount : 0 < count) (protect : Bool) (hle : c + count ≤ 2 ^ 35)
    (hg : st.supply.Granted c count supply)
    (hreq : kernelAllocator.request st.supply count = some (frame c, supply)) :
    Sound vmm (list ++ [⟨frame c, count, protect⟩])
      ⟨zeroPages st.tables (frame c) count, supply⟩ ∧
    ∀ w, leaf vmm (zeroPages st.tables (frame c) count) w = leaf vmm st.tables w := by
  obtain ⟨own, hwf, hlarge, hlive, hdisjoint⟩ := h
  have hframe : ∀ f path, own f = some path → zeroPages st.tables (frame c) count f = st.tables f :=
    fun f path hf => hg.zeroPages hle hwf hf
  refine ⟨⟨own, ⟨hwf.tree.congr hframe, hwf.ne_zero, ?_, ?_⟩, ?_, ?_, ?_⟩, ?_⟩
  · intro f path hf
    exact hg.get_iff.mpr (Or.inl (hwf.taken hf))
  · exact kernelAllocator.valid hwf.valid hcount hreq
  · intro f path k hf hk i
    show NoLarge k (zeroPages st.tables (frame c) count f i)
    rw [hframe f path hf]
    exact hlarge hf hk i
  · refine List.forall_mem_append.mpr ⟨fun ap hap => ?_, List.forall_mem_singleton.mpr ?_⟩
    · apply (hlive ap hap).keep hg.bits_eq
      intro p _ hget
      exact hg.get_iff.mpr (Or.inl hget)
    · exact hg.live hle hwf hcount protect
  · rw [List.pairwise_append]
    refine ⟨hdisjoint, List.pairwise_singleton _ _, ?_⟩
    intro ap hap ap' hap'
    rw [List.mem_singleton] at hap'
    rw [hap']
    exact hg.disjoint hle (hlive ap hap) protect
  · intro w
    exact hwf.tree.lookup_congr_own hframe hwf.tree.own_root rfl

theorem mapped_of_leaf {m' : Tables} (h : Mapped vmm list m)
    (hleaf : ∀ w, leaf vmm m' w = leaf vmm m w ∨ (leaf vmm m' w).isSome) : Mapped vmm list m' := by
  intro ap hap p hp
  rcases hleaf (frame p) with heq | hsome
  · rw [heq]
    exact h ap hap p hp
  · exact hsome

theorem leaf_of_mapRounds (h : Sound vmm list st)
    (hrounds : vmm.mapRounds kernelAllocator st v p flags n = some st') (w : Word) :
    leaf vmm st'.tables w = leaf vmm st.tables w ∨ (leaf vmm st'.tables w).isSome := by
  obtain ⟨_, _, hrange, hoff⟩ := h.mapRounds hrounds
  by_cases hw : ∃ i < n, ofAddress w = ofAddress (pageOf v i)
  · right
    obtain ⟨i, hi, heq⟩ := hw
    obtain ⟨q, raw, hentry⟩ := hrange i hi
    rw [leaf_congr heq, hentry]
    rfl
  · left
    apply hoff
    intro i hi heq
    exact hw ⟨i, hi, heq⟩

end sound

/-! ## Section 3: What the calls do -/

namespace VirtualMemoryArea

variable {vmm : Virtual} {area area' : Area} {address : Word} {count : Nat}

/-- The invariant of runs. -/
structure Inv (vmm : Virtual) (area : Area) : Prop where
  sound : Sound vmm area.allocatedPagesList area.machine
  mapped : Mapped vmm area.allocatedPagesList area.machine.tables

/-- `FreePages` is called for an allocation in the list that is not protected,
    with its page count. -/
def Names (area : Area) (address : Word) (count : Nat) : Prop :=
  ∃ ap ∈ area.allocatedPagesList,
    ap.address = address ∧ ap.pageCount = count ∧ ap.isProtected = false

theorem rounds_of_count (h : count ≤ 2 ^ 35) :
    fromPages count / pageSize = count ∧ (fromPages count + pageSize - 1) / pageSize = count := by
  unfold fromPages
  simp only [pageSize]
  omega

theorem requestPages_spec {user protect : Bool} (h : Inv vmm area) (hcount : 0 < count)
    (hle : area.machine.supply.pageBitmap.bits + count ≤ 2 ^ 35)
    (hreq : requestPages vmm area count user protect = some (address, area')) :
    Inv vmm area' ∧ ∃ c, address = frame c ∧ c < area.machine.supply.pageBitmap.bits ∧
      area'.machine.supply.pageBitmap.bits = area.machine.supply.pageBitmap.bits ∧
      area'.allocatedPagesList = area.allocatedPagesList ++ [⟨address, count, protect⟩] ∧
      ∀ w, (∀ p, c ≤ p → p < c + count →
          ofAddress w ≠ ofAddress (frame p)) →
        leaf vmm area'.machine.tables w = leaf vmm area.machine.tables w := by
  obtain ⟨⟨address', supply⟩, halloc, hreq⟩ := Option.bind_eq_some_iff.mp hreq
  obtain ⟨machine, hmap, hval⟩ := Option.map_eq_some_iff.mp hreq
  rw [Prod.mk.injEq] at hval
  obtain ⟨rfl, rfl⟩ := hval
  obtain ⟨hzero, hrounds⟩ := rounds_of_count (show count ≤ 2 ^ 35 by omega)
  rw [Virtual.mapLength, hzero, hrounds] at hmap
  obtain ⟨c, rfl, hle', hg⟩ := granted_of_request hle halloc
  obtain ⟨hsound, hleaf⟩ := h.sound.request hcount protect hle' hg halloc
  obtain ⟨hsound', hbits, hrange, hoff⟩ := hsound.mapRounds hmap
  refine ⟨⟨hsound', ?_⟩, c, rfl, hg.lt, hbits.trans hg.bits_eq, rfl, ?_⟩
  · refine List.forall_mem_append.mpr ⟨?_, List.forall_mem_singleton.mpr ?_⟩
    · -- an older allocation
      apply mapped_of_leaf h.mapped
      intro w
      rw [← hleaf w]
      exact leaf_of_mapRounds hsound hmap w
    · -- the new one
      intro p hp
      rw [AllocatedPages.covers_frame protect (by omega)] at hp
      obtain ⟨q, raw, hentry⟩ := hrange (p - c) (by omega)
      rw [pageOf, frame_add, show c + (p - c) = p by omega] at hentry
      show (leaf vmm machine.tables (frame p)).isSome
      rw [hentry]
      rfl
  · intro w hw
    show leaf vmm machine.tables w = _
    rw [hoff, hleaf]
    intro i hi
    rw [pageOf, frame_add]
    exact hw (c + i) (by omega) (by omega)

theorem find_of_names (h : Inv vmm area) (hnames : Names area address count) :
    area.allocatedPagesList.find? (·.address = address) = some ⟨address, count, false⟩ ∧
    ∃ before after, area.allocatedPagesList = before ++ ⟨address, count, false⟩ :: after ∧
      area.allocatedPagesList.eraseP (·.address = address) = before ++ after := by
  obtain ⟨own, _, _, hlive, hdisjoint⟩ := h.sound
  obtain ⟨ap, hap, rfl, rfl, hprotected⟩ := hnames
  have hap_eq : ap = ⟨ap.address, ap.pageCount, false⟩ := by rw [← hprotected]
  have hsome : (area.allocatedPagesList.find? (·.address = ap.address)).isSome := by
    rw [List.find?_isSome]
    exact ⟨ap, hap, by simp⟩
  obtain ⟨ap', hfind⟩ := Option.isSome_iff_exists.mp hsome
  obtain ⟨haddress, before, after, hlist, hbefore⟩ := List.find?_eq_some_iff_append.mp hfind
  have haddress : ap'.address = ap.address := by simpa using haddress
  have heq : ap' = ap := by
    by_contra hne
    have hrest : ap ∈ before ++ after := by
      rw [hlist, List.mem_append, List.mem_cons] at hap
      rw [List.mem_append]
      rcases hap with h | h | h
      · exact Or.inl h
      · exact absurd h.symm hne
      · exact Or.inr h
    -- both would cover the first page
    have hfirst : ap'.first = ap.first := by rw [AllocatedPages.first, haddress]; rfl
    have hpos := (hlive ap hap).count_pos
    have hpos' := (hlive ap' (List.mem_of_find?_eq_some hfind)).count_pos
    rw [hlist] at hdisjoint
    exact disjoint_of_pairwise hdisjoint hrest ap.first ⟨by omega, by omega⟩ ⟨by omega, by omega⟩
  subst heq
  rw [← hap_eq]
  refine ⟨hfind, before, after, hlist, ?_⟩
  rw [hlist, List.eraseP_append_right, List.eraseP_cons_of_pos]
  · simp
  · intro b hb
    simpa using hbefore b hb

theorem freePages_of_not_names (h : ¬ Names area address count) :
    freePages vmm area address count = some area := by
  unfold freePages
  cases hfind : area.allocatedPagesList.find? (·.address = address) with
  | none => rfl
  | some ap =>
    have hap := List.mem_of_find?_eq_some hfind
    have haddress : ap.address = address := by simpa using List.find?_some hfind
    dsimp only
    split
    · rfl
    · rename_i hprotected
      split
      · rfl
      · rename_i hcount
        rw [ne_eq, not_not] at hcount
        exact absurd ⟨ap, hap, haddress, hcount, by simpa using hprotected⟩ h

/-- `FreePages` of an allocation removes it, gives back its pages and neither
    maps or unmaps a page nor changes whether it is accessible to the user. -/
theorem freePages_of_names (h : Inv vmm area) (hnames : Names area address count) :
    ∃ area', freePages vmm area address count = some area' ∧ Inv vmm area' ∧
      (∃ before after, area.allocatedPagesList = before ++ ⟨address, count, false⟩ :: after ∧
        area'.allocatedPagesList = before ++ after) ∧
      (∀ p, area'.machine.supply.pageBitmap.get p = true ↔
        area.machine.supply.pageBitmap.get p = true ∧
          ¬ (AllocatedPages.mk address count false).Covers p) ∧
      ∀ w, userAccessible vmm area'.machine.tables w =
        userAccessible vmm area.machine.tables w := by
  obtain ⟨hfind, before, after, hlist, herase⟩ := find_of_names h hnames
  have hmem : AllocatedPages.mk address count false ∈ area.allocatedPagesList := by
    rw [hlist]
    simp
  obtain ⟨own, _, _, hlive, _⟩ := id h.sound
  have hap := hlive _ hmem
  obtain ⟨machine, hrounds, hsound, hsupply, hsame⟩ := h.sound.remapRounds hap.le fun p hp hlt =>
    h.mapped _ hmem p ⟨hp, hlt⟩
  rw [← hap.address_eq] at hrounds
  have hrounds : vmm.remapRounds kernelAllocator area.machine address count = some machine := hrounds
  refine ⟨⟨⟨machine.tables, machine.supply.freePages address.toNat count⟩,
    area.allocatedPagesList.eraseP (·.address = address)⟩, ?_, ⟨?_, ?_⟩,
    ⟨before, after, hlist, herase⟩, ?_, fun w => (hsame w).2⟩
  · simp only [freePages, hfind, Bool.false_eq_true, if_false, ne_eq, not_true_eq_false, hrounds,
      Option.map_some]
  · show Sound vmm (area.allocatedPagesList.eraseP _) _
    rw [herase]
    rw [hlist] at hsound
    exact hsound.free
  · intro ap hap' p hp
    show (leaf vmm machine.tables (frame p)).isSome
    rw [(hsame _).1]
    exact h.mapped ap (List.mem_of_mem_eraseP hap') p hp
  · intro p
    show (machine.supply.freePages address.toNat count).pageBitmap.get p = true ↔ _
    rw [hsupply]
    exact hap.free_get p

theorem freeAll_sound {list : List AllocatedPages} {st st' : Machine Physical}
    (h : Sound vmm list st) (hmapped : Mapped vmm list st.tables)
    (hrun : list.foldlM (freeAllocation vmm) st = some st') : Sound vmm [] st' := by
  induction list generalizing st with
  | nil =>
    rw [List.foldlM_nil] at hrun
    cases hrun
    exact h
  | cons ap rest ih =>
    rw [List.foldlM_cons] at hrun
    obtain ⟨st₁, hfirst, hrest⟩ := Option.bind_eq_some_iff.mp hrun
    obtain ⟨own, _, _, hlive, _⟩ := id h
    have hap := hlive ap (by simp)
    obtain ⟨st₂, hrounds, hsound, _, hsame⟩ :=
      (show Sound vmm ([] ++ ap :: rest) st from h).free.remapRounds hap.le fun p hp hlt =>
        hmapped ap (by simp) p ⟨hp, hlt⟩
    rw [← hap.address_eq] at hrounds
    obtain rfl : st₂ = st₁ := Option.mem_unique hrounds hfirst
    apply ih hsound _ hrest
    intro ap' hap' p hp
    rw [(hsame _).1]
    exact hmapped ap' (List.mem_cons_of_mem _ hap') p hp

theorem Inv.init (h : (areas vmm).init area) : Inv vmm area := by
  obtain ⟨hlist, own, hwf, hlarge⟩ := h
  constructor
  · rw [hlist]
    exact ⟨own, hwf, hlarge, by simp, List.Pairwise.nil⟩
  · rw [hlist]
    intro ap hap
    cases hap

theorem Inv.detachAddress (h : Inv vmm area) : Inv vmm (detachAddress area address) := by
  unfold VirtualMemoryArea.detachAddress
  split
  · exact h
  · split
    · exact h
    · obtain ⟨own, hwf, hlarge, hlive, hdisjoint⟩ := h.sound
      refine ⟨⟨own, hwf, hlarge, ?_, hdisjoint.sublist List.eraseP_sublist⟩, ?_⟩
      · intro ap hap
        exact hlive ap (List.mem_of_mem_eraseP hap)
      · intro ap hap
        exact h.mapped ap (List.mem_of_mem_eraseP hap)

theorem Inv.step {call : Call} (h : Inv vmm area)
    (hstep : ((areas vmm).restrict Modest).step area call area') : Inv vmm area' := by
  obtain ⟨hguard, hstep⟩ := hstep
  match call with
  | .requestPages count user protect =>
    obtain ⟨address, hreq⟩ := hstep
    exact (requestPages_spec h hguard.1 hguard.2 hreq).1
  | .freePages address count =>
    by_cases hnames : Names area address count
    · obtain ⟨area₁, hfree, hinv, _⟩ := freePages_of_names h hnames
      obtain rfl : area₁ = area' := Option.mem_unique hfree hstep
      exact hinv
    · obtain rfl : area = area' :=
        Option.mem_unique (freePages_of_not_names hnames) hstep
      exact h
  | .detachAddress address =>
    have heq : area' = VirtualMemoryArea.detachAddress area address := hstep
    rw [heq]
    exact h.detachAddress
  | .freeAllPages =>
    obtain ⟨machine, hrun, rfl⟩ := Option.map_eq_some_iff.mp hstep
    exact ⟨freeAll_sound h.sound h.mapped hrun, fun ap hap => by cases hap⟩

theorem inv_of_reachable (h : ((areas vmm).restrict Modest).Reachable area) : Inv vmm area := by
  induction h with
  | init hi => exact Inv.init hi
  | step _ hs ih => exact ih.step hs

/-! ## Section 4: Memory is returned -/

/-- **Process memory**: in every run whose requests are for at least one page
    of the lower half, `FreePages` of an allocation that is not protected, with
    its page count, removes it from the list and gives exactly its pages back,
    which were all in use; afterwards none of them is accessible to the user
    if and only if none was before. All other calls of `FreePages` change
    nothing. -/
theorem freePages_returns_pages (vmm : Virtual) {area : Area}
    (h : ((areas vmm).restrict Modest).Reachable area) (address : Word) (count : Nat) :
    (Names area address count → ∃ area', freePages vmm area address count = some area' ∧
      (∃ before after, area.allocatedPagesList = before ++ ⟨address, count, false⟩ :: after ∧
        area'.allocatedPagesList = before ++ after) ∧
      (∀ p, area'.machine.supply.pageBitmap.get p = true ↔
        area.machine.supply.pageBitmap.get p = true ∧
          ¬ (AllocatedPages.mk address count false).Covers p) ∧
      (∀ p, (AllocatedPages.mk address count false).Covers p →
        p < area.machine.supply.pageBitmap.bits →
          area.machine.supply.pageBitmap.get p = true) ∧
      ((∀ p, (AllocatedPages.mk address count false).Covers p →
          userAccessible vmm area'.machine.tables (frame p) = false) ↔
        ∀ p, (AllocatedPages.mk address count false).Covers p →
          userAccessible vmm area.machine.tables (frame p) = false)) ∧
    (¬ Names area address count → freePages vmm area address count = some area) := by
  have hinv := inv_of_reachable h
  refine ⟨?_, freePages_of_not_names⟩
  intro hnames
  obtain ⟨area', hfree, _, hlist, hget, hsame⟩ := freePages_of_names hinv hnames
  refine ⟨area', hfree, hlist, hget, ?_, ?_⟩
  · intro p hp hlt
    obtain ⟨own, _, _, hlive, _⟩ := hinv.sound
    obtain ⟨_, before, after, heq, _⟩ := find_of_names hinv hnames
    exact (hlive _ (by rw [heq]; simp)).held hp (by omega)
  · simp only [hsame]

/-- A zeroed page table at page 1, no allocations, and an allocator of 16 pages
    of which the first two are in use. -/
def freshArea : Area where
  machine :=
    { tables := fun _ _ => 0
      supply :=
        { totalMemory := 0x10000
          freeMemory := 0xE000
          reservedMemory := 0x2000
          usedMemory := 0
          pageBitmapIndex := 0
          pageBitmap :=
            { size := 2
              buffer := fun i => if i = 0 then 0b11000000 else 0
              size_le := by decide } } }
  allocatedPagesList := []

theorem init_freshArea : (areas ⟨0x1000⟩).init freshArea := by
  refine ⟨rfl, plain_of_blank ⟨by decide, fun _ => rfl, ?_, ?_⟩⟩
  · show _ = true ∧ _ ≤ 2 ^ 40
    decide
  · show _ = true
    decide

theorem names_of_singleton (h : area.allocatedPagesList = [⟨address, count, false⟩]) :
    Names area address count :=
  ⟨⟨address, count, false⟩, by rw [h]; exact List.mem_singleton_self _, rfl, rfl, rfl⟩

/-- A page is allocated for the kernel and freed. -/
theorem freePages_freshArea :
    ∃ area₁ area₂, requestPages ⟨0x1000⟩ freshArea 1 false false = some (0x2000, area₁) ∧
      freePages ⟨0x1000⟩ area₁ 0x2000 1 = some area₂ ∧
      area₂.machine.supply.pageBitmap.get 2 = false ∧
      userAccessible ⟨0x1000⟩ area₂.machine.tables (frame 2) = false := by
  obtain ⟨area₁, hreq, hlist, huser⟩ : ∃ area₁,
      requestPages ⟨0x1000⟩ freshArea 1 false false = some (0x2000, area₁) ∧
      area₁.allocatedPagesList = [⟨0x2000, 1, false⟩] ∧
      userAccessible ⟨0x1000⟩ area₁.machine.tables (frame 2) = false := by
    decide +kernel
  have hstep : ((areas ⟨0x1000⟩).restrict Modest).step freshArea (.requestPages 1 false false)
      area₁ := ⟨show 0 < 1 ∧ 16 + 1 ≤ 2 ^ 35 by decide, 0x2000, hreq⟩
  have hreach : ((areas ⟨0x1000⟩).restrict Modest).Reachable area₁ :=
    .step (.init init_freshArea) hstep
  have hcovers : ∀ p, (AllocatedPages.mk 0x2000 1 false).Covers p ↔ p = 2 := by
    intro p
    show 2 ≤ p ∧ p < 2 + 1 ↔ p = 2
    omega
  obtain ⟨hnamed, _⟩ := freePages_returns_pages ⟨0x1000⟩ hreach 0x2000 1
  obtain ⟨area₂, hfree, _, hget, _, hiff⟩ := hnamed (names_of_singleton hlist)
  simp only [hcovers, forall_eq] at hiff hget
  refine ⟨area₁, area₂, hreq, hfree, ?_, hiff.mpr huser⟩
  rw [Bool.eq_false_iff]
  intro hset
  exact ((hget 2).mp hset).2 rfl

/-- A page is allocated for the user and freed: it goes back to the allocator
    and stays accessible to the user. -/
theorem freed_page_stays_user :
    ∃ area₁ area₂, requestPages ⟨0x1000⟩ freshArea 1 true false = some (0x2000, area₁) ∧
      (areas ⟨0x1000⟩).Reachable area₁ ∧ Names area₁ 0x2000 1 ∧
      freePages ⟨0x1000⟩ area₁ 0x2000 1 = some area₂ ∧
      area₂.machine.supply.pageBitmap.get 2 = false ∧
      userAccessible ⟨0x1000⟩ area₂.machine.tables 0x2000 = true := by
  obtain ⟨area₁, hreq, hlist, area₂, hfree, hget, huser⟩ : ∃ area₁,
      requestPages ⟨0x1000⟩ freshArea 1 true false = some (0x2000, area₁) ∧
      area₁.allocatedPagesList = [⟨0x2000, 1, false⟩] ∧
      ∃ area₂, freePages ⟨0x1000⟩ area₁ 0x2000 1 = some area₂ ∧
        area₂.machine.supply.pageBitmap.get 2 = false ∧
        userAccessible ⟨0x1000⟩ area₂.machine.tables 0x2000 = true := by
    decide +kernel
  have hstep : (areas ⟨0x1000⟩).step freshArea (.requestPages 1 true false) area₁ :=
    ⟨0x2000, hreq⟩
  exact ⟨area₁, area₂, hreq, .step (.init init_freshArea) hstep, names_of_singleton hlist, hfree,
    hget, huser⟩

-- A request for no page puts an address into the list that is handed out again:
-- the allocation of one page that comes after it cannot be freed.
example : ((requestPages ⟨0x1000⟩ freshArea 0 false false).bind fun r₀ =>
    (requestPages ⟨0x1000⟩ r₀.2 1 false false).bind fun r₁ =>
      (freePages ⟨0x1000⟩ r₁.2 0x2000 1).map fun area => (r₁.1, area.allocatedPagesList)) =
    some (0x2000, [⟨0x2000, 0, false⟩, ⟨0x2000, 1, false⟩]) := by
  decide +kernel

end VirtualMemoryArea

end Fennix.Memory
