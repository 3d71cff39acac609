import Fennix.Memory.MapRange
import Fennix.Memory.Translation

/-! # The software walk and the hardware walk

    `PageTable::Get` of `Kernel/include/memory/table.hpp` translates an address
    with `GetPhysical`, which returns the frame of the leaf entry whatever its
    level, and adds the low 12 bits of the address. The hardware adds the
    offset inside the page that the level of the leaf makes.

    The tables are those that runs of `Map` calls of 4 KiB, 2 MiB and 1 GiB
    reach, as long as no address of a range was mapped before.
-/

namespace Fennix.Memory

open Entry Radix

/-! ## Section 1: The two walks -/

/-- `PageTable::Get`, for pointers. -/
def PageTable.get (vmm : Virtual) (m : Tables) (address : Word) : Option Word :=
  (vmm.getPhysical m address).map fun physAddr =>
    if physAddr = 0 then 0 else physAddr + (address &&& 0xFFF#64)

/-- The bytes that a leaf with `k` levels below it maps. -/
def pageBytes (k : Nat) : Nat := 0x1000 * 512 ^ k

/-- The physical address that the hardware translates `v` to. Of the address
    field of a large page it takes the bits above the offset. -/
def hardwareWalk (vmm : Virtual) (m : Tables) (v : Word) : Option Nat :=
  (mapping vmm m v).map fun (k, e) =>
    (pointer e).toNat / pageBytes k * pageBytes k + v.toNat % pageBytes k

/-- `Get` is null where the hardware faults, and elsewhere the address that
    the hardware translates to. -/
def WalksAgree (vmm : Virtual) (m : Tables) (v : Word) : Prop :=
  match hardwareWalk vmm m v with
  | none => PageTable.get vmm m v = some 0
  | some q => ∃ p, PageTable.get vmm m v = some p ∧ p ≠ 0 ∧ p.toNat = q

/-! ## Section 2: Runs of aligned calls -/

/-- A call of `Map` for a page of one of the three sizes, with both addresses
    aligned to it. -/
structure AlignedMap where
  v : Word
  p : Word
  flags : Word
  type : MapType
  size_eq : pageBytes type.levels = type.pageSize
  v_aligned : v.toNat % type.pageSize = 0
  p_aligned : p.toNat % type.pageSize = 0

/-- An address of the range of a call. -/
def AlignedMap.Covers (call : AlignedMap) (w : Word) : Prop :=
  call.v.toNat ≤ w.toNat ∧ w.toNat < call.v.toNat + call.type.pageSize

section runs

variable {σ : Type} (S : Supplier σ) (vmm : Virtual)

/-- Runs from the zeroed table on, of calls whose ranges were not mapped. -/
def alignedMappings : System (Machine σ) AlignedMap where
  init := Blank S vmm
  step := fun st call st' =>
    (∀ w, call.Covers w → leaf vmm st.tables w = none) ∧
    vmm.map S st call.v call.p call.flags call.type = some st'

end runs

/-! ## Section 3: Leaves are aligned to their level -/

/-- A leaf points to a frame that is aligned to the page it maps, and no
    stale `PageSize` bit is left. -/
def AlignedLeaf (k : Nat) (raw : Word) : Prop :=
  NoStale k raw ∧ (decode k raw = .leaf → (pointer raw).toNat % pageBytes k = 0)

theorem alignedLeaf_closed {flags : Word} (hflags : IsDirectoryFlags flags) :
    DirectoryClosed AlignedLeaf flags where
  zero := by
    intro k
    refine ⟨(noStale_closed flags).zero k, ?_⟩
    rw [decode_zero]
    simp
  or := by
    intro k raw h hp hl
    refine ⟨(noStale_closed flags).or h.1 hp hl, ?_⟩
    rw [hflags.decode_or hp, decode, if_pos hp, if_neg hl]
    simp
  link := by
    intro k raw page h hp hpage hne
    refine ⟨(noStale_closed flags).link h.1 hp hpage hne, ?_⟩
    rw [decode_link hflags hpage, if_neg]
    · simp
    · rintro ⟨hl, hk⟩
      rw [h.1 hp (by omega) (by omega)] at hl
      cases hl

theorem and_addressMask_mod {p : Word} {n : Nat} (h : p.toNat % 2 ^ n = 0) :
    (p &&& addressMask).toNat % 2 ^ n = 0 := by
  rw [BitVec.toNat_and, Nat.and_mod_two_pow, h, Nat.zero_and]

theorem pageBytes_eq (k : Nat) : pageBytes k = 2 ^ (12 + 9 * k) := by
  rw [pageBytes, show 512 = 2 ^ 9 from rfl, ← Nat.pow_mul, Nat.pow_add]

section aligned

variable {σ : Type} {S : Supplier σ} {vmm : Virtual} {st st' : Machine σ}

/-- The invariant of the runs. -/
def AlignedTables (S : Supplier σ) (vmm : Virtual) (st : Machine σ) : Prop :=
  ∃ own, WellFormed S vmm.pTable st own ∧ Entries st.tables own AlignedLeaf

theorem unobstructed_of_leaf {m : Tables} {v : Word} (h : leaf vmm m v = none) (type : MapType) :
    Unobstructed vmm m (PageMapIndexer.ofAddress v) type := by
  intro hwalk
  have hlen : (Virtual.slot (PageMapIndexer.ofAddress v) type ::
      (PageMapIndexer.ofAddress v).offset type).length = type.levels + 1 := by
    cases type <;> rfl
  obtain ⟨e, he⟩ := lookup_of_walk_leaf hwalk hlen
  rw [← path_eq] at he
  rw [leaf, he] at h
  cases h

theorem AlignedTables.step {call : AlignedMap} (h : AlignedTables S vmm st)
    (hstep : (alignedMappings S vmm).step st call st') : AlignedTables S vmm st' := by
  obtain ⟨hfree, hmap⟩ := hstep
  obtain ⟨own, hwf, haligned⟩ := h
  have hsize : 0 < call.type.pageSize := by
    cases call.type <;> simp [MapType.pageSize]
  have hv := hfree call.v ⟨Nat.le_refl _, by omega⟩
  obtain ⟨index, hindex⟩ := index_of_place (hwf.ne_zero hwf.tree.own_root) hmap
  obtain rfl := pageMapIndexer_eq hindex
  obtain ⟨own', hplaced⟩ := place_spec hwf hindex (unobstructed_of_leaf hv call.type)
    (decode_mapEntry call.p call.flags call.type) hmap
  refine ⟨own', hplaced.wellFormed, hplaced.entries (alignedLeaf_closed (isDirectoryFlags _))
    ⟨?_, ?_⟩ haligned⟩
  · intro hp
    rw [present_mapEntry] at hp
    cases hp
  · -- the new leaf points to the frame of the call
    intro _
    have hp := call.p_aligned
    rw [← call.size_eq, pageBytes_eq] at hp
    rw [pointer_mapEntry, pageBytes_eq]
    exact and_addressMask_mod hp

theorem alignedTables_of_reachable (h : (alignedMappings S vmm).Reachable st) :
    AlignedTables S vmm st := by
  refine h.invariant ?_ ?_
  · intro st hblank
    exact wellFormed_of_blank hblank (alignedLeaf_closed (isDirectoryFlags 0)).zero
  · intro _ _ _ hi hs
    exact hi.step hs

/-! ## Section 4: Where the walks agree -/

theorem offset_eq_iff (v k : Nat) : v % 0x1000 = v % pageBytes k ↔ v % pageBytes k < 0x1000 := by
  have hdvd : v % pageBytes k % 0x1000 = v % 0x1000 := by
    rw [pageBytes, Nat.mod_mul_right_mod]
  constructor
  · intro h
    rw [← h]
    exact Nat.mod_lt _ (by decide)
  · intro h
    rw [← hdvd, Nat.mod_eq_of_lt h]

theorem WellFormed.get_eq {own : Owner} {v : Word} (h : WellFormed S vmm.pTable st own)
    (hv : Canonical v) :
    PageTable.get vmm st.tables v =
      match mapping vmm st.tables v with
      | none => some 0
      | some (_, e) =>
        some (if pointer e = 0 then 0 else pointer e + (v &&& 0xFFF#64)) := by
  have hindex := pageMapIndexer_of_canonical hv.pageBase
  rw [PageMapIndexer.ofAddress_pageBase] at hindex
  rw [PageTable.get, (h.read_of_index hindex).1, mapping]
  cases leafAt decode st.tables vmm.pTable (PageMapIndexer.ofAddress v).path <;> rfl

theorem toNat_pointer_add (e v : Word) :
    (pointer e + (v &&& 0xFFF#64)).toNat = (pointer e).toNat + v.toNat % 0x1000 := by
  have hptr := pointer_lt e
  have hlow := Nat.mod_lt v.toNat (show 0 < 0x1000 by decide)
  rw [BitVec.toNat_add, toNat_and_low, Nat.mod_eq_of_lt (by omega)]

end aligned

/-- **Software walk**: in every table reached by aligned calls, `Get` agrees
    with the hardware on an address if and only if it is not mapped, or lies
    in the first 4 KiB of its page and the page is not at frame 0. -/
theorem walksAgree_iff {σ : Type} (S : Supplier σ) (vmm : Virtual) {st : Machine σ}
    (h : (alignedMappings S vmm).Reachable st) {v : Word} (hv : Canonical v) :
    WalksAgree vmm st.tables v ↔
      ∀ k e, mapping vmm st.tables v = some (k, e) →
        pointer e ≠ 0 ∧ v.toNat % pageBytes k < 0x1000 := by
  obtain ⟨own, hwf, haligned⟩ := alignedTables_of_reachable h
  rw [WalksAgree, hardwareWalk, hwf.get_eq hv]
  cases hmapping : mapping vmm st.tables v with
  | none => simp
  | some leaf =>
    obtain ⟨k, e⟩ := leaf
    obtain ⟨g, path, i, hg, hlen, rfl, hleaf⟩ :=
      hwf.tree.entry_of_leafAt hwf.tree.own_root rfl hmapping
    -- the frame is aligned, so the hardware takes all of it
    have hframe := Nat.div_mul_cancel
      (Nat.dvd_of_mod_eq_zero ((haligned hg hlen i).2 hleaf))
    simp only [Option.map_some, Option.some.injEq, Prod.mk.injEq, hframe, exists_eq_left']
    have hsum : pointer (st.tables g i) ≠ 0 →
        pointer (st.tables g i) + (v &&& 0xFFF#64) ≠ 0 := by
      intro hne hzero
      have hzero := congrArg BitVec.toNat hzero
      rw [toNat_pointer_add] at hzero
      exact hne (BitVec.eq_of_toNat_eq (by simpa using (Nat.add_eq_zero_iff.mp hzero).1))
    constructor
    · rintro ⟨hne, heq⟩ k' e' ⟨rfl, rfl⟩
      by_cases hzero : pointer (st.tables g i) = 0
      · simp [hzero] at hne
      · rw [if_neg hzero, toNat_pointer_add, Nat.add_left_cancel_iff, offset_eq_iff] at heq
        exact ⟨hzero, heq⟩
    · intro hright
      obtain ⟨hne, hlt⟩ := hright k _ ⟨rfl, rfl⟩
      rw [if_neg hne, toNat_pointer_add, Nat.add_left_cancel_iff, offset_eq_iff]
      exact ⟨hsum hne, hlt⟩

/-- The calls of the examples: a page of 2 MiB at 4 MiB. -/
def largeMap : AlignedMap where
  v := 0x400000
  p := 0x200000
  flags := PTFlag.rw.mask
  type := .twoMiB
  size_eq := by decide
  v_aligned := by decide
  p_aligned := by decide

theorem largeMap_reachable {st : Machine Nat}
    (h : (Virtual.mk 0x1000).map bump blankMachine largeMap.v largeMap.p largeMap.flags
      largeMap.type = some st) : (alignedMappings bump ⟨0x1000⟩).Reachable st := by
  refine .step (l := largeMap) (.init blank_blankMachine) ⟨?_, h⟩
  intro w _
  rw [leaf, lookup_blank]
  intro k i
  exact decode_zero k

/-- The first bytes of the large page. -/
theorem walksAgree_first :
    ∃ st, (alignedMappings bump ⟨0x1000⟩).Reachable st ∧
      mapping ⟨0x1000⟩ st.tables 0x400123 = some (1, 0x200083) ∧
      WalksAgree ⟨0x1000⟩ st.tables 0x400123 := by
  obtain ⟨st, hst, hmapping⟩ : ∃ st, (Virtual.mk 0x1000).map bump blankMachine largeMap.v largeMap.p
      largeMap.flags largeMap.type = some st ∧
      mapping ⟨0x1000⟩ st.tables 0x400123 = some (1, 0x200083) := by
    decide +kernel
  refine ⟨st, largeMap_reachable hst, hmapping,
    (walksAgree_iff bump ⟨0x1000⟩ (largeMap_reachable hst) (by decide)).mpr ?_⟩
  intro k e hke
  rw [hmapping, Option.some.injEq, Prod.mk.injEq] at hke
  obtain ⟨rfl, rfl⟩ := hke
  decide

/-- Past the first 4 KiB of a large page `Get` misses the bits of the offset
    above the low twelve. -/
theorem get_misses_offset :
    ∃ st, (alignedMappings bump ⟨0x1000⟩).Reachable st ∧
      hardwareWalk ⟨0x1000⟩ st.tables 0x401123 = some 0x201123 ∧
      PageTable.get ⟨0x1000⟩ st.tables 0x401123 = some 0x200123 ∧
      ¬ WalksAgree ⟨0x1000⟩ st.tables 0x401123 := by
  obtain ⟨st, hst, hwalk, hget⟩ : ∃ st, (Virtual.mk 0x1000).map bump blankMachine largeMap.v
      largeMap.p largeMap.flags largeMap.type = some st ∧
      hardwareWalk ⟨0x1000⟩ st.tables 0x401123 = some 0x201123 ∧
      PageTable.get ⟨0x1000⟩ st.tables 0x401123 = some 0x200123 := by
    decide +kernel
  refine ⟨st, largeMap_reachable hst, hwalk, hget, ?_⟩
  rw [WalksAgree, hwalk]
  rintro ⟨p, hp, -, hq⟩
  rw [hget, Option.some.injEq] at hp
  subst hp
  revert hq
  decide

end Fennix.Memory
