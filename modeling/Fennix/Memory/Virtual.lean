import Fennix.Memory.Table

/-! # The virtual memory manager

    `Kernel/arch/amd64/memory/vmm.cpp`. The tables live in physical memory,
    which the kernel sees at its own addresses; a table is read and written
    through its 512 entries.

    `Map` and `Remap` get the pages of new tables from `KernelAllocator`. Here
    the allocator is a `Supplier`: what it is asked for, what it answers and
    the promise that an answer is a page that nobody else has. A call returns
    nothing (`none`) when an assertion fails or the supplier does not return.
-/

namespace Fennix.Memory

open Entry

/-! ## Section 1: The supplier of pages -/

/-- Addresses that fit the address field of an entry: page aligned and below
    `2 ^ 52`. -/
def IsPage (address : Word) : Prop := address &&& addressMask = address

instance (address : Word) : Decidable (IsPage address) := inferInstanceAs (Decidable (_ = _))

/-- Where table pages come from. `request s n` asks for `n` consecutive pages
    in state `s` and returns the address of the first, which must be a page
    that is not taken. -/
structure Supplier (σ : Type) where
  request : σ → Nat → Option (Word × σ)
  Taken : σ → Word → Prop
  /-- The states in which the supplier keeps its promise. -/
  Valid : σ → Prop
  valid : ∀ {s n page s'}, Valid s → 0 < n → request s n = some (page, s') → Valid s'
  isPage : ∀ {s n page s'}, Valid s → 0 < n → request s n = some (page, s') →
    IsPage page ∧ page ≠ 0
  fresh : ∀ {s n page s'}, Valid s → 0 < n → request s n = some (page, s') → ¬ Taken s page
  taken : ∀ {s n page s'}, Valid s → 0 < n → request s n = some (page, s') → Taken s' page
  taken_mono : ∀ {s n page s' other}, Valid s → 0 < n → request s n = some (page, s') →
    Taken s other → Taken s' other

theorem isPage_shift {n : Nat} (h : n < 2 ^ 40) : IsPage (BitVec.ofNat 64 n <<< 12) := by
  apply BitVec.eq_of_getLsbD_eq
  intro i hi
  rw [BitVec.getLsbD_and, getLsbD_addressMask, BitVec.getLsbD_shiftLeft, BitVec.getLsbD_ofNat]
  by_cases hlow : i < 12
  · simp [hlow]
  · by_cases hhigh : 52 ≤ i
    · have : n.testBit (i - 12) = false :=
        Nat.testBit_lt_two_pow (Nat.lt_of_lt_of_le h (Nat.pow_le_pow_right (by omega) (by omega)))
      simp [this]
    · simp [show 12 ≤ i from by omega, show i < 52 from by omega]

theorem toNat_shift {n : Nat} (h : n < 2 ^ 40) : (BitVec.ofNat 64 n <<< 12).toNat = n * 4096 := by
  rw [BitVec.toNat_shiftLeft, BitVec.toNat_ofNat, Nat.shiftLeft_eq]
  omega

/-- A supplier that hands out page after page. Its state is the number of the
    next page. -/
def bump : Supplier Nat where
  request := fun n count =>
    if n + count ≤ 2 ^ 40 then some (BitVec.ofNat 64 n <<< 12, n + count) else none
  Taken := fun n page => page.toNat < n * 4096
  Valid := fun n => 0 < n ∧ n ≤ 2 ^ 40
  valid := by
    intro n count page n' hn _ h
    simp only [Option.ite_none_right_eq_some, Option.some.injEq, Prod.mk.injEq] at h
    omega
  isPage := by
    intro n count page n' hn hcount h
    simp only [Option.ite_none_right_eq_some, Option.some.injEq, Prod.mk.injEq] at h
    obtain ⟨hle, rfl, _⟩ := h
    refine ⟨isPage_shift (by omega), fun hzero => ?_⟩
    have : n * 4096 = 0 := by
      rw [← toNat_shift (by omega), hzero]
      rfl
    omega
  fresh := by
    intro n count page n' hn hcount h
    simp only [Option.ite_none_right_eq_some, Option.some.injEq, Prod.mk.injEq] at h
    obtain ⟨hle, rfl, _⟩ := h
    rw [toNat_shift (by omega)]
    omega
  taken := by
    intro n count page n' hn hcount h
    simp only [Option.ite_none_right_eq_some, Option.some.injEq, Prod.mk.injEq] at h
    obtain ⟨hle, rfl, rfl⟩ := h
    rw [toNat_shift (by omega)]
    omega
  taken_mono := by
    intro n count page n' other hn hcount h ht
    simp only [Option.ite_none_right_eq_some, Option.some.injEq, Prod.mk.injEq] at h
    obtain ⟨_, _, rfl⟩ := h
    exact Nat.lt_of_lt_of_le ht (Nat.mul_le_mul_right _ (by omega))

/-- The entries of all tables. -/
abbrev Tables := Radix.Store Word TableIndex Word

/-- Memory and the state of the supplier. -/
structure Machine (σ : Type) where
  tables : Tables
  supply : σ

/-- Entry `index` of `table` is set. -/
def Machine.write {σ : Type} (st : Machine σ) (table : Word) (index : TableIndex)
    (entry : Word) : Machine σ :=
  { st with tables := Radix.write st.tables table index entry }

@[simp] theorem Machine.write_tables {σ : Type} (st : Machine σ) (table : Word)
    (index : TableIndex) (entry : Word) :
    (st.write table index entry).tables = Radix.write st.tables table index entry := rfl

/-- `Virtual::MapType`. -/
inductive MapType where
  | noMapType
  | fourKiB
  | twoMiB
  | fourMiB
  | oneGiB
  deriving DecidableEq, Repr

/-- `class Virtual`, a view of one page table. -/
structure Virtual where
  pTable : Word

namespace Virtual

/-! ## Section 2: Reading the tables -/

/-- `Virtual::Check`. The type argument is not used by the source. -/
def check (vmm : Virtual) (m : Tables) (virtualAddress flag : Word) : Option Bool :=
  (pageMapIndexer (pageBase virtualAddress)).map fun index =>
    -- `Present` is tested here only; further down a null address is what stops the walk
    let pml4 := m vmm.pTable index.pmlIndex
    if present pml4 then
      let pdpt := pointer pml4
      if pdpt = 0 then false
      else
        let pdpte := m pdpt index.pdpteIndex
        if isPageSize pdpte then decide (pdpte &&& flag ≠ 0)
        else
          let pd := pointer pdpte
          if pd = 0 then false
          else
            let pde := m pd index.pdeIndex
            if isPageSize pde then decide (pde &&& flag ≠ 0)
            else
              let pt := pointer pde
              if pt = 0 then false
              else decide (m pt index.pteIndex &&& flag ≠ 0)
    else false

/-- `Virtual::GetPhysical`; the null pointer is `some 0`. -/
def getPhysical (vmm : Virtual) (m : Tables) (virtualAddress : Word) : Option Word :=
  (pageMapIndexer (pageBase virtualAddress)).map fun index =>
    let pml4 := m vmm.pTable index.pmlIndex
    if present pml4 then
      let pdpt := pointer pml4
      if pdpt ≠ 0 then
        let pdpte := m pdpt index.pdpteIndex
        if present pdpte then
          if isPageSize pdpte then pointer pdpte
          else
            let pd := pointer pdpte
            if pd ≠ 0 then
              let pde := m pd index.pdeIndex
              if present pde then
                if isPageSize pde then pointer pde
                else
                  let pt := pointer pde
                  if pt ≠ 0 then
                    let pte := m pt index.pteIndex
                    if present pte then pointer pte else 0
                  else 0
              else 0
            else 0
        else 0
      else 0
    else 0

/-- `Virtual::GetMapType`. -/
def getMapType (vmm : Virtual) (m : Tables) (virtualAddress : Word) : Option MapType :=
  (pageMapIndexer (pageBase virtualAddress)).map fun index =>
    let pml4 := m vmm.pTable index.pmlIndex
    if present pml4 then
      let pdpt := pointer pml4
      if pdpt = 0 ∨ present (m pdpt index.pdpteIndex) = false then .noMapType
      else if isPageSize (m pdpt index.pdpteIndex) then .oneGiB
      else
        let pd := pointer (m pdpt index.pdpteIndex)
        if pd = 0 ∨ present (m pd index.pdeIndex) = false then .noMapType
        else if isPageSize (m pd index.pdeIndex) then .twoMiB
        else
          let pt := pointer (m pd index.pdeIndex)
          if pt = 0 then .noMapType
          else if present (m pt index.pteIndex) then .fourKiB
          else .noMapType
    else .noMapType

/-! ## Section 3: Changing the tables -/

section changes

variable {σ : Type} (S : Supplier σ)

/-- One directory level of `Map` and `Remap`: the entry at `index` of `table`
    gets a blank table if it is not present, and the directory flags. -/
def openDirectory (directoryFlags : Word) (st : Machine σ) (table : Word)
    (index : TableIndex) : Option (Word × Machine σ) :=
  if present (st.tables table index) then
    some (pointer (st.tables table index),
      st.write table index (st.tables table index ||| directoryFlags))
  else
    -- two pages, of which the first is zeroed and linked
    (S.request st.supply (toPages (4096 + 1))).map fun (page, supply) =>
      let tables := Radix.fill st.tables page 0
      let entry := setAddress (tables table index ||| 1#64) (page >>> 12)
      (page, { tables := Radix.write tables table index (entry ||| directoryFlags), supply })

/-- The directory levels on the way to the entry of a mapping. -/
def openPath (directoryFlags : Word) :
    Machine σ → Word → List TableIndex → Option (Word × Machine σ)
  | st, table, [] => some (table, st)
  | st, table, index :: rest =>
    (openDirectory S directoryFlags st table index).bind fun (next, st') =>
      openPath directoryFlags st' next rest

/-- The directories above the entry that a mapping of this type sets. -/
def directories (index : PageMapIndexer) : MapType → List TableIndex
  | .oneGiB => [index.pmlIndex]
  | .twoMiB => [index.pmlIndex, index.pdpteIndex]
  | _ => [index.pmlIndex, index.pdpteIndex, index.pdeIndex]

/-- The index of that entry in its table. -/
def slot (index : PageMapIndexer) : MapType → TableIndex
  | .oneGiB => index.pdpteIndex
  | .twoMiB => index.pdeIndex
  | _ => index.pteIndex

/-- The common body of `Map` and `Remap`, which differ in what they make of
    the old entry. -/
def place (entry : Word → Word) (vmm : Virtual) (st : Machine σ)
    (virtualAddress flags : Word) (type : MapType) : Option (Machine σ) :=
  -- "No page table"
  if vmm.pTable = 0 then some st
  else
    (pageMapIndexer virtualAddress).bind fun index =>
      -- directories get the flags up to `Accessed`, and no test of `PageSize` on the way
      (openPath S (flags &&& 0x3F#64) st vmm.pTable (directories index type)).map
        fun (table, st') =>
          st'.write table (slot index type) (entry (st'.tables table (slot index type)))

/-- The entry that `Map` writes. -/
def mapEntry (physicalAddress flags : Word) (type : MapType) (raw : Word) : Word :=
  match type with
  -- whatever the old entry holds stays, but for the address
  | .oneGiB | .twoMiB => setAddress ((raw ||| flags) ||| 0x80#64) (physicalAddress >>> 12)
  | _ => setAddress ((raw ||| 1#64) ||| flags) (physicalAddress >>> 12)

/-- `Virtual::Map`. -/
def map (vmm : Virtual) (st : Machine σ) (virtualAddress physicalAddress flags : Word)
    (type : MapType) : Option (Machine σ) :=
  place S (mapEntry physicalAddress (flags ||| PTFlag.p.mask) type) vmm st virtualAddress
    (flags ||| PTFlag.p.mask) type

/-- The entry that `Remap` writes. -/
def remapEntry (physicalAddress flags : Word) (type : MapType) (raw : Word) : Word :=
  match type with
  -- the low 12 bits of the old entry stay
  | .oneGiB | .twoMiB =>
    setAddress (((raw &&& 0xFFF#64) ||| flags) ||| 0x80#64) (physicalAddress >>> 12)
  | _ => setAddress (((raw &&& 0xFFF#64) ||| flags) ||| 1#64) (physicalAddress >>> 12)

/-- `Virtual::Remap`. -/
def remap (vmm : Virtual) (st : Machine σ) (virtualAddress physicalAddress flags : Word)
    (type : MapType) : Option (Machine σ) :=
  place S (remapEntry physicalAddress (flags ||| PTFlag.p.mask) type) vmm st virtualAddress
    (flags ||| PTFlag.p.mask) type

/-- Clear the bit field `Present` of an entry. -/
def clearPresent (m : Tables) (table : Word) (index : TableIndex) : Tables :=
  Radix.write m table index (m table index &&& ~~~ 1#64)

/-- `Virtual::Unmap`. -/
def unmap (vmm : Virtual) (m : Tables) (virtualAddress : Word) (type : MapType) :
    Option Tables :=
  if vmm.pTable = 0 then some m
  else
    (pageMapIndexer virtualAddress).map fun index =>
      let pml4 := m vmm.pTable index.pmlIndex
      if present pml4 then
        let pdpt := pointer pml4
        let pdpte := m pdpt index.pdpteIndex
        if present pdpte then
          -- a large page of another type is walked through like a directory
          if type = .oneGiB ∧ isPageSize pdpte = true then clearPresent m pdpt index.pdpteIndex
          else
            let pd := pointer pdpte
            let pde := m pd index.pdeIndex
            if present pde then
              if type = .twoMiB ∧ isPageSize pde = true then clearPresent m pd index.pdeIndex
              else
                let pt := pointer pde
                if present (m pt index.pteIndex) then clearPresent m pt index.pteIndex else m
            else m
        else m
      else m

end changes

end Virtual

end Fennix.Memory
