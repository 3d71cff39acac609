import Fennix.Memory.Mprotect
import Fennix.Memory.VirtualAllocation

/-! # Copy-on-write regions

    `CreateCoWRegion` and `HandleCoW` of `Kernel/core/memory/vma.cpp`. A region at a fixed
    address is mapped with the flag `CoW` to pages from physical address 0 on; the fault
    handler asks for a page, zeroes it, and gives the entry the rights of the region. It
    leaves the address of the entry alone, and `ExecuteDisable` gets the right to execute.

    - `handleCoW_eq_true`: what a fault that is handled does.
    - `assign_spec`: what it makes of the entry.
    - `handleCoW_right_iff`: the handler is right exactly if it does not handle the fault.
-/

namespace Fennix.Memory

open Entry

namespace Entry

/-- The bit field `CopyOnWrite`. -/
def copyOnWrite (raw : Word) : Bool := raw.getLsbD 9

/-- The bit field `ExecuteDisable`. -/
def executeDisable (raw : Word) : Bool := raw.getLsbD 63

end Entry

namespace VirtualMemoryArea

/-! ## Section 1: The calls -/

/-- `struct SharedRegion`, without the reference count that nothing uses. -/
structure SharedRegion where
  address : Word
  read : Bool
  write : Bool
  exec : Bool
  fixed : Bool
  shared : Bool
  length : Word
  deriving DecidableEq

/-- An area with its `SharedRegions`. -/
structure RegionArea where
  area : Area
  sharedRegions : List SharedRegion

/-- The entries of all tables. -/
abbrev RegionArea.tables (s : RegionArea) : Tables := s.area.machine.tables

/-- The test of the loop in `HandleCoW`. -/
def SharedRegion.contains (sr : SharedRegion) (pfa : Word) : Bool :=
  sr.address ≤ pfa && pfa < sr.address + sr.length

/-- The assignments to the entry. -/
def SharedRegion.assign (sr : SharedRegion) (raw : Word) : Word :=
  setField (setField (setField (setField raw 1 sr.write) 2 sr.read) 63 sr.exec) 9 false

section calls

variable (vmm : Virtual)

/-- `CreateCoWRegion`: what it returns, and the area afterwards. -/
def createCoWRegion (s : RegionArea) (address length : Word) (read write exec fixed shared : Bool) :
    Option (Word × RegionArea) :=
  if address = 0 then
    (requestPages vmm s.area (toPages length.toNat) true false).map fun (address, area) =>
      (address, { s with area := area })
  else
    (vmm.check s.tables address PTFlag.kRsv.mask).bind fun reserved =>
      -- `-EPERM`
      if reserved then some (-1#64, s)
      else
        let pages := (length.toNat + pageSize - 1) / pageSize
        (vmm.unmapRounds s.tables address pages).bind fun tables =>
          -- the physical address goes up from the null pointer with the virtual one
          (vmm.mapLength kernelAllocator { s.area.machine with tables := tables } address 0
            length.toNat PTFlag.coW.mask).map fun machine =>
            (address,
              { area := { s.area with machine := machine }
                sharedRegions :=
                  s.sharedRegions ++ [⟨address, read, write, exec, fixed, shared, length⟩] })

/-- `HandleCoW`: what it returns, and the area afterwards. A failed assertion has no result. -/
def handleCoW (s : RegionArea) (pfa : Word) : Option (Bool × RegionArea) :=
  (vmm.getPTE s.tables pfa).bind fun pte =>
    match pte with
    | none => some (false, s)
    | some (table, index) =>
      if copyOnWrite (s.tables table index) = false then some (false, s)
      else
        match s.sharedRegions.find? (·.contains pfa) with
        | none => some (false, s)
        | some sr =>
          if sr.shared then some (false, s)
          else
            (requestPages vmm s.area 1 false false).bind fun (pAddr, area) =>
              if pAddr = 0 then some (false, { s with area := area })
              else
                let tables := zeroPages area.machine.tables pAddr 1
                if present (tables table index) then
                  some (true, { s with
                    area := { area with
                      machine := { area.machine with
                        tables := Radix.write tables table index
                          (sr.assign (tables table index)) } } })
                else none

end calls

/-! ## Section 2: Faults that are handled -/

section handled

variable (vmm : Virtual)

/-- The fault is one of a private region: the entry of its page is at `place` with the flag
    `CoW`, `sr` is the first region with the address, and `RequestPages` gives `pAddr`. -/
structure Handles (s : RegionArea) (pfa : Word) (place : Place) (sr : SharedRegion) (pAddr : Word)
    (area : Area) : Prop where
  entry : vmm.getPTE s.tables pfa = some (some place)
  isCopyOnWrite : copyOnWrite (s.tables place.1 place.2) = true
  region : s.sharedRegions.find? (·.contains pfa) = some sr
  isPrivate : sr.shared = false
  request : requestPages vmm s.area 1 false false = some (pAddr, area)
  ne_zero : pAddr ≠ 0
  isPresent : present (zeroPages area.machine.tables pAddr 1 place.1 place.2) = true

/-- The area after such a fault. -/
def handled (s : RegionArea) (place : Place) (sr : SharedRegion) (pAddr : Word) (area : Area) :
    RegionArea :=
  let tables := zeroPages area.machine.tables pAddr 1
  { s with
    area := { area with
      machine := { area.machine with
        tables := Radix.write tables place.1 place.2 (sr.assign (tables place.1 place.2)) } } }

variable {vmm} {s s' : RegionArea} {pfa : Word}

theorem Handles.handleCoW {place : Place} {sr : SharedRegion} {pAddr : Word} {area : Area}
    (h : Handles vmm s pfa place sr pAddr area) :
    handleCoW vmm s pfa = some (true, handled s place sr pAddr area) := by
  have hne : ¬ pAddr = 0#64 := h.ne_zero
  simp [VirtualMemoryArea.handleCoW, h.entry, h.isCopyOnWrite, h.region, h.isPrivate, h.request,
    hne, h.isPresent, handled]

theorem handleCoW_eq_true (h : handleCoW vmm s pfa = some (true, s')) :
    ∃ place sr pAddr area, Handles vmm s pfa place sr pAddr area ∧
      s' = handled s place sr pAddr area := by
  obtain ⟨pte, hpte, h⟩ := Option.bind_eq_some_iff.mp h
  split at h
  · cases h
  · next table index =>
    split at h
    · cases h
    · next hcow =>
      split at h
      · cases h
      · next sr hregion =>
        split at h
        · cases h
        · next hprivate =>
          obtain ⟨⟨pAddr, area⟩, hrequest, h⟩ := Option.bind_eq_some_iff.mp h
          dsimp only at h
          split at h
          · cases h
          · next hne =>
            split at h
            · next hpresent =>
              simp only [Option.some.injEq, Prod.mk.injEq, true_and] at h
              exact ⟨(table, index), sr, pAddr, area,
                ⟨hpte, by simpa using hcow, hregion, by simpa using hprivate, hrequest, hne,
                  hpresent⟩, h.symm⟩
            · cases h

end handled

/-- The assignments leave the address alone; the two rights are those of the region, and
    execution is disabled where the region allows it. -/
theorem assign_spec (sr : SharedRegion) (raw : Word) :
    pointer (sr.assign raw) = pointer raw ∧ readWrite (sr.assign raw) = sr.write ∧
      userSupervisor (sr.assign raw) = sr.read ∧ executeDisable (sr.assign raw) = sr.exec ∧
      copyOnWrite (sr.assign raw) = false := by
  have hbit : ∀ i, (sr.assign raw).getLsbD i =
      if i = 9 then false else if i = 63 then sr.exec else if i = 2 then sr.read
      else if i = 1 then sr.write else raw.getLsbD i := by
    intro i
    rw [SharedRegion.assign, Mprotect.getLsbD_setField _ (by decide),
      Mprotect.getLsbD_setField _ (by decide), Mprotect.getLsbD_setField _ (by decide),
      Mprotect.getLsbD_setField _ (by decide)]
  refine ⟨?_, hbit 1, hbit 2, hbit 63, hbit 9⟩
  rw [pointer_eq, pointer_eq]
  apply BitVec.eq_of_getLsbD_eq
  intro i _
  rw [BitVec.getLsbD_and, BitVec.getLsbD_and, getLsbD_addressMask, hbit]
  by_cases hi : 12 ≤ i ∧ i < 52
  · have h9 : i ≠ 9 := by omega
    have h63 : i ≠ 63 := by omega
    have h2 : i ≠ 2 := by omega
    have h1 : i ≠ 1 := by omega
    simp [h9, h63, h2, h1]
  · simp [hi]

/-! ## Section 3: What a fault should do -/

/-- What a fault that is handled should leave. The entry of the page is where it was, as no
    table moves; it maps the page to the one that was asked for, which is zero and mapped
    nowhere else, with the rights of the region; and the entries of other pages are as
    before. -/
structure RightAfter (vmm : Virtual) (s s' : RegionArea) (pfa : Word) (place : Place)
    (sr : SharedRegion) (pAddr : Word) (area : Area) : Prop where
  handles : Handles vmm s pfa place sr pAddr area
  entry : vmm.getPTE s'.tables pfa = some (some place)
  mapped : pointer (s'.tables place.1 place.2) = pAddr
  zero : ∀ i, s'.tables pAddr i = 0
  alone : ∀ w other, vmm.getPTE s'.tables w = some (some other) → other ≠ place →
    pointer (s'.tables other.1 other.2) ≠ pAddr
  write : readWrite (s'.tables place.1 place.2) = sr.write
  read : userSupervisor (s'.tables place.1 place.2) = sr.read
  exec : executeDisable (s'.tables place.1 place.2) = !sr.exec
  others : ∀ w other, vmm.getPTE s.tables w = some (some other) → other ≠ place →
    vmm.getPTE s'.tables w = some (some other) ∧
      s'.tables other.1 other.2 = s.tables other.1 other.2

theorem not_rightAfter {vmm : Virtual} {s s' : RegionArea} {pfa : Word}
    (h : handleCoW vmm s pfa = some (true, s')) :
    ¬ ∃ place sr pAddr area, RightAfter vmm s s' pfa place sr pAddr area := by
  rintro ⟨place', sr', pAddr', area', hafter⟩
  obtain ⟨place, sr, pAddr, area, hhandles, rfl⟩ := handleCoW_eq_true h
  -- the fault determines the entry and the region
  obtain rfl : place = place' := by
    have hsame := hhandles.entry.symm.trans hafter.handles.entry
    simpa using hsame
  obtain rfl : sr = sr' := Option.mem_unique hhandles.region hafter.handles.region
  have hexec := hafter.exec
  simp only [handled, RegionArea.tables, Radix.write_self, (assign_spec sr _).2.2.2.1] at hexec
  cases hbit : sr.exec <;> simp [hbit] at hexec

/-- For every page table, list of regions and address: what the handler leaves when it returns
    true is right exactly if the fault is not one that it handles. -/
theorem handleCoW_right_iff (vmm : Virtual) (s : RegionArea) (pfa : Word) :
    (∀ s', handleCoW vmm s pfa = some (true, s') →
        ∃ place sr pAddr area, RightAfter vmm s s' pfa place sr pAddr area) ↔
      ¬ ∃ place sr pAddr area, Handles vmm s pfa place sr pAddr area := by
  constructor
  · rintro hright ⟨place, sr, pAddr, area, hhandles⟩
    exact not_rightAfter hhandles.handleCoW (hright _ hhandles.handleCoW)
  · intro hnone s' htrue
    obtain ⟨place, sr, pAddr, area, hhandles, -⟩ := handleCoW_eq_true htrue
    exact absurd ⟨place, sr, pAddr, area, hhandles⟩ hnone

/-- A private region that may be read and written at 4 MiB, and a fault in it: the call returns
    true, the page is still mapped to physical address 0 and may be executed, and the page that
    was asked for is mapped at its own address. -/
theorem fault_leaves_null_page :
    ∃ s s', createCoWRegion ⟨0x1000⟩ ⟨freshArea, []⟩ 0x400000 0x1000 true true false true false =
        some (0x400000, s) ∧
      handleCoW ⟨0x1000⟩ s 0x400123 = some (true, s') ∧
      Virtual.getPhysical ⟨0x1000⟩ s'.tables 0x400123 = some 0 ∧
      s'.area.allocatedPagesList = [⟨0x8000, 1, false⟩] ∧
      Virtual.getPhysical ⟨0x1000⟩ s'.tables 0x8000 = some 0x8000 ∧
      ¬ ∃ place sr pAddr area, RightAfter ⟨0x1000⟩ s s' 0x400123 place sr pAddr area := by
  obtain ⟨s, hcreate, s', hhandle, hnull, hlist, hown⟩ : ∃ s, createCoWRegion ⟨0x1000⟩
      ⟨freshArea, []⟩ 0x400000 0x1000 true true false true false = some (0x400000, s) ∧
      ∃ s', handleCoW ⟨0x1000⟩ s 0x400123 = some (true, s') ∧
        Virtual.getPhysical ⟨0x1000⟩ s'.tables 0x400123 = some 0 ∧
        s'.area.allocatedPagesList = [⟨0x8000, 1, false⟩] ∧
        Virtual.getPhysical ⟨0x1000⟩ s'.tables 0x8000 = some 0x8000 := by
    decide +kernel
  exact ⟨s, s', hcreate, hhandle, hnull, hlist, hown, not_rightAfter hhandle⟩

end VirtualMemoryArea

end Fennix.Memory
