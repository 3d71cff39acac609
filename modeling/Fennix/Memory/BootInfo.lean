import Fennix.Memory.Physical
import Mathlib.Data.List.FinRange

/-! # Boot information and the start of the physical allocator

    `Kernel/include/boot/binfo.h`, `find_bitmap_region.cpp`,
    `reserve_essentials.cpp` and `Physical::Init`.

    `ReserveEssentials` is straight-line code whose calls depend on the boot
    information only, so it is given by the list of its `ReservePages`,
    `UnreservePages` and `ReservePage` calls (`essentials`), which are then
    executed one after the other.
-/

namespace Fennix.Memory

/-! ## Section 1: Boot information -/

/-- `enum MemoryType`. -/
inductive MemoryType where
  | unknownMemoryType
  | usable
  | reserved
  | acpiReclaimable
  | acpiNVS
  | badMemory
  | bootloaderReclaimable
  | kernelAndModules
  | framebuffer
  | unknown
  deriving DecidableEq, Repr

/-- `BootInfo::MemoryInfo::MemoryEntryInfo`. -/
structure MemoryEntry where
  baseAddress : Word
  length : Word
  type : MemoryType

/-- `BootInfo::ModuleInfo`, without its texts. -/
structure ModuleInfo where
  address : Word := 0
  size : Word := 0

/-- `BootInfo::KernelInfo::KernelSymbolInfo`. -/
structure KernelSymbolInfo where
  num : BitVec 32 := 0
  entSize : BitVec 32 := 0
  shndx : BitVec 32 := 0
  sections : Word := 0

/-- `BootInfo::KernelInfo`. -/
structure KernelInfo where
  physicalBase : Word := 0
  fileBase : Word := 0
  size : Word := 0
  symbols : KernelSymbolInfo := {}

/-- `BootInfo::EFIInfo`: the flags and handles that are looked at. -/
structure EFIInfo where
  enabled : Bool := false
  ih : Bool := false
  st : Bool := false
  imageHandle : Word := 0
  systemTable : Word := 0

/-- `struct BootInfo`. -/
structure BootInfo where
  entries : List MemoryEntry
  memorySize : Word
  modules : Fin 4 → ModuleInfo := fun _ => {}
  rsdp : Word := 0
  kernel : KernelInfo := {}
  efi : EFIInfo := {}

/-- What the boot code reads besides `bInfo`: physical memory, and whether
    `Memory::Virtual().Check` finds an address mapped in the boot page table. -/
structure BootEnv where
  ram : Word → BitVec 8
  mapped : Word → Bool

/-- A little-endian value of `n` bytes. -/
def readBytes (ram : Word → BitVec 8) (address : Word) : Nat → Nat
  | 0 => 0
  | n + 1 => readBytes ram address n + (ram (address + BitVec.ofNat 64 n)).toNat * 256 ^ n

def read32 (ram : Word → BitVec 8) (address : Word) : BitVec 32 :=
  BitVec.ofNat 32 (readBytes ram address 4)

def read64 (ram : Word → BitVec 8) (address : Word) : Word :=
  BitVec.ofNat 64 (readBytes ram address 8)

/-! ## Section 2: ELF sections and ACPI tables -/

/-- The fields of `Elf64_Shdr` that are looked at. -/
structure SectionHeader where
  shType : BitVec 32
  shAddr : Word
  shSize : Word
  shLink : BitVec 32

def readSectionHeader (ram : Word → BitVec 8) (address : Word) : SectionHeader where
  shType := read32 ram (address + 4)
  shAddr := read64 ram (address + 16)
  shSize := read64 ram (address + 32)
  shLink := read32 ram (address + 40)

/-- The search for the symbol table: the first section of type `SHT_SYMTAB`
    whose linked section is of type `SHT_STRTAB`, with that section. The
    offset of the linked section is a product of two 32-bit values. -/
def findSymbols (k : KernelSymbolInfo) (ram : Word → BitVec 8) :
    List Nat → Option (SectionHeader × SectionHeader)
  | [] => none
  | i :: rest =>
    let sym := readSectionHeader ram
      (k.sections + k.entSize.setWidth 64 * BitVec.ofNat 64 i)
    let str := readSectionHeader ram (k.sections + (k.entSize * sym.shLink).setWidth 64)
    if sym.shType = 2 ∧ str.shType = 3 then some (sym, str)
    else findSymbols k ram rest

/-- `Num && EntSize && Shndx`. -/
def KernelSymbolInfo.given (k : KernelSymbolInfo) : Bool :=
  k.num ≠ 0 ∧ k.entSize ≠ 0 ∧ k.shndx ≠ 0

/-- `bInfo.Kernel.Symbols.EntSize * bInfo.Kernel.Symbols.Num`, a 32-bit product. -/
def KernelSymbolInfo.bytes (k : KernelSymbolInfo) : BitVec 32 := k.entSize * k.num

/-- The symbol and string table sections, when the kernel came with any. -/
def symbolTables (bInfo : BootInfo) (env : BootEnv) : Option (SectionHeader × SectionHeader) :=
  if bInfo.kernel.symbols.given then
    findSymbols bInfo.kernel.symbols env.ram (List.range bInfo.kernel.symbols.num.toNat)
  else none

/-- `sizeof(BootInfo::RSDPInfo)`. -/
def sizeofRSDPInfo : Nat := 36

/-- `sizeof(ACPI::ACPI::ACPIHeader)`. -/
def sizeofACPIHeader : Nat := 36

/-- `bInfo.RSDP->Revision >= 2 && bInfo.RSDP->XSDTAddress`. -/
def hasXSDT (bInfo : BootInfo) (env : BootEnv) : Bool :=
  (env.ram (bInfo.rsdp + 15)).toNat ≥ 2 ∧ read64 env.ram (bInfo.rsdp + 24) ≠ 0

/-- `ACPIPtr`. -/
def acpiPtr (bInfo : BootInfo) (env : BootEnv) : Word :=
  if hasXSDT bInfo env then read64 env.ram (bInfo.rsdp + 24)
  else (read32 env.ram (bInfo.rsdp + 16)).setWidth 64

/-- `SDTHdr` of table `t`. -/
def acpiTable (bInfo : BootInfo) (env : BootEnv) (t : Nat) : Word :=
  let first := acpiPtr bInfo env + BitVec.ofNat 64 sizeofACPIHeader
  if hasXSDT bInfo env then read64 env.ram (first + BitVec.ofNat 64 (t * 8))
  else (read32 env.ram (first + BitVec.ofNat 64 (t * 4))).setWidth 64

/-- `TableSize`. -/
def acpiTableCount (bInfo : BootInfo) (env : BootEnv) : Nat :=
  ((read32 env.ram (acpiPtr bInfo env + 4)).setWidth 64 -
    BitVec.ofNat 64 sizeofACPIHeader).toNat / (if hasXSDT bInfo env then 8 else 4)

/-! ## Section 3: `Physical::FindBitmapRegion` -/

/-- `struct AddrRange`, without its description. -/
structure AddrRange where
  start : Word
  stop : Word

/-- The inner loop of `SortAddresses`: the index of the smallest start from
    `i` on. -/
def minimumIndex (ranges : List AddrRange) (i : Nat) : Nat :=
  (List.range ranges.length).foldl (fun m j =>
    if i < j then
      match ranges[j]?, ranges[m]? with
      | some rj, some rm => if rj.start < rm.start then j else m
      | _, _ => m
    else m) i

/-- `SortAddresses`: selection sort on the starts. -/
def sortAddresses (ranges : List AddrRange) : List AddrRange :=
  (List.range (ranges.length - 1)).foldl (fun rs i =>
    let m := minimumIndex rs i
    match rs[m]?, rs[i]? with
    | some rm, some ri => (rs.set m ri).set i rm
    | _, _ => rs) ranges

/-- `PtrArray`. -/
def ptrArray (bInfo : BootInfo) (env : BootEnv) : List AddrRange :=
  let k := bInfo.kernel
  let sections : AddrRange :=
    if k.symbols.given then
      ⟨k.symbols.sections, k.symbols.sections + k.symbols.bytes.setWidth 64⟩
    else ⟨0, 0⟩
  let tables : AddrRange × AddrRange :=
    match symbolTables bInfo env with
    | some (sym, str) =>
      (⟨sym.shAddr, sym.shAddr + sym.shSize⟩, ⟨str.shAddr, str.shAddr + str.shSize⟩)
    | none => (⟨0, 0⟩, ⟨0, 0⟩)
  let rsdp : AddrRange :=
    if bInfo.rsdp ≠ 0 then ⟨bInfo.rsdp, bInfo.rsdp + BitVec.ofNat 64 sizeofRSDPInfo⟩ else ⟨0, 0⟩
  [⟨k.physicalBase, k.physicalBase + k.size⟩, sections, tables.1, tables.2, rsdp,
    ⟨k.fileBase, k.fileBase + k.size⟩] ++
  (List.finRange 4).map fun i =>
    ⟨(bInfo.modules i).address, (bInfo.modules i).address + (bInfo.modules i).size⟩

/-- `MaxEnd`: the largest end of a range that touches the region. -/
def maxEnd (ranges : List AddrRange) (regionAddress regionSize : Word) : Word :=
  ranges.foldl (fun m r =>
    if r.start = 0 then m
    else if r.start < regionAddress + regionSize ∧ r.stop > regionAddress then
      if r.stop > m then r.stop else m
    else m) regionAddress

/-- `BitmapSize` in bytes. -/
def bitmapSize (memorySize : Word) : Nat := memorySize.toNat / pageSize / 8 + 1

/-- The loop of `FindBitmapRegion` over the memory map. Its two results are
    written before a region is accepted and keep their values when it is
    rejected afterwards. -/
def findRegion (ranges : List AddrRange) (bytes : Word) :
    List MemoryEntry → Word × Word → Word × Word
  | [], acc => acc
  | e :: rest, acc =>
    if e.type = .usable then
      -- the lower part of memory is never used for the bitmap
      if e.baseAddress ≤ 0xFFFFF then findRegion ranges bytes rest acc
      else if bytes + 0x100 > e.length then findRegion ranges bytes rest acc
      else
        let m := maxEnd ranges e.baseAddress e.length
        if m ≥ e.baseAddress ∧ m < e.baseAddress + e.length then
          let size := e.baseAddress + e.length - m
          -- too small after all, with `BitmapAddress` already written
          if bytes + 0x100 > size then findRegion ranges bytes rest (m, size)
          else (m, size)
        -- a range reaches to the end of the region: the results keep its base
        else findRegion ranges bytes rest (e.baseAddress, e.length)
    else findRegion ranges bytes rest acc

/-- `Physical::FindBitmapRegion`: `BitmapAddress` and `BitmapAddressSize`. -/
def findBitmapRegion (bInfo : BootInfo) (env : BootEnv) : Word × Word :=
  findRegion (sortAddresses (ptrArray bInfo env)) (BitVec.ofNat 64 (bitmapSize bInfo.memorySize))
    bInfo.entries (0, 0)

/-! ## Section 4: `Physical::ReserveEssentials` -/

/-- `TO_PAGES` on a 32-bit value. -/
def toPages32 (d : BitVec 32) : Nat := (d + 0xFFF).toNat / pageSize

/-- A call that `ReserveEssentials` makes. -/
inductive Reservation where
  | reservePages (address : Word) (pageCount : Nat)
  | unreservePages (address : Word) (pageCount : Nat)
  | reservePage (address : Word)

def Reservation.run (s : Physical) : Reservation → Physical
  | .reservePages address pageCount => s.reservePages address.toNat pageCount
  | .unreservePages address pageCount => s.unreservePages address.toNat pageCount
  | .reservePage address => s.reservePage address.toNat

/-- The usable entries above the first mebibyte are given back. -/
def usableEntries (bInfo : BootInfo) : List Reservation :=
  bInfo.entries.filterMap fun e =>
    if e.type = .usable ∧ ¬ e.baseAddress ≤ 0xFFFFF then
      some (.unreservePages e.baseAddress (toPages e.length.toNat))
    else none

/-- The section table and the symbol and string tables. The sizes of the two
    tables are cast to `int` on the way. -/
def symbolReservations (bInfo : BootInfo) (env : BootEnv) : List Reservation :=
  if bInfo.kernel.symbols.given then
    .reservePages bInfo.kernel.symbols.sections (toPages32 bInfo.kernel.symbols.bytes) ::
    match symbolTables bInfo env with
    | some (sym, str) =>
      let symbolSize := (sym.shSize.setWidth 32).signExtend 64
      let stringSize := (str.shSize.setWidth 32).signExtend 64
      -- once in the search loop and once more after it
      [.reservePages sym.shAddr (toPages symbolSize.toNat)] ++
      (if sym.shAddr ≠ 0 then [.reservePages sym.shAddr (toPages symbolSize.toNat)] else []) ++
      (if str.shAddr ≠ 0 then [.reservePages str.shAddr (toPages stringSize.toNat)] else [])
    | none => []
  else []

def moduleReservations (bInfo : BootInfo) : List Reservation :=
  (List.finRange 4).filterMap fun i =>
    if (bInfo.modules i).address = 0 then none
    else some (.reservePages (bInfo.modules i).address (toPages (bInfo.modules i).size.toNat))

/-- The RSDP, the ACPI tables and the EFI handles; an unmapped root table ends
    the function. -/
def acpiReservations (bInfo : BootInfo) (env : BootEnv) : List Reservation :=
  if bInfo.rsdp ≠ 0 then
    [.reservePages bInfo.rsdp (toPages sizeofRSDPInfo),
      .reservePages bInfo.rsdp (toPages sizeofRSDPInfo)] ++
    if env.mapped (acpiPtr bInfo env) then
      (List.range (acpiTableCount bInfo env)).map (fun t =>
        .reservePages (acpiTable bInfo env t)
          (toPages32 (read32 env.ram (acpiTable bInfo env t + 4)))) ++
      if bInfo.efi.enabled then
        (if bInfo.efi.ih then [.reservePage bInfo.efi.imageHandle] else []) ++
        (if bInfo.efi.st then [.reservePage bInfo.efi.systemTable] else [])
      else []
    else []
  else []

/-- The calls of `Physical::ReserveEssentials`, in order. -/
def essentials (bInfo : BootInfo) (env : BootEnv) (bitmapAddress : Word) : List Reservation :=
  -- everything is reserved first and the usable entries given back
  [.reservePages 0 (toPages bInfo.memorySize.toNat)] ++
  usableEntries bInfo ++
  [.reservePages 0 (toPages 0xFFFFF),
    .reservePages bitmapAddress (toPages (bitmapSize bInfo.memorySize)),
    .reservePages bInfo.kernel.physicalBase (toPages bInfo.kernel.size.toNat)] ++
  (if bInfo.kernel.fileBase ≠ 0 then
    [.reservePages bInfo.kernel.fileBase (toPages bInfo.kernel.size.toNat)] else []) ++
  symbolReservations bInfo env ++
  moduleReservations bInfo ++
  acpiReservations bInfo env

/-! ## Section 5: `Physical::Init` -/

theorem bitmapSize_le (memorySize : Word) : bitmapSize memorySize ≤ 2 ^ 49 := by
  have := memorySize.isLt
  simp only [bitmapSize, pageSize]
  omega

/-- The allocator as `Init` hands it to `ReserveEssentials`: the counters are
    stored and the bitmap is zeroed. `after` is the memory at the bitmap, of
    which what follows the bitmap keeps its contents. -/
def Physical.blank (memorySize : Word) (after : Nat → BitVec 8) : Physical where
  totalMemory := memorySize.toNat
  freeMemory := memorySize.toNat
  reservedMemory := 0
  usedMemory := 0
  pageBitmapIndex := 0
  pageBitmap :=
    { size := bitmapSize memorySize
      buffer := fun i => if i < bitmapSize memorySize then 0 else after i
      size_le := bitmapSize_le memorySize }

/-- `Physical::ReserveEssentials`. -/
def Physical.reserveEssentials (s : Physical) (bInfo : BootInfo) (env : BootEnv)
    (bitmapAddress : Word) : Physical :=
  (essentials bInfo env bitmapAddress).foldl Reservation.run s

/-- `Physical::Init`; `none` when it stops for lack of memory. -/
def Physical.init (bInfo : BootInfo) (env : BootEnv) : Option Physical :=
  let bitmapAddress := (findBitmapRegion bInfo env).1
  if bitmapAddress = 0 then none
  else
    some ((Physical.blank bInfo.memorySize fun i =>
      env.ram (bitmapAddress + BitVec.ofNat 64 i)).reserveEssentials bInfo env bitmapAddress)

/-! ## Section 6: A small machine -/

namespace Physical

/-- A machine with the first mebibyte reserved and four usable pages above
    it. `Init` puts the bitmap into the first of the four. -/
def smallBoot : BootInfo where
  entries := [⟨0x0, 0x100000, .reserved⟩, ⟨0x100000, 0x4000, .usable⟩]
  memorySize := 0x104000

/-- Zeroed memory, nothing mapped. -/
def blankEnv : BootEnv where
  ram := fun _ => 0
  mapped := fun _ => false

/-- The bitmap that `Init` sets up on `smallBoot`: pages 0 to 256 are in use,
    the pages from 257 to the end of the bitmap (and its neighbour 264) are free. -/
theorem init_smallBoot :
    ∃ s, init smallBoot blankEnv = some s ∧ s.pageBitmap.bits = 264 ∧
      s.pageBitmapIndex = 0 ∧ nextFree s.pageBitmap 0 = 257 ∧
      ∀ p, 257 ≤ p → p ≤ 264 → s.pageBitmap.get p = false := by
  obtain ⟨s, hs, hbits, hindex, hfree, hget⟩ : ∃ s, init smallBoot blankEnv = some s ∧
      s.pageBitmap.bits = 264 ∧ s.pageBitmapIndex = 0 ∧ nextFree s.pageBitmap 0 = 257 ∧
      ∀ i < 8, s.pageBitmap.get (257 + i) = false := by
    decide +kernel
  refine ⟨s, hs, hbits, hindex, hfree, fun p hfirst hlast => ?_⟩
  have := hget (p - 257) (by omega)
  rwa [Nat.add_sub_cancel' hfirst] at this

end Physical

end Fennix.Memory
