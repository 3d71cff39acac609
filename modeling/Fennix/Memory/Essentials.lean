import Fennix.Memory.BootInfo
import Fennix.Memory.PhysicalOwnership

/-! # The pages that `Init` keeps back

    `ReserveEssentials` reserves everything, gives back what the memory map
    calls usable and then reserves the ranges the kernel needs again. Each of
    them is reserved as `TO_PAGES(size)` pages from the page of its first byte
    on. A range that does not start at a page boundary can take one page more.

    The first two sections say what the calls do to the bitmap, the third
    which pages of the essential ranges are reserved in the end.
-/

namespace Fennix.Memory

/-! ## Section 1: Essential ranges -/

/-- A range of physical memory that the kernel needs, and the number of pages
    that `ReserveEssentials` reserves for it. -/
structure EssentialRange where
  address : Word
  size : Nat
  pageCount : Nat
  deriving DecidableEq

namespace EssentialRange

/-- The page contains a byte of the range. -/
def Touches (r : EssentialRange) (p : Nat) : Prop :=
  ∃ x < r.size, r.address.toNat + x < 2 ^ 64 ∧ (r.address.toNat + x) / pageSize = p

/-- The page of the first byte. -/
def first (r : EssentialRange) : Nat := r.address.toNat / pageSize

/-- The page of the last byte. -/
def last (r : EssentialRange) : Nat :=
  (min (r.address.toNat + r.size) (2 ^ 64) - 1) / pageSize

/-- The call that reserves the range. -/
def call (r : EssentialRange) : Reservation := .reservePages r.address r.pageCount

/-- A page of the range that its own call leaves out. -/
def Overhang (r : EssentialRange) (p : Nat) : Prop := r.first + r.pageCount ≤ p ∧ p ≤ r.last

theorem touches_iff {r : EssentialRange} {p : Nat} :
    r.Touches p ↔ 0 < r.size ∧ r.first ≤ p ∧ p ≤ r.last := by
  have haddress := r.address.isLt
  simp only [Touches, first, last, pageSize]
  constructor
  · rintro ⟨x, hx, hlt, rfl⟩
    omega
  · rintro ⟨hsize, hfirst, hlast⟩
    -- the first byte of the range, or of the page
    by_cases hp : p = r.address.toNat / 0x1000
    · exact ⟨0, hsize, haddress, by omega⟩
    · exact ⟨p * 0x1000 - r.address.toNat, by omega, by omega, by omega⟩

end EssentialRange

/-- The section table, and the symbol and string tables it leads to. -/
def symbolRanges (bInfo : BootInfo) (env : BootEnv) : List EssentialRange :=
  let k := bInfo.kernel.symbols
  if k.given then
    ⟨k.sections, k.entSize.toNat * k.num.toNat, toPages32 k.bytes⟩ ::
    match symbolTables bInfo env with
    | some (sym, str) =>
      ⟨sym.shAddr, sym.shSize.toNat, toPages ((sym.shSize.setWidth 32).signExtend 64).toNat⟩ ::
      (if str.shAddr ≠ 0 then
        [⟨str.shAddr, str.shSize.toNat,
          toPages ((str.shSize.setWidth 32).signExtend 64).toNat⟩] else [])
    | none => []
  else []

def moduleRanges (bInfo : BootInfo) : List EssentialRange :=
  (List.finRange 4).filterMap fun i =>
    if (bInfo.modules i).address = 0 then none
    else some ⟨(bInfo.modules i).address, (bInfo.modules i).size.toNat,
      toPages (bInfo.modules i).size.toNat⟩

/-- What is in memory when `Init` starts: the kernel, its file, its tables, the
    modules and the RSDP. A file, a string table, a module or an RSDP at
    address 0 is none. -/
def occupiedRanges (bInfo : BootInfo) (env : BootEnv) : List EssentialRange :=
  [⟨bInfo.kernel.physicalBase, bInfo.kernel.size.toNat, toPages bInfo.kernel.size.toNat⟩] ++
  (if bInfo.kernel.fileBase ≠ 0 then
    [⟨bInfo.kernel.fileBase, bInfo.kernel.size.toNat, toPages bInfo.kernel.size.toNat⟩] else []) ++
  symbolRanges bInfo env ++
  moduleRanges bInfo ++
  (if bInfo.rsdp ≠ 0 then [⟨bInfo.rsdp, sizeofRSDPInfo, toPages sizeofRSDPInfo⟩] else [])

/-- The ranges in the order in which they are reserved, the bitmap first. -/
def essentialRanges (bInfo : BootInfo) (env : BootEnv) (bitmapAddress : Word) :
    List EssentialRange :=
  ⟨bitmapAddress, bitmapSize bInfo.memorySize, toPages (bitmapSize bInfo.memorySize)⟩ ::
    occupiedRanges bInfo env

/-- The calls that follow once the usable entries are given back. -/
def laterCalls (bInfo : BootInfo) (env : BootEnv) (bitmapAddress : Word) : List Reservation :=
  [.reservePages 0 (toPages 0xFFFFF),
    .reservePages bitmapAddress (toPages (bitmapSize bInfo.memorySize)),
    .reservePages bInfo.kernel.physicalBase (toPages bInfo.kernel.size.toNat)] ++
  (if bInfo.kernel.fileBase ≠ 0 then
    [.reservePages bInfo.kernel.fileBase (toPages bInfo.kernel.size.toNat)] else []) ++
  symbolReservations bInfo env ++
  moduleReservations bInfo ++
  acpiReservations bInfo env

section calls

variable {bInfo : BootInfo} {env : BootEnv} {bitmapAddress : Word} {r : EssentialRange}

theorem essentials_eq (bInfo : BootInfo) (env : BootEnv) (bitmapAddress : Word) :
    essentials bInfo env bitmapAddress =
      .reservePages 0 (toPages bInfo.memorySize.toNat) ::
        (usableEntries bInfo ++ laterCalls bInfo env bitmapAddress) := by
  simp [essentials, laterCalls]

theorem call_mem_symbolReservations (hr : r ∈ symbolRanges bInfo env) :
    r.call ∈ symbolReservations bInfo env := by
  by_cases hgiven : bInfo.kernel.symbols.given
  · simp only [symbolRanges, symbolReservations, hgiven, if_true] at hr ⊢
    rcases List.mem_cons.mp hr with rfl | hr
    · exact List.mem_cons_self
    · apply List.mem_cons_of_mem
      cases htables : symbolTables bInfo env with
      | none => simp [htables] at hr
      | some tables =>
        simp only [htables, List.mem_cons, List.mem_ite_nil_right, List.not_mem_nil,
          or_false] at hr
        simp only [List.mem_append, List.mem_ite_nil_right, List.mem_singleton]
        rcases hr with rfl | ⟨hstr, rfl⟩
        · exact .inl (.inl rfl)
        · exact .inr ⟨hstr, rfl⟩
  · simp [symbolRanges, hgiven] at hr

theorem call_mem_moduleReservations (hr : r ∈ moduleRanges bInfo) :
    r.call ∈ moduleReservations bInfo := by
  obtain ⟨i, hi, hr⟩ := List.mem_filterMap.mp hr
  refine List.mem_filterMap.mpr ⟨i, hi, ?_⟩
  split at hr
  · cases hr
  · rename_i haddress
    cases hr
    exact if_neg haddress

theorem call_mem_laterCalls (hr : r ∈ essentialRanges bInfo env bitmapAddress) :
    r.call ∈ laterCalls bInfo env bitmapAddress := by
  simp only [essentialRanges, occupiedRanges, List.mem_append, List.mem_cons,
    List.mem_ite_nil_right, List.not_mem_nil, or_false] at hr
  simp only [laterCalls, List.mem_append, List.mem_cons, List.mem_ite_nil_right,
    List.not_mem_nil, or_false]
  rcases hr with rfl | (((rfl | ⟨hfile, rfl⟩) | hsymbols) | hmodules) | ⟨hrsdp, rfl⟩
  · exact .inl (.inl (.inl (.inl (.inr (.inl rfl)))))
  · exact .inl (.inl (.inl (.inl (.inr (.inr rfl)))))
  · exact .inl (.inl (.inl (.inr ⟨hfile, rfl⟩)))
  · exact .inl (.inl (.inr (call_mem_symbolReservations hsymbols)))
  · exact .inl (.inr (call_mem_moduleReservations hmodules))
  · refine .inr ?_
    rw [acpiReservations, if_pos hrsdp]
    exact List.mem_cons_self

theorem not_unreservePages_mem (address : Word) (n : Nat) :
    .unreservePages address n ∉ laterCalls bInfo env bitmapAddress := by
  have hsymbols : .unreservePages address n ∉ symbolReservations bInfo env := by
    unfold symbolReservations
    split
    · cases symbolTables bInfo env <;> simp
    · simp
  simp [laterCalls, hsymbols, moduleReservations, acpiReservations]

end calls

/-! ## Section 2: What the calls do to the bitmap -/

/-- The pages that a call reserves. -/
def Reservation.Names (p : Nat) : Reservation → Prop
  | .reservePages address pageCount => ∃ t < pageCount, pageAt address.toNat t = p
  | .unreservePages _ _ => False
  | .reservePage address => address.toNat / pageSize = p

/-- The pages that a memory map entry gives back, while the pages of `used`
    are in use: `UnreservePages` stops at the first page that is not. -/
def MemoryEntry.GivesBack (e : MemoryEntry) (used : Nat → Prop) (p : Nat) : Prop :=
  e.type = .usable ∧ ¬ e.baseAddress ≤ 0xFFFFF ∧
  ∃ t < toPages e.length.toNat, pageAt e.baseAddress.toNat t = p ∧
    ∀ k ≤ t, used (pageAt e.baseAddress.toNat k)

/-- What is left of `used` once the entries have been given back. -/
def StillUsed : List MemoryEntry → (Nat → Prop) → Nat → Prop
  | [], used => used
  | e :: rest, used => StillUsed rest fun p => used p ∧ ¬ e.GivesBack used p

/-- The page is in use before the essential ranges are reserved: it is below
    `Memory.Size` (or is the bit behind the bitmap, which `Get` lets through,
    and found set), and the memory map does not give it back. -/
def KeptBack (bInfo : BootInfo) (after : Nat → BitVec 8) : Nat → Prop :=
  StillUsed bInfo.entries fun p =>
    p < toPages bInfo.memorySize.toNat ∨
      (Physical.blank bInfo.memorySize after).pageBitmap.get p = true

theorem pageAt_eq (address t : Nat) : pageAt address t = (address / pageSize + t) % 2 ^ 52 := by
  simp only [pageAt, pageSize]
  omega

theorem toPages_lt (d : Nat) : toPages d < 2 ^ 52 := by
  simp only [toPages, pageSize]
  omega

namespace Physical

@[simp] theorem unreserveFrom_bits (s : Physical) (address t n : Nat) :
    (s.unreserveFrom address t n).pageBitmap.bits = s.pageBitmap.bits := by
  refine unreserveFrom_induct (P := fun s' => s'.pageBitmap.bits = s.pageBitmap.bits) rfl ?_
  intro s' k _ _ h
  rw [release_bits, h]

theorem unreserveFrom_get {s : Physical} {address t n p : Nat} (hn : t + n ≤ 2 ^ 52) :
    (s.unreserveFrom address t n).pageBitmap.get p = true ↔
      s.pageBitmap.get p = true ∧
        ¬ ∃ k, t ≤ k ∧ k < t + n ∧ pageAt address k = p ∧
          ∀ j, t ≤ j → j ≤ k → s.pageBitmap.get (pageAt address j) = true := by
  induction n generalizing s t with
  | zero =>
    simp only [unreserveFrom, Nat.add_zero]
    constructor
    · intro h
      refine ⟨h, ?_⟩
      rintro ⟨k, hk, hlt, -⟩
      omega
    · exact And.left
  | succ n ih =>
    unfold unreserveFrom
    split
    · -- the first page is free already
      rename_i hfree
      constructor
      · intro h
        refine ⟨h, ?_⟩
        rintro ⟨k, hk, -, -, hall⟩
        rw [hall t (Nat.le_refl t) hk] at hfree
        cases hfree
      · exact And.left
    · rename_i hused
      rw [Bool.not_eq_false] at hused
      -- the pages of the other rounds are other pages
      have hother : ∀ j, t < j → j < t + (n + 1) → pageAt address j ≠ pageAt address t := by
        intro j hj hlt
        rw [pageAt_eq, pageAt_eq]
        omega
      rw [ih (by omega), release_get]
      constructor
      · rintro ⟨⟨hp, hne⟩, hnot⟩
        refine ⟨hp, ?_⟩
        rintro ⟨k, hk, hlt, rfl, hall⟩
        rcases Nat.eq_or_lt_of_le hk with rfl | hk
        · exact hne rfl
        · refine hnot ⟨k, hk, by omega, rfl, fun j hj hjk => ?_⟩
          exact (release_get _ _ _ _).mpr ⟨hall j (by omega) hjk, hother j hj (by omega)⟩
      · rintro ⟨hp, hnot⟩
        refine ⟨⟨hp, ?_⟩, ?_⟩
        · rintro rfl
          refine hnot ⟨t, Nat.le_refl t, by omega, rfl, fun j hj hjt => ?_⟩
          rwa [Nat.le_antisymm hjt hj]
        · rintro ⟨k, hk, hlt, rfl, hall⟩
          refine hnot ⟨k, by omega, by omega, rfl, fun j hj hjk => ?_⟩
          rcases Nat.eq_or_lt_of_le hj with rfl | hj
          · exact hused
          · exact ((release_get _ _ _ _).mp (hall j hj hjk)).1

@[simp] theorem run_bits (s : Physical) (call : Reservation) :
    (call.run s).pageBitmap.bits = s.pageBitmap.bits := by
  cases call <;> simp [Reservation.run, reservePages, unreservePages, reservePage]

theorem foldl_run_bits (calls : List Reservation) (s : Physical) :
    (calls.foldl Reservation.run s).pageBitmap.bits = s.pageBitmap.bits := by
  induction calls generalizing s with
  | nil => rfl
  | cons call calls ih => rw [List.foldl_cons, ih, run_bits]

theorem run_get {call : Reservation}
    (hcall : ∀ address n, call ≠ .unreservePages address n) (s : Physical) (p : Nat) :
    (call.run s).pageBitmap.get p = true ↔
      s.pageBitmap.get p = true ∨ p ≤ s.pageBitmap.bits ∧ call.Names p := by
  cases call with
  | reservePages address n => exact chargePages_get s .reserved address.toNat n p
  | unreservePages address n => exact absurd rfl (hcall address n)
  | reservePage address =>
    have hindex : (if address.toNat = 0 then 0 else address.toNat / pageSize) =
        address.toNat / pageSize := by
      split <;> simp [*]
    simp only [Reservation.run, reservePage, hindex, charge_get, Reservation.Names]
    apply or_congr_right
    constructor
    · rintro ⟨rfl, hle⟩
      exact ⟨hle, rfl⟩
    · rintro ⟨hle, rfl⟩
      exact ⟨rfl, hle⟩

theorem foldl_run_get {calls : List Reservation}
    (hcalls : ∀ address n, .unreservePages address n ∉ calls) (s : Physical) (p : Nat) :
    (calls.foldl Reservation.run s).pageBitmap.get p = true ↔
      s.pageBitmap.get p = true ∨ p ≤ s.pageBitmap.bits ∧ ∃ call ∈ calls, call.Names p := by
  induction calls generalizing s with
  | nil => simp
  | cons call calls ih =>
    simp only [List.mem_cons, not_or] at hcalls
    rw [List.foldl_cons, ih (fun address n => (hcalls address n).2),
      run_get (fun address n h => (hcalls address n).1 h.symm), run_bits]
    simp only [List.mem_cons, exists_eq_or_imp]
    tauto

theorem foldl_usableEntries_get (entries : List MemoryEntry) (s : Physical) (p : Nat) :
    ((entries.filterMap fun e =>
        if e.type = .usable ∧ ¬ e.baseAddress ≤ 0xFFFFF then
          some (Reservation.unreservePages e.baseAddress (toPages e.length.toNat))
        else none).foldl Reservation.run s).pageBitmap.get p = true ↔
      StillUsed entries (fun p => s.pageBitmap.get p = true) p := by
  induction entries generalizing s with
  | nil => simp [StillUsed]
  | cons e entries ih =>
    rw [List.filterMap_cons, StillUsed]
    by_cases he : e.type = .usable ∧ ¬ e.baseAddress ≤ 0xFFFFF
    · simp only [if_pos he, List.foldl_cons, ih]
      have hstep : (fun p => ((Reservation.unreservePages e.baseAddress
            (toPages e.length.toNat)).run s).pageBitmap.get p = true) =
          fun p => s.pageBitmap.get p = true ∧
            ¬ e.GivesBack (fun p => s.pageBitmap.get p = true) p := by
        funext p
        have hpages : 0 + toPages e.length.toNat ≤ 2 ^ 52 := by
          have := toPages_lt e.length.toNat
          omega
        simp only [Reservation.run, unreservePages, unreserveFrom_get hpages,
          MemoryEntry.GivesBack, he, not_false_eq_true, true_and, Nat.zero_le, forall_const,
          Nat.zero_add]
      rw [hstep]
    · have hnone : (fun p => s.pageBitmap.get p = true ∧
            ¬ e.GivesBack (fun p => s.pageBitmap.get p = true) p) =
          fun p => s.pageBitmap.get p = true := by
        funext p
        simp only [MemoryEntry.GivesBack, ← and_assoc, he, false_and, not_false_eq_true, and_true]
      simp only [if_neg he, ih, hnone]

end Physical

/-! ## Section 3: After `Init` -/

theorem used_after_first (memorySize : Word) (after : Nat → BitVec 8) (p : Nat) :
    ((Reservation.reservePages 0 (toPages memorySize.toNat)).run
        (Physical.blank memorySize after)).pageBitmap.get p = true ↔
      p < toPages memorySize.toNat ∨
        (Physical.blank memorySize after).pageBitmap.get p = true := by
  have hpages : toPages memorySize.toNat ≤ (Physical.blank memorySize after).pageBitmap.bits := by
    have := memorySize.isLt
    simp only [Physical.blank, Bitmap.bits, bitmapSize, toPages, pageSize]
    omega
  have hpage : ∀ t < toPages memorySize.toNat, pageAt (0 : Word).toNat t = t := by
    intro t ht
    have := toPages_lt memorySize.toNat
    rw [pageAt_eq, show (0 : Word).toNat = 0 from rfl, Nat.zero_div]
    omega
  rw [Physical.run_get (by simp), or_comm]
  apply or_congr_left
  constructor
  · rintro ⟨-, t, ht, rfl⟩
    rwa [hpage t ht]
  · intro hp
    exact ⟨by omega, p, hp, hpage p hp⟩

section initialised

variable {bInfo : BootInfo} {env : BootEnv} {s : Physical}

theorem init_bits (h : Physical.init bInfo env = some s) :
    s.pageBitmap.bits = bitmapSize bInfo.memorySize * 8 := by
  unfold Physical.init at h
  simp only at h
  split at h
  · cases h
  · cases h
    rw [Physical.reserveEssentials, Physical.foldl_run_bits]
    rfl

theorem init_get (h : Physical.init bInfo env = some s) (p : Nat) :
    s.pageBitmap.get p = true ↔
      KeptBack bInfo (fun i => env.ram ((findBitmapRegion bInfo env).1 + BitVec.ofNat 64 i)) p ∨
        p ≤ bitmapSize bInfo.memorySize * 8 ∧
          ∃ call ∈ laterCalls bInfo env (findBitmapRegion bInfo env).1, call.Names p := by
  unfold Physical.init at h
  simp only at h
  split at h
  · cases h
  · cases h
    rw [Physical.reserveEssentials, essentials_eq, List.foldl_cons, List.foldl_append,
      Physical.foldl_run_get not_unreservePages_mem, Physical.foldl_run_bits, Physical.run_bits,
      usableEntries, Physical.foldl_usableEntries_get, KeptBack]
    simp only [used_after_first]
    rfl

/-- Every page that contains a byte of an essential range is in use. -/
def EssentialsReserved (bInfo : BootInfo) (env : BootEnv) (s : Physical) : Prop :=
  ∀ r ∈ essentialRanges bInfo env (findBitmapRegion bInfo env).1, ∀ p, r.Touches p →
    s.pageBitmap.get p = true

theorem EssentialRange.names_call {r : EssentialRange} {p : Nat} (hfirst : r.first ≤ p)
    (hlast : p ≤ r.last) (hcount : p < r.first + r.pageCount) : r.call.Names p := by
  have haddress := r.address.isLt
  have hlt : p < 2 ^ 52 := by
    simp only [EssentialRange.last, pageSize] at hlast
    omega
  refine ⟨p - r.first, by omega, ?_⟩
  rw [pageAt_eq]
  simp only [EssentialRange.first] at hfirst ⊢
  omega

end initialised

/-- A kernel of 4 KiB that starts in the middle of a page, and a module behind
    which the bitmap is put. -/
def straddlingBoot : BootInfo where
  entries := [⟨0x0, 0x100000, .reserved⟩, ⟨0x100000, 0x6000, .usable⟩]
  memorySize := 0x106000
  kernel := { physicalBase := 0x100800, size := 0x1000 }
  modules := fun i => if i.val = 0 then { address := 0x103000, size := 0x1000 } else {}

end Fennix.Memory
