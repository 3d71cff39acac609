import Fennix.Memory.Essentials

/-! # Where the bitmap is put

    `FindBitmapRegion` looks for a usable memory map entry that has room for
    the bitmap behind everything that is in it. The address it returns is
    written as soon as an entry is large enough as a whole, so an entry that
    is then found to be full still decides where the bitmap goes if no later
    one is any better.

    The first two sections say which entry decides and which address it gives.
    The third compares that with what the caller relies on: memory that is
    usable and belongs to nothing else.
-/

namespace Fennix.Memory

open BitVec (ofNat toNat_add lt_def)

/-! ## Section 1: The largest end in an entry -/

/-- The first byte behind a memory map entry. -/
def MemoryEntry.stop (e : MemoryEntry) : Nat := e.baseAddress.toNat + e.length.toNat

/-- The range is not skipped and reaches into the entry. -/
def AddrRange.Touches (r : AddrRange) (e : MemoryEntry) : Prop :=
  r.start ≠ 0 ∧ r.start.toNat < e.stop ∧ e.baseAddress.toNat < r.stop.toNat

instance (r : AddrRange) (e : MemoryEntry) : Decidable (r.Touches e) :=
  inferInstanceAs (Decidable (_ ∧ _ ∧ _))

/-- The largest end of the ranges that touch an entry. -/
def top (ranges : List AddrRange) (e : MemoryEntry) : Nat :=
  ranges.foldr (fun r m => if r.Touches e then max r.stop.toNat m else m) e.baseAddress.toNat

/-- What makes a number the largest end. -/
structure IsTop (ranges : List AddrRange) (e : MemoryEntry) (m : Nat) : Prop where
  base_le : e.baseAddress.toNat ≤ m
  stop_le : ∀ r ∈ ranges, r.Touches e → r.stop.toNat ≤ m
  attained : m = e.baseAddress.toNat ∨ ∃ r ∈ ranges, r.Touches e ∧ r.stop.toNat = m

section top

variable {ranges ranges' : List AddrRange} {e : MemoryEntry} {m m' : Nat}

theorem IsTop.le (h : IsTop ranges e m) (h' : IsTop ranges' e m')
    (hsub : ∀ r ∈ ranges, r ∈ ranges') : m ≤ m' := by
  rcases h.attained with rfl | ⟨r, hr, htouches, rfl⟩
  · exact h'.base_le
  · exact h'.stop_le r (hsub r hr) htouches

theorem IsTop.unique (h : IsTop ranges e m) (h' : IsTop ranges' e m')
    (hmem : ∀ r, r ∈ ranges ↔ r ∈ ranges') : m = m' :=
  Nat.le_antisymm (h.le h' fun r => (hmem r).mp) (h'.le h fun r => (hmem r).mpr)

theorem IsTop.cons (h : IsTop ranges e m) (r : AddrRange) :
    IsTop (r :: ranges) e (if r.Touches e then max r.stop.toNat m else m) := by
  by_cases htouches : r.Touches e
  · rw [if_pos htouches]
    refine ⟨Nat.le_trans h.base_le (Nat.le_max_right _ _), List.forall_mem_cons.mpr ⟨?_, ?_⟩, ?_⟩
    · exact fun _ => Nat.le_max_left _ _
    · exact fun r' hr' htouches' => Nat.le_trans (h.stop_le r' hr' htouches') (Nat.le_max_right _ _)
    · rcases Nat.le_total r.stop.toNat m with hle | hle
      · rw [Nat.max_eq_right hle]
        exact h.attained.imp_right fun ⟨r', hr', h'⟩ => ⟨r', List.mem_cons_of_mem _ hr', h'⟩
      · rw [Nat.max_eq_left hle]
        exact .inr ⟨r, List.mem_cons_self, htouches, rfl⟩
  · rw [if_neg htouches]
    refine ⟨h.base_le, List.forall_mem_cons.mpr ⟨(absurd · htouches), h.stop_le⟩, ?_⟩
    exact h.attained.imp_right fun ⟨r', hr', h'⟩ => ⟨r', List.mem_cons_of_mem _ hr', h'⟩

theorem isTop_nil (e : MemoryEntry) : IsTop [] e e.baseAddress.toNat :=
  ⟨Nat.le_refl _, by simp, .inl rfl⟩

theorem isTop_top (ranges : List AddrRange) (e : MemoryEntry) : IsTop ranges e (top ranges e) := by
  induction ranges with
  | nil => exact isTop_nil e
  | cons r ranges ih => exact ih.cons r

/-- One round of the loop that computes `MaxEnd`. -/
def maxEndStep (base size : Word) (m : Word) (r : AddrRange) : Word :=
  if r.start = 0 then m
  else if r.start < base + size ∧ r.stop > base then
    if r.stop > m then r.stop else m
  else m

theorem toNat_maxEndStep (hstop : e.stop < 2 ^ 64) (r : AddrRange) (m : Word) :
    (maxEndStep e.baseAddress e.length m r).toNat =
      if r.Touches e then max r.stop.toNat m.toNat else m.toNat := by
  have hsum : (e.baseAddress + e.length).toNat = e.stop := by
    rw [toNat_add]
    exact Nat.mod_eq_of_lt hstop
  simp only [maxEndStep, gt_iff_lt, lt_def, hsum]
  by_cases htouches : r.Touches e
  · rw [if_pos htouches, if_neg htouches.1, if_pos htouches.2]
    split <;> omega
  · rw [if_neg htouches]
    by_cases hstart : r.start = 0
    · rw [if_pos hstart]
    · rw [if_neg hstart, if_neg fun h => htouches ⟨hstart, h⟩]

theorem isTop_maxEnd (hstop : e.stop < 2 ^ 64) (ranges : List AddrRange) :
    IsTop ranges e (maxEnd ranges e.baseAddress e.length).toNat := by
  -- on the ranges looked at so far
  have hloop : ∀ (seen rest : List AddrRange) (m : Word), IsTop seen e m.toNat →
      IsTop (rest.reverse ++ seen) e
        (rest.foldl (maxEndStep e.baseAddress e.length) m).toNat := by
    intro seen rest
    induction rest generalizing seen with
    | nil => exact fun m h => h
    | cons r rest ih =>
      intro m h
      rw [List.foldl_cons, List.reverse_cons, List.append_assoc, List.singleton_append]
      refine ih (r :: seen) _ ?_
      rw [toNat_maxEndStep hstop]
      exact h.cons r
  have h := hloop [] ranges e.baseAddress (isTop_nil e)
  rw [List.append_nil] at h
  exact ⟨h.base_le, fun r hr => h.stop_le r (List.mem_reverse.mpr hr),
    h.attained.imp_right fun ⟨r, hr, h'⟩ => ⟨r, List.mem_reverse.mp hr, h'⟩⟩

theorem le_maxEndStep (base size m : Word) (r : AddrRange) :
    m.toNat ≤ (maxEndStep base size m r).toNat := by
  unfold maxEndStep
  split
  · exact Nat.le_refl _
  · split
    · split
      · rename_i h
        exact Nat.le_of_lt (lt_def.mp h)
      · exact Nat.le_refl _
    · exact Nat.le_refl _

theorem base_le_maxEnd (ranges : List AddrRange) (base size : Word) :
    base.toNat ≤ (maxEnd ranges base size).toNat := by
  exact List.foldlRecOn (motive := fun m => base.toNat ≤ m.toNat) ranges _ (Nat.le_refl _)
    fun m hm r _ => Nat.le_trans hm (le_maxEndStep base size m r)

end top

theorem foldl_perm {step : List AddrRange → Nat → List AddrRange}
    (hstep : ∀ rs i, (step rs i).Perm rs) (is : List Nat) (rs : List AddrRange) :
    (is.foldl step rs).Perm rs :=
  List.foldlRecOn (motive := (·.Perm rs)) is step (.refl rs) fun rs' hrs' i _ =>
    (hstep rs' i).trans hrs'

theorem sortAddresses_perm (ranges : List AddrRange) : (sortAddresses ranges).Perm ranges := by
  refine foldl_perm (fun rs i => ?_) _ ranges
  dsimp only
  split
  · rename_i rm ri hm hi
    obtain ⟨hmlt, rfl⟩ := List.getElem?_eq_some_iff.mp hm
    obtain ⟨hilt, rfl⟩ := List.getElem?_eq_some_iff.mp hi
    exact List.set_set_perm hmlt hilt
  · exact .refl rs

/-! ## Section 2: The entry that decides -/

/-- A usable entry above 1 MiB that is large enough as a whole. -/
def Candidate (bytes : Nat) (e : MemoryEntry) : Prop :=
  e.type = .usable ∧ 0xFFFFF < e.baseAddress.toNat ∧ bytes + 0x100 ≤ e.length.toNat

/-- The entry has room behind everything that touches it. -/
def Accepted (ranges : List AddrRange) (bytes : Nat) (e : MemoryEntry) : Prop :=
  Candidate bytes e ∧ top ranges e + (bytes + 0x100) ≤ e.stop ∧ e.stop < 2 ^ 64

instance (bytes : Nat) (e : MemoryEntry) : Decidable (Candidate bytes e) :=
  inferInstanceAs (Decidable (_ ∧ _ ∧ _))

instance (ranges : List AddrRange) (bytes : Nat) (e : MemoryEntry) :
    Decidable (Accepted ranges bytes e) :=
  inferInstanceAs (Decidable (_ ∧ _ ∧ _))

/-- The entry that decides: the first one with room, or else the last one that
    is large enough as a whole. -/
def decisive (ranges : List AddrRange) (bytes : Nat) (entries : List MemoryEntry) :
    Option MemoryEntry :=
  (entries.find? fun e => Accepted ranges bytes e).or
    (entries.filter fun e => Candidate bytes e).getLast?

/-- Something behind the entry is left. -/
def Open (ranges : List AddrRange) (e : MemoryEntry) : Prop :=
  top ranges e < e.stop ∧ e.stop < 2 ^ 64

instance (ranges : List AddrRange) (e : MemoryEntry) : Decidable (Open ranges e) :=
  inferInstanceAs (Decidable (_ ∧ _))

/-- Where an entry puts the bitmap. -/
def place (ranges : List AddrRange) (e : MemoryEntry) : Nat :=
  if Open ranges e then top ranges e else e.baseAddress.toNat

section decisive

variable {ranges : List AddrRange} {bytes : Nat} {e : MemoryEntry} {entries : List MemoryEntry}

theorem decisive_skip (h : ¬ Candidate bytes e) :
    decisive ranges bytes (e :: entries) = decisive ranges bytes entries := by
  have hnot : ¬ Accepted ranges bytes e := fun h' => h h'.1
  simp [decisive, h, hnot]

theorem decisive_accept (h : Accepted ranges bytes e) :
    decisive ranges bytes (e :: entries) = some e := by
  simp [decisive, h]

theorem decisive_reject (h : Candidate bytes e) (hnot : ¬ Accepted ranges bytes e) :
    decisive ranges bytes (e :: entries) = (decisive ranges bytes entries).or (some e) := by
  simp only [decisive, List.find?_cons, List.filter_cons, h, hnot, decide_true, decide_false,
    if_true, Option.or_assoc]
  congr 1
  cases (entries.filter fun e => Candidate bytes e) with
  | nil => rfl
  | cons a l => simp [List.getLast?_cons]

theorem mem_of_decisive (h : decisive ranges bytes entries = some e) :
    e ∈ entries ∧ Candidate bytes e := by
  rcases Option.or_eq_some_iff.mp h with hfind | ⟨-, hlast⟩
  · have haccepted := List.find?_some hfind
    exact ⟨List.mem_of_find?_eq_some hfind, (of_decide_eq_true haccepted).1⟩
  · have hmem := List.mem_of_getLast? hlast
    obtain ⟨hmem, hcandidate⟩ := List.mem_filter.mp hmem
    exact ⟨hmem, of_decide_eq_true hcandidate⟩

theorem toNat_maxEnd (ranges : List AddrRange) (hstop : e.stop < 2 ^ 64) :
    (maxEnd (sortAddresses ranges) e.baseAddress e.length).toNat = top ranges e :=
  (isTop_maxEnd hstop _).unique (isTop_top ranges e) fun _ => (sortAddresses_perm ranges).mem_iff

theorem open_of_maxEnd (h : maxEnd (sortAddresses ranges) e.baseAddress e.length <
      e.baseAddress + e.length) :
    (maxEnd (sortAddresses ranges) e.baseAddress e.length).toNat = place ranges e ∧
    e.stop < 2 ^ 64 ∧
    (e.baseAddress + e.length -
      maxEnd (sortAddresses ranges) e.baseAddress e.length).toNat = e.stop - top ranges e := by
  have hbase := base_le_maxEnd (sortAddresses ranges) e.baseAddress e.length
  rw [lt_def, toNat_add] at h
  -- a sum that wraps around is below the base
  have hstop : e.stop < 2 ^ 64 := by
    have := e.length.isLt
    unfold MemoryEntry.stop
    omega
  have htop := toNat_maxEnd ranges hstop
  have hsum : (e.baseAddress + e.length).toNat = e.stop := by
    rw [toNat_add]
    exact Nat.mod_eq_of_lt hstop
  have hopen : Open ranges e := by
    rw [← toNat_add, hsum, htop] at h
    exact ⟨h, hstop⟩
  refine ⟨?_, hstop, ?_⟩
  · rw [htop, place, if_pos hopen]
  · rw [BitVec.toNat_sub_of_le, hsum, htop]
    rw [BitVec.le_def, hsum, htop]
    exact Nat.le_of_lt hopen.1

theorem findRegion_cons (hbytes : bytes ≤ 2 ^ 49) (ranges : List AddrRange) (e : MemoryEntry)
    (entries : List MemoryEntry) (acc : Word × Word) :
    (¬ Candidate bytes e ∧
      findRegion (sortAddresses ranges) (ofNat 64 bytes) (e :: entries) acc =
        findRegion (sortAddresses ranges) (ofNat 64 bytes) entries acc) ∨
    ∃ address size, address.toNat = place ranges e ∧
      ((Accepted ranges bytes e ∧
        findRegion (sortAddresses ranges) (ofNat 64 bytes) (e :: entries) acc =
          (address, size)) ∨
      (Candidate bytes e ∧ ¬ Accepted ranges bytes e ∧
        findRegion (sortAddresses ranges) (ofNat 64 bytes) (e :: entries) acc =
          findRegion (sortAddresses ranges) (ofNat 64 bytes) entries (address, size))) := by
  have hneed : (ofNat 64 bytes + 0x100).toNat = bytes + 0x100 := by
    rw [toNat_add, BitVec.toNat_ofNat, show (0x100 : Word).toNat = 0x100 from rfl]
    omega
  have hcandidate_iff : Candidate bytes e ↔ e.type = .usable ∧ ¬ e.baseAddress ≤ 0xFFFFF ∧
      ¬ ofNat 64 bytes + 0x100 > e.length := by
    simp only [Candidate, gt_iff_lt, lt_def, BitVec.le_def, hneed, Nat.not_le, Nat.not_lt]
    rfl
  by_cases hcandidate : Candidate bytes e
  · obtain ⟨htype, hbase, hlarge⟩ := hcandidate_iff.mp hcandidate
    refine .inr ?_
    simp only [findRegion, if_pos htype, if_neg hbase, if_neg hlarge]
    by_cases hopen : maxEnd (sortAddresses ranges) e.baseAddress e.length ≥ e.baseAddress ∧
        maxEnd (sortAddresses ranges) e.baseAddress e.length < e.baseAddress + e.length
    · obtain ⟨hplace, hstop, hsize⟩ := open_of_maxEnd hopen.2
      simp only [if_pos hopen]
      refine ⟨_, e.baseAddress + e.length - maxEnd (sortAddresses ranges) e.baseAddress e.length,
        hplace, ?_⟩
      by_cases hroom : ofNat 64 bytes + 0x100 > e.baseAddress + e.length -
          maxEnd (sortAddresses ranges) e.baseAddress e.length
      · -- too small after all
        rw [if_pos hroom]
        refine .inr ⟨hcandidate, ?_, rfl⟩
        rintro ⟨-, hfits, -⟩
        rw [gt_iff_lt, lt_def, hneed, hsize] at hroom
        omega
      · rw [if_neg hroom]
        rw [gt_iff_lt, lt_def, hneed, hsize] at hroom
        exact .inl ⟨⟨hcandidate, by omega, hstop⟩, rfl⟩
    · -- a range reaches to the end of the entry
      have hfull : ¬ Open ranges e := by
        intro h
        refine hopen ⟨BitVec.le_def.mpr (base_le_maxEnd _ _ _), ?_⟩
        rw [lt_def, toNat_maxEnd ranges h.2, toNat_add]
        exact Nat.lt_of_lt_of_eq h.1 (Nat.mod_eq_of_lt h.2).symm
      simp only [if_neg hopen]
      refine ⟨e.baseAddress, e.length, (if_neg hfull).symm, .inr ⟨hcandidate, ?_, rfl⟩⟩
      rintro ⟨-, hfits, hstop⟩
      exact hfull ⟨by omega, hstop⟩
  · refine .inl ⟨hcandidate, ?_⟩
    simp only [findRegion]
    split
    · rename_i htype
      split
      · rfl
      · rename_i hbase
        split
        · rfl
        · rename_i hlarge
          exact absurd (hcandidate_iff.mpr ⟨htype, hbase, hlarge⟩) hcandidate
    · rfl

theorem findRegion_eq (hbytes : bytes ≤ 2 ^ 49) (acc : Word × Word) :
    (findRegion (sortAddresses ranges) (ofNat 64 bytes) entries acc).1.toNat =
      ((decisive ranges bytes entries).map (place ranges)).getD acc.1.toNat := by
  induction entries generalizing acc with
  | nil => rfl
  | cons e entries ih =>
    rcases findRegion_cons hbytes ranges e entries acc with
      ⟨hnot, heq⟩ | ⟨address, size, hplace, hcase⟩
    · rw [heq, ih, decisive_skip hnot]
    · rcases hcase with ⟨haccepted, heq⟩ | ⟨hcandidate, hnot, heq⟩
      · rw [heq, decisive_accept haccepted]
        exact hplace
      · rw [heq, ih, decisive_reject hcandidate hnot]
        cases decisive ranges bytes entries with
        | none => exact hplace
        | some e' => rfl

end decisive

/-! ## Section 3: What the caller relies on -/

/-- The address is a byte of the range. -/
def EssentialRange.Holds (r : EssentialRange) (x : Nat) : Prop :=
  r.address.toNat ≤ x ∧ x < r.address.toNat + r.size

/-- The `bytes` bytes from `start` on are in one usable entry above 1 MiB. -/
def Inside (entries : List MemoryEntry) (start bytes : Nat) : Prop :=
  ∃ e ∈ entries, e.type = .usable ∧ 0xFFFFF < e.baseAddress.toNat ∧
    e.baseAddress.toNat ≤ start ∧ start + bytes ≤ e.stop

/-- None of them is in one of the ranges. -/
def Unoccupied (ranges : List EssentialRange) (start bytes : Nat) : Prop :=
  ∀ r ∈ ranges, ∀ x, start ≤ x → x < start + bytes → ¬ r.Holds x

/-- `FindBitmapRegion` finds nothing, or memory for the bitmap that is usable
    and not occupied. -/
def WellPlaced (bInfo : BootInfo) (env : BootEnv) : Prop :=
  (findBitmapRegion bInfo env).1 = 0 ∨
  Inside bInfo.entries (findBitmapRegion bInfo env).1.toNat (bitmapSize bInfo.memorySize) ∧
  Unoccupied (occupiedRanges bInfo env) (findBitmapRegion bInfo env).1.toNat
    (bitmapSize bInfo.memorySize)

/-- `PtrArray` holds the range, with its end. Not so at address 0 and behind
    the end of the address space, and not for a section table whose size
    overflows 32 bits. -/
def Seen (bInfo : BootInfo) (env : BootEnv) (r : EssentialRange) : Prop :=
  r.address ≠ 0 ∧ ∃ a ∈ ptrArray bInfo env,
    a.start = r.address ∧ a.stop.toNat = r.address.toNat + r.size

/-- The ranges that touch the entry end early enough. -/
structure FitsBehind (bInfo : BootInfo) (env : BootEnv) (e : MemoryEntry) : Prop where
  room : top (ptrArray bInfo env) e + bitmapSize bInfo.memorySize ≤ e.stop
  unseen : ∀ r ∈ occupiedRanges bInfo env, ¬ Seen bInfo env r →
    ∀ x, top (ptrArray bInfo env) e ≤ x →
      x < top (ptrArray bInfo env) e + bitmapSize bInfo.memorySize → ¬ r.Holds x

/-- The bitmap does not fit behind them, and lies in another usable entry that
    overlaps this one. -/
structure SpillsOver (bInfo : BootInfo) (env : BootEnv) (e : MemoryEntry) : Prop where
  short : e.stop < top (ptrArray bInfo env) e + bitmapSize bInfo.memorySize
  inside : Inside bInfo.entries (top (ptrArray bInfo env) e) (bitmapSize bInfo.memorySize)
  unoccupied : Unoccupied (occupiedRanges bInfo env) (top (ptrArray bInfo env) e)
    (bitmapSize bInfo.memorySize)

section placed

variable {bInfo : BootInfo} {env : BootEnv} {e : MemoryEntry}

theorem findBitmapRegion_eq (bInfo : BootInfo) (env : BootEnv) :
    (findBitmapRegion bInfo env).1.toNat =
      ((decisive (ptrArray bInfo env) (bitmapSize bInfo.memorySize) bInfo.entries).map
        (place (ptrArray bInfo env))).getD 0 :=
  findRegion_eq (bitmapSize_le bInfo.memorySize) (0, 0)

theorem FitsBehind.unoccupied (h : FitsBehind bInfo env e) :
    Unoccupied (occupiedRanges bInfo env) (top (ptrArray bInfo env) e)
      (bitmapSize bInfo.memorySize) := by
  intro r hr x hx hlt hholds
  by_cases hseen : Seen bInfo env r
  · obtain ⟨hne, a, ha, hstart, hstop⟩ := hseen
    have htop := isTop_top (ptrArray bInfo env) e
    have hbase := htop.base_le
    have hroom := h.room
    obtain ⟨hfrom, hto⟩ := hholds
    -- such a range touches the entry, so it ends before `x`
    have hle := htop.stop_le a ha ⟨by rwa [hstart], by rw [hstart]; omega, by omega⟩
    omega
  · exact h.unseen r hr hseen x hx hlt hholds

/-- **Bitmap placement**: the bitmap is put into free usable memory if and only
    if the entry that decides has room for it behind the ranges that touch it,
    or, when a range reaches to its end, at its start. -/
theorem wellPlaced_iff (bInfo : BootInfo) (env : BootEnv) :
    WellPlaced bInfo env ↔
      ∀ e, decisive (ptrArray bInfo env) (bitmapSize bInfo.memorySize) bInfo.entries = some e →
        (Open (ptrArray bInfo env) e → FitsBehind bInfo env e ∨ SpillsOver bInfo env e) ∧
        (¬ Open (ptrArray bInfo env) e →
          Unoccupied (occupiedRanges bInfo env) e.baseAddress.toNat
            (bitmapSize bInfo.memorySize)) := by
  have heq := findBitmapRegion_eq bInfo env
  cases hdecisive : decisive (ptrArray bInfo env) (bitmapSize bInfo.memorySize)
      bInfo.entries with
  | none =>
    rw [hdecisive] at heq
    simp only [reduceCtorEq, false_implies, implies_true, iff_true]
    exact .inl (BitVec.eq_of_toNat_eq heq)
  | some e =>
    obtain ⟨hmem, htype, hbase, hlength⟩ := mem_of_decisive hdecisive
    have htop := (isTop_top (ptrArray bInfo env) e).base_le
    rw [hdecisive] at heq
    simp only [Option.map_some, Option.getD_some] at heq
    have hne : (findBitmapRegion bInfo env).1 ≠ 0 := by
      intro hzero
      rw [hzero, place] at heq
      have : (0 : Word).toNat = 0 := rfl
      split at heq <;> omega
    simp only [WellPlaced, hne, false_or, heq, Option.some.injEq, forall_eq']
    by_cases hopen : Open (ptrArray bInfo env) e
    · simp only [show place (ptrArray bInfo env) e = top (ptrArray bInfo env) e from if_pos hopen,
        hopen, forall_const, not_true_eq_false, false_implies, and_true]
      constructor
      · rintro ⟨hinside, hclear⟩
        by_cases hroom : top (ptrArray bInfo env) e + bitmapSize bInfo.memorySize ≤ e.stop
        · exact .inl ⟨hroom, fun r hr _ => hclear r hr⟩
        · exact .inr ⟨Nat.lt_of_not_le hroom, hinside, hclear⟩
      · rintro (hfits | hspills)
        · exact ⟨⟨e, hmem, htype, hbase, htop, hfits.room⟩, hfits.unoccupied⟩
        · exact ⟨hspills.inside, hspills.unoccupied⟩
    · simp only [show place (ptrArray bInfo env) e = e.baseAddress.toNat from if_neg hopen,
        hopen, false_implies, true_and, not_false_eq_true, forall_const]
      constructor
      · exact And.right
      · intro hclear
        refine ⟨⟨e, hmem, htype, hbase, Nat.le_refl _, ?_⟩, hclear⟩
        unfold MemoryEntry.stop
        omega

end placed

/-- One usable page, with a kernel of the given size at its start. -/
def onePageBoot (size : Word) : BootInfo where
  entries := [⟨0x100000, 0x1000, .usable⟩]
  memorySize := 0x101000
  kernel := { physicalBase := 0x100000, size := size }

/-- A kernel that leaves 16 bytes of its page: the bitmap of 33 bytes is put
    there and reaches out of the memory map. A kernel that fills its page: the
    bitmap is put on top of it. -/
theorem bitmap_misplaced :
    (findBitmapRegion (onePageBoot 0xFF0) Physical.blankEnv).1 = 0x100FF0 ∧
    bitmapSize (onePageBoot 0xFF0).memorySize = 33 ∧
    ¬ WellPlaced (onePageBoot 0xFF0) Physical.blankEnv ∧
    (findBitmapRegion (onePageBoot 0x1000) Physical.blankEnv).1 = 0x100000 ∧
    ¬ WellPlaced (onePageBoot 0x1000) Physical.blankEnv := by
  have hbehind : (findBitmapRegion (onePageBoot 0xFF0) Physical.blankEnv).1 = 0x100FF0 := by
    decide +kernel
  have hstart : (findBitmapRegion (onePageBoot 0x1000) Physical.blankEnv).1 = 0x100000 := by
    decide +kernel
  refine ⟨hbehind, by decide, ?_, hstart, ?_⟩
  · rintro (hzero | ⟨⟨e, he, -, -, -, hstop⟩, -⟩)
    · rw [hbehind] at hzero
      cases hzero
    · -- the only entry ends before the bitmap does
      obtain rfl := List.mem_singleton.mp he
      rw [hbehind] at hstop
      revert hstop
      decide
  · rintro (hzero | ⟨-, hclear⟩)
    · rw [hstart] at hzero
      cases hzero
    · rw [hstart] at hclear
      refine hclear _ List.mem_cons_self 0x100000 (by decide) (by decide) ?_
      exact ⟨by decide, by decide⟩

end Fennix.Memory
