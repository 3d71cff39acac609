import Fennix.Framework.Radix
import Fennix.Memory.Physical

/-! # Page table entries

    `Kernel/include/memory/table.hpp` and `Kernel/core/memory/pmi.cpp`, for
    amd64. The unions of the four levels differ in the names of their bit
    fields only; what the code uses of them is `Present` (bit 0), `PageSize`
    (bit 7) and the 40-bit address (bits 12 to 51) of a raw 64-bit word.
-/

namespace Fennix.Memory

/-! ## Section 1: Flags -/

/-- `enum PTFlag`. -/
inductive PTFlag where
  | p | rw | us | pwt | pcd | a | d | ps | g | coW | kRsv | avl2 | pat
  | avl3 | avl4 | avl5 | avl6 | avl7 | avl8 | avl9
  | pk0 | pk1 | pk2 | pk3 | xd
  deriving DecidableEq, Repr

/-- The bit that a flag stands for. `PAT` shares its bit with the lowest bit
    of the address. -/
def PTFlag.bit : PTFlag → Nat
  | .p => 0 | .rw => 1 | .us => 2 | .pwt => 3 | .pcd => 4 | .a => 5 | .d => 6 | .ps => 7
  | .g => 8 | .coW => 9 | .kRsv => 10 | .avl2 => 11 | .pat => 12
  | .avl3 => 52 | .avl4 => 53 | .avl5 => 54 | .avl6 => 55 | .avl7 => 56 | .avl8 => 57
  | .avl9 => 58 | .pk0 => 59 | .pk1 => 60 | .pk2 => 61 | .pk3 => 62 | .xd => 63

/-- A flag as a word. -/
def PTFlag.mask (flag : PTFlag) : Word := 1#64 <<< flag.bit

/-! ## Section 2: Entries -/

namespace Entry

/-- The bit field `Present`. -/
def present (raw : Word) : Bool := raw.getLsbD 0

/-- The bit field `PageSize`. -/
def isPageSize (raw : Word) : Bool := raw.getLsbD 7

/-- `SetAddress`. -/
def setAddress (raw address : Word) : Word :=
  (raw &&& 0xFFF0000000000FFF#64) ||| ((address &&& 0x000000FFFFFFFFFF#64) <<< 12)

/-- `GetAddress`, which is also the value of the bit field `Address`. -/
def getAddress (raw : Word) : Word := (raw &&& 0x000FFFFFFFFFF000#64) >>> 12

/-- `GetAddress() << 12`, the table or page that an entry points to. -/
def pointer (raw : Word) : Word := getAddress raw <<< 12

/-- Bits 12 to 51, the address field. -/
def addressMask : Word := 0x000FFFFFFFFFF000#64

/-- What an entry says about the translation. At the top level (3) `PageSize`
    is not looked at, and at the bottom (0) every present entry is a leaf. -/
def decode : Nat → Word → Radix.Node Word
  | 0, raw => if present raw then .leaf else .absent
  | k + 1, raw =>
    -- levels 1 and 2 can map large pages
    if present raw then
      if isPageSize raw = true ∧ k < 2 then .leaf else .table (pointer raw)
    else .absent

/-! ## Section 3: Address and flags do not mix -/

theorem getLsbD_addressMask (i : Nat) : addressMask.getLsbD i = decide (12 ≤ i ∧ i < 52) := by
  have h : ∀ i : Fin 64, addressMask.getLsbD i.val = decide (12 ≤ i.val ∧ i.val < 52) := by
    decide
  by_cases hi : i < 64
  · exact h ⟨i, hi⟩
  · rw [BitVec.getLsbD_of_ge _ _ (by omega)]
    symm
    rw [decide_eq_false_iff_not]
    omega

theorem pointer_eq (raw : Word) : pointer raw = raw &&& addressMask := by
  apply BitVec.eq_of_getLsbD_eq
  intro i hi
  show ((raw &&& addressMask) >>> 12 <<< 12).getLsbD i = _
  simp only [BitVec.getLsbD_shiftLeft, BitVec.getLsbD_ushiftRight, BitVec.getLsbD_and,
    getLsbD_addressMask]
  by_cases h : i < 12
  · simp [h]
  · simp [h, hi, show 12 + (i - 12) = i from by omega]

theorem pointer_lt (raw : Word) : (pointer raw).toNat < 2 ^ 52 := by
  rw [pointer_eq, BitVec.toNat_and]
  exact Nat.lt_of_le_of_lt Nat.and_le_right (by decide)

theorem setAddress_eq (raw address : Word) :
    setAddress raw (address >>> 12) = (raw &&& ~~~ addressMask) ||| (address &&& addressMask) := by
  have hflags : 0xFFF0000000000FFF#64 = ~~~ addressMask := by decide
  have hfield : 0x000000FFFFFFFFFF#64 = addressMask >>> 12 := by decide
  rw [setAddress, hflags, hfield]
  apply BitVec.eq_of_getLsbD_eq
  intro i hi
  simp only [BitVec.getLsbD_or, BitVec.getLsbD_not, BitVec.getLsbD_shiftLeft,
    BitVec.getLsbD_ushiftRight, BitVec.getLsbD_and, getLsbD_addressMask]
  by_cases h : i < 12
  · simp [h]
  · simp [h, hi, show 12 + (i - 12) = i from by omega]

theorem getLsbD_setAddress (raw address : Word) {i : Nat} (hi : i < 12 ∨ 52 ≤ i) :
    (setAddress raw (address >>> 12)).getLsbD i = raw.getLsbD i := by
  rw [setAddress_eq]
  simp only [BitVec.getLsbD_or, BitVec.getLsbD_and, BitVec.getLsbD_not, getLsbD_addressMask]
  have hout : ¬ (12 ≤ i ∧ i < 52) := by omega
  by_cases h : i < 64
  · simp [hout, h]
  · simp [hout, h, BitVec.getLsbD_of_ge raw i (by omega)]

theorem pointer_setAddress (raw address : Word) :
    pointer (setAddress raw (address >>> 12)) = address &&& addressMask := by
  rw [pointer_eq, setAddress_eq]
  apply BitVec.eq_of_getLsbD_eq
  intro i hi
  simp only [BitVec.getLsbD_or, BitVec.getLsbD_and, BitVec.getLsbD_not]
  cases addressMask.getLsbD i <;> simp

theorem pointer_or {flags : Word} (h : flags &&& addressMask = 0#64) (raw : Word) :
    pointer (raw ||| flags) = pointer raw := by
  rw [pointer_eq, pointer_eq]
  apply BitVec.eq_of_getLsbD_eq
  intro i hi
  have hi' : (flags &&& addressMask).getLsbD i = false := by
    rw [h]
    exact BitVec.getLsbD_zero
  simp only [BitVec.getLsbD_or, BitVec.getLsbD_and] at hi' ⊢
  cases hm : addressMask.getLsbD i <;> simp_all

end Entry

/-! ## Section 4: Indices of an address -/

/-- An index into a table of 512 entries. -/
abbrev TableIndex := BitVec 9

/-- `class PageMapIndexer`. -/
structure PageMapIndexer where
  pmlIndex : TableIndex
  pdpteIndex : TableIndex
  pdeIndex : TableIndex
  pteIndex : TableIndex
  deriving DecidableEq

/-- The indices that the constructor computes; `& 0x1FF` keeps nine bits. -/
def PageMapIndexer.ofAddress (virtualAddress : Word) : PageMapIndexer where
  pteIndex := (virtualAddress >>> 12).setWidth 9
  pdeIndex := (virtualAddress >>> 12 >>> 9).setWidth 9
  pdpteIndex := (virtualAddress >>> 12 >>> 9 >>> 9).setWidth 9
  pmlIndex := (virtualAddress >>> 12 >>> 9 >>> 9 >>> 9).setWidth 9

/-- The constructor of `PageMapIndexer`; `none` when its assertion fails. -/
def pageMapIndexer (virtualAddress : Word) : Option PageMapIndexer :=
  let index := PageMapIndexer.ofAddress virtualAddress
  if virtualAddress > 0x1000#64 ∧ ¬ (index.pteIndex ≠ 0 ∨ index.pdeIndex ≠ 0 ∨
      index.pdpteIndex ≠ 0 ∨ index.pmlIndex ≠ 0) then none
  else some index

/-- The indices from the top of the tree down. -/
def PageMapIndexer.path (index : PageMapIndexer) : List TableIndex :=
  [index.pmlIndex, index.pdpteIndex, index.pdeIndex, index.pteIndex]

theorem PageMapIndexer.path_inj {x y : PageMapIndexer} (h : x.path = y.path) : x = y := by
  cases x
  cases y
  simpa [PageMapIndexer.path] using h

/-- Bits 47 to 63 of an address are equal. -/
def Canonical (v : Word) : Prop := v.toNat < 2 ^ 47 ∨ 2 ^ 64 - 2 ^ 47 ≤ v.toNat

instance (v : Word) : Decidable (Canonical v) := inferInstanceAs (Decidable (_ ∨ _))

/-- The address of the page that `v` lies on, `v & 0xFFFFFFFFFFFFF000`. -/
def pageBase (v : Word) : Word := v &&& 0xFFFFFFFFFFFFF000#64

theorem toNat_and_mask {n : Nat} {mask : Word}
    (hmask : ∀ i : Fin 64, mask.getLsbD i.val = decide (n ≤ i.val)) (v : Word) :
    (v &&& mask).toNat = v.toNat / 2 ^ n * 2 ^ n := by
  have hshift : v &&& mask = v >>> n <<< n := by
    apply BitVec.eq_of_getLsbD_eq
    intro i hi
    have := hmask ⟨i, hi⟩
    simp only [BitVec.getLsbD_and, BitVec.getLsbD_shiftLeft, BitVec.getLsbD_ushiftRight] at this ⊢
    rw [this]
    by_cases h : i < n
    · simp [h]
    · simp [h, hi, show n + (i - n) = i from by omega]
      omega
  have hle : v.toNat / 2 ^ n * 2 ^ n ≤ v.toNat := Nat.div_mul_le_self _ _
  rw [hshift, BitVec.toNat_shiftLeft, BitVec.toNat_ushiftRight, Nat.shiftLeft_eq,
    Nat.shiftRight_eq_div_pow, Nat.mod_eq_of_lt (Nat.lt_of_le_of_lt hle v.isLt)]

theorem toNat_and_low (v : Word) : (v &&& 0xFFF#64).toNat = v.toNat % 0x1000 := by
  rw [BitVec.toNat_and]
  exact Nat.and_two_pow_sub_one_eq_mod v.toNat 12

theorem pageBase_toNat (v : Word) : (pageBase v).toNat = v.toNat / 4096 * 4096 :=
  toNat_and_mask (n := 12) (by decide) v

namespace PageMapIndexer

theorem ofAddress_pageBase (v : Word) : ofAddress (pageBase v) = ofAddress v := by
  have hpage : pageBase v >>> 12 = v >>> 12 := by
    apply BitVec.eq_of_toNat_eq
    rw [BitVec.toNat_ushiftRight, BitVec.toNat_ushiftRight, pageBase_toNat,
      Nat.shiftRight_eq_div_pow, Nat.shiftRight_eq_div_pow]
    omega
  simp only [ofAddress, hpage]

theorem ofAddress_inj {v w : Word} (hv : Canonical v) (hw : Canonical w)
    (h : ofAddress v = ofAddress w) : pageBase v = pageBase w := by
  have hv' := v.isLt
  have hw' := w.isLt
  simp only [ofAddress, PageMapIndexer.mk.injEq] at h
  obtain ⟨h3, h2, h1, h0⟩ := h
  have h0 := congrArg BitVec.toNat h0
  have h1 := congrArg BitVec.toNat h1
  have h2 := congrArg BitVec.toNat h2
  have h3 := congrArg BitVec.toNat h3
  simp only [BitVec.toNat_setWidth, BitVec.toNat_ushiftRight, Nat.shiftRight_eq_div_pow] at h0 h1 h2 h3
  apply BitVec.eq_of_toNat_eq
  rw [pageBase_toNat, pageBase_toNat]
  simp only [Canonical] at hv hw
  omega

end PageMapIndexer

theorem Canonical.pageBase {v : Word} (h : Canonical v) : Canonical (pageBase v) := by
  have := v.isLt
  simp only [Canonical, pageBase_toNat] at *
  omega

theorem pageMapIndexer_of_canonical {v : Word} (h : Canonical v) :
    pageMapIndexer v = some (PageMapIndexer.ofAddress v) := by
  unfold pageMapIndexer
  rw [if_neg]
  intro hboth
  obtain ⟨hgt, hzero⟩ := hboth
  have hv := v.isLt
  have hgt : 0x1000 < v.toNat := by simpa using BitVec.lt_def.mp hgt
  -- all four indices are zero, so the address is that of a byte of page 0
  have hpage : Memory.pageBase v = Memory.pageBase 0#64 := by
    apply PageMapIndexer.ofAddress_inj h (by decide)
    simp only [not_or, ne_eq, not_not] at hzero
    obtain ⟨h0, h1, h2, h3⟩ := hzero
    rw [PageMapIndexer.mk.injEq]
    exact ⟨h3, h2, h1, h0⟩
  have := congrArg BitVec.toNat hpage
  rw [pageBase_toNat, pageBase_toNat] at this
  simp at this
  omega

end Fennix.Memory
