import Mathlib.Data.BitVec
import Mathlib.Logic.Function.Basic

/-! # The page bitmap

    `Kernel/library/bitmap.cpp`: one bit per page, most significant bit of a
    byte first. `Size` is the number of bytes, so the bitmap manages
    `Size * 8` bits.

    Both accessors compare with `index > Size * 8`, so index `Size * 8` itself
    is let through: it names the top bit of `Buffer[Size]`, the byte that
    follows the bitmap in memory. `buffer` is therefore the memory that starts
    at the `Buffer` pointer and not an array of `Size` bytes.
-/

namespace Fennix

/-- `class Bitmap`. `Size` is only ever set by `Physical::Init`, from a 64-bit
    memory size in bytes, which bounds it by `2 ^ 49`. -/
structure Bitmap where
  size : Nat
  /-- The memory that starts at `Buffer`. -/
  buffer : Nat → BitVec 8
  size_le : size ≤ 2 ^ 49

namespace Bitmap

/-- The number of managed bits, `Size * 8`. -/
def bits (b : Bitmap) : Nat := b.size * 8

/-- `uint8_t bitIndexer = 0b10000000 >> bitIndex`. -/
def bitIndexer (bitIndex : Nat) : BitVec 8 := 0b10000000#8 >>> bitIndex

/-- `Bitmap::Get`, also `Bitmap::operator[]`. -/
def get (b : Bitmap) (index : Nat) : Bool :=
  -- `if (index > Size * 8) return false;`
  if index > b.bits then false
  else decide (b.buffer (index / 8) &&& bitIndexer (index % 8) > 0)

/-- The byte that `Bitmap::Set` stores. -/
def setByte (byte : BitVec 8) (bitIndex : Nat) (value : Bool) : BitVec 8 :=
  let cleared := byte &&& ~~~ bitIndexer bitIndex
  if value then cleared ||| bitIndexer bitIndex else cleared

/-- `Bitmap::Set`: the truth value it returns and the bitmap afterwards. -/
def set (b : Bitmap) (index : Nat) (value : Bool) : Bool × Bitmap :=
  if index > b.bits then (false, b)
  else (true, { b with
    buffer := Function.update b.buffer (index / 8)
      (setByte (b.buffer (index / 8)) (index % 8) value) })

theorem bits_le (b : Bitmap) : b.bits ≤ 2 ^ 52 := by
  have := b.size_le
  unfold bits
  omega

/-! ## Section 1: One byte -/

variable {k : Nat}

theorem bitIndexer_eq_twoPow (hk : k < 8) : bitIndexer k = BitVec.twoPow 8 (7 - k) := by
  have : ∀ k : Fin 8, bitIndexer k.val = BitVec.twoPow 8 (7 - k.val) := by decide
  exact this ⟨k, hk⟩

theorem and_bitIndexer_pos (hk : k < 8) (byte : BitVec 8) :
    decide (byte &&& bitIndexer k > 0) = byte.getLsbD (7 - k) := by
  rw [bitIndexer_eq_twoPow hk, BitVec.and_twoPow]
  cases byte.getLsbD (7 - k) with
  | false => simp
  | true =>
    have : ∀ k : Fin 8, decide (BitVec.twoPow 8 (7 - k.val) > 0) = true := by decide
    simpa using this ⟨k, hk⟩

theorem getLsbD_setByte {j : Nat} (hk : k < 8) (hj : j < 8) (byte : BitVec 8) (value : Bool) :
    (setByte byte k value).getLsbD (7 - j) =
      if j = k then value else byte.getLsbD (7 - j) := by
  have hlt : 7 - j < 8 := by omega
  unfold setByte
  rw [bitIndexer_eq_twoPow hk]
  by_cases h : j = k
  · subst h
    cases value <;> simp [hlt]
  · have hne : 7 - j ≠ 7 - k := by omega
    cases value <;> simp [hlt, hne, h]

/-! ## Section 2: Reading after writing -/

theorem get_of_gt {b : Bitmap} {i : Nat} (h : b.bits < i) : b.get i = false := by
  simp [get, h]

theorem le_of_get {b : Bitmap} {i : Nat} (h : b.get i = true) : i ≤ b.bits := by
  by_contra hgt
  rw [get_of_gt (by omega)] at h
  cases h

@[simp] theorem set_fst (b : Bitmap) (i : Nat) (v : Bool) :
    (b.set i v).1 = decide (i ≤ b.bits) := by
  unfold set
  split <;> simp <;> omega

@[simp] theorem set_bits (b : Bitmap) (i : Nat) (v : Bool) :
    (b.set i v).2.bits = b.bits := by
  unfold set
  split <;> rfl

theorem get_set (b : Bitmap) (i : Nat) (v : Bool) (j : Nat) :
    (b.set i v).2.get j = if j = i ∧ i ≤ b.bits then v else b.get j := by
  by_cases hi : i > b.bits
  · -- `Set` refuses
    have : ¬ i ≤ b.bits := by omega
    simp [set, hi, this]
  · have hle : i ≤ b.bits := by omega
    by_cases hj : j > b.bits
    · have hne : j ≠ i := by omega
      rw [get_of_gt (by simpa using hj), get_of_gt hj]
      simp [hne]
    · have hset : (b.set i v).2.get j =
          decide (Function.update b.buffer (i / 8)
            (setByte (b.buffer (i / 8)) (i % 8) v) (j / 8) &&& bitIndexer (j % 8) > 0) := by
        simp only [set, hi, if_false, get]
        rw [if_neg (by simpa [bits] using hj)]
      rw [hset]
      -- only a bit of the same byte can have changed
      by_cases hbyte : j / 8 = i / 8
      · rw [hbyte, Function.update_self, and_bitIndexer_pos (Nat.mod_lt _ (by omega)),
          getLsbD_setByte (Nat.mod_lt _ (by omega)) (Nat.mod_lt _ (by omega))]
        have hidx : j % 8 = i % 8 ↔ j = i := by omega
        simp only [hidx, hle, and_true]
        by_cases h : j = i
        · simp [h]
        · rw [if_neg h, if_neg h, get, if_neg hj,
            and_bitIndexer_pos (Nat.mod_lt _ (by omega)), hbyte]
      · have hne : j ≠ i := fun h => hbyte (by rw [h])
        rw [Function.update_of_ne hbyte]
        simp [hne, get, hj]

end Bitmap

end Fennix
