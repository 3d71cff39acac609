import Mathlib.Data.BitVec

/-! # The Internet checksum

    `CalculateChecksum` of `Kernel/network/checksum.cpp`. Its two slips are that the last
    byte of an odd length is a `char`, which is extended with its sign, and that the loop
    which folds the sum looks at the bits 16 to 31 of a sum of 64 bits.

    - `checksum_right_iff`: for which data this changes the result.
    - `checksum_verifies`: what a receiver computes.
-/

namespace Fennix.Network

abbrev Byte := BitVec 8

/-! ## Section 1: The code -/

/-- `((w & 0xFF00) >> 8) | ((w & 0x00FF) << 8)` -/
def swap16 (w : Nat) : Nat := w / 256 % 256 + 256 * (w % 256)

/-- What the loop over the words and the odd byte behind them add up. A word is read with
    its first byte as the lower one, and the odd byte as a `char`. -/
def sumWords : List Byte → Nat
  | a :: b :: data => swap16 (a.toNat + 256 * b.toNat) + sumWords data
  | [a] => 256 * (a.signExtend 16).toNat
  | [] => 0

/-- `while (Checksum & 0xFFFF0000)` -/
def fold (checksum : Nat) : Nat :=
  if checksum / 2 ^ 16 % 2 ^ 16 = 0 then checksum
  else fold (checksum % 2 ^ 16 + checksum / 2 ^ 16)
termination_by checksum
decreasing_by omega

def calculateChecksum (data : List Byte) : Nat :=
  swap16 (2 ^ 64 - 1 - fold (sumWords data % 2 ^ 64))

theorem swap16_eq_iff {x y : Nat} : swap16 x = swap16 y ↔ x % 2 ^ 16 = y % 2 ^ 16 := by
  unfold swap16
  constructor
  · intro h
    have hlow : x % 256 = y % 256 := by omega
    have hhigh : x / 256 % 256 = y / 256 % 256 := by omega
    omega
  · omega

/-! ## Section 2: What it should return -/

/-- The big-endian words of the data, the last one filled up with a zero byte. -/
def words : List Byte → List Nat
  | a :: b :: data => (256 * a.toNat + b.toNat) :: words data
  | [a] => [256 * a.toNat]
  | [] => []

/-- Addition with the carry added at the other end. -/
def onesAdd (x y : Nat) : Nat := if x + y < 2 ^ 16 then x + y else x + y - 2 ^ 16 + 1

/-- The checksum of RFC 1071. -/
def rfc1071 (data : List Byte) : Nat := 2 ^ 16 - 1 - (words data).foldl onesAdd 0

/-! ## Section 3: One's complement sums -/

/-- A sum in one's complement, which is 0 only if nothing was added. -/
def ones (n : Nat) : Nat := if n = 0 then 0 else (n - 1) % 65535 + 1

theorem ones_lt (n : Nat) : ones n < 2 ^ 16 := by
  unfold ones
  split <;> omega

theorem onesAdd_ones (n : Nat) {w : Nat} (hw : w < 2 ^ 16) : onesAdd (ones n) w = ones (n + w) := by
  unfold onesAdd ones
  by_cases hn : n = 0
  · simp only [hn, if_true]
    split <;> split <;> omega
  · have hsum : n + w ≠ 0 := by omega
    rw [if_neg hn, if_neg hsum]
    split <;> omega

theorem words_lt (data : List Byte) : ∀ w ∈ words data, w < 2 ^ 16 := by
  induction data using words.induct with
  | case1 a b data ih =>
    simp only [words, List.forall_mem_cons]
    exact ⟨by omega, ih⟩
  | case2 a =>
    simp only [words, List.mem_singleton, forall_eq]
    omega
  | case3 => simp [words]

theorem foldl_onesAdd (ws : List Nat) : ∀ n, (∀ w ∈ ws, w < 2 ^ 16) →
    ws.foldl onesAdd (ones n) = ones (n + ws.sum) := by
  induction ws with
  | nil => intro n _; rfl
  | cons w ws ih =>
    intro n hws
    rw [List.forall_mem_cons] at hws
    rw [List.foldl_cons, onesAdd_ones n hws.1, ih _ hws.2, List.sum_cons, Nat.add_assoc]

theorem sum_words_lt (data : List Byte) : (words data).sum ≤ 2 ^ 16 * ((data.length + 1) / 2) := by
  induction data using words.induct with
  | case1 a b data ih =>
    simp only [words, List.sum_cons, List.length_cons]
    omega
  | case2 a =>
    simp only [words, List.sum_singleton, List.length_singleton]
    omega
  | case3 => simp [words]

/-! ## Section 4: The two slips -/

/-- The length is odd and the last byte is negative as a `char`. -/
def lastNegative : List Byte → Bool
  | _ :: _ :: data => lastNegative data
  | [a] => a.msb
  | [] => false

theorem sumWords_eq (data : List Byte) :
    sumWords data = (words data).sum + if lastNegative data then 0xFF0000 else 0 := by
  induction data using words.induct with
  | case1 a b data ih =>
    have hswap : swap16 (a.toNat + 256 * b.toNat) = 256 * a.toNat + b.toNat := by
      unfold swap16
      omega
    rw [sumWords, words, lastNegative, ih, hswap, List.sum_cons, ← Nat.add_assoc]
  | case2 a =>
    rw [sumWords, words, lastNegative, List.sum_singleton, BitVec.toNat_signExtend,
      BitVec.toNat_setWidth]
    split <;> omega
  | case3 => rfl

/-- The loop does not stop before it has added all bits of the sum. -/
def FoldsAll (sum : Nat) : Prop := sum < 2 ^ 32 ∨ sum / 2 ^ 16 % 2 ^ 16 ≠ 0

theorem fold_of_lt (c : Nat) (hc : c < 2 ^ 32) : fold c = ones c := by
  induction c using Nat.strongRecOn with
  | ind c ih =>
    rw [fold]
    split
    · unfold ones
      split <;> omega
    · rw [ih _ (by omega) (by omega)]
      unfold ones
      rw [if_neg (by omega), if_neg (by omega)]
      omega

theorem fold_eq {c : Nat} (hc : c < 2 ^ 48 - 2 ^ 32) (hall : FoldsAll c) : fold c = ones c := by
  rcases hall with hlt | hbits
  · exact fold_of_lt c hlt
  · rw [fold, if_neg hbits, fold_of_lt _ (by omega)]
    unfold ones
    rw [if_neg (by omega), if_neg (by omega)]
    omega

theorem fold_of_not {c : Nat} (hall : ¬ FoldsAll c) :
    2 ^ 32 ≤ c ∧ c / 2 ^ 16 % 2 ^ 16 = 0 ∧ fold c = c := by
  unfold FoldsAll at hall
  obtain ⟨hle, hbits⟩ := not_or.mp hall
  have hzero : c / 2 ^ 16 % 2 ^ 16 = 0 := by omega
  exact ⟨by omega, hzero, by rw [fold, if_pos hzero]⟩

theorem checksum_eq_iff {data : List Byte} (hlength : data.length < 2 ^ 32) :
    calculateChecksum data = swap16 (rfc1071 data) ↔
      fold (sumWords data) % 2 ^ 16 = ones (words data).sum := by
  have hbound := sum_words_lt data
  have hsum : (words data).foldl onesAdd 0 = ones (words data).sum := by
    simpa [ones] using foldl_onesAdd (words data) 0 (words_lt data)
  have hlt := ones_lt (words data).sum
  have hcode := sumWords_eq data
  have hsmall : sumWords data < 2 ^ 64 := by
    rw [hcode]
    split <;> omega
  have hfold : fold (sumWords data) < 2 ^ 64 := by
    by_cases hall : FoldsAll (sumWords data)
    · have := ones_lt (sumWords data)
      rw [fold_eq (by rw [hcode]; split <;> omega) hall]
      omega
    · rw [(fold_of_not hall).2.2]
      exact hsmall
  rw [calculateChecksum, rfc1071, hsum, Nat.mod_eq_of_lt hsmall, swap16_eq_iff]
  omega

/-- For all data: the result is that of RFC 1071 exactly if the last byte is not one that is
    negative and the loop folds all of the sum; or if both slips cancel each other. -/
theorem checksum_right_iff (data : List Byte) (hlength : data.length < 2 ^ 32) :
    calculateChecksum data = swap16 (rfc1071 data) ↔
      (lastNegative data = false ∧ FoldsAll (words data).sum) ∨
      (lastNegative data = true ∧ 0xFF00000000 < (words data).sum + 0xFF0000 ∧
        (words data).sum + 0xFF0000 < 0xFF00010000) := by
  have hbound := sum_words_lt data
  rw [checksum_eq_iff hlength, sumWords_eq]
  generalize (words data).sum = n at hbound
  cases lastNegative data with
  | false =>
    simp only [Bool.false_eq_true, if_false, Nat.add_zero, true_and, false_and, or_false]
    by_cases hall : FoldsAll n
    · have := ones_lt n
      simp only [hall, iff_true]
      rw [fold_eq (by omega) hall, Nat.mod_eq_of_lt this]
    · obtain ⟨hle, hzero, hfold⟩ := fold_of_not hall
      simp only [hall, iff_false, hfold]
      rw [ones, if_neg (by omega)]
      omega
  | true =>
    simp only [Bool.true_eq_false, if_true, false_and, true_and, false_or]
    by_cases hall : FoldsAll (n + 0xFF0000)
    · -- 255 is left over
      have hones := ones_lt (n + 0xFF0000)
      rw [fold_eq (by omega) hall, Nat.mod_eq_of_lt hones]
      unfold FoldsAll at hall
      unfold ones
      rw [if_neg (by omega)]
      split <;> omega
    · obtain ⟨hle, hzero, hfold⟩ := fold_of_not hall
      rw [hfold, ones, if_neg (by omega)]
      omega

theorem checksum_right_iff_word :
    FoldsAll (words [0x45, 0x80]).sum ∧
      calculateChecksum [0x45, 0x80] = swap16 (rfc1071 [0x45, 0x80]) := by
  have hall : FoldsAll (words [0x45, 0x80]).sum := Or.inl (by decide)
  exact ⟨hall, (checksum_right_iff _ (by decide)).mpr (Or.inl ⟨rfl, hall⟩)⟩

/-- A single byte `0x80`. -/
theorem checksum_odd_wrong :
    calculateChecksum [0x80] = 0x007F ∧ swap16 (rfc1071 [0x80]) = 0xFF7F := by
  constructor
  · have hfold : fold (sumWords [0x80] % 2 ^ 64) = 0x80FF := by
      rw [show sumWords [0x80] % 2 ^ 64 = 0xFF8000 by decide, fold, if_neg (by decide)]
      exact fold_of_lt 0x80FF (by decide)
    rw [calculateChecksum, hfold]
    rfl
  · decide

/-! ## Section 5: Verifying a checksum -/

theorem sumWords_append {front : List Byte} (heven : front.length % 2 = 0) (data : List Byte) :
    sumWords (front ++ data) = sumWords front + sumWords data := by
  induction front using words.induct with
  | case1 a b front ih =>
    simp only [List.cons_append, sumWords, ih (by simpa [Nat.add_assoc] using heven), Nat.add_assoc]
  | case2 a => simp at heven
  | case3 => simp [sumWords]

theorem swap16_swap16 (w : Nat) : swap16 (swap16 w) = w % 2 ^ 16 := by
  have hhigh : w / 256 % 256 < 256 := Nat.mod_lt _ (by decide)
  unfold swap16
  rw [Nat.add_mul_div_left _ _ (by decide), Nat.div_eq_of_lt hhigh, Nat.add_mul_mod_self_left]
  omega

/-- **Verification**: a packet of less than 64 KiB whose checksum was put in the place of two
    zero bytes, at an even offset, has the checksum 0. Both slips show on both sides. -/
theorem checksum_verifies (front back : List Byte) (heven : front.length % 2 = 0)
    (hlength : front.length + back.length < 2 ^ 16) :
    let c := calculateChecksum (front ++ 0 :: 0 :: back)
    calculateChecksum (front ++ .ofNat 8 c :: .ofNat 8 (c / 256) :: back) = 0 := by
  intro c
  have hsum : sumWords front + sumWords back < 2 ^ 32 - 2 ^ 16 := by
    have := sum_words_lt front
    have := sum_words_lt back
    rw [sumWords_eq, sumWords_eq]
    split <;> split <;> omega
  generalize hn : sumWords front + sumWords back = n at hsum
  have hc : swap16 c = 65535 - ones n := by
    have hones := ones_lt n
    have hzero : sumWords (front ++ 0 :: 0 :: back) = n := by
      rw [sumWords_append heven, sumWords, ← hn]
      exact congrArg _ (Nat.zero_add _)
    simp only [c, calculateChecksum, hzero, Nat.mod_eq_of_lt (show n < 2 ^ 64 by omega),
      fold_of_lt n (by omega), swap16_swap16]
    omega
  have hfilled : sumWords (front ++ .ofNat 8 c :: .ofNat 8 (c / 256) :: back) =
      n + (65535 - ones n) := by
    rw [sumWords_append heven, sumWords, ← hc, ← hn]
    simp only [BitVec.toNat_ofNat, swap16]
    omega
  -- the word that makes a sum in one's complement -0
  have hones : ones (n + (65535 - ones n)) = 65535 := by
    unfold ones
    split <;> split <;> omega
  rw [calculateChecksum, hfilled, Nat.mod_eq_of_lt (by omega), fold_of_lt _ (by omega), hones]
  rfl

theorem checksum_verifies_short :
    let c := calculateChecksum [0x45, 0x80, 0, 0]
    calculateChecksum [0x45, 0x80, .ofNat 8 c, .ofNat 8 (c / 256)] = 0 :=
  checksum_verifies [0x45, 0x80] [] rfl (by decide)

end Fennix.Network
