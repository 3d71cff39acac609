import Mathlib.Data.BitVec
import Mathlib.Data.List.Basic

/-! # Memory with vector instructions

    The variants of `memcpy` and `memset` of `Kernel/library/simd_memcpy.cpp` and
    `simd_memset.cpp`. A range of memory does not wrap around. An instruction that needs an
    aligned address faults on another one, which is `none`. For a rest, `memcpy_unsafe` and
    `memset_unsafe` are called, which are loops over bytes here.

    - `memcpy_right`: all variants of `memcpy` copy.
    - `memset_right_iff`: `movd` sets four bytes of the register only, to those of the argument
      and not to its lowest one. `memset_sse4_2` spreads the four bytes and the others do not,
      which also return the end of the range.
-/

namespace Fennix.Simd

abbrev Byte := BitVec 8

abbrev Memory := Nat → Byte

/-- So many bytes are stored from an address on. -/
def store (m : Memory) (a n : Nat) (bytes : Nat → Byte) : Memory := fun x =>
  if a ≤ x ∧ x < a + n then bytes (x - a) else m x

/-- So many bytes are read and then stored. -/
def copy (m : Memory) (d s n : Nat) : Memory := store m d n fun i => m (s + i)

/-- A byte is stored so many times. -/
def fill (m : Memory) (a n : Nat) (c : Byte) : Memory := store m a n fun _ => c

variable {m : Memory} {a d s n k : Nat}

theorem store_zero {f : Nat → Byte} : store m a 0 f = m := by
  funext x
  exact if_neg (by omega)

theorem store_store {f g h : Nat → Byte} (hf : ∀ i < k, f i = h i) (hg : ∀ i < n, g i = h (k + i)) :
    store (store m a k f) (a + k) n g = store m a (k + n) h := by
  funext x
  simp only [store]
  by_cases hsecond : a + k ≤ x ∧ x < a + k + n
  · rw [if_pos hsecond, if_pos (by omega), hg _ (by omega)]
    congr 1
    omega
  · rw [if_neg hsecond]
    by_cases hfirst : a ≤ x ∧ x < a + k
    · rw [if_pos hfirst, if_pos (by omega), hf _ (by omega)]
    · rw [if_neg hfirst, if_neg (by omega)]

/-! ## Section 1: Copying -/

def memcpyUnsafe (m : Memory) (d s : Nat) : Nat → Memory
  | 0 => m
  | n + 1 => memcpyUnsafe (copy m d s 1) (d + 1) (s + 1) n

/-- The instructions for 16 bytes. -/
inductive Instruction where
  | movaps
  | movups
  | movdqa
  | movdqu
  | lddqu
  deriving DecidableEq

/-- It faults on an address that is no multiple of 16. -/
def Instruction.Aligned (i : Instruction) : Prop := i = .movaps ∨ i = .movdqa

instance (i : Instruction) : Decidable i.Aligned := inferInstanceAs (Decidable (_ ∨ _))

/-- The loop over the vectors. -/
def moveVectors (load put : Instruction) : Nat → Memory → Nat → Nat → Option Memory
  | 0, m, _, _ => some m
  | vectors + 1, m, d, s =>
    if (load.Aligned → s % 16 = 0) ∧ (put.Aligned → d % 16 = 0) then
      moveVectors load put vectors (copy m d s 16) (d + 16) (s + 16)
    else none

/-- The variants, with what they use for aligned addresses and for others. -/
def memcpyWith (load put load' put' : Instruction) (m : Memory) (dest src n : Nat) :
    Option (Nat × Memory) :=
  let vectors := n / 16
  (if (dest ||| src) &&& 0xF = 0 then moveVectors load put vectors m dest src
    else moveVectors load' put' vectors m dest src).map fun m =>
      (dest, memcpyUnsafe m (dest + vectors * 16) (src + vectors * 16) (n - vectors * 16))

def memcpySse := memcpyWith .movaps .movaps .movups .movups

def memcpySse2 := memcpyWith .movdqa .movdqa .movdqu .movdqu

def memcpySse3 := memcpyWith .movdqa .movdqa .movdqu .movdqu

def memcpySsse3 := memcpyWith .lddqu .movdqa .lddqu .movdqu

def memcpySse41 := memcpyWith .movdqa .movdqa .movdqu .movdqu

def memcpySse42 := memcpyWith .movdqa .movdqa .movdqu .movdqu

theorem copy_copy (h : d + (k + n) ≤ s ∨ s + (k + n) ≤ d) :
    copy (copy m d s k) (d + k) (s + k) n = copy m d s (k + n) := by
  refine store_store (fun _ _ => rfl) fun i hi => ?_
  rw [← Nat.add_assoc]
  exact if_neg (by omega)

theorem memcpyUnsafe_eq (n : Nat) : ∀ {m : Memory} {d s : Nat}, d + n ≤ s ∨ s + n ≤ d →
    memcpyUnsafe m d s n = copy m d s n := by
  induction n with
  | zero => exact fun _ => store_zero.symm
  | succ n ih =>
    intro m d s h
    rw [memcpyUnsafe, ih (by omega), copy_copy (by omega), Nat.add_comm]

theorem moveVectors_eq {load put : Instruction} (vectors : Nat) : ∀ {m : Memory} {d s : Nat},
    (load.Aligned → s % 16 = 0) → (put.Aligned → d % 16 = 0) →
    d + vectors * 16 ≤ s ∨ s + vectors * 16 ≤ d →
    moveVectors load put vectors m d s = some (copy m d s (vectors * 16)) := by
  induction vectors with
  | zero => exact fun _ _ _ => congrArg some store_zero.symm
  | succ vectors ih =>
    intro m d s hload hput h
    rw [moveVectors, if_pos ⟨hload, hput⟩, ih (fun ha => by have := hload ha; omega)
      (fun ha => by have := hput ha; omega) (by omega), copy_copy (by omega), Nat.add_comm,
      Nat.succ_mul]

theorem memcpyWith_eq {load put load' put' : Instruction} (h : d + n ≤ s ∨ s + n ≤ d)
    (hload : ¬ load'.Aligned) (hput : ¬ put'.Aligned) :
    memcpyWith load put load' put' m d s n = some (d, copy m d s n) := by
  have hvectors : (if (d ||| s) &&& 0xF = 0 then moveVectors load put (n / 16) m d s
      else moveVectors load' put' (n / 16) m d s) = some (copy m d s (n / 16 * 16)) := by
    split
    · next haligned =>
      have hmod : (d ||| s) % 2 ^ 4 = 0 := by rwa [← Nat.and_two_pow_sub_one_eq_mod]
      rw [Nat.or_mod_two_pow, Nat.or_eq_zero_iff] at hmod
      exact moveVectors_eq _ (fun _ => hmod.2) (fun _ => hmod.1) (by omega)
    · exact moveVectors_eq _ (fun ha => absurd ha hload) (fun ha => absurd ha hput) (by omega)
  have hsum : n / 16 * 16 + (n - n / 16 * 16) = n := by omega
  rw [memcpyWith, hvectors, Option.map_some, memcpyUnsafe_eq _ (by omega),
    copy_copy (by rwa [hsum]), hsum]

/-- Every variant copies the bytes of a range to a range that does not overlap it, changes no
    other byte and returns the destination, whatever the addresses are. -/
theorem memcpy_right (dest src n : Nat) (h : dest + n ≤ src ∨ src + n ≤ dest) (m : Memory) :
    ∀ memcpy ∈ [memcpySse, memcpySse2, memcpySse3, memcpySsse3, memcpySse41, memcpySse42],
      memcpy m dest src n = some (dest, fun x =>
        if dest ≤ x ∧ x < dest + n then m (src + (x - dest)) else m x) := by
  intro memcpy hmem
  simp only [List.mem_cons, List.not_mem_nil, or_false] at hmem
  obtain rfl | rfl | rfl | rfl | rfl | rfl := hmem <;> exact memcpyWith_eq h (by decide) (by decide)

theorem memcpy_right_odd : memcpySsse3 (BitVec.ofNat 8) 0x101 0x20 17 = some (0x101, fun x =>
    if 0x101 ≤ x ∧ x < 0x101 + 17 then BitVec.ofNat 8 (0x20 + (x - 0x101)) else BitVec.ofNat 8 x) :=
  memcpy_right 0x101 0x20 17 (by decide) _ _ (by simp)

/-! ## Section 2: Filling -/

def memsetUnsafe (m : Memory) (d : Nat) (c : Byte) : Nat → Memory
  | 0 => m
  | n + 1 => memsetUnsafe (fill m d 1 c) (d + 1) c n

/-- A byte of the argument. -/
def byteOf (c : BitVec 32) (i : Nat) : Byte := (c >>> (8 * i)).setWidth 8

/-- The register after `movd`. -/
def movd (c : BitVec 32) (i : Nat) : Byte := if i < 4 then byteOf c i else 0

/-- The register after `pshufd $0`. -/
def pshufd (xmm : Nat → Byte) (i : Nat) : Byte := xmm (i % 4)

/-- `movdqa` to memory, so many times. -/
def storeVectors (xmm : Nat → Byte) : Nat → Memory → Nat → Option Memory
  | 0, m, _ => some m
  | vectors + 1, m, d =>
    if d % 16 = 0 then storeVectors xmm vectors (store m d 16 xmm) (d + 16) else none

/-- The first loop of `memset_sse2`: bytes up to an aligned address or the end, and where it
    stops. -/
def stosb (c : Byte) : Nat → Memory → Nat → Nat × Memory
  | 0, m, d => (d, m)
  | n + 1, m, d => if d % 16 = 0 then (d, m) else stosb c n (fill m d 1 c) (d + 1)

/-- `memset_sse2`: four vectors in a round, and `rep stosb` for what is left. -/
def memsetSse2 (m : Memory) (dest : Nat) (c : BitVec 32) (n : Nat) : Option (Nat × Memory) :=
  let (d, m) := stosb (byteOf c 0) n m dest
  let rounds := (dest + n - d) / 64
  (storeVectors (movd c) (4 * rounds) m d).map fun m =>
    (dest + n, fill m (d + 64 * rounds) (dest + n - (d + 64 * rounds)) (byteOf c 0))

def memsetSse3 := memsetSse2

def memsetSsse3 := memsetSse2

def memsetSse41 := memsetSse2

def memsetSse42 (m : Memory) (dest : Nat) (c : BitVec 32) (n : Nat) : Option (Nat × Memory) :=
  if dest % 16 = 0 then
    (storeVectors (pshufd (movd c)) (n / 16) m dest).map fun m =>
      (dest, memsetUnsafe m (dest + n / 16 * 16) (byteOf c 0) (n - n / 16 * 16))
  else some (dest, memsetUnsafe m dest (byteOf c 0) n)

/-- The byte is stored to the range and nowhere else, and the range is returned. -/
def MemsetRight (memset : Memory → Nat → BitVec 32 → Nat → Option (Nat × Memory)) (m : Memory)
    (dest : Nat) (c : BitVec 32) (n : Nat) : Prop :=
  memset m dest c n = some (dest, fill m dest n (byteOf c 0))

theorem memsetUnsafe_eq (c : Byte) (n : Nat) : ∀ {m : Memory} {d : Nat},
    memsetUnsafe m d c n = fill m d n c := by
  induction n with
  | zero => exact store_zero.symm
  | succ n ih =>
    intro m d
    rw [memsetUnsafe, ih, Nat.add_comm n 1]
    exact store_store (fun _ _ => rfl) fun _ _ => rfl

theorem storeVectors_eq (xmm : Nat → Byte) (vectors : Nat) : ∀ {m : Memory} {d : Nat}, d % 16 = 0 →
    storeVectors xmm vectors m d = some (store m d (vectors * 16) fun i => xmm (i % 16)) := by
  induction vectors with
  | zero => exact fun _ => congrArg some store_zero.symm
  | succ vectors ih =>
    intro m d h
    rw [storeVectors, if_pos h, ih (by omega), Nat.succ_mul, Nat.add_comm (vectors * 16) 16]
    refine congrArg some (store_store (fun i hi => ?_) fun i _ => ?_)
    · rw [Nat.mod_eq_of_lt hi]
    · rw [Nat.add_mod_left]

theorem memsetSse2_iff (c : BitVec 32) : MemsetRight memsetSse2 m d c n ↔ n = 0 := by
  constructor
  · intro h
    obtain ⟨_, -, hresult⟩ := Option.map_eq_some_iff.mp h
    have hend : d + n = d := congrArg Prod.fst hresult
    omega
  · rintro rfl
    simp [MemsetRight, memsetSse2, stosb, storeVectors]

theorem memsetSse42_iff (c : BitVec 32) : MemsetRight memsetSse42 m d c n ↔
    d % 16 ≠ 0 ∨ n < 16 ∨ ∀ i < 4, byteOf c i = byteOf c 0 := by
  unfold MemsetRight memsetSse42
  by_cases haligned : d % 16 = 0
  · rw [if_pos haligned, storeVectors_eq _ _ haligned, Option.map_some, memsetUnsafe_eq]
    simp only [Option.some.injEq, Prod.mk.injEq, true_and, haligned, ne_eq, not_true_eq_false,
      false_or]
    have hvector : ∀ i, pshufd (movd c) (i % 16) = byteOf c (i % 4) := by
      intro i
      rw [pshufd, movd, if_pos (Nat.mod_lt _ (by decide)), Nat.mod_mod_of_dvd i (by decide)]
    constructor
    · intro h
      by_contra hnot
      obtain ⟨hlong, hbytes⟩ := not_or.mp hnot
      refine hbytes fun i hi => ?_
      have hbyte := congrFun h (d + i)
      simp only [fill, store] at hbyte
      rwa [if_neg (by omega), if_pos (by omega), if_pos (by omega), hvector, Nat.add_sub_cancel_left,
        Nat.mod_eq_of_lt hi] at hbyte
    · intro hor
      have hsame : ∀ i < n / 16 * 16, pshufd (movd c) (i % 16) = byteOf c 0 := by
        intro i hi
        rw [hvector]
        exact hor.resolve_left (by omega) _ (Nat.mod_lt _ (by decide))
      refine (store_store hsame fun _ _ => rfl).trans ?_
      rw [show n / 16 * 16 + (n - n / 16 * 16) = n by omega]
      rfl
  · rw [if_neg haligned, memsetUnsafe_eq]
    exact iff_of_true rfl (.inl haligned)

/-- `memset_sse4_2` is right exactly if it uses no vector or the four bytes of the argument are
    the same, and the others only if there is nothing to fill: else they return its end. -/
theorem memset_right_iff (m : Memory) (dest : Nat) (c : BitVec 32) (n : Nat) :
    (∀ memset ∈ [memsetSse2, memsetSse3, memsetSsse3, memsetSse41],
      MemsetRight memset m dest c n ↔ n = 0) ∧
    (MemsetRight memsetSse42 m dest c n ↔
      dest % 16 ≠ 0 ∨ n < 16 ∨ ∀ i < 4, byteOf c i = byteOf c 0) := by
  refine ⟨fun memset hmem => ?_, memsetSse42_iff c⟩
  simp only [List.mem_cons, List.not_mem_nil, or_false] at hmem
  obtain rfl | rfl | rfl | rfl := hmem <;> exact memsetSse2_iff c

/-- 16 or 64 bytes at 0 are to be 1. With `memset_sse2` also the fifth one is not. -/
theorem memset_wrong : ¬ MemsetRight memsetSse42 (fun _ => 0) 0 1 16 ∧
    (memsetSse2 (fun _ => 0) 0 1 64).map (fun r => (r.1, r.2 0, r.2 4)) = some (64, 1, 0) := by
  refine ⟨fun h => ?_, by decide⟩
  have hbytes := (memsetSse42_iff 1).mp h
  revert hbytes
  decide

end Fennix.Simd
