import Fennix.Memory.Physical

/-! # What the operations of the physical allocator do

    One specification per operation of `Fennix.Memory.Physical`: what it does
    to the bitmap and to the search hint. Later modules use these and do not
    unfold the operations again.
-/

namespace Fennix.Memory

theorem pageAt_of_lt {i t : Nat} (h : i + t < 2 ^ 52) :
    pageAt (i * pageSize) t = i + t := by
  unfold pageAt
  have : (i * pageSize + t * pageSize) % 2 ^ 64 = (i + t) * pageSize := by
    rw [← Nat.add_mul]
    exact Nat.mod_eq_of_lt (by simp only [pageSize]; omega)
  rw [this]
  exact Nat.mul_div_cancel _ (by simp)

theorem pageAt_mul (i t : Nat) : pageAt (i * pageSize) t = (i + t) % 2 ^ 52 := by
  unfold pageAt
  rw [← Nat.add_mul]
  simp only [pageSize]
  omega

namespace Physical

/-! ## Section 1: `charge` -/

@[simp] theorem charge_bits (s : Physical) (a : Account) (i : Nat) :
    (s.charge a i).pageBitmap.bits = s.pageBitmap.bits := by
  unfold charge
  split
  · rfl
  · split
    · simp
    · rfl

@[simp] theorem charge_pageBitmapIndex (s : Physical) (a : Account) (i : Nat) :
    (s.charge a i).pageBitmapIndex = s.pageBitmapIndex := by
  unfold charge
  split
  · rfl
  · split
    · simp
    · rfl

theorem charge_get (s : Physical) (a : Account) (i p : Nat) :
    (s.charge a i).pageBitmap.get p = true ↔
      s.pageBitmap.get p = true ∨ (p = i ∧ i ≤ s.pageBitmap.bits) := by
  unfold charge
  split
  · rename_i hget
    constructor
    · exact Or.inl
    · intro hor
      rcases hor with h | ⟨rfl, _⟩
      · exact h
      · exact hget
  · split
    · rename_i hset
      simp only [Bitmap.get_set]
      split <;> simp_all
    · rename_i hset
      simp only [Bitmap.set_fst, decide_eq_true_eq] at hset
      constructor
      · exact Or.inl
      · intro hor
        rcases hor with h | ⟨_, h⟩
        · exact h
        · exact absurd h hset

/-! ## Section 2: `release` -/

@[simp] theorem release_bits (s : Physical) (a : Account) (i : Nat) :
    (s.release a i).pageBitmap.bits = s.pageBitmap.bits := by
  unfold release
  split
  · rfl
  · split
    · simp
    · rfl

theorem release_get (s : Physical) (a : Account) (i p : Nat) :
    (s.release a i).pageBitmap.get p = true ↔ s.pageBitmap.get p = true ∧ p ≠ i := by
  unfold release
  split
  · rename_i hget
    constructor
    · intro h
      exact ⟨h, fun heq => by rw [heq, hget] at h; cases h⟩
    · exact And.left
  · rename_i hget
    have hle : i ≤ s.pageBitmap.bits := Bitmap.le_of_get (by simpa using hget)
    rw [if_pos (by simpa using hle)]
    simp only [Bitmap.get_set]
    split <;> simp_all

theorem release_pageBitmapIndex (s : Physical) (a : Account) (i : Nat) :
    (s.release a i).pageBitmapIndex =
      if s.pageBitmap.get i = true ∧ i < s.pageBitmapIndex then i else s.pageBitmapIndex := by
  unfold release
  split
  · rename_i hget
    simp [hget]
  · rename_i hget
    have hget' : s.pageBitmap.get i = true := by simpa using hget
    rw [if_pos (by simpa using Bitmap.le_of_get hget')]
    simp [hget']

/-! ## Section 3: Ranges -/

variable {P : Physical → Prop} {address n : Nat} {s : Physical}

theorem chargePages_induct {a : Account} (hs : P s)
    (hround : ∀ s t, t < n → P s → P (s.charge a (pageAt address t))) :
    P (s.chargePages a address n) := by
  induction n with
  | zero => exact hs
  | succ n ih =>
    exact hround _ n (by omega) (ih fun s t ht => hround s t (by omega))

@[simp] theorem chargePages_bits (s : Physical) (a : Account) (address n : Nat) :
    (s.chargePages a address n).pageBitmap.bits = s.pageBitmap.bits := by
  induction n with
  | zero => rfl
  | succ n ih => simpa [chargePages] using ih

theorem chargePages_get (s : Physical) (a : Account) (address n p : Nat) :
    (s.chargePages a address n).pageBitmap.get p = true ↔
      s.pageBitmap.get p = true ∨
        (p ≤ s.pageBitmap.bits ∧ ∃ t < n, pageAt address t = p) := by
  induction n with
  | zero => simp [chargePages]
  | succ n ih =>
    rw [chargePages, charge_get, ih, chargePages_bits]
    constructor
    · intro hor
      rcases hor with (h | ⟨hp, t, ht, rfl⟩) | ⟨rfl, hp⟩
      · exact Or.inl h
      · exact Or.inr ⟨hp, t, by omega, rfl⟩
      · exact Or.inr ⟨hp, n, by omega, rfl⟩
    · intro hor
      rcases hor with h | ⟨hp, t, ht, rfl⟩
      · exact Or.inl (Or.inl h)
      · rcases Nat.lt_succ_iff_lt_or_eq.mp ht with hlt | rfl
        · exact Or.inl (Or.inr ⟨hp, t, hlt, rfl⟩)
        · exact Or.inr ⟨rfl, hp⟩

theorem unreserveFrom_induct {t : Nat} (hs : P s)
    (hround : ∀ s k, t ≤ k → k < t + n → P s → P (s.release .reserved (pageAt address k))) :
    P (s.unreserveFrom address t n) := by
  induction n generalizing s t with
  | zero => exact hs
  | succ n ih =>
    unfold unreserveFrom
    split
    · exact hs
    · exact ih (hround s t (by omega) (by omega) hs)
        fun s k hk hkn => hround s k (by omega) (by omega)

theorem freeLoop_induct (hs : P s)
    (hround : ∀ s t, t < n → P s → P (s.freePage ((address + t * pageSize) % 2 ^ 64))) :
    P (s.freeLoop address n) := by
  induction n with
  | zero => exact hs
  | succ n ih =>
    exact hround _ n (by omega) (ih fun s t ht => hround s t (by omega))

@[simp] theorem freePage_bits (s : Physical) (address : Nat) :
    (s.freePage address).pageBitmap.bits = s.pageBitmap.bits := by
  unfold freePage
  split <;> simp

theorem freePage_get (s : Physical) (address p : Nat) :
    (s.freePage address).pageBitmap.get p = true ↔
      s.pageBitmap.get p = true ∧ (address ≠ 0 → p ≠ address / pageSize) := by
  unfold freePage
  split
  · rename_i h
    simp [h]
  · rename_i h
    simp [release_get, h]

@[simp] theorem freeLoop_bits (s : Physical) (address n : Nat) :
    (s.freeLoop address n).pageBitmap.bits = s.pageBitmap.bits := by
  induction n with
  | zero => rfl
  | succ n ih => simpa [freeLoop] using ih

theorem freeLoop_get (s : Physical) (address n p : Nat) :
    (s.freeLoop address n).pageBitmap.get p = true ↔
      s.pageBitmap.get p = true ∧
        ∀ t < n, (address + t * pageSize) % 2 ^ 64 ≠ 0 → p ≠ pageAt address t := by
  induction n with
  | zero => simp [freeLoop]
  | succ n ih =>
    rw [freeLoop, freePage_get, ih]
    constructor
    · intro hboth
      obtain ⟨⟨h, hlt⟩, hn⟩ := hboth
      refine ⟨h, fun t ht => ?_⟩
      rcases Nat.lt_succ_iff_lt_or_eq.mp ht with htn | rfl
      · exact hlt t htn
      · exact hn
    · intro hboth
      obtain ⟨h, hall⟩ := hboth
      exact ⟨⟨h, fun t ht => hall t (by omega)⟩, hall n (by omega)⟩

@[simp] theorem freePages_bits (s : Physical) (address count : Nat) :
    (s.freePages address count).pageBitmap.bits = s.pageBitmap.bits := by
  unfold freePages
  split <;> simp

end Physical

end Fennix.Memory
