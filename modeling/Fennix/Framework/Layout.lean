import Mathlib.Data.BitVec
import Mathlib.Logic.Basic

/-! # Data laid out in memory

    Memory is a function of the address. Lists are stored into it, and pushed below
    what is there already, as on a stack that grows down.

    - `Holds`: a list is in memory at an address.
    - `Holds.push`: what is pushed is there, before what was there.
    - `readNumber_of_holds`, `readText_of_holds`: numbers in little endian and texts that
      end with a zero are read back.
-/

namespace Fennix.Layout

variable {α : Type}

/-! ## Section 1: Lists in memory -/

/-- The list is in memory at an address. -/
def Holds (m : Nat → α) (a : Nat) (xs : List α) : Prop :=
  ∀ i (h : i < xs.length), m (a + i) = xs[i]

/-- Memory with a list stored at an address. -/
def store (m : Nat → α) (a : Nat) (xs : List α) : Nat → α := fun x =>
  if h : a ≤ x ∧ x - a < xs.length then xs[x - a] else m x

variable {m : Nat → α} {a x : Nat} {xs : List α}

theorem store_of_le (h : a + xs.length ≤ x) :
    store m a xs x = m x := dif_neg (by omega)

theorem store_of_lt (h : x < a) :
    store m a xs x = m x := dif_neg (by omega)

theorem holds_store (m : Nat → α) (a : Nat) (xs : List α) : Holds (store m a xs) a xs := by
  intro i h
  simp [store, h]

theorem holds_append {ys : List α} :
    Holds m a (xs ++ ys) ↔ Holds m a xs ∧ Holds m (a + xs.length) ys := by
  constructor
  · intro h
    refine ⟨fun i hi => ?_, fun i hi => ?_⟩
    · rw [h i (by simp; omega), List.getElem_append_left hi]
    · rw [Nat.add_assoc, h (xs.length + i) (by simp; omega), List.getElem_append_right (by omega)]
      simp
  · intro ⟨hxs, hys⟩ i hi
    by_cases hlt : i < xs.length
    · rw [hxs i hlt, List.getElem_append_left hlt]
    · rw [List.length_append] at hi
      have := hys (i - xs.length) (by omega)
      rw [List.getElem_append_right (by omega), ← this]
      congr 1
      omega

theorem holds_cons {x : α} : Holds m a (x :: xs) ↔ m a = x ∧ Holds m (a + 1) xs := by
  have h : Holds m a ([x] ++ xs) ↔ Holds m a [x] ∧ Holds m (a + 1) xs := holds_append
  rw [List.singleton_append] at h
  rw [h]
  refine and_congr_left' ⟨fun h => h 0 (by simp), fun h i hi => ?_⟩
  simp only [List.length_singleton, Nat.lt_one_iff] at hi
  subst hi
  exact h

theorem Holds.congr {m' : Nat → α} (h : Holds m a xs)
    (heq : ∀ x, a ≤ x → x < a + xs.length → m' x = m x) : Holds m' a xs := by
  intro i hi
  rw [heq (a + i) (by omega) (by omega)]
  exact h i hi

/-! ## Section 2: Pushing -/

/-- Memory and the lowest address in use, after a list is pushed. -/
def push (s : (Nat → α) × Nat) (xs : List α) : (Nat → α) × Nat :=
  (store s.1 (s.2 - xs.length) xs, s.2 - xs.length)

theorem holds_push (s : (Nat → α) × Nat) (xs : List α) : Holds (push s xs).1 (push s xs).2 xs :=
  holds_store _ _ _

theorem push_of_le {s : (Nat → α) × Nat} (hroom : xs.length ≤ s.2) (h : s.2 ≤ x) :
    (push s xs).1 x = s.1 x :=
  store_of_le (by omega)

theorem Holds.push {s : (Nat → α) × Nat} {ys : List α} (h : Holds s.1 s.2 ys)
    (hroom : xs.length ≤ s.2) : Holds (push s xs).1 (push s xs).2 (xs ++ ys) := by
  refine holds_append.mpr ⟨holds_push s xs, ?_⟩
  have hend : (Layout.push s xs).2 + xs.length = s.2 := Nat.sub_add_cancel hroom
  rw [hend]
  exact h.congr fun x hx _ => push_of_le hroom hx

/-! ## Section 3: Numbers -/

/-- The bytes of a number, the lowest first. -/
def littleEndian : Nat → Nat → List (BitVec 8)
  | 0, _ => []
  | n + 1, v => BitVec.ofNat 8 v :: littleEndian n (v / 256)

@[simp] theorem length_littleEndian (n : Nat) : ∀ v, (littleEndian n v).length = n := by
  induction n with
  | zero => intro v; rfl
  | succ n ih => intro v; simp [littleEndian, ih]

/-- A number of so many bytes, from memory that need not be there. -/
def readNumber (m : Nat → Option (BitVec 8)) : Nat → Nat → Option Nat
  | 0, _ => some 0
  | n + 1, a => (m a).bind fun b => (readNumber m n (a + 1)).map fun v => b.toNat + 256 * v

theorem readNumber_of_holds {m : Nat → Option (BitVec 8)} (n : Nat) : ∀ {a v : Nat},
    Holds m a ((littleEndian n v).map some) → v < 256 ^ n → readNumber m n a = some v := by
  induction n with
  | zero =>
    intro a v _ hv
    simp only [readNumber, Option.some.injEq]
    omega
  | succ n ih =>
    intro a v h hv
    simp only [littleEndian, List.map_cons, holds_cons] at h
    have hrest : v / 256 < 256 ^ n := by
      rw [Nat.pow_succ] at hv
      exact Nat.div_lt_of_lt_mul (by omega)
    rw [readNumber, h.1, Option.bind_some, ih h.2 hrest, Option.map_some, BitVec.toNat_ofNat]
    congr 1
    omega

/-! ## Section 4: Texts -/

/-- The bytes up to the first zero, if there is one within so many. -/
def readText (m : Nat → Option (BitVec 8)) : Nat → Nat → Option (List (BitVec 8))
  | 0, _ => none
  | n + 1, a => (m a).bind fun b => if b = 0 then some [] else (readText m n (a + 1)).map (b :: ·)

theorem readText_of_holds {m : Nat → Option (BitVec 8)} (text : List (BitVec 8)) : ∀ {a : Nat},
    0 ∉ text → Holds m a ((text ++ [0]).map some) →
      readText m (text.length + 1) a = some text := by
  induction text with
  | nil =>
    intro a _ h
    simp only [List.nil_append, List.map_cons, List.map_nil, holds_cons] at h
    simp [readText, h.1]
  | cons b text ih =>
    intro a hzero h
    simp only [List.cons_append, List.map_cons, holds_cons] at h
    have hb : b ≠ 0 := fun hb => hzero (by simp [hb])
    rw [List.length_cons, readText, h.1, Option.bind_some, if_neg hb,
      ih (fun hmem => hzero (List.mem_cons_of_mem _ hmem)) h.2, Option.map_some]

end Fennix.Layout
