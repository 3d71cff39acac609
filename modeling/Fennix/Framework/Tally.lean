import Mathlib.Data.BitVec
import Mathlib.Data.Set.Card

/-! # Counters of a set

    A machine counter that is incremented for each element that joins a set and
    decremented for each element that leaves it. The set is finite, and the counter
    is its size modulo the width of the counter. A family of counters follows one set
    by a key of its elements.
-/

namespace Fennix

universe u v

open Function (update)

variable {α : Type u} {w : Nat}

/-- The counter `n` has the size of `S`. -/
def Tally (n : BitVec w) (S : Set α) : Prop := S.Finite ∧ n = BitVec.ofNat w S.ncard

namespace Tally

variable {n : BitVec w} {S : Set α} {a : α}

theorem empty : Tally (0 : BitVec w) (∅ : Set α) := ⟨Set.finite_empty, by simp⟩

theorem insert (h : Tally n S) (ha : a ∉ S) : Tally (n + 1) (insert a S) := by
  obtain ⟨hfin, rfl⟩ := h
  refine ⟨hfin.insert a, ?_⟩
  rw [Set.ncard_insert_of_notMem ha hfin, BitVec.ofNat_add]
  rfl

theorem erase (h : Tally n S) (ha : a ∈ S) : Tally (n - 1) (S \ {a}) := by
  obtain ⟨hfin, rfl⟩ := h
  refine ⟨hfin.sdiff, ?_⟩
  rw [← Set.ncard_sdiff_singleton_add_one ha hfin, BitVec.ofNat_add]
  exact BitVec.add_sub_cancel _ _

theorem toNat_eq (h : Tally n S) (hlt : S.ncard < 2 ^ w) : n.toNat = S.ncard := by
  rw [h.2, BitVec.toNat_ofNat, Nat.mod_eq_of_lt hlt]

/-! ## Counters by key -/

section Keys

variable {ι : Type v} [DecidableEq ι] {key : α → ι} {m : ι → BitVec w}

theorem update_key {T : Set α} (h : ∀ i, Tally (m i) {b ∈ S | key b = i})
    (ha : Tally n {b ∈ T | key b = key a}) (hT : ∀ b, b ≠ a → (b ∈ T ↔ b ∈ S)) (i : ι) :
    Tally (update m (key a) n i) {b ∈ T | key b = i} := by
  by_cases hi : i = key a
  · rwa [hi, Function.update_self]
  · have hset : {b ∈ T | key b = i} = {b ∈ S | key b = i} := by
      ext b
      refine and_congr_left fun hkey => hT b ?_
      rintro rfl
      exact hi hkey.symm
    rw [Function.update_of_ne hi, hset]
    exact h i

theorem insert_key (h : ∀ i, Tally (m i) {b ∈ S | key b = i}) (ha : a ∉ S) :
    ∀ i, Tally (update m (key a) (m (key a) + 1) i) {b ∈ Insert.insert a S | key b = i} := by
  refine update_key h ?_ fun b hb => or_iff_right hb
  rw [show {b ∈ Insert.insert a S | key b = key a} = Insert.insert a {b ∈ S | key b = key a} from
    Set.insert_inter_of_mem rfl]
  exact (h (key a)).insert fun hmem => ha hmem.1

theorem erase_key (h : ∀ i, Tally (m i) {b ∈ S | key b = i}) (ha : a ∈ S) :
    ∀ i, Tally (update m (key a) (m (key a) - 1) i) {b ∈ S \ {a} | key b = i} := by
  refine update_key h ?_ fun b hb => and_iff_left hb
  rw [show {b ∈ S \ {a} | key b = key a} = {b ∈ S | key b = key a} \ {a} from
    Set.ext fun b => and_right_comm]
  exact (h (key a)).erase ⟨ha, rfl⟩

end Keys

end Tally

end Fennix
