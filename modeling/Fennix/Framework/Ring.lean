import Mathlib.Data.List.Basic
import Mathlib.Data.Nat.ModEq
import Mathlib.Logic.Function.Basic

/-! # Rings

    A queue in an array whose last place is followed by the first.
-/

namespace Fennix.Ring

open Function (update)

/-- The elements of the queue are in the ring from a place on. -/
def Holds {α : Type} (buffer : Nat → α) (size start : Nat) (queue : List α) : Prop :=
  ∀ i (h : i < queue.length), buffer ((start + i) % size) = queue[i]

variable {α : Type} {buffer : Nat → α} {size start : Nat} {queue : List α}

/-- Places of the ring differ. -/
theorem add_mod_inj {a i j n : Nat} (hi : i < n) (hj : j < n) (h : (a + i) % n = (a + j) % n) :
    i = j := by
  have hmod : i % n = j % n := Nat.ModEq.add_left_cancel' a h
  rwa [Nat.mod_eq_of_lt hi, Nat.mod_eq_of_lt hj] at hmod

theorem Holds.push (h : Holds buffer size start queue) (hroom : queue.length < size) (a : α) :
    Holds (update buffer ((start + queue.length) % size) a) size start (queue ++ [a]) := by
  intro i hi
  -- only the place behind the last element changes
  by_cases hlast : i = queue.length
  · subst hlast
    simp
  · have hlt : i < queue.length := by
      rw [List.length_append, List.length_singleton] at hi
      omega
    have hne : (start + i) % size ≠ (start + queue.length) % size := fun heq =>
      hlast (add_mod_inj (by omega) hroom heq)
    rw [Function.update_of_ne hne, h i hlt, List.getElem_append_left hlt]

theorem Holds.pop {a : α} (h : Holds buffer size start (a :: queue)) :
    buffer (start % size) = a ∧ Holds buffer size ((start + 1) % size) queue := by
  refine ⟨h 0 (Nat.succ_pos _), fun i hi => ?_⟩
  rw [Nat.mod_add_mod, Nat.add_assoc, Nat.add_comm 1 i]
  exact h (i + 1) (Nat.succ_lt_succ hi)

end Fennix.Ring
