import Mathlib.Data.List.Rotate

/-! # Going around a list

    A scan that starts behind the current element of a list and starts again
    from the front when it comes to the end visits the elements it accepts in
    turn. As many turns as there are such elements visit each of them once.
-/

namespace Fennix.Cycle

universe u

variable {α : Type u}

/-- The scan from behind `c` and then from the front, in a list that is `c` with
    `before` in front and `after` behind. The element it stops at is the next of
    those it accepts. -/
theorem scan_eq {p : α → Bool} (before after : List α) {c : α} (hc : p c = true) :
    ((after.find? p).or ((before ++ c :: after).find? p)) =
      ((before ++ c :: after).filter p)[((before.filter p).length + 1) %
        ((before ++ c :: after).filter p).length]? := by
  rw [List.filter_append, List.filter_cons_of_pos hc, List.length_append, List.length_cons]
  cases hafter : after.filter p with
  | nil =>
    -- nothing is left behind `c`: the scan goes on from the front
    have hnone : after.find? p = none := by
      rw [← List.head?_filter, hafter]
      rfl
    rw [hnone, Option.none_or, List.length_nil, Nat.zero_add, Nat.mod_self, ← List.head?_filter,
      List.filter_append, List.filter_cons_of_pos hc, hafter, List.head?_eq_getElem?]
  | cons b rest =>
    have hsome : after.find? p = some b := by
      rw [← List.head?_filter, hafter]
      rfl
    have hlt : (before.filter p).length + 1 <
        (before.filter p).length + ((b :: rest).length + 1) := by
      rw [List.length_cons]
      omega
    rw [hsome, Option.some_or, Nat.mod_eq_of_lt hlt, List.getElem?_append_right (Nat.le_add_right _ _),
      Nat.add_sub_cancel_left]
    rfl

theorem dropWhile_ne [DecidableEq α] {before after : List α} {c : α} (hc : c ∉ before) :
    (before ++ c :: after).dropWhile (fun a => decide (a ≠ c)) = c :: after := by
  have hpos : ∀ a ∈ before, decide (a ≠ c) = true := by
    intro a ha
    rw [decide_eq_true_iff]
    rintro rfl
    exact hc ha
  rw [List.dropWhile_append_of_pos hpos, List.dropWhile_cons_of_neg (by simp)]

theorem window_perm {l window : List α} {i : Nat} (hlength : window.length = l.length)
    (hturn : ∀ k, k < window.length → window[k]? = l[(i + k) % l.length]?) :
    window.Perm l := by
  have heq : window = l.rotate i := by
    apply List.ext_getElem?
    intro k
    by_cases hk : k < l.length
    · rw [hturn k (hlength ▸ hk), List.getElem?_rotate hk, Nat.add_comm]
    · rw [List.getElem?_eq_none (by omega),
        List.getElem?_eq_none (by rw [List.length_rotate]; omega)]
  rw [heq]
  exact List.rotate_perm l i

end Fennix.Cycle
