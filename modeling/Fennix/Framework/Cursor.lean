import Mathlib.Data.List.Basic
import Mathlib.Data.List.Infix

/-! # Reading a list page by page

    The elements of a list have growing keys. A reader asks for the elements
    from a key on, gets some of them, and asks again from behind the last it
    got. If each page is the beginning of what is left, and is empty only when
    nothing is left, the pages are the list.
-/

namespace Fennix.Cursor

universe u

variable {α : Type u} {key : α → Nat} {xs page after : List α} {o : Nat}

/-- What is left for a reader that asks from `o` on. -/
def rest (key : α → Nat) (xs : List α) (o : Nat) : List α := xs.filter fun x => decide (o ≤ key x)

/-- Where the reader asks next. -/
def advance (key : α → Nat) (o : Nat) (page : List α) : Nat :=
  match page.getLast? with
  | none => o
  | some x => key x + 1

/-- The places where a reader asks. -/
def Position (key : α → Nat) (xs : List α) (o : Nat) : Prop := o = 0 ∨ ∃ x ∈ xs, o = key x + 1

theorem rest_eq_self (h : ∀ x ∈ xs, o ≤ key x) : rest key xs o = xs :=
  List.filter_eq_self.mpr fun x hx => decide_eq_true (h x hx)

theorem rest_zero (key : α → Nat) (xs : List α) : rest key xs 0 = xs :=
  rest_eq_self fun _ _ => Nat.zero_le _

variable {x : α}

theorem rest_cons_of_lt (h : key x < o) : rest key (x :: xs) o = rest key xs o :=
  List.filter_cons_of_neg (by simpa using h)

theorem rest_cons_of_le (h : o ≤ key x) : rest key (x :: xs) o = x :: rest key xs o :=
  List.filter_cons_of_pos (by simpa using h)

theorem rest_rest {p : Nat} (h : o ≤ p) : rest key (rest key xs o) p = rest key xs p := by
  rw [rest, rest, rest, List.filter_filter]
  refine List.filter_congr fun x _ => ?_
  rw [← Bool.decide_and, decide_eq_decide]
  omega

theorem advance_concat (key : α → Nat) (o : Nat) (init : List α) (x : α) :
    advance key o (init ++ [x]) = key x + 1 := by
  rw [advance, List.getLast?_concat]

theorem last_of_rest {init : List α} (hrest : rest key xs o = init ++ [x] ++ after) :
    x ∈ xs ∧ o ≤ key x := by
  have hmem : x ∈ rest key xs o := by
    rw [hrest]
    simp
  exact ⟨(List.mem_filter.mp hmem).1, of_decide_eq_true (List.mem_filter.mp hmem).2⟩

theorem rest_advance (hkeys : xs.Pairwise fun a b => key a < key b)
    (hrest : rest key xs o = page ++ after) : rest key xs (advance key o page) = after := by
  rcases List.eq_nil_or_concat' page with rfl | ⟨init, x, rfl⟩
  · exact hrest
  · have hsorted : (init ++ [x] ++ after).Pairwise fun a b => key a < key b := by
      rw [← hrest]
      exact hkeys.filter _
    rw [List.append_assoc, List.singleton_append] at hsorted
    obtain ⟨-, hright, hcross⟩ := List.pairwise_append.mp hsorted
    -- what stands before the last element has smaller keys, what stands behind it larger ones
    have hinit : init.filter (fun y => decide (key x + 1 ≤ key y)) = [] := by
      rw [List.filter_eq_nil_iff]
      intro y hy
      have hlt := hcross y hy x List.mem_cons_self
      rw [decide_eq_true_iff]
      omega
    have hafter : after.filter (fun y => decide (key x + 1 ≤ key y)) = after := by
      rw [List.filter_eq_self]
      intro y hy
      exact decide_eq_true ((List.pairwise_cons.mp hright).1 y hy)
    rw [advance_concat, ← rest_rest (Nat.le_succ_of_le (last_of_rest hrest).2), hrest, rest,
      List.append_assoc, List.filter_append, List.singleton_append,
      List.filter_cons_of_neg (by simp), hinit, hafter, List.nil_append]

theorem Position.advance (h : Position key xs o) (hrest : rest key xs o = page ++ after) :
    Position key xs (advance key o page) := by
  rcases List.eq_nil_or_concat' page with rfl | ⟨init, x, rfl⟩
  · exact h
  · exact Or.inr ⟨x, (last_of_rest hrest).1, advance_concat key o init x⟩

/-- The elements of the pages before the `i`-th. -/
def listed (pages : Nat → List α) : Nat → List α
  | 0 => []
  | i + 1 => listed pages i ++ pages i

/-- A reader that gets a beginning of what is left, and an empty one only if
    nothing is left, has got everything after at most as many pages as there are
    elements. -/
theorem listed_all {o : Nat → Nat} {p : Nat → List α}
    (hkeys : xs.Pairwise fun a b => key a < key b) (hstart : o 0 = 0)
    (hnext : ∀ i, o (i + 1) = advance key (o i) (p i))
    (hpage : ∀ i, Position key xs (o i) →
      listed p i ++ rest key xs (o i) = xs →
      ∃ after, rest key xs (o i) = p i ++ after ∧ (p i = [] → after = [])) :
    ∀ i, Position key xs (o i) ∧ listed p i ++ rest key xs (o i) = xs ∧
      (rest key xs (o i)).length ≤ xs.length - i := by
  intro i
  induction i with
  | zero =>
    rw [hstart]
    refine ⟨Or.inl rfl, rest_zero key xs, ?_⟩
    rw [rest_zero, Nat.sub_zero]
  | succ i ih =>
    obtain ⟨hposition, hlisted, hlength⟩ := ih
    obtain ⟨after, hrest, hempty⟩ := hpage i hposition hlisted
    have hafter : rest key xs (o (i + 1)) = after := by
      rw [hnext]
      exact rest_advance hkeys hrest
    refine ⟨?_, ?_, ?_⟩
    · rw [hnext]
      exact hposition.advance hrest
    · rw [hafter, listed, List.append_assoc, ← hrest, hlisted]
    · rw [hafter]
      rw [hrest, List.length_append] at hlength
      cases hpages : p i with
      | nil => simp [hempty hpages]
      | cons x page =>
        rw [hpages, List.length_cons] at hlength
        omega

end Fennix.Cursor
