import Fennix.Tty.CursorBounds
import Mathlib.Tactic.Ring

/-! # Plain text on a terminal

    `Append` on a blank screen, for text without tabs, carriage returns and backspaces: the
    screen shows the last lines of the text (`screen_shows_text`).
-/

namespace Fennix.Tty

/-- The text broken at every newline, and before a character that does not fit on its line. -/
def breakLines (width : Nat) (current : List Byte) : List Byte → List (List Byte)
  | [] => [current]
  | c :: text =>
    if c = chr '\n' then current :: breakLines width [] text
    else if current.length < width then breakLines width (current ++ [c]) text
    else current :: breakLines width [c] text

/-- The character of a line at a column, blanks after its end. -/
def column (line : List Byte) (i : Nat) : Byte := line.getD i (chr ' ')

/-- The cells have the last lines of a list, those that fit on the screen. -/
def Screen.Shows (s : Screen) (lines : List (List Byte)) : Prop :=
  ∀ row < s.height, ∀ col < s.width, (s.cells (col + row * s.width)).c =
    column ((lines.drop (lines.length - s.height)).getD row []) col

/-- The screen between two characters: the lines before the cursor's, and that one. -/
structure Screen.Holds (s : Screen) (before : List (List Byte)) (current : List Byte) : Prop where
  shows : s.Shows (before ++ [current])
  x : s.x = current.length
  y : s.y = min before.length (s.height - 1)
  fits : current.length ≤ s.width

variable {s : Screen} {before : List (List Byte)} {current : List Byte}

theorem getD_concat {α : Type} (l : List α) (a d : α) (i : Nat) :
    (l ++ [a]).getD i d = if i = l.length then a else l.getD i d := by
  simp only [List.getD, List.getElem?_append]
  split
  · rw [if_neg (by omega)]
  · split
    · next heq => simp [heq]
    · next hlt hne =>
      rw [List.getElem?_eq_none (by simp; omega), List.getElem?_eq_none (by omega)]

/-- The row that a line is on. -/
theorem shows_iff : s.Shows (before ++ [current]) ↔ ∀ row < s.height, ∀ col < s.width,
    (s.cells (col + row * s.width)).c =
      column (if before.length + 1 - s.height + row = before.length then current
        else before.getD (before.length + 1 - s.height + row) []) col := by
  refine forall₄_congr fun row _ col _ => ?_
  rw [← getD_concat, List.length_append, List.length_singleton]
  simp only [List.getD, List.getElem?_drop]

theorem Screen.Holds.onScreen (h : s.Holds before current) : s.OnScreen := by
  have hheight := s.height_pos
  obtain ⟨-, hx, hy, hfits⟩ := h
  refine ⟨?_, ?_, ?_, ?_⟩ <;> omega

/-- A row ends before the cells do. -/
theorem row_le {row height : Nat} (width : Nat) (h : row < height) :
    row * width + width ≤ width * height := by
  have hlines : (row + 1) * width ≤ height * width := Nat.mul_le_mul_right _ h
  rwa [add_mul, one_mul, mul_comm height] at hlines

/-- A row of a screen that has scrolled is the next one of the screen before. -/
theorem newLine_holds (h : s.Holds before current) :
    s.newLine.Holds (before ++ [current]) [] ∧ s.newLine.toSize = s.toSize := by
  have hheight := s.height_pos
  have hone : min 1 s.height = 1 := by omega
  have hy := h.y
  have hshows := shows_iff.mp h.shows
  unfold Screen.newLine
  split
  · next hfull =>
    refine ⟨⟨shows_iff.mpr fun row hrow col hcol => ?_, rfl, ?_, Nat.zero_le _⟩, rfl⟩
    · simp only [Screen.scroll, hone, mul_one, List.length_append, List.length_singleton]
        at hrow hcol ⊢
      have hend := row_le s.width hrow
      by_cases hlast : row + 1 = s.height
      · -- the last row is blank, as the line that begins
        have hcell : s.width * s.height = row * s.width + s.width := by
          rw [← hlast]
          ring
        rw [if_neg (by omega), if_pos (by omega), if_pos (by omega)]
        rfl
      · have hnext := row_le s.width (show row + 1 < s.height by omega)
        have hcell : col + row * s.width + s.width = col + (row + 1) * s.width := by ring
        have hline : before.length + 1 + 1 - s.height + row =
            before.length + 1 - s.height + (row + 1) := by omega
        rw [if_pos (by rw [add_mul, one_mul] at hnext; omega), if_neg (by omega), getD_concat, hcell,
          hshows (row + 1) (by omega) col hcol, hline]
    · simp only [Screen.scroll, hone]
      rw [if_pos (by omega)]
      simp only [List.length_append, List.length_singleton]
      omega
  · next hroom =>
    refine ⟨⟨shows_iff.mpr fun row hrow col hcol => ?_, rfl, ?_, Nat.zero_le _⟩, rfl⟩
    · simp only [List.length_append, List.length_singleton] at hrow hcol ⊢
      rw [hshows row hrow col hcol, getD_concat,
        show before.length + 1 + 1 - s.height + row = before.length + 1 - s.height + row by omega]
      split
      · next heq => rw [if_neg (by omega)]
      · split
        · next heq => simp [heq]
        · rfl
    · simp only [List.length_append, List.length_singleton]
      omega

/-- A character that fits goes to the end of the line. -/
theorem store_holds (c : Byte) (h : s.Holds before current) (hlt : current.length < s.width) :
    Screen.Holds { s with
      cells := Function.update s.cells (s.x + s.y * s.width).toNat ⟨c, s.attr⟩
      x := s.x + 1 } before (current ++ [c]) := by
  have hheight := s.height_pos
  have hindex : (s.x + s.y * s.width).toNat =
      current.length + min before.length (s.height - 1) * s.width := by
    rw [h.x, h.y]
    exact Int.toNat_natCast _
  refine ⟨shows_iff.mpr fun row hrow col hcol => ?_, by simp [h.x], h.y, ?_⟩
  case refine_2 =>
    rw [List.length_append]
    exact hlt
  have hshows := shows_iff.mp h.shows row hrow col hcol
  simp only [hindex] at hrow hcol ⊢
  by_cases hcell : col + row * s.width = current.length + min before.length (s.height - 1) * s.width
  · -- the cell has one row and one column
    have hcol' := congrArg (· % s.width) hcell
    have hrow' := congrArg (· / s.width) hcell
    simp only [Nat.add_mul_mod_self_right, Nat.mod_eq_of_lt, hcol, hlt] at hcol'
    simp only [Nat.add_mul_div_right _ _ s.width_pos, Nat.div_eq_of_lt, hcol, hlt, zero_add]
      at hrow'
    rw [hcell, Function.update_self, if_pos (by omega), column, getD_concat, if_pos hcol']
  · rw [Function.update_of_ne hcell, hshows]
    by_cases hrow' : before.length + 1 - s.height + row = before.length
    · have hne : col ≠ current.length := by
        rintro rfl
        exact hcell (by rw [show row = min before.length (s.height - 1) by omega])
      rw [if_pos hrow', if_pos hrow', column, column, getD_concat, if_neg hne]
    · rw [if_neg hrow', if_neg hrow']

/-- The whole text, from where the cursor is. -/
theorem append_text (text : List Byte) : ∀ {s : Screen} {before : List (List Byte)}
    {current : List Byte}, s.Holds before current →
    (∀ c ∈ text, c ≠ chr '\r' ∧ c ≠ chr '\t' ∧ c ≠ 8) →
    ∃ s', text.foldlM Screen.append s = some s' ∧ s'.toSize = s.toSize ∧
      s'.Shows (before ++ breakLines s.width current text) := by
  induction text with
  | nil => exact fun h _ => ⟨_, rfl, rfl, h.shows⟩
  | cons c text ih =>
    intro s before current h hplain
    rw [List.forall_mem_cons] at hplain
    obtain ⟨⟨hr, ht, hb⟩, hrest⟩ := hplain
    obtain ⟨hline, hsize⟩ := newLine_holds h
    have hw : s.newLine.width = s.width := congrArg Size.width hsize
    rw [breakLines, List.foldlM_cons]
    by_cases hn : c = chr '\n'
    · obtain ⟨s', hrun, hsize', hshows⟩ := ih hline hrest
      rw [Screen.append, if_pos hn, if_pos hn]
      exact ⟨s', hrun, hsize'.trans hsize, by simpa [hw] using hshows⟩
    have happend : s.append c = s.appendCell c := by
      rw [Screen.append, if_neg hn, if_neg hr, if_neg ht, if_neg hb]
    rw [if_neg hn, happend, appendCell_eq c h.onScreen]
    by_cases hfits : current.length < s.width
    · have hwrapped : s.wrapped = s := if_neg (by rw [h.x]; omega)
      rw [if_pos hfits, hwrapped]
      exact ih (store_holds c h hfits) hrest
    · -- the line is full, so the character begins the next one
      have hwrapped : s.wrapped = s.newLine := if_pos (by rw [h.x]; omega)
      have hstore := store_holds c hline (by rw [hw]; exact s.width_pos)
      obtain ⟨s', hrun, hsize', hshows⟩ := ih hstore hrest
      rw [if_neg hfits, hwrapped]
      rw [hw] at hrun
      exact ⟨s', hrun, hsize'.trans hsize, by simpa [hw] using hshows⟩

/-- For every screen that is blank with the cursor at the origin and every text without tabs,
    carriage returns and backspaces: the screen shows the last lines of the text. -/
theorem screen_shows_text (s : Screen) (hx : s.x = 0) (hy : s.y = 0)
    (hblank : ∀ i < s.width * s.height, (s.cells i).c = chr ' ') (text : List Byte)
    (hplain : ∀ c ∈ text, c ≠ chr '\r' ∧ c ≠ chr '\t' ∧ c ≠ 8) :
    ∃ s', text.foldlM Screen.append s = some s' ∧ s'.toSize = s.toSize ∧
      s'.Shows (breakLines s.width [] text) := by
  have hstart : s.Holds [] [] := by
    refine ⟨shows_iff.mpr fun row hrow col hcol => ?_, by simpa using hx, by simpa using hy,
      Nat.zero_le _⟩
    have hend := row_le s.width hrow
    rw [hblank _ (by omega)]
    split <;> rfl
  exact append_text text hstart hplain

/-- Two columns and one line, blank. -/
def smallScreen : Screen where
  width := 2
  height := 1
  width_pos := by decide
  height_pos := by decide
  width_lt := by decide
  height_lt := by decide
  fits := by decide
  cells := fun _ => ⟨chr ' ', {}⟩
  x := 0
  y := 0
  attr := {}

/-- Of `abc` only the last line is left. -/
theorem screen_shows_text_abc :
    ∃ s', [chr 'a', chr 'b', chr 'c'].foldlM Screen.append smallScreen = some s' ∧
      s'.toSize = smallScreen.toSize ∧ s'.Shows [[chr 'a', chr 'b'], [chr 'c']] :=
  screen_shows_text smallScreen rfl rfl (fun _ _ => rfl) [chr 'a', chr 'b', chr 'c'] (by decide)

end Fennix.Tty
