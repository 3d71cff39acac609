import Fennix.Tty.VirtualTerminal

/-! # The cursor of a terminal

    Which bytes take the cursor off the screen, or access a cell that is not there. Each
    function clamps the cursor on one side only, and a backspace does not look at the line.

    `on_screen_iff`: the cursor stays on the screen exactly if no byte is one of those of
    `Terminal.Leaves`, such as a backspace at the origin.
-/

namespace Fennix.Tty

variable {s : Screen}

/-- The cursor may be behind the last column, until the next character. -/
def Screen.OnScreen (s : Screen) : Prop := 0 ≤ s.x ∧ s.x ≤ s.width ∧ 0 ≤ s.y ∧ s.y < s.height

/-- No cell outside was accessed, and the cursor is on the screen. -/
def Kept (r : Option Screen) : Prop := ∃ s, r = some s ∧ s.OnScreen

@[simp] theorem kept_some : Kept (some s) ↔ s.OnScreen := by
  simp [Kept]

@[simp] theorem not_kept_none : ¬ Kept none := by
  simp [Kept]

/-- What takes the cursor off the screen: a backspace at the origin, `VERASE` right of it, and
    moves with a parameter that is 0 or has overflown. -/
def Screen.Leaves (s : Screen) : Op → Prop
  | .append c => c = 8 ∧ s.x = 0 ∧ s.y = 0
  | .erase => s.x = 1 ∧ s.y = 0
  | .csi handler args argsCount =>
    match handler with
    | .cuu | .cpl => s.height ≤ s.y - p1 args argsCount
    | .cud | .cnl => s.y + p1 args argsCount < 0
    | .cuf => s.x + p1 args argsCount < 0
    | .cub => s.width < s.x - p1 args argsCount
    | .cha => int (p1 args argsCount - 1) < 0
    | .cup => argsCount = 2 ∧ (args 1).empty = false ∧ (int ((args 1).value - 1) < 0 ∨
        (args 0).empty = false ∧ int ((args 0).value - 1) < 0)
    | .ed | .el | .sgr => False

/-- A byte that does so, or that ends an eighth parameter. -/
def Terminal.Leaves (t : Terminal) (c : Byte) : Prop :=
  match t.input c with
  | none => True
  | some r => ∃ op, r.2 = some op ∧ t.screen.Leaves op

/-! ## Section 1: Characters -/

theorem newLine_onScreen (h : s.OnScreen) : s.newLine.OnScreen ∧ s.newLine.x = 0 ∧
    s.newLine.toSize = s.toSize := by
  have hheight := s.height_pos
  have hone : min 1 s.height = 1 := by omega
  obtain ⟨h1, h2, h3, h4⟩ := h
  unfold Screen.newLine
  split
  · refine ⟨⟨le_rfl, by simp [Screen.scroll], ?_⟩, rfl, rfl⟩
    simp only [Screen.scroll, hone]
    rw [if_pos (by omega)]
    omega
  · exact ⟨⟨le_rfl, by simp, by simp only; omega, by simp only; omega⟩, rfl, rfl⟩

/-- A line of the screen ends before the cells do. -/
theorem line_le {y width height : Int} (hwidth : 0 ≤ width) (hh : y < height) :
    y * width + width ≤ width * height := by
  have hlines : (y + 1) * width ≤ height * width := mul_le_mul_of_nonneg_right (by omega) hwidth
  rwa [add_mul, one_mul, mul_comm height] at hlines

theorem cell_lt {x y width height : Int} (hx : 0 ≤ x) (hw : x < width) (hy : 0 ≤ y)
    (hh : y < height) : 0 ≤ x + y * width ∧ x + y * width < width * height := by
  have hline : 0 ≤ y * width := mul_nonneg hy (by omega)
  have hend : y * width + width ≤ width * height := line_le (by omega) hh
  omega

/-- The screen a character is stored on. -/
def Screen.wrapped (s : Screen) : Screen := if s.x ≥ s.width then s.newLine else s

theorem wrapped_onScreen (h : s.OnScreen) : s.wrapped.OnScreen ∧ s.wrapped.x < s.width ∧
    s.wrapped.toSize = s.toSize := by
  have hwidth := s.width_pos
  unfold Screen.wrapped
  split
  · obtain ⟨hon, hx, hsize⟩ := newLine_onScreen h
    exact ⟨hon, by omega, hsize⟩
  · exact ⟨h, by omega, rfl⟩

theorem appendCell_eq (c : Byte) (h : s.OnScreen) : s.appendCell c =
    some { s.wrapped with
      cells := Function.update s.wrapped.cells
        (s.wrapped.x + s.wrapped.y * s.width).toNat ⟨c, s.wrapped.attr⟩
      x := s.wrapped.x + 1 } := by
  obtain ⟨⟨h1, -, h3, h4⟩, hx, hsize⟩ := wrapped_onScreen h
  have hw : s.wrapped.width = s.width := congrArg Size.width hsize
  have hcell := cell_lt h1 (hw ▸ hx) h3 h4
  change (s.wrapped.store (s.wrapped.x + s.wrapped.y * s.wrapped.width) _).map _ = _
  rw [Screen.store, if_pos hcell, hw]
  rfl

theorem appendCell_kept (c : Byte) (h : s.OnScreen) :
    ∃ s', s.appendCell c = some s' ∧ s'.OnScreen ∧ 0 < s'.x := by
  obtain ⟨⟨h1, -, h3, h4⟩, hx, hsize⟩ := wrapped_onScreen h
  have hw : s.wrapped.width = s.width := congrArg Size.width hsize
  refine ⟨_, appendCell_eq c h, ⟨?_, ?_, h3, h4⟩, ?_⟩ <;> simp only <;> omega

theorem appendSpaces_kept (n : Nat) : ∀ {s : Screen}, s.OnScreen → Kept (s.appendSpaces n) := by
  induction n with
  | zero => exact fun h => kept_some.mpr h
  | succ n ih =>
    intro s h
    obtain ⟨s', heq, hon, -⟩ := appendCell_kept (chr ' ') h
    rw [Screen.appendSpaces, heq]
    exact ih hon

theorem append_kept (c : Byte) (h : s.OnScreen) :
    Kept (s.append c) ↔ ¬ (c = 8 ∧ s.x = 0 ∧ s.y = 0) := by
  have hwidth := s.width_pos
  obtain ⟨h1, h2, h3, h4⟩ := id h
  -- a character other than a backspace keeps the cursor
  have hother : c ≠ 8 → Kept (s.append c) := by
    intro hc
    unfold Screen.append
    split
    · exact kept_some.mpr (newLine_onScreen h).1
    split
    · exact kept_some.mpr ⟨le_rfl, by simp, h3, h4⟩
    split
    · exact appendSpaces_kept _ h
    · obtain ⟨s', heq, hon, -⟩ := appendCell_kept c h
      exact ⟨s', heq, hon⟩
  by_cases hc : c = 8
  · subst hc
    have hback : s.append 8 = some (if s.x > 0 then { s with x := s.x - 1 }
        else { s with x := s.width - 1, y := s.y - 1 }) := rfl
    rw [hback, kept_some]
    split <;> simp only [Screen.OnScreen, true_and] <;> omega
  · exact iff_of_true (hother hc) fun hbad => hc hbad.1

theorem erase_kept (h : s.OnScreen) : Kept (s.perform .erase) ↔ ¬ (s.x = 1 ∧ s.y = 0) := by
  have hwidth := s.width_pos
  obtain ⟨h1, h2, h3, h4⟩ := id h
  rw [Screen.perform]
  split
  · have hleft : Screen.OnScreen { s with x := s.x - 1 } :=
      ⟨by simp only; omega, by simp only; omega, h3, h4⟩
    by_cases hbad : s.x = 1 ∧ s.y = 0
    · -- the backspace leaves the screen, and the blank is stored before the first cell
      have hcell : (Screen.append { s with x := s.x - 1 } 8).bind (·.append (chr ' ')) = none := by
        have hback : Screen.append { s with x := s.x - 1 } 8 =
            some { s with x := s.width - 1, y := -1 } := by
          change some _ = _
          rw [if_neg (by simp [hbad.1])]
          simp [hbad.2]
        rw [hback, Option.bind_some]
        change Screen.appendCell _ _ = none
        simp only [Screen.appendCell, Screen.store]
        rw [if_neg (by simp)]
        rfl
      rw [hcell]
      exact iff_of_false not_kept_none (not_not_intro hbad)
    · obtain ⟨s1, heq1, hon1⟩ := (append_kept 8 hleft).mpr (by simp only; omega)
      obtain ⟨s2, heq2, hon2, hpos⟩ := appendCell_kept (chr ' ') hon1
      have heq2' : s1.append (chr ' ') = some s2 := heq2
      rw [heq1, Option.bind_some, heq2', Option.bind_some, append_kept 8 hon2]
      omega
  · rw [kept_some]
    exact iff_of_true h (by omega)

/-! ## Section 2: Sequences and streams -/

theorem clear_kept (h : s.OnScreen) {startX startY endX endY : Int} (h0 : 0 ≤ endX)
    (hx : endX ≤ s.width) (h1 : 0 ≤ endY) (hy : endY < s.height) :
    Kept (s.clear startX startY endX endY) := by
  have hwidth := s.width_lt
  have hheight := s.height_lt
  have hstop : endX % 2 ^ 16 + endY % 2 ^ 16 * s.width ≤ s.width * s.height := by
    rw [Int.emod_eq_of_lt h0 (by omega), Int.emod_eq_of_lt h1 (by omega)]
    have hend := line_le (Int.natCast_nonneg s.width) hy
    omega
  rw [Screen.clear, if_neg (by omega), kept_some]
  exact h

theorem csi_kept (handler : Handler) (args : Nat → ANSIArgument) (argsCount : Nat)
    (h : s.OnScreen) : Kept (s.csi args argsCount handler) ↔
      ¬ s.Leaves (.csi handler args argsCount) := by
  have hwidth := s.width_pos
  have hheight := s.height_pos
  obtain ⟨h1, h2, h3, h4⟩ := id h
  cases handler with
  | ed =>
    refine iff_of_true ?_ id
    simp only [Screen.csi]
    split_ifs
    · exact clear_kept h (by omega) le_rfl (by omega) (by omega)
    · exact clear_kept h h1 h2 h3 h4
    · exact clear_kept h (by omega) le_rfl (by omega) (by omega)
    · exact kept_some.mpr h
  | el =>
    refine iff_of_true ?_ id
    simp only [Screen.csi]
    split_ifs
    · exact clear_kept h (by omega) le_rfl h3 h4
    · exact clear_kept h h1 h2 h3 h4
    · exact clear_kept h (by omega) le_rfl h3 h4
    · exact kept_some.mpr h
  | sgr => exact iff_of_true (kept_some.mpr h) id
  | cup =>
    simp only [Screen.csi, Screen.Leaves]
    split_ifs <;> simp_all [Screen.OnScreen] <;> omega
  | _ => simp only [Screen.csi, Screen.Leaves, kept_some, Screen.OnScreen]; omega

theorem perform_kept (op : Op) (h : s.OnScreen) : Kept (s.perform op) ↔ ¬ s.Leaves op := by
  cases op with
  | append c => exact append_kept c h
  | erase => exact erase_kept h
  | csi handler args argsCount => exact csi_kept handler args argsCount h

theorem process_kept (t : Terminal) (c : Byte) (h : t.screen.OnScreen) :
    (∃ t', t.process c = some t' ∧ t'.screen.OnScreen) ↔ ¬ t.Leaves c := by
  unfold Terminal.process Terminal.Leaves
  rcases t.input c with _ | ⟨p, _ | op⟩
  · simp
  · simpa using h
  · simpa [Kept] using perform_kept op h

/-- For every size, configuration and stream: no access is outside, and the cursor is on the
    screen after each byte, exactly if no byte is one that leaves the screen at the state it
    comes to. -/
theorem on_screen_iff (size : Size) (config : Termios) (stream : List Byte) :
    (∀ earlier, earlier <+: stream →
      ∃ t, earlier.foldlM Terminal.process (.new size config) = some t ∧ t.screen.OnScreen) ↔
    ∀ earlier c t, earlier ++ [c] <+: stream →
      earlier.foldlM Terminal.process (.new size config) = some t → ¬ t.Leaves c :=
  along_iff process_kept
    ⟨le_rfl, Int.natCast_nonneg _, le_rfl, Int.natCast_pos.mpr size.height_pos⟩ stream

/-- 80 columns and 25 lines -/
def textSize : Size := ⟨80, 25, by decide, by decide, by decide, by decide, by decide⟩

/-- A backspace at the origin: the line is -1, and a character is stored before the first
    cell. -/
theorem backspace_leaves :
    (([8].foldlM Terminal.process (.new textSize .default)).map
      fun t => (t.screen.x, t.screen.y)) = some (79, -1) ∧
    ([8, chr 'a'].foldlM Terminal.process (.new textSize .default)).isNone = true := by
  decide

end Fennix.Tty
