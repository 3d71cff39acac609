import Mathlib.Data.List.DropRight
import Mathlib.Logic.Function.Basic

/-! # The arguments of a command

    How the main loop of `Userspace/coreutils/src/sh.c` cuts a line into arguments: it trims
    the line, puts a NUL behind each argument and points `args` to where they start.

    `arguments_right`: the arguments are the runs of characters between blanks and tabs that
    are outside of quotes, and they and the `NULL` behind them fit into `args`.
-/

namespace Fennix.Shell

open Function (update update_self update_of_ne)

/-- Memory of `char`. -/
abbrev Memory := Nat → Char

/-- The string `s` is at address `a`. -/
structure StringAt (m : Memory) (a : Nat) (s : List Char) : Prop where
  char : ∀ i, i ≤ s.length → m (a + i) = s.getD i '\x00'
  noNul : '\x00' ∉ s

/-- `isspace` -/
def isspace (c : Char) : Bool :=
  c = ' ' || c = '\x0C' || c = '\n' || c = '\r' || c = '\t' || c = '\x0B'

/-- `while (end > trimmed && isspace(*end))`, on the characters from the last one on. -/
def trimEnd : List Char → List Char
  | c :: d :: l => if isspace c then trimEnd (d :: l) else c :: d :: l
  | l => l

/-- The line after it was trimmed. -/
def trim (line : List Char) : List Char :=
  (trimEnd (line.dropWhile isspace).reverse).reverse

/-- A blank or a tab outside of quotes. -/
def separates (c : Char) (inQuotes : Bool) : Bool := (c = ' ' || c = '\t') && !inQuotes

/-- The loop over the line. `rest` are the characters from `p` on; the result are the
    addresses in `args` and the memory. -/
def split : List Char → Nat → Nat → Bool → Memory → List Nat × Memory
  | [], p, start, _, m => (if p > start then [start] else [], m)
  | c :: rest, p, start, inQuotes, m =>
    if c = '\x22' then split rest (p + 1) start (!inQuotes) m
    else if separates c inQuotes then
      if p > start then
        let r := split rest (p + 1) (p + 1) inQuotes (update m p '\x00')
        (start :: r.1, r.2)
      else split rest (p + 1) (p + 1) inQuotes m
    else split rest (p + 1) start inQuotes m

/-- What the main loop makes of a line, which is at the start of the memory: nothing if it is
    blank, and else `args` and the memory. -/
def arguments (line : List Char) (m : Memory) : Option (List Nat × Memory) :=
  let trimmed := trim line
  if trimmed = [] then none
  else
    let m := fun i => if i ≤ trimmed.length then trimmed.getD i '\x00' else m i
    some (split trimmed 0 0 false m)

/-- The characters between the blanks and tabs that are outside of quotes. -/
def segments : Bool → List Char → List (List Char)
  | _, [] => [[]]
  | inQuotes, c :: rest =>
    if separates c inQuotes then [] :: segments inQuotes rest
    else (segments (inQuotes ^^ (c = '\x22')) rest).modifyHead (c :: ·)

/-- Those that are not empty. -/
def runs (line : List Char) : List (List Char) := (segments false line).filter (· ≠ [])

theorem trimEnd_eq {l : List Char} {c : Char} (hc : isspace c = false) :
    trimEnd (l ++ [c]) = (l ++ [c]).dropWhile isspace := by
  induction l with
  | nil => simp [trimEnd, hc]
  | cons d l ih =>
    rw [List.cons_append, List.dropWhile_cons, ← ih]
    cases l <;> rfl

theorem trim_eq (line : List Char) :
    trim line = (line.dropWhile isspace).rdropWhile isspace := by
  unfold trim List.rdropWhile
  cases h : line.dropWhile isspace with
  | nil => rfl
  | cons c l =>
    have hc : isspace c = false := by
      simpa [h] using List.head_dropWhile_not isspace (l := line) (by simp [h])
    rw [List.reverse_cons, trimEnd_eq hc]

theorem StringAt.drop {m : Memory} {a : Nat} {s t : List Char} (h : StringAt m a (s ++ t)) :
    StringAt m (a + s.length) t := by
  refine ⟨?_, fun hmem => h.noNul (List.mem_append_right s hmem)⟩
  intro i hi
  rw [Nat.add_assoc, h.char _ (by rw [List.length_append]; omega),
    List.getD_eq_getElem?_getD, List.getElem?_append_right (Nat.le_add_right ..),
    Nat.add_sub_cancel_left, List.getD_eq_getElem?_getD]

theorem modifyHead_nil (l : List (List Char)) : l.modifyHead ([] ++ ·) = l := by
  cases l <;> rfl

theorem split_spec (rest : List Char) : ∀ (start : Nat) (cur : List Char) {q : Bool} {m : Memory},
    StringAt m start (cur ++ rest) →
    ∃ args m', split rest (start + cur.length) start q m = (args, m') ∧
      List.Forall₂ (StringAt m') args (((segments q rest).modifyHead (cur ++ ·)).filter (· ≠ [])) ∧
      (∀ j < start, m' j = m j) ∧ 2 * args.length ≤ cur.length + rest.length + 1 := by
  induction rest with
  | nil =>
    intro start cur q m h
    refine ⟨_, m, rfl, ?_, fun _ _ => rfl, ?_⟩
    · rcases cur with _ | ⟨c, cur⟩
      · simp [segments]
      · simpa [segments] using h
    · split <;> simp
      omega
  | cons c rest ih =>
    intro start cur q m h
    have hnext : ∀ q', ∃ args m', split rest (start + cur.length + 1) start q' m = (args, m') ∧
        List.Forall₂ (StringAt m') args
          ((((segments q' rest).modifyHead (c :: ·)).modifyHead (cur ++ ·)).filter (· ≠ [])) ∧
        (∀ j < start, m' j = m j) ∧ 2 * args.length ≤ cur.length + (c :: rest).length + 1 := by
      intro q'
      obtain ⟨args, m', hsplit, hargs, hframe, hlength⟩ :=
        ih start (cur ++ [c]) (q := q') (m := m) (by simpa using h)
      rw [List.length_append] at hsplit hlength
      refine ⟨args, m', hsplit, ?_, hframe, by simp at hlength ⊢; omega⟩
      simpa [Function.comp_def] using hargs
    unfold split segments
    by_cases hquote : c = '\x22'
    · subst hquote
      simpa [separates] using hnext (!q)
    by_cases hsep : separates c q
    · have hrest : StringAt m (start + cur.length + 1) rest := by
        have hcons := h.drop
        rw [← List.singleton_append] at hcons
        exact hcons.drop
      have hcut : ∀ m', StringAt m' (start + cur.length + 1) rest → _ :=
        fun _ => ih _ [] (q := q)
      rw [modifyHead_nil] at hcut
      simp only [hquote, hsep, if_true, if_false]
      rcases eq_or_ne cur [] with rfl | hcur
      · obtain ⟨args, m', hsplit, hargs, hframe, hlength⟩ := hcut m hrest
        refine ⟨args, m', by simpa using hsplit, by simpa using hargs, ?_, ?_⟩
        · exact fun j hj => hframe j (by omega)
        · simp at hlength ⊢; omega
      · -- the run ends here, and nothing before the next one is stored to after this
        have hlt := List.length_pos_iff.mpr hcur
        obtain ⟨args, m', hsplit, hargs, hframe, hlength⟩ :=
          hcut (update m (start + cur.length) '\x00')
            ⟨fun i hi => by rw [update_of_ne (by omega)]; exact hrest.char i hi, hrest.noNul⟩
        have hmemory : ∀ j < start + cur.length, m' j = m j := fun j hj =>
          (hframe j (by omega)).trans (update_of_ne (by omega) ..)
        refine ⟨start :: args, m', ?_, ?_, fun j hj => hmemory j (by omega), ?_⟩
        · rw [if_pos (by omega)]
          exact congrArg (fun r : List Nat × Memory => (start :: r.1, r.2)) hsplit
        · rw [List.modifyHead_cons, List.append_nil, List.filter_cons_of_pos (by simpa using hcur)]
          refine .cons ⟨?_, fun hmem => h.noNul (List.mem_append_left _ hmem)⟩ hargs
          intro i hi
          rcases hi.lt_or_eq with hi | rfl
          · rw [hmemory _ (by omega), h.char i (by simp; omega)]
            simp [hi, List.getElem?_append_left hi]
          · rw [hframe _ (by omega), update_self]
            simp
        · simp at hlength ⊢; omega
    · simpa [hquote, hsep] using hnext q

/-- For every line of at most 1023 characters, wherever its buffer is: nothing is made of a
    line that is blank. Otherwise the strings that `args` points to are the runs of the trimmed
    line, and there is an entry left for the `NULL` behind them. -/
theorem arguments_right (line : List Char) (m : Memory) (hnul : '\x00' ∉ line)
    (hlength : line.length ≤ 1023) :
    let trimmed := (line.dropWhile isspace).rdropWhile isspace
    match arguments line m with
    | none => trimmed = []
    | some (args, m') => List.Forall₂ (StringAt m') args (runs trimmed) ∧ args.length ≤ 512 := by
  intro trimmed
  rw [arguments, trim_eq]
  split_ifs with hblank
  · exact hblank
  have hsub : trimmed.Sublist line :=
    (List.rdropWhile_prefix ..).sublist.trans (List.dropWhile_sublist _)
  obtain ⟨args, m', hsplit, hargs, -, hcount⟩ := split_spec trimmed 0 []
    (q := false) (m := fun i => if i ≤ trimmed.length then trimmed.getD i '\x00' else m i)
    ⟨fun i hi => by simp [show i ≤ trimmed.length from hi], fun hmem => hnul (hsub.subset hmem)⟩
  rw [modifyHead_nil] at hargs
  have hle := hsub.length_le
  simp only [trimmed] at hsplit
  simp only [List.length_nil, Nat.zero_add] at hsplit hcount
  simp only [hsplit]
  exact ⟨hargs, by omega⟩

theorem arguments_right_echo : '\x00' ∉ " ls a".toList ∧
    match arguments " ls a".toList (fun _ => '\x00') with
    | none => False
    | some (args, m') => List.Forall₂ (StringAt m') args ["ls".toList, "a".toList] ∧
        args.length ≤ 512 :=
  ⟨by decide, arguments_right " ls a".toList _ (by decide) (by decide)⟩

end Fennix.Shell
