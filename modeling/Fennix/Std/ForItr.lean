import Fennix.Std.Vector

/-! # Iterator loops that erase

    `forItr` of `Kernel/include/types.h` over a vector, with a body that erases the
    elements which match. The end is that of the vector at each turn. The iterator moves on
    after an element was erased, so it comes past the element that took its place; if the
    last element was erased, it is behind the end and does not meet it any more.

    - `eraseLoop_all`: what is left of the vector.
    - `eraseLoop_all_iff`: these are the elements that do not match exactly if behind each
      element that matches there is one that does not.
    - `eraseLoop_once`: a loop that returns erases the first element that matches.
-/

namespace Fennix.Std.Vector

variable {α : Type}

/-! ## Section 1: The loop -/

/-- The turns of the loop from a slot on; `once` if the body returns after it has erased an
    element. A loop that passes the end reads what is no element, and has no result. -/
def eraseLoop (matching : α → Bool) (once : Bool) : Nat → Nat → Vector α → Option (Vector α)
  | 0, _, _ => none
  | turns + 1, i, v =>
    if i = v.elements.length then some v
    else
      v.elements[i]?.bind fun a =>
        if matching a then
          (v.erase i).bind fun v => if once then some v else eraseLoop matching once turns (i + 1) v
        else eraseLoop matching once turns (i + 1) v

/-- `forItr` with such a body. No element is left after as many turns as there are elements. -/
def forItrErase (matching : α → Bool) (once : Bool) (v : Vector α) : Option (Vector α) :=
  eraseLoop matching once (v.elements.length + 1) 0 v

theorem erase_append (pre rest behind : List α) (a : α) :
    ∃ behind', (⟨pre ++ a :: rest, behind⟩ : Vector α).erase pre.length =
      some ⟨pre ++ rest, behind'⟩ := by
  have hne : pre ++ a :: rest ≠ [] := by simp
  refine ⟨(pre ++ a :: rest).getLast hne :: behind, ?_⟩
  simp [erase, List.getLast?_eq_some_getLast hne, List.eraseIdx_append_of_length_le]

section turns

variable {matching : α → Bool} (once : Bool) (turns : Nat) (pre rest behind : List α) {a : α}

theorem eraseLoop_end :
    eraseLoop matching once (turns + 1) pre.length ⟨pre, behind⟩ = some ⟨pre, behind⟩ := by
  simp [eraseLoop]

theorem eraseLoop_behind :
    eraseLoop matching once turns (pre.length + 1) ⟨pre, behind⟩ = none := by
  cases turns with
  | zero => rfl
  | succ turns => simp [eraseLoop]

theorem eraseLoop_keep (ha : matching a = false) :
    eraseLoop matching once (turns + 1) pre.length ⟨pre ++ a :: rest, behind⟩ =
      eraseLoop matching once turns (pre ++ [a]).length ⟨(pre ++ [a]) ++ rest, behind⟩ := by
  simp [eraseLoop, ha]

theorem eraseLoop_erase (ha : matching a = true) :
    ∃ behind', eraseLoop matching once (turns + 1) pre.length ⟨pre ++ a :: rest, behind⟩ =
      if once then some ⟨pre ++ rest, behind'⟩
      else eraseLoop matching once turns (pre.length + 1) ⟨pre ++ rest, behind'⟩ := by
  obtain ⟨behind', herase⟩ := erase_append pre rest behind a
  refine ⟨behind', ?_⟩
  simp [eraseLoop, ha, herase]

end turns

/-! ## Section 2: The loop that goes on -/

/-- What is left of the elements: the one behind an erased element is kept, and there has
    to be one. -/
def leftOver (matching : α → Bool) : List α → Option (List α)
  | [] => some []
  | [a] => if matching a then none else some [a]
  | a :: b :: l =>
    if matching a then (leftOver matching l).map (b :: ·)
    else (leftOver matching (b :: l)).map (a :: ·)

theorem eraseLoop_all (matching : α → Bool) (pre rest behind : List α) {turns : Nat}
    (hturns : rest.length < turns) :
    (eraseLoop matching false turns pre.length ⟨pre ++ rest, behind⟩).map elements =
      (leftOver matching rest).map (pre ++ ·) := by
  obtain ⟨turns, rfl⟩ := Nat.exists_eq_succ_of_ne_zero (Nat.ne_zero_of_lt hturns)
  induction rest using leftOver.induct matching generalizing pre behind turns with
  | case1 => simp [eraseLoop_end, leftOver]
  | case2 a ha =>
    obtain ⟨behind', hloop⟩ := eraseLoop_erase false turns pre [] behind ha
    rw [hloop]
    simp [leftOver, ha, eraseLoop_behind]
  | case3 a ha =>
    obtain ⟨turns, rfl⟩ := Nat.exists_eq_succ_of_ne_zero (n := turns) (by simp at hturns; omega)
    rw [eraseLoop_keep false _ pre [] behind (by simpa using ha), List.append_nil, eraseLoop_end]
    simp [leftOver, ha]
  | case4 a b l ha ih =>
    -- the iterator comes past `b`
    obtain ⟨behind', hloop⟩ := eraseLoop_erase false turns pre (b :: l) behind ha
    have hpast := ih (pre ++ [b]) behind' (turns - 1) (by simp at hturns; omega)
    rw [show (turns - 1).succ = turns by simp at hturns; omega] at hpast
    rw [hloop, leftOver, if_pos ha]
    simpa [Function.comp_def] using hpast
  | case5 a b l ha ih =>
    have hnext := ih (pre ++ [a]) behind (turns - 1) (by simp at hturns ⊢; omega)
    rw [show (turns - 1).succ = turns by simp at hturns; omega] at hnext
    rw [eraseLoop_keep false _ pre (b :: l) behind (by simpa using ha), hnext, leftOver, if_neg ha]
    simp [Function.comp_def]

/-- Behind each element that matches there is one that does not. -/
def Spaced (matching : α → Bool) (l : List α) : Prop :=
  ∀ i a, l[i]? = some a → matching a = true → ∃ b, l[i + 1]? = some b ∧ matching b = false

theorem spaced_cons {matching : α → Bool} {a : α} {l : List α} :
    Spaced matching (a :: l) ↔
      (matching a = true → ∃ b, l[0]? = some b ∧ matching b = false) ∧ Spaced matching l := by
  constructor
  · intro h
    exact ⟨fun ha => by simpa using h 0 a rfl ha, fun i b hb => by simpa using h (i + 1) b (by simpa using hb)⟩
  · rintro ⟨hhead, htail⟩ i b hb hmatch
    cases i with
    | zero =>
      obtain rfl : a = b := by simpa using hb
      simpa using hhead hmatch
    | succ i => simpa using htail i b (by simpa using hb) hmatch

/-- The loop leaves exactly what does not match if there is such an element behind each one
    that matches, and else it leaves another one or passes the end. -/
theorem leftOver_iff (matching : α → Bool) (l : List α) :
    leftOver matching l = some (l.filter fun a => !matching a) ↔ Spaced matching l := by
  induction l using leftOver.induct matching with
  | case1 => simp [leftOver, Spaced]
  | case2 a ha => simp [leftOver, ha, spaced_cons]
  | case3 a ha =>
    have hnil : Spaced matching [] := by simp [Spaced]
    rw [spaced_cons]
    simp [leftOver, ha, hnil]
  | case4 a b l ha ih =>
    rw [spaced_cons, spaced_cons, ← ih]
    cases hb : matching b with
    | true =>
      -- `b` is left
      simp [leftOver, ha, hb]
      intro r hr heq
      have hmem : b ∈ l.filter fun a => !matching a := heq ▸ List.mem_cons_self
      simp [hb] at hmem
    | false => simp [leftOver, ha, hb]
  | case5 a b l ha ih =>
    rw [spaced_cons, ← ih]
    simp [leftOver, ha]

theorem forItrErase_all_iff (matching : α → Bool) (v : Vector α) :
    (forItrErase matching false v).map elements =
        some (v.elements.filter fun a => !matching a) ↔ Spaced matching v.elements := by
  have hloop : (forItrErase matching false v).map elements =
      (leftOver matching v.elements).map ([] ++ ·) :=
    eraseLoop_all matching [] v.elements v.behind (Nat.lt_succ_self _)
  rw [hloop, ← leftOver_iff]
  simp

/-! ## Section 3: The loop that returns -/

theorem eraseLoop_once (matching : α → Bool) (pre rest behind : List α) {turns : Nat}
    (hturns : rest.length < turns) :
    (eraseLoop matching true turns pre.length ⟨pre ++ rest, behind⟩).map elements =
      some (pre ++ rest.eraseP matching) := by
  induction rest generalizing pre behind turns with
  | nil =>
    obtain ⟨turns, rfl⟩ := Nat.exists_eq_succ_of_ne_zero (Nat.ne_zero_of_lt hturns)
    simp [eraseLoop_end]
  | cons a rest ih =>
    obtain ⟨turns, rfl⟩ := Nat.exists_eq_succ_of_ne_zero (Nat.ne_zero_of_lt hturns)
    cases ha : matching a with
    | true =>
      obtain ⟨behind', hloop⟩ := eraseLoop_erase true turns pre rest behind ha
      rw [hloop]
      simp [ha]
    | false =>
      rw [eraseLoop_keep true turns pre rest behind ha,
        ih (pre ++ [a]) behind (by simpa using hturns)]
      simp [ha]

/-- Erasing the first that matches erases exactly the elements of an owner if these are the
    first that matches and no other. -/
theorem eraseP_eq_filter_iff (matching owned : α → Bool) (l : List α) :
    (l.eraseP matching = l.filter fun a => !owned a) ↔
      l.filter owned = (l.find? matching).toList := by
  induction l with
  | nil => simp
  | cons a l ih =>
    cases hmatch : matching a with
    | true =>
      cases howned : owned a with
      | true =>
        -- both sides say that no other element is owned
        have hnone : l = l.filter (fun a => !owned a) ↔ l.filter owned = [] := by
          rw [eq_comm, List.filter_eq_self, List.filter_eq_nil_iff]
          simp
        simpa [hmatch, howned] using hnone
      | false =>
        -- all that is left would be free of owned elements, and one longer than it is
        have hshort : l ≠ a :: l.filter fun a => !owned a := by
          intro heq
          have hall : ∀ b ∈ l, (!owned b) = true := by
            intro b hb
            rw [heq] at hb
            rcases List.mem_cons.mp hb with rfl | hb
            · simp [howned]
            · exact (List.mem_filter.mp hb).2
          rw [List.filter_eq_self.mpr hall] at heq
          simpa using congrArg List.length heq
        have hfirst : l.filter owned ≠ [a] := by
          intro heq
          have hmem : a ∈ l.filter owned := heq ▸ List.mem_cons_self
          simp [howned] at hmem
        simpa [hmatch, howned, hfirst] using hshort
    | false =>
      cases howned : owned a with
      | true =>
        have hkept : a :: l.eraseP matching ≠ l.filter fun a => !owned a := by
          intro heq
          have hmem : a ∈ l.filter fun a => !owned a := heq ▸ List.mem_cons_self
          simp [howned] at hmem
        have hfound : a :: l.filter owned ≠ (l.find? matching).toList := by
          intro heq
          have hmem : a ∈ (l.find? matching).toList := heq ▸ List.mem_cons_self
          have hmatch' := List.find?_some (by simpa using hmem)
          simp [hmatch] at hmatch'
        simpa [hmatch, howned, hfound] using hkept
      | false => simp [hmatch, howned, ih]

theorem forItrErase_once_iff (matching owned : α → Bool) (v : Vector α) :
    (forItrErase matching true v).map elements =
        some (v.elements.filter fun a => !owned a) ↔
      v.elements.filter owned = (v.elements.find? matching).toList := by
  have hloop : (forItrErase matching true v).map elements = some (v.elements.eraseP matching) :=
    eraseLoop_once matching [] v.elements v.behind (Nat.lt_succ_self _)
  rw [hloop, Option.some_inj, eraseP_eq_filter_iff]

theorem filter_eq_find_iff (matching : α → Bool) (l : List α) :
    l.filter matching = (l.find? matching).toList ↔ l.countP matching ≤ 1 := by
  rw [← List.head?_filter, List.countP_eq_length_filter]
  cases l.filter matching with
  | nil => simp
  | cons a rest => simp

end Fennix.Std.Vector
