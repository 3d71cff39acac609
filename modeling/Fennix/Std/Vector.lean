import Mathlib.Data.List.Basic

/-! # Vectors

    `std::vector` of `Kernel/include_std/vector`, as far as elements are taken out
    of it, and loops over it whose body does so.

    `erase` moves the elements behind the erased one and makes the vector shorter;
    the slot of the last element keeps what it held. A range-for loop has the end
    that the vector had at its start, so it comes to such slots as well.
-/

namespace Fennix.Std

/-- A vector: its elements, and what is left in the slots behind the end. -/
structure Vector (α : Type) where
  elements : List α
  behind : List α

namespace Vector

variable {α β σ : Type}

/-! ## Section 1: Taking elements out -/

/-- What is in a slot. -/
def slot (v : Vector α) (i : Nat) : Option α := (v.elements ++ v.behind)[i]?

/-- `erase` of a position up to the end. At the end the last element is lost; an
    empty vector has no size that is smaller. -/
def erase (v : Vector α) (index : Nat) : Option (Vector α) :=
  v.elements.getLast?.map fun last =>
    ⟨if index < v.elements.length then v.elements.eraseIdx index else v.elements.dropLast,
      last :: v.behind⟩

/-- `erase(std::find(begin(), end(), a))`. -/
def eraseFind [DecidableEq α] (v : Vector α) (a : α) : Option (Vector α) :=
  v.erase (v.elements.idxOf a)

section erase

variable {v v' : Vector α}

theorem erase_spec {index : Nat} (h : v.erase index = some v') :
    v'.elements.Sublist v.elements ∧
      ∀ a ∈ v'.elements ++ v'.behind, a ∈ v.elements ++ v.behind := by
  obtain ⟨last, hlast, rfl⟩ := Option.map_eq_some_iff.mp h
  have hsublist : (if index < v.elements.length then v.elements.eraseIdx index
      else v.elements.dropLast).Sublist v.elements := by
    split
    · exact List.eraseIdx_sublist _ _
    · exact List.dropLast_sublist _
  refine ⟨hsublist, fun a ha => ?_⟩
  obtain helement | hbehind := List.mem_append.mp ha
  · exact List.mem_append_left _ (hsublist.subset helement)
  · obtain rfl | hbehind := List.mem_cons.mp hbehind
    · exact List.mem_append_left _ (List.mem_of_getLast? hlast)
    · exact List.mem_append_right _ hbehind

theorem not_mem_eraseFind [DecidableEq α] {a : α} (hnodup : v.elements.Nodup)
    (ha : a ∈ v.elements) (h : v.eraseFind a = some v') : a ∉ v'.elements := by
  obtain ⟨last, -, rfl⟩ := Option.map_eq_some_iff.mp h
  show a ∉ if v.elements.idxOf a < v.elements.length then _ else _
  rw [if_pos (List.idxOf_lt_length_iff.mpr ha), ← List.erase_eq_eraseIdx_of_idxOf rfl]
  exact hnodup.not_mem_erase

end erase

/-! ## Section 2: Loops -/

/-- The rest of a range-for loop over a vector of the state, `n` turns from slot `i`.
    A turn may end it with a result. -/
def scan (get : σ → Vector α) (body : σ → α → Option (σ × Option β)) :
    Nat → Nat → σ → Option (σ × Option β)
  | 0, _, s => some (s, none)
  | n + 1, i, s =>
    ((get s).slot i).bind fun a =>
      (body s a).bind fun r =>
        match r.2 with
        | none => scan get body n (i + 1) r.1
        | some _ => some r

/-- A range-for loop that may end with a result. -/
def search (get : σ → Vector α) (body : σ → α → Option (σ × Option β)) (s : σ) :
    Option (σ × Option β) :=
  scan get body (get s).elements.length 0 s

/-- A range-for loop. -/
def forEach (get : σ → Vector α) (body : σ → α → Option σ) (s : σ) : Option σ :=
  (search get (fun s a => (body s a).map fun s => (s, (none : Option Empty))) s).map Prod.fst

section loops

variable {get : σ → Vector α} {body : σ → α → Option (σ × Option β)} {s s' : σ} {r : Option β}

variable {n i : Nat} {P : σ → Prop}

theorem scan_inv (hbody : ∀ {t a t' r k}, P t → k < i + n → (get t).slot k = some a →
      body t a = some (t', r) → P t') (h : scan get body n i s = some (s', r)) (hs : P s) :
    P s' ∧ ∀ b, r = some b → ∃ t a, P t ∧ body t a = some (s', r) := by
  induction n generalizing i s with
  | zero =>
    cases h
    exact ⟨hs, fun _ hnone => nomatch hnone⟩
  | succ n ih =>
    obtain ⟨a, hslot, hturn⟩ := Option.bind_eq_some_iff.mp h
    obtain ⟨⟨s₁, r₁⟩, hbody₁, hrest⟩ := Option.bind_eq_some_iff.mp hturn
    have hs₁ : P s₁ := hbody hs (by omega) hslot hbody₁
    cases r₁ with
    | none => exact ih (fun ht hk => hbody ht (by omega)) hrest hs₁
    | some b =>
      cases hrest
      exact ⟨hs₁, fun _ _ => ⟨s, a, hs, hbody₁⟩⟩

theorem forEach_inv {body : σ → α → Option σ}
    (hbody : ∀ {t a t' k}, P t → k < (get s).elements.length → (get t).slot k = some a →
      body t a = some t' → P t') (h : forEach get body s = some s') (hs : P s) :
    P s' := by
  obtain ⟨⟨s₁, r₁⟩, hscan, rfl⟩ := Option.map_eq_some_iff.mp h
  refine (scan_inv ?_ hscan hs).1
  intro t a t' r k ht hk hslot hturn
  obtain ⟨t₁, ht₁, heq⟩ := Option.map_eq_some_iff.mp hturn
  cases heq
  exact hbody ht (by omega) hslot ht₁

theorem forEach_rel {R : σ → σ → Prop} (hrefl : ∀ s, R s s)
    (htrans : ∀ {s₁ s₂ s₃}, R s₁ s₂ → R s₂ s₃ → R s₁ s₃) {body : σ → α → Option σ}
    (hbody : ∀ {s a s'}, body s a = some s' → R s s') (h : forEach get body s = some s') : R s s' :=
  forEach_inv (P := R s) (fun ht _ _ hturn => htrans ht (hbody hturn)) h (hrefl s)

theorem mem_of_slot {v : Vector α} {k : Nat} {a : α} (h : v.slot k = some a) :
    a ∈ v.elements ++ v.behind :=
  List.mem_of_getElem? h

theorem mem_elements_of_slot {v : Vector α} {k : Nat} {a : α} (h : v.slot k = some a)
    (hk : k < v.elements.length) : a ∈ v.elements := by
  rw [slot, List.getElem?_append_left hk] at h
  exact List.mem_of_getElem? h

theorem search_of_unchanged {f : α → Option β}
    (h : ∀ a ∈ (get s).elements, body s a = some (s, f a)) :
    search get body s = some (s, (get s).elements.findSome? f) := by
  have hscan : ∀ (l : List α) (i : Nat), (∀ k, k < l.length → (get s).slot (i + k) = l[k]?) →
      (∀ a ∈ l, body s a = some (s, f a)) →
      scan get body l.length i s = some (s, l.findSome? f) := by
    intro l
    induction l with
    | nil => exact fun _ _ _ => rfl
    | cons a l ih =>
      intro i hslot hbody
      have hfirst : (get s).slot i = some a := hslot 0 (Nat.zero_lt_succ _)
      rw [List.length_cons, scan, hfirst, Option.bind_some, hbody a List.mem_cons_self,
        Option.bind_some, List.findSome?_cons]
      cases hf : f a with
      | none =>
        refine ih (i + 1) ?_ fun a' ha' => hbody a' (List.mem_cons_of_mem a ha')
        intro k hk
        have hnext := hslot (k + 1) (Nat.succ_lt_succ hk)
        rw [List.getElem?_cons_succ] at hnext
        rw [← hnext, Nat.add_assoc, Nat.add_comm 1]
      | some b => rfl
  refine hscan (get s).elements 0 ?_ h
  intro k hk
  rw [slot, Nat.zero_add, List.getElem?_append_left hk]

theorem forEach_of_unchanged {body : σ → α → Option σ}
    (h : ∀ a ∈ (get s).elements, body s a = some s) : forEach get body s = some s := by
  have hloop : search get (fun s a => (body s a).map fun s => (s, (none : Option Empty))) s = _ :=
    search_of_unchanged (f := fun _ => none) fun a ha => by rw [h a ha]; rfl
  rw [forEach, hloop]
  rfl

end loops

end Vector

end Fennix.Std
