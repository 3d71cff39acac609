import Mathlib.Data.List.Basic
import Mathlib.Data.List.Find
import Mathlib.Tactic.Basic

/-! # Forests

    Trees of numbered nodes with a value each, as a program builds them: a node
    is made below one that is there, and may be taken from its parent again.

    - `Forest`: the nodes, each with its parent and its children.
    - `root`: up from a node as far as there are parents.
    - `search`, `follow`: down, by the keys of the values.
    - `Forest.Le`: what growing keeps. Nodes stay where they are and children
      are added behind those that are there, so whatever `follow` has found it
      finds again.
-/

namespace Fennix

open Option (bind_eq_some_iff bind_some any_some map_eq_some_iff)

/-- A node with its parent and children. -/
structure Forest.Entry (α : Type) where
  value : α
  parent : Option Nat
  children : List Nat
  deriving DecidableEq

/-- Numbered nodes. A parent has a smaller number, and the children of a node
    have it as their parent. -/
structure Forest (α : Type) where
  nodes : List (Forest.Entry α)
  parent_lt : ∀ (i : Nat) (e : Forest.Entry α) (p : Nat),
    nodes[i]? = some e → e.parent = some p → p < i
  child_parent : ∀ (i : Nat) (e : Forest.Entry α) (c : Nat), nodes[i]? = some e → c ∈ e.children →
    ∃ m, nodes[c]? = some m ∧ m.parent = some i

namespace Forest

variable {α κ : Type}

/-! ## Section 1: Growing and cutting -/

/-- A node alone. -/
def single (a : α) : Forest α where
  nodes := [⟨a, none, []⟩]
  parent_lt := by
    intro i e p he hp
    obtain rfl := List.mem_singleton.mp (List.mem_of_getElem? he)
    cases hp
  child_parent := by
    intro i e c he hc
    obtain rfl := List.mem_singleton.mp (List.mem_of_getElem? he)
    cases hc

/-- The entry with one more child. -/
def Entry.withChild (e : Entry α) (c : Nat) : Entry α := { e with children := e.children ++ [c] }

/-- The nodes with a new one below `p`. -/
def grown (nodes : List (Entry α)) (p : Nat) (a : α) : List (Entry α) :=
  nodes.modify p (fun e => e.withChild nodes.length) ++ [⟨a, some p, []⟩]

variable {i p c n : Nat} {e : Entry α} {t t' : Forest α}

theorem grown_old {nodes : List (Entry α)} (h : nodes[i]? = some e) (p : Nat) (a : α) :
    (grown nodes p a)[i]? = some (if p = i then e.withChild nodes.length else e) := by
  have hlt : i < nodes.length := (List.getElem?_eq_some_iff.mp h).1
  rw [grown, List.getElem?_append_left (by rwa [List.length_modify]), List.getElem?_modify, h]
  rfl

theorem grown_new (nodes : List (Entry α)) (p : Nat) (a : α) :
    (grown nodes p a)[nodes.length]? = some ⟨a, some p, []⟩ := by
  rw [grown, List.getElem?_append_right (by simp),
    List.length_modify, Nat.sub_self]
  rfl

theorem grown_cases {nodes : List (Entry α)} {a : α} (h : (grown nodes p a)[i]? = some e) :
    (∃ old, nodes[i]? = some old ∧ e = if p = i then old.withChild nodes.length else old) ∨
      (i = nodes.length ∧ e = ⟨a, some p, []⟩) := by
  obtain hlt | heq | hgt := Nat.lt_trichotomy i nodes.length
  · have hold := List.getElem?_eq_getElem hlt
    rw [grown_old hold] at h
    exact Or.inl ⟨_, hold, (Option.some.inj h).symm⟩
  · subst heq
    rw [grown_new] at h
    exact Or.inr ⟨rfl, (Option.some.inj h).symm⟩
  · rw [grown, List.getElem?_eq_none (by simp; omega)] at h
    cases h

/-- A new node below `p`; its number is the number of nodes before. -/
def addChild (t : Forest α) (p : Nat) (hp : p < t.nodes.length) (a : α) : Forest α where
  nodes := grown t.nodes p a
  parent_lt := by
    intro i e q he hq
    obtain ⟨old, hold, rfl⟩ | ⟨rfl, rfl⟩ := grown_cases he
    · refine t.parent_lt i old q hold ?_
      split at hq
      · exact hq
      · exact hq
    · obtain rfl := Option.some.inj hq
      exact hp
  child_parent := by
    intro i e c he hc
    obtain ⟨old, hold, rfl⟩ | ⟨rfl, rfl⟩ := grown_cases he
    · -- a child is an old one, or it is the new node
      have hchild : c ∈ old.children ∨ (c = t.nodes.length ∧ p = i) := by
        split at hc
        · rename_i hpi
          obtain hold | hnew := List.mem_append.mp hc
          · exact Or.inl hold
          · exact Or.inr ⟨List.mem_singleton.mp hnew, hpi⟩
        · exact Or.inl hc
      obtain hmem | ⟨rfl, rfl⟩ := hchild
      · obtain ⟨m, hm, hparent⟩ := t.child_parent i old c hold hmem
        refine ⟨_, grown_old hm p a, ?_⟩
        split
        · exact hparent
        · exact hparent
      · exact ⟨_, grown_new .., rfl⟩
    · cases hc

/-- Takes `c` from the children of `p`. -/
def eraseChild (t : Forest α) (p c : Nat) : Forest α where
  nodes := t.nodes.modify p fun e => { e with children := e.children.erase c }
  parent_lt := by
    intro i e q he hq
    rw [List.getElem?_modify] at he
    obtain ⟨old, hold, rfl⟩ := map_eq_some_iff.mp he
    refine t.parent_lt i old q hold ?_
    split at hq
    · exact hq
    · exact hq
  child_parent := by
    intro i e d he hd
    rw [List.getElem?_modify] at he
    obtain ⟨old, hold, rfl⟩ := map_eq_some_iff.mp he
    have hmem : d ∈ old.children := by
      split at hd
      · exact List.mem_of_mem_erase hd
      · exact hd
    obtain ⟨m, hm, hparent⟩ := t.child_parent i old d hold hmem
    rw [List.getElem?_modify, hm]
    refine ⟨_, rfl, ?_⟩
    split
    · exact hparent
    · exact hparent

/-! ## Section 2: Up to the root -/

theorem exists_parent (he : t.nodes[n]? = some e) (hp : e.parent = some p) :
    ∃ pe, t.nodes[p]? = some pe :=
  ⟨_, List.getElem?_eq_getElem
    (Nat.lt_trans (t.parent_lt n e p he hp) (List.getElem?_eq_some_iff.mp he).1)⟩

/-- Up at most `fuel` parents. -/
def climb (t : Forest α) : Nat → Nat → Nat
  | 0, n => n
  | fuel + 1, n =>
    match t.nodes[n]?.bind Entry.parent with
    | none => n
    | some p => climb t fuel p

/-- The node without a parent above `n`. -/
def root (t : Forest α) (n : Nat) : Nat := t.climb n n

theorem climb_spec (t : Forest α) {fuel : Nat} (hn : t.nodes[n]? = some e) (hfuel : n ≤ fuel) :
    ∃ r, t.nodes[t.climb fuel n]? = some r ∧ r.parent = none := by
  induction fuel generalizing n e with
  | zero =>
    obtain rfl := Nat.le_zero.mp hfuel
    refine ⟨e, hn, ?_⟩
    -- no number is smaller
    cases hp : e.parent with
    | none => rfl
    | some p => exact absurd (t.parent_lt 0 e p hn hp) (Nat.not_lt_zero p)
  | succ fuel ih =>
    rw [climb, hn, bind_some]
    cases hp : e.parent with
    | none => exact ⟨e, hn, hp⟩
    | some p =>
      have hlt := t.parent_lt n e p hn hp
      obtain ⟨pe, hpe⟩ := exists_parent hn hp
      exact ih hpe (by omega)

theorem root_spec (t : Forest α) (hn : t.nodes[n]? = some e) :
    ∃ r, t.nodes[t.root n]? = some r ∧ r.parent = none :=
  t.climb_spec hn (Nat.le_refl n)

/-! ## Section 3: Down by keys -/

section Keys

variable [DecidableEq κ] (key : α → κ)

/-- The first child with a key. -/
def search (t : Forest α) (e : Entry α) (k : κ) : Option Nat :=
  e.children.find? fun c => t.nodes[c]?.any fun m => key m.value = k

/-- Down along keys. -/
def follow (t : Forest α) : Nat → List κ → Option Nat
  | n, [] => some n
  | n, k :: ks => t.nodes[n]?.bind fun e => (t.search key e k).bind fun c => follow t c ks

variable {key}

theorem follow_cons {t : Forest α} {n c : Nat} {e : Entry α} {k : κ} (he : t.nodes[n]? = some e)
    (hc : t.search key e k = some c) (ks : List κ) :
    t.follow key n (k :: ks) = t.follow key c ks := by
  rw [follow, he, bind_some, hc, bind_some]

theorem follow_append (t : Forest α) (n : Nat) (ks ks' : List κ) :
    t.follow key n (ks ++ ks') = (t.follow key n ks).bind fun m => t.follow key m ks' := by
  induction ks generalizing n with
  | nil => rfl
  | cons k ks ih => simp only [List.cons_append, follow, ih, Option.bind_assoc]

end Keys

/-! ## Section 4: What growing keeps -/

/-- `t'` has all that `t` has. -/
def Le (t t' : Forest α) : Prop :=
  ∀ (i : Nat) (e : Entry α), t.nodes[i]? = some e →
    ∃ e' : Entry α, t'.nodes[i]? = some e' ∧ e'.value = e.value ∧ e'.parent = e.parent ∧
      e.children <+: e'.children

theorem Le.refl (t : Forest α) : t.Le t :=
  fun _ e he => ⟨e, he, rfl, rfl, List.prefix_rfl⟩

theorem Le.trans {t'' : Forest α} (h : t.Le t') (h' : t'.Le t'') : t.Le t'' := by
  intro i e he
  obtain ⟨e', he', hvalue, hparent, hchildren⟩ := h i e he
  obtain ⟨e'', he'', hvalue', hparent', hchildren'⟩ := h' i e' he'
  exact ⟨e'', he'', hvalue'.trans hvalue, hparent'.trans hparent, hchildren.trans hchildren'⟩

theorem le_addChild (t : Forest α) (p : Nat) (hp : p < t.nodes.length) (a : α) :
    t.Le (t.addChild p hp a) := by
  intro i e he
  refine ⟨_, grown_old he p a, ?_⟩
  split
  · exact ⟨rfl, rfl, List.prefix_append _ _⟩
  · exact ⟨rfl, rfl, List.prefix_rfl⟩

theorem Le.climb (h : t.Le t') {fuel : Nat} (hn : t.nodes[n]? = some e) :
    t'.climb fuel n = t.climb fuel n := by
  induction fuel generalizing n e with
  | zero => rfl
  | succ fuel ih =>
    obtain ⟨e', he', -, hparent, -⟩ := h n e hn
    rw [Forest.climb, Forest.climb, hn, he', bind_some, bind_some, hparent]
    cases hp : e.parent with
    | none => rfl
    | some p =>
      obtain ⟨pe, hpe⟩ := exists_parent hn hp
      exact ih hpe

theorem Le.root (h : t.Le t') (hn : t.nodes[n]? = some e) : t'.root n = t.root n :=
  h.climb hn

section Keys

variable [DecidableEq κ] {key : α → κ}

variable {t : Forest α}

theorem Le.search {t' : Forest α} (h : t.Le t') {n c : Nat} {e e' : Entry α} {k : κ}
    (he : t.nodes[n]? = some e) (hchildren : e.children <+: e'.children)
    (hc : t.search key e k = some c) : t'.search key e' k = some c := by
  obtain ⟨rest, hrest⟩ := hchildren
  -- the old children have the keys they had
  have hsame : ∀ d ∈ e.children, (t'.nodes[d]?.any fun m => key m.value = k) =
      t.nodes[d]?.any fun m => key m.value = k := by
    intro d hd
    obtain ⟨m, hm, -⟩ := t.child_parent n e d he hd
    obtain ⟨m', hm', hvalue, -⟩ := h d m hm
    rw [hm, hm', any_some, any_some, hvalue]
  have hold : e.children.find? (fun d => t'.nodes[d]?.any fun m => key m.value = k) = some c := by
    rw [← hc]
    exact List.find?_congr hsame
  rw [Forest.search, ← hrest, List.find?_append, hold]
  rfl

theorem search_addChild {p : Nat} (hp : p < t.nodes.length) {e : Entry α} {a : α}
    (he : t.nodes[p]? = some e) (hmiss : t.search key e (key a) = none) :
    (t.addChild p hp a).search key (e.withChild t.nodes.length) (key a) =
      some t.nodes.length := by
  have hold : e.children.find?
      (fun d => (t.addChild p hp a).nodes[d]?.any fun m => key m.value = key a) = none := by
    rw [← hmiss]
    refine List.find?_congr ?_
    intro d hd
    obtain ⟨m, hm, -⟩ := t.child_parent p e d he hd
    obtain ⟨m', hm', hvalue, -⟩ := t.le_addChild p hp a d m hm
    rw [hm, hm', any_some, any_some, hvalue]
  have hnew : (t.addChild p hp a).nodes[t.nodes.length]? = some ⟨a, some p, []⟩ := grown_new ..
  rw [Forest.search, Entry.withChild, List.find?_append, hold, Option.none_or,
    List.find?_cons_of_pos (by rw [hnew]; simp)]

theorem Le.follow {t' : Forest α} (h : t.Le t') {n m : Nat} {ks : List κ}
    (hm : t.follow key n ks = some m) : t'.follow key n ks = some m := by
  induction ks generalizing n with
  | nil => exact hm
  | cons k ks ih =>
    obtain ⟨e, he, hrest⟩ := bind_eq_some_iff.mp hm
    obtain ⟨c, hc, hfollow⟩ := bind_eq_some_iff.mp hrest
    obtain ⟨e', he', -, -, hchildren⟩ := h n e he
    rw [follow_cons he' (h.search he hchildren hc)]
    exact ih hfollow

end Keys

theorem exists_follow [DecidableEq κ] {key : α → κ} {m : Nat} {ks : List κ}
    (he : t.nodes[n]? = some e) (h : t.follow key n ks = some m) : ∃ me, t.nodes[m]? = some me := by
  induction ks generalizing n e with
  | nil =>
    cases h
    exact ⟨e, he⟩
  | cons k ks ih =>
    obtain ⟨e, he, h⟩ := bind_eq_some_iff.mp h
    obtain ⟨c, hc, h⟩ := bind_eq_some_iff.mp h
    obtain ⟨ce, hce, -⟩ := t.child_parent n e c he (List.mem_of_find?_eq_some hc)
    exact ih hce h

/-! ## Section 5: What cutting keeps -/

theorem eraseChild_nodes (t : Forest α) (p c i : Nat) :
    (t.eraseChild p c).nodes[i]? =
      t.nodes[i]?.map fun e => if p = i then { e with children := e.children.erase c } else e := by
  show (t.nodes.modify p _)[i]? = _
  rw [List.getElem?_modify]
  rfl

theorem eraseChild_of_ne (t : Forest α) (h : p ≠ i) :
    (t.eraseChild p c).nodes[i]? = t.nodes[i]? := by
  rw [eraseChild_nodes]
  simp only [if_neg h]
  exact Option.map_id_apply

theorem eraseChild_parent (t : Forest α) (p c i : Nat) :
    (t.eraseChild p c).nodes[i]?.bind Entry.parent = t.nodes[i]?.bind Entry.parent := by
  rw [eraseChild_nodes]
  cases t.nodes[i]? with
  | none => rfl
  | some e =>
    rw [Option.map_some, bind_some, bind_some]
    split
    · rfl
    · rfl

theorem root_eraseChild (t : Forest α) (p c n : Nat) : (t.eraseChild p c).root n = t.root n := by
  have hclimb : ∀ fuel n, (t.eraseChild p c).climb fuel n = t.climb fuel n := by
    intro fuel
    induction fuel with
    | zero => exact fun _ => rfl
    | succ fuel ih =>
      intro n
      rw [climb, climb, eraseChild_parent]
      cases t.nodes[n]?.bind Entry.parent with
      | none => rfl
      | some q => exact ih q
  exact hclimb n n

section Keys

variable [DecidableEq κ] {key : α → κ}

variable {t : Forest α}

theorem follow_le {n m : Nat} {ks : List κ} (h : t.follow key n ks = some m) :
    n ≤ m ∧ (ks ≠ [] → n < m) := by
  induction ks generalizing n with
  | nil =>
    cases h
    exact ⟨Nat.le_refl _, fun hne => absurd rfl hne⟩
  | cons k ks ih =>
    obtain ⟨e, he, h⟩ := bind_eq_some_iff.mp h
    obtain ⟨c, hc, h⟩ := bind_eq_some_iff.mp h
    obtain ⟨me, hme, hparent⟩ := t.child_parent n e c he (List.mem_of_find?_eq_some hc)
    have hlt := t.parent_lt c me n hme hparent
    have hle := (ih h).1
    exact ⟨by omega, fun _ => by omega⟩

theorem search_eraseChild (t : Forest α) (p c : Nat) (e : Entry α) (k : κ) :
    (t.eraseChild p c).search key e k = t.search key e k := by
  unfold search
  congr 1
  funext d
  rw [eraseChild_nodes]
  cases t.nodes[d]? with
  | none => rfl
  | some m =>
    rw [Option.map_some, any_some, any_some]
    split
    · rfl
    · rfl

theorem follow_eraseChild {p c n : Nat} {ks : List κ} (h : t.follow key n ks = some p) :
    (t.eraseChild p c).follow key n ks = some p := by
  induction ks generalizing n with
  | nil => exact h
  | cons k ks ih =>
    have hlt := (follow_le h).2 (List.cons_ne_nil k ks)
    obtain ⟨e, he, h⟩ := bind_eq_some_iff.mp h
    obtain ⟨d, hd, h⟩ := bind_eq_some_iff.mp h
    have he' : (t.eraseChild p c).nodes[n]? = some e := by
      rw [eraseChild_of_ne t (Nat.ne_of_gt hlt), he]
    rw [follow_cons he' (by rw [search_eraseChild, hd])]
    exact ih h

theorem search_erased {c : Nat} {e : Entry α} {k : κ}
    (halone : e.children.filter (fun d => t.nodes[d]?.any fun m => key m.value = k) = [c]) :
    t.search key { e with children := e.children.erase c } k = none := by
  unfold search
  rw [List.find?_eq_none]
  intro d hd hkey
  have hmem : d ∈ e.children.filter (fun d => t.nodes[d]?.any fun m => key m.value = k) :=
    List.mem_filter.mpr ⟨List.mem_of_mem_erase hd, hkey⟩
  rw [halone] at hmem
  obtain rfl := List.mem_singleton.mp hmem
  -- it stood once among the children
  have honce : e.children.count d = 1 := by
    have hfilter : (e.children.filter fun d => t.nodes[d]?.any fun m => key m.value = k).count d =
        e.children.count d := List.count_filter hkey
    rw [← hfilter, halone, List.count_singleton_self]
  have hgone : (e.children.erase d).count d = 0 := by
    rw [List.count_erase_self, honce]
  exact List.count_eq_zero.mp hgone hd

end Keys

end Forest

end Fennix
