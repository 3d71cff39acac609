import Mathlib.Data.List.Infix
import Mathlib.Logic.Function.Basic

/-! # Radix trees in a flat memory

    A radix tree whose nodes are tables of entries in one flat memory: an
    entry says that nothing is below it, that it is a leaf, or which table
    comes next. A path is the list of indices taken from the root.

    - `lookup`: the leaf entry that a path leads to; `leafAt` also gives the
      level it was found at.
    - `walk`: the table that a path leads to.
    - `Tree`: a certificate that no table is shared. `own` gives each table
      the one path at which it may hang. It may name tables that no longer
      hang anywhere, so that unlinking a table never invalidates it.

    Reading a path touches only tables owned by its prefixes
    (`Tree.lookup_congr`, `Tree.walk_congr`). What an update does to all the
    other paths follows from that.
-/

namespace Fennix.Radix

universe u v w

/-- What an entry says about what is below it. -/
inductive Node (F : Type u) where
  | absent
  | leaf
  | table (f : F)
  deriving DecidableEq

/-- Tables of entries, by their address and the index of the entry. -/
abbrev Store (F : Type u) (I : Type v) (W : Type w) := F → I → W

variable {F : Type u} {I : Type v} {W : Type w}

/-! ## Section 1: Reading -/

/-- The leaf entry that a path leads to. Entries are decoded by the number of
    levels that are left below them. -/
def lookup (decode : Nat → W → Node F) (m : Store F I W) : F → List I → Option W
  | _, [] => none
  | f, i :: rest =>
    match decode rest.length (m f i) with
    | .absent => none
    | .leaf => some (m f i)
    | .table g => lookup decode m g rest

/-- The table and the index of the leaf entry that a path leads to. -/
def locate (decode : Nat → W → Node F) (m : Store F I W) : F → List I → Option (F × I)
  | _, [] => none
  | f, i :: rest =>
    match decode rest.length (m f i) with
    | .absent => none
    | .leaf => some (f, i)
    | .table g => locate decode m g rest

/-- The leaf entry that a path leads to, after the number of levels that are
    left below it. -/
def leafAt (decode : Nat → W → Node F) (m : Store F I W) : F → List I → Option (Nat × W)
  | _, [] => none
  | f, i :: rest =>
    match decode rest.length (m f i) with
    | .absent => none
    | .leaf => some (rest.length, m f i)
    | .table g => leafAt decode m g rest

/-- Where a path leads to, with `k` levels left below its last entry: to a
    table, or it meets a leaf or an absent entry on the way. -/
def walk (decode : Nat → W → Node F) (m : Store F I W) (k : Nat) : F → List I → Node F
  | f, [] => .table f
  | f, i :: rest =>
    match decode (rest.length + k) (m f i) with
    | .absent => .absent
    | .leaf => .leaf
    | .table g => walk decode m k g rest

/-- Entry `i` of the table that a path leads to, or `z` if it leads to none. -/
def entryAt (decode : Nat → W → Node F) (m : Store F I W) (z : W) (k : Nat) (f : F)
    (path : List I) (i : I) : W :=
  match walk decode m k f path with
  | .table g => m g i
  | _ => z

variable {decode : Nat → W → Node F} {m m' : Store F I W}

theorem map_locate (f : F) (path : List I) :
    (locate decode m f path).map (fun l => m l.1 l.2) = lookup decode m f path := by
  induction path generalizing f with
  | nil => rfl
  | cons i rest ih =>
    simp only [locate, lookup]
    cases decode rest.length (m f i) with
    | absent => rfl
    | leaf => rfl
    | table g => exact ih g

theorem locate_congr (h : ∀ k f i, decode k (m' f i) = decode k (m f i)) (f : F) (path : List I) :
    locate decode m' f path = locate decode m f path := by
  induction path generalizing f with
  | nil => rfl
  | cons i rest ih =>
    simp only [locate, h]
    cases decode rest.length (m f i) with
    | absent => rfl
    | leaf => rfl
    | table g => exact ih g

theorem map_leafAt (f : F) (path : List I) :
    (leafAt decode m f path).map Prod.snd = lookup decode m f path := by
  induction path generalizing f with
  | nil => rfl
  | cons i rest ih =>
    simp only [leafAt, lookup]
    cases decode rest.length (m f i) with
    | absent => rfl
    | leaf => rfl
    | table g => exact ih g

variable {f : F} {path rest : List I} {k : Nat} {e : W} {i : I}

theorem lookup_append {g : F} {front back : List I}
    (h : walk decode m back.length f front = .table g) :
    lookup decode m f (front ++ back) = lookup decode m g back := by
  induction front generalizing f with
  | nil =>
    simp only [walk, Node.table.injEq] at h
    rw [h]
    rfl
  | cons i rest ih =>
    simp only [walk] at h
    simp only [List.cons_append, lookup, List.length_append]
    cases hd : decode (rest.length + back.length) (m f i) with
    | absent => simp [hd] at h
    | leaf => simp [hd] at h
    | table f' => exact ih (by simpa [hd] using h)

theorem walk_of_lookup (h : lookup decode m f (path ++ [i]) = some e)
    (hleaf : walk decode m 1 f path ≠ .leaf) :
    ∃ g, walk decode m 1 f path = .table g ∧ m g i = e := by
  induction path generalizing f with
  | nil =>
    refine ⟨f, rfl, ?_⟩
    simp only [List.nil_append, lookup, List.length_nil] at h
    cases hd : decode 0 (m f i) with
    | absent => simp [hd] at h
    | leaf => simpa [hd] using h
    | table g => simp [hd] at h
  | cons j rest ih =>
    simp only [List.cons_append, lookup, List.length_append, List.length_singleton] at h
    simp only [walk] at hleaf ⊢
    cases hd : decode (rest.length + 1) (m f j) with
    | absent => simp [hd] at h
    | leaf => simp [hd] at hleaf
    | table g => exact ih (by simpa only [hd] using h) (by simpa only [hd] using hleaf)

theorem lookup_of_walk_leaf (h : walk decode m k f path = .leaf) (hk : rest.length = k) :
    ∃ e, lookup decode m f (path ++ rest) = some e := by
  induction path generalizing f with
  | nil => simp [walk] at h
  | cons i path ih =>
    simp only [walk] at h
    simp only [List.cons_append, lookup, List.length_append, hk]
    cases hd : decode (path.length + k) (m f i) with
    | absent => simp [hd] at h
    | leaf => exact ⟨m f i, rfl⟩
    | table g => exact ih (by simpa only [hd] using h)

theorem walk_concat {g h : F} (hwalk : walk decode m (k + 1) f path = .table g)
    (hentry : decode k (m g i) = .table h) : walk decode m k f (path ++ [i]) = .table h := by
  induction path generalizing f with
  | nil =>
    simp only [walk, Node.table.injEq] at hwalk
    subst hwalk
    simp [walk, hentry]
  | cons j rest ih =>
    simp only [walk] at hwalk
    simp only [List.cons_append, walk, List.length_append, List.length_singleton]
    rw [show rest.length + 1 + k = rest.length + (k + 1) from by omega]
    cases hd : decode (rest.length + (k + 1)) (m f j) with
    | absent => simp [hd] at hwalk
    | leaf => simp [hd] at hwalk
    | table f' => exact ih (by simpa [hd] using hwalk)

theorem lookup_blank (h : ∀ k i, decode k (m f i) = .absent) : lookup decode m f path = none := by
  cases path with
  | nil => rfl
  | cons i rest => simp [lookup, h]

/-! ## Section 2: Trees -/

/-- `own` gives every table of the tree the path at which it hangs, in a tree
    of `n` levels. -/
structure Tree (decode : Nat → W → Node F) (n : Nat) (m : Store F I W) (root : F)
    (own : F → Option (List I)) : Prop where
  own_root : own root = some []
  own_child : ∀ {f g : F} {path : List I} {i : I} {k : Nat}, own f = some path →
    path.length + 1 + k = n → decode k (m f i) = .table g → own g = some (path ++ [i])

/-- An entry `e'` in place of `e` does not change what is found below it on
    the path `rest`: it says the same, or it links a table where nothing is
    found. -/
def Alike (decode : Nat → W → Node F) (m' : Store F I W) (rest : List I) (e' e : W) : Prop :=
  (decode rest.length e' = decode rest.length e ∧ (decode rest.length e = .leaf → e' = e)) ∨
  (decode rest.length e = .absent ∧
    ∃ g, decode rest.length e' = .table g ∧ lookup decode m' g rest = none)

theorem Alike.refl : Alike decode m' rest e e :=
  Or.inl ⟨rfl, fun _ => rfl⟩

namespace Tree

variable {n : Nat} {root : F} {own : F → Option (List I)}

variable {f : F} {path rest : List I} {k : Nat} (ht : Tree decode n m root own)

include ht

/-- The next table on a path is owned by the path that has been taken to it. -/
theorem own_next {g : F} (hf : own f = some path) (hn : path.length + (i :: rest).length + k = n)
    (hd : decode (rest.length + k) (m f i) = .table g) :
    own g = some (path ++ [i]) ∧ (path ++ [i]).length + rest.length + k = n := by
  simp only [List.length_cons] at hn
  refine ⟨ht.own_child hf (by omega) hd, ?_⟩
  simp only [List.length_append, List.length_singleton]
  omega

theorem lookup_congr (hf : own f = some path)
    (hn : path.length + rest.length = n)
    (h : ∀ front i back g, rest = front ++ i :: back → own g = some (path ++ front) →
      Alike decode m' back (m' g i) (m g i)) :
    lookup decode m' f rest = lookup decode m f rest := by
  induction rest generalizing f path with
  | nil => rfl
  | cons i rest ih =>
    have hcell := h [] i rest f rfl (by rw [List.append_nil]; exact hf)
    simp only [lookup]
    rcases hcell with ⟨hsame, hleaf⟩ | ⟨habsent, g, htable, hnone⟩
    · rw [hsame]
      cases hd : decode rest.length (m f i) with
      | absent => rfl
      | leaf => simp only [hleaf hd]
      | table g =>
        obtain ⟨hg, hn⟩ := ht.own_next (k := 0) hf hn hd
        apply ih hg hn
        intro front j back g' hrest hg'
        apply h (i :: front) j back g' (by rw [hrest]; rfl)
        rw [hg', List.append_assoc]
        rfl
    · simp only [habsent, htable, hnone]

theorem walk_congr (hf : own f = some path)
    (hn : path.length + rest.length + k = n)
    (h : ∀ front i back g, rest = front ++ i :: back → own g = some (path ++ front) →
      decode (back.length + k) (m' g i) = decode (back.length + k) (m g i)) :
    walk decode m' k f rest = walk decode m k f rest := by
  induction rest generalizing f path with
  | nil => rfl
  | cons i rest ih =>
    have hcell := h [] i rest f rfl (by rw [List.append_nil]; exact hf)
    simp only [walk, hcell]
    cases hd : decode (rest.length + k) (m f i) with
    | absent => rfl
    | leaf => rfl
    | table g =>
      obtain ⟨hg, hn⟩ := ht.own_next hf hn hd
      apply ih hg hn
      intro front j back g' hrest hg'
      apply h (i :: front) j back g' (by rw [hrest]; rfl)
      rw [hg', List.append_assoc]
      rfl

theorem own_walk {g : F} (hf : own f = some path)
    (hn : path.length + rest.length + k = n) (h : walk decode m k f rest = .table g) :
    own g = some (path ++ rest) := by
  induction rest generalizing f path with
  | nil =>
    simp only [walk, Node.table.injEq] at h
    rw [← h, List.append_nil]
    exact hf
  | cons i rest ih =>
    simp only [walk] at h
    cases hd : decode (rest.length + k) (m f i) with
    | absent => simp [hd] at h
    | leaf => simp [hd] at h
    | table f' =>
      obtain ⟨hf', hn⟩ := ht.own_next hf hn hd
      have hg := ih hf' hn (by simpa [hd] using h)
      rw [hg, List.append_assoc]
      rfl

theorem entry_of_leafAt {e : W} (hf : own f = some path)
    (hn : path.length + rest.length = n) (h : leafAt decode m f rest = some (k, e)) :
    ∃ g path' i, own g = some path' ∧ path'.length + 1 + k = n ∧ m g i = e ∧
      decode k e = .leaf := by
  induction rest generalizing f path with
  | nil => simp [leafAt] at h
  | cons i rest ih =>
    simp only [List.length_cons] at hn
    simp only [leafAt] at h
    cases hd : decode rest.length (m f i) with
    | absent => simp [hd] at h
    | leaf =>
      simp only [hd, Option.some.injEq, Prod.mk.injEq] at h
      obtain ⟨rfl, rfl⟩ := h
      exact ⟨f, path, i, hf, by omega, rfl, hd⟩
    | table g =>
      obtain ⟨hg, hn⟩ := ht.own_next (k := 0) hf hn hd
      exact ih hg hn (by simpa only [hd] using h)

theorem congr (h : ∀ f path, own f = some path → m' f = m f) : Tree decode n m' root own := by
  refine ⟨ht.own_root, ?_⟩
  intro f g path i k hf hn hd
  rw [h f path hf] at hd
  exact ht.own_child hf hn hd

theorem leafAt_congr_own (h : ∀ f path, own f = some path → m' f = m f) (hf : own f = some path)
    (hn : path.length + rest.length = n) : leafAt decode m' f rest = leafAt decode m f rest := by
  induction rest generalizing f path with
  | nil => rfl
  | cons i rest ih =>
    simp only [leafAt, h f path hf]
    cases hd : decode rest.length (m f i) with
    | absent => rfl
    | leaf => rfl
    | table g =>
      obtain ⟨hg, hn⟩ := ht.own_next (k := 0) hf hn hd
      exact ih hg hn

theorem lookup_congr_own (h : ∀ f path, own f = some path → m' f = m f) (hf : own f = some path)
    (hn : path.length + rest.length = n) : lookup decode m' f rest = lookup decode m f rest := by
  rw [← map_leafAt, ← map_leafAt, ht.leafAt_congr_own h hf hn]

end Tree

/-! ## Section 3: Blank tables -/

section fill

variable [DecidableEq F]

/-- Table `g` is filled with the entry `e`. -/
def fill (m : Store F I W) (g : F) (e : W) : Store F I W := Function.update m g fun _ => e

@[simp] theorem fill_self (m : Store F I W) (g : F) (e : W) (i : I) : fill m g e g i = e := by
  simp [fill]

theorem fill_of_ne (m : Store F I W) {f g : F} (e : W) (h : f ≠ g) : fill m g e f = m f := by
  simp [fill, h]

namespace Tree

variable {n : Nat} {root g : F} {own : F → Option (List I)} {path : List I} {z : W}

omit [DecidableEq F] in
theorem ne_of_own (hg : own g = none) {f : F} (hf : own f = some path) : f ≠ g := by
  rintro rfl
  cases hg.symm.trans hf

variable (ht : Tree decode n m root own) (hg : own g = none)

include ht hg

theorem fill (hz : ∀ k, decode k z = .absent) :
    Tree decode n (fill m g z) root (Function.update own g (some path)) := by
  refine ⟨by rw [Function.update_of_ne (ne_of_own hg ht.own_root), ht.own_root], ?_⟩
  intro f' g' path' i' k hf' hn hd
  by_cases h : f' = g
  · subst h
    rw [fill_self, hz] at hd
    cases hd
  · rw [Function.update_of_ne h] at hf'
    rw [fill_of_ne m z h] at hd
    have hg' := ht.own_child hf' hn hd
    rw [Function.update_of_ne (ne_of_own hg hg'), hg']

theorem lookup_fill {full : List I}
    (hn : full.length = n) :
    lookup decode (Radix.fill m g z) root full = lookup decode m root full := by
  apply ht.lookup_congr_own _ ht.own_root (by simpa using hn)
  exact fun f path hf => fill_of_ne m z (ne_of_own hg hf)

theorem walk_fill {k : Nat} {full : List I}
    (hn : full.length + k = n) :
    walk decode (Radix.fill m g z) k root full = walk decode m k root full := by
  apply ht.walk_congr ht.own_root (by simpa using hn)
  intro front j back f _ hf
  rw [fill_of_ne m z (ne_of_own hg hf)]

end Tree

end fill

/-! ## Section 4: Writing one entry -/

section write

variable [DecidableEq F] [DecidableEq I]

/-- Entry `i` of table `f` is set to `e`. -/
def write (m : Store F I W) (f : F) (i : I) (e : W) : Store F I W :=
  Function.update m f (Function.update (m f) i e)

@[simp] theorem write_self (m : Store F I W) (f : F) (i : I) (e : W) : write m f i e f i = e := by
  simp [write]

theorem write_write (m : Store F I W) (f : F) (i : I) (e e' : W) :
    write (write m f i e) f i e' = write m f i e' := by
  simp [write]

theorem write_of_ne (m : Store F I W) {f g : F} (i : I) (e : W) (h : g ≠ f) :
    write m f i e g = m g := by
  simp [write, h]

theorem write_of_ne_index (m : Store F I W) {f g : F} {i j : I} (e : W) (h : g ≠ f ∨ j ≠ i) :
    write m f i e g j = m g j := by
  by_cases hg : g = f
  · subst hg
    have hj : j ≠ i := h.resolve_left (fun hne => hne rfl)
    simp [write, hj]
  · rw [write_of_ne m i e hg]

namespace Tree

variable {n : Nat} {root f : F} {own : F → Option (List I)} {path : List I} {i : I} {e : W}
  (ht : Tree decode n m root own)

include ht

theorem write (hf : own f = some path)
    (he : ∀ k g, path.length + 1 + k = n → decode k e = .table g → own g = some (path ++ [i])) :
    Tree decode n (write m f i e) root own := by
  refine ⟨ht.own_root, ?_⟩
  intro f' g path' i' k hf' hn hd
  by_cases h : f' = f ∧ i' = i
  · obtain ⟨rfl, rfl⟩ := h
    rw [hf'] at hf
    cases hf
    rw [write_self] at hd
    exact he k g hn hd
  · rw [write_of_ne_index m e (by tauto)] at hd
    exact ht.own_child hf' hn hd

variable {full rest : List I} {k : Nat}

/-- A write is not noticed by a lookup if the new entry is like the old one for
    the paths that go through it. -/
theorem lookup_write (hf : own f = some path) (hn : full.length = n)
    (h : ∀ back, full = path ++ i :: back → path.length + 1 + back.length = n →
      Alike decode (Radix.write m f i e) back e (m f i)) :
    lookup decode (Radix.write m f i e) root full = lookup decode m root full := by
  apply ht.lookup_congr ht.own_root (by simpa using hn)
  intro front j back g hfull hg
  rw [List.nil_append] at hg
  by_cases hcell : g = f ∧ j = i
  · -- the lookup comes to the entry, and only at the end of its own path
    obtain ⟨rfl, rfl⟩ := hcell
    rw [hf] at hg
    cases hg
    rw [write_self]
    refine h back hfull ?_
    rw [← hn, hfull, List.length_append, List.length_cons]
    omega
  · rw [write_of_ne_index m e (by tauto)]
    exact Alike.refl

theorem lookup_write_of_not_prefix (hf : own f = some path)
    (hn : full.length = n) (h : ¬ path ++ [i] <+: full) :
    lookup decode (Radix.write m f i e) root full = lookup decode m root full := by
  apply ht.lookup_write hf hn
  intro back hfull _
  exact absurd ⟨back, by rw [hfull, List.append_assoc]; rfl⟩ h

theorem walk_write_of_not_prefix (hf : own f = some path)
    (hn : full.length + k = n) (h : ¬ path ++ [i] <+: full) :
    walk decode (Radix.write m f i e) k root full = walk decode m k root full := by
  apply ht.walk_congr ht.own_root (by simpa using hn)
  intro front j back g hfull hg
  rw [List.nil_append] at hg
  rw [write_of_ne_index]
  by_contra hcell
  have hcell : g = f ∧ j = i := by tauto
  obtain ⟨rfl, rfl⟩ := hcell
  -- the entry would be the one that `full` takes after `front`
  rw [hf] at hg
  cases hg
  exact h ⟨back, by rw [hfull, List.append_assoc]; rfl⟩

theorem walk_write_below (hn : path.length + k = n)
    (h : walk decode m k root path = .table f) :
    walk decode (Radix.write m f i e) k root path = .table f := by
  have hf : own f = some path := by
    simpa using ht.own_walk ht.own_root (by simpa using hn) h
  rw [ht.walk_write_of_not_prefix hf hn, h]
  intro hpre
  have := hpre.length_le
  simp only [List.length_append, List.length_singleton] at this
  omega

theorem lookup_write_through (hn : path.length + (i :: rest).length = n)
    (h : walk decode m (i :: rest).length root path = .table f) :
    lookup decode (Radix.write m f i e) root (path ++ i :: rest) =
      lookup decode (Radix.write m f i e) f (i :: rest) :=
  lookup_append (ht.walk_write_below hn h)

theorem lookup_write_leaf (hn : path.length + (i :: rest).length = n)
    (h : walk decode m (i :: rest).length root path = .table f) (he : decode rest.length e = .leaf) :
    lookup decode (Radix.write m f i e) root (path ++ i :: rest) = some e := by
  rw [ht.lookup_write_through hn h]
  simp only [lookup, write_self, he]

theorem lookup_write_absent (hn : path.length + (i :: rest).length = n)
    (h : walk decode m (i :: rest).length root path = .table f)
    (he : decode rest.length e = .absent) :
    lookup decode (Radix.write m f i e) root (path ++ i :: rest) = none := by
  rw [ht.lookup_write_through hn h]
  simp only [lookup, write_self, he]

theorem lookup_write_same (hf : own f = some path)
    (hk : path.length + 1 + k = n) (hsame : decode k e = decode k (m f i))
    (hleaf : decode k e ≠ .leaf) (hn : full.length = n) :
    lookup decode (Radix.write m f i e) root full = lookup decode m root full := by
  apply ht.lookup_write hf hn
  intro back _ hlength
  have hback : back.length = k := by omega
  left
  rw [hback]
  exact ⟨hsame, fun hl => absurd (hsame.trans hl) hleaf⟩

theorem lookup_link {g : F} {z : W} (hf : own f = some path)
    (hk : path.length + 1 + k = n) (habsent : decode k (m f i) = .absent)
    (hlink : decode k e = .table g) (hblank : ∀ j, m g j = z) (hz : ∀ k, decode k z = .absent)
    (hgf : g ≠ f) (hn : full.length = n) :
    lookup decode (Radix.write m f i e) root full = lookup decode m root full := by
  apply ht.lookup_write hf hn
  intro back _ hlength
  have hback : back.length = k := by omega
  right
  rw [hback]
  refine ⟨habsent, g, hlink, ?_⟩
  -- nothing is found in the blank table, which is not the one written to
  apply lookup_blank
  intro k' j'
  rw [write_of_ne m _ _ hgf, hblank, hz]

end Tree

end write

end Fennix.Radix
