import Fennix.Memory.PageTree

/-! # What `Map`, `Remap` and `Unmap` do to the tree

    One specification for each of the operations, for mappings of every type:

    - `place_spec`: `Map` and `Remap` set one entry, and no translation but
      those below it changes.
    - `unmap_spec`: `Unmap` clears `Present` of the entry of a 4 KiB page, or
      does nothing.

    Both are for walks that meet no large page. The source does not test for
    one: `Map` takes the memory of a large page for a table.
-/

namespace Fennix.Memory

open Entry Radix

/-! ## Section 1: The position of a mapping -/

/-- The number of levels below the entry of a mapping. -/
def MapType.levels : MapType → Nat
  | .oneGiB => 2
  | .twoMiB => 1
  | _ => 0

/-- The indices that a mapping of this type does not look at. -/
def PageMapIndexer.offset (index : PageMapIndexer) : MapType → List TableIndex
  | .oneGiB => [index.pdeIndex, index.pteIndex]
  | .twoMiB => [index.pteIndex]
  | _ => []

section position

variable (index : PageMapIndexer) (type : MapType)

theorem length_directories : (Virtual.directories index type).length + (type.levels + 1) = 4 := by
  cases type <;> rfl

theorem path_eq : index.path =
    Virtual.directories index type ++ Virtual.slot index type :: index.offset type := by
  cases type <;> rfl

end position

/-- The path of the entry of a mapping. -/
def target (index : PageMapIndexer) (type : MapType) : List TableIndex :=
  Virtual.directories index type ++ [Virtual.slot index type]

/-- The entry that a mapping of this type finds, or zero if its table is still
    to be made. -/
def oldEntry (vmm : Virtual) (m : Tables) (index : PageMapIndexer) (type : MapType) : Word :=
  entryAt decode m 0 (type.levels + 1) vmm.pTable (Virtual.directories index type)
    (Virtual.slot index type)

/-- The walk to the entry of a mapping does not meet a large page. -/
def Unobstructed (vmm : Virtual) (m : Tables) (index : PageMapIndexer) (type : MapType) : Prop :=
  walk decode m (type.levels + 1) vmm.pTable (Virtual.directories index type) ≠ .leaf

/-! ## Section 2: `Map` and `Remap` -/

section place

variable {σ : Type} (S : Supplier σ) (flags root : Word)

/-- `st'` is `st` with the entry at `target`, above `k` levels, set to `e`. -/
structure Placed (target : List TableIndex) (k : Nat) (e : Word) (st : Machine σ) (own : Owner)
    (st' : Machine σ) (own' : Owner) : Prop where
  wellFormed : WellFormed S root st' own'
  keeps : ∀ {f path}, own f = some path → own' f = some path
  /-- Pages of anyone else are left alone. -/
  frame : ∀ {f}, S.Taken st.supply f → own f = none → own' f = none ∧ st'.tables f = st.tables f
  mono : ∀ {f}, S.Taken st.supply f → S.Taken st'.supply f
  entries : ∀ {P}, DirectoryClosed P flags → P k e → Entries st.tables own P →
    Entries st'.tables own' P
  lookup_target : Entries st.tables own NoStale → ∀ {full : List TableIndex}, full.length = 4 →
    target <+: full → lookup decode st'.tables root full = some e
  lookup_other : Entries st.tables own NoStale → ∀ {full : List TableIndex}, full.length = 4 →
    ¬ target <+: full → lookup decode st'.tables root full = lookup decode st.tables root full

variable {S} {vmm : Virtual} {st st' : Machine σ} {own : Owner} {v flags : Word}
  {type : MapType} {index : PageMapIndexer} {entry : Word → Word}

theorem place_spec (h : WellFormed S vmm.pTable st own) (hindex : pageMapIndexer v = some index)
    (hfree : Unobstructed vmm st.tables index type)
    (hleaf : ∀ raw, decode type.levels (entry raw) = .leaf)
    (hplace : Virtual.place S entry vmm st v flags type = some st') :
    ∃ own', Placed S (flags &&& 0x3F#64) vmm.pTable (target index type) type.levels
      (entry (oldEntry vmm st.tables index type)) st own st' own' := by
  have hroot : vmm.pTable ≠ 0 := h.ne_zero h.tree.own_root
  have hlen := length_directories index type
  rw [Virtual.place, if_neg hroot, hindex, Option.bind_some] at hplace
  obtain ⟨⟨table, st₁⟩, hopen, rfl⟩ := Option.map_eq_some_iff.mp hplace
  obtain ⟨own', hopened, hown, hreach, hcontent⟩ :=
    openPath_spec h (isDirectoryFlags flags) h.tree.own_root (by simpa using hlen) (by omega)
      hfree hopen
  -- the entry found in the opened table is the one that was there before
  rw [List.nil_append] at hown hreach
  simp only [hcontent]
  have htree := hopened.wellFormed.tree
  have hnotable : ∀ g, decode type.levels (entry (oldEntry vmm st.tables index type)) ≠ .table g := by
    intro g
    rw [hleaf]
    simp
  refine ⟨own', ?_⟩
  refine
    { wellFormed := ⟨?_, hopened.wellFormed.ne_zero, hopened.wellFormed.taken,
        hopened.wellFormed.valid⟩
      keeps := hopened.keeps
      frame := ?_
      mono := hopened.mono
      entries := ?_
      lookup_target := ?_
      lookup_other := ?_ }
  · apply htree.write hown
    intro k g hk hd
    obtain rfl : k = type.levels := by omega
    exact absurd hd (hnotable g)
  · intro f ht hf
    obtain ⟨hf', heq⟩ := hopened.frame ht hf
    refine ⟨hf', ?_⟩
    rw [Machine.write_tables, write_of_ne _ _ _ (Tree.ne_of_own hf' hown).symm, heq]
  · intro P hP he hentries
    exact (hopened.entries hP hentries).write hown (by omega) he
  · intro hstale full hfull hpre
    obtain ⟨rest, rfl⟩ := hpre
    simp only [target, List.length_append, List.length_singleton] at hfull
    have hrest : rest.length = type.levels := by omega
    rw [target, List.append_assoc, List.singleton_append]
    apply htree.lookup_write_leaf
    · simp only [List.length_cons, hrest]
      exact hlen
    · rw [List.length_cons, hrest]
      exact hreach hstale (by simp [walk])
    · rw [hrest]
      exact hleaf _
  · intro hstale full hfull hpre
    rw [Machine.write_tables, htree.lookup_write_of_not_prefix hown hfull hpre]
    exact hopened.lookup_eq hstale hfull

end place

/-! ## Section 3: The entries that are written -/

theorem present_or (raw raw' : Word) : present (raw ||| raw') = (present raw || present raw') :=
  BitVec.getLsbD_or

theorem present_p : present PTFlag.p.mask = true := by decide

theorem isPageSize_0x80 (raw : Word) : isPageSize (raw ||| 0x80#64) = true := by
  have : (0x80#64).getLsbD 7 = true := by decide
  rw [isPageSize, BitVec.getLsbD_or, this, Bool.or_true]

theorem present_setAddress (raw p : Word) : present (setAddress raw (p >>> 12)) = present raw :=
  getLsbD_setAddress _ _ (Or.inl (by omega))

theorem isPageSize_setAddress (raw p : Word) :
    isPageSize (setAddress raw (p >>> 12)) = isPageSize raw :=
  getLsbD_setAddress _ _ (Or.inl (by omega))

theorem decode_leaf {type : MapType} {raw : Word} (hp : present raw = true)
    (hl : type.levels ≠ 0 → isPageSize raw = true) : decode type.levels raw = .leaf := by
  cases type <;> simp_all [MapType.levels, decode]

section entries

variable (p flags : Word) (type : MapType) (raw : Word)

theorem present_mapEntry :
    present (Virtual.mapEntry p (flags ||| PTFlag.p.mask) type raw) = true := by
  cases type <;>
    simp only [Virtual.mapEntry, present_setAddress, present_or, present_p, Bool.or_true,
      Bool.true_or]

theorem decode_mapEntry :
    decode type.levels (Virtual.mapEntry p (flags ||| PTFlag.p.mask) type raw) = .leaf := by
  apply decode_leaf (present_mapEntry p flags type raw)
  intro hl
  cases type <;> first
    | exact absurd rfl hl
    | simp only [Virtual.mapEntry, isPageSize_setAddress, isPageSize_0x80]

theorem pointer_mapEntry :
    pointer (Virtual.mapEntry p flags type raw) = p &&& addressMask := by
  cases type <;> exact pointer_setAddress _ _

theorem present_remapEntry :
    present (Virtual.remapEntry p (flags ||| PTFlag.p.mask) type raw) = true := by
  cases type <;>
    simp only [Virtual.remapEntry, present_setAddress, present_or, present_p, Bool.or_true,
      Bool.true_or]

theorem decode_remapEntry :
    decode type.levels (Virtual.remapEntry p (flags ||| PTFlag.p.mask) type raw) = .leaf := by
  apply decode_leaf (present_remapEntry p flags type raw)
  intro hl
  cases type <;> first
    | exact absurd rfl hl
    | simp only [Virtual.remapEntry, isPageSize_setAddress, isPageSize_0x80]

theorem pointer_remapEntry :
    pointer (Virtual.remapEntry p flags type raw) = p &&& addressMask := by
  cases type <;> exact pointer_setAddress _ _

end entries

/-! ## Section 4: `Unmap` -/

section unmap

variable {σ : Type} {S : Supplier σ} {vmm : Virtual} {st : Machine σ} {own : Owner} {v : Word}
  {type : MapType} {index : PageMapIndexer} {m' : Tables}

/-- The two outcomes of `Unmap`, of whatever type, where no large page is met:
    there is no mapping, or `Present` of its entry is cleared. -/
theorem unmap_cases (h : WellFormed S vmm.pTable st own) (hindex : pageMapIndexer v = some index)
    (hfree : Unobstructed vmm st.tables index .fourKiB)
    (hunmap : vmm.unmap st.tables v type = some m') :
    (lookup decode st.tables vmm.pTable index.path = none ∧ m' = st.tables) ∨
    (∃ pt, walk decode st.tables 1 vmm.pTable (Virtual.directories index .fourKiB) = .table pt ∧
      present (st.tables pt index.pteIndex) = true ∧
      m' = Virtual.clearPresent st.tables pt index.pteIndex) := by
  have hroot : vmm.pTable ≠ 0 := h.ne_zero h.tree.own_root
  simp only [Virtual.unmap, hroot, if_false, hindex, Option.map_some, Option.some.injEq] at hunmap
  subst hunmap
  simp only [Unobstructed, Virtual.directories, walk, MapType.levels, List.length_cons,
    List.length_nil, Nat.zero_add, PageMapIndexer.path, lookup] at hfree ⊢
  -- level by level: an absent entry ends both walks, a large page is excluded
  cases hp3 : present (st.tables vmm.pTable index.pmlIndex) with
  | false => simp [decode, hp3]
  | true =>
    simp only [decode, hp3, if_true, Nat.lt_irrefl, and_false, if_false] at hfree ⊢
    generalize pointer (st.tables vmm.pTable index.pmlIndex) = pdpt at *
    cases hp2 : present (st.tables pdpt index.pdpteIndex) with
    | false => simp
    | true =>
      cases hl2 : isPageSize (st.tables pdpt index.pdpteIndex) with
      | true => simp [hp2, hl2] at hfree
      | false =>
        simp only [hp2, hl2, Bool.false_eq_true, and_false, false_and, if_true, if_false] at hfree ⊢
        generalize pointer (st.tables pdpt index.pdpteIndex) = pd at *
        cases hp1 : present (st.tables pd index.pdeIndex) with
        | false => simp
        | true =>
          cases hl1 : isPageSize (st.tables pd index.pdeIndex) with
          | true => simp [hp1, hl1] at hfree
          | false =>
            simp only [Bool.false_eq_true, and_false, false_and, if_true, if_false]
            generalize pointer (st.tables pd index.pdeIndex) = pt at *
            cases hp0 : present (st.tables pt index.pteIndex) with
            | false => simp
            | true => simp [hp0]

theorem present_clear (raw : Word) : present (raw &&& ~~~ 1#64) = false := by
  have hbit : (~~~ 1#64).getLsbD 0 = false := by decide
  rw [present, BitVec.getLsbD_and, hbit, Bool.and_false]

theorem decode_clear (k : Nat) (raw : Word) : decode k (raw &&& ~~~ 1#64) = .absent :=
  decode_absent (present_clear raw)

theorem WellFormed.own_of_walk (h : WellFormed S vmm.pTable st own) {pt : Word}
    (hwalk : walk decode st.tables 1 vmm.pTable (Virtual.directories index .fourKiB) = .table pt) :
    own pt = some (Virtual.directories index .fourKiB) := by
  simpa using h.tree.own_walk h.tree.own_root rfl hwalk

theorem oldEntry_of_walk {m : Tables} {pt : Word}
    (hwalk : walk decode m 1 vmm.pTable (Virtual.directories index .fourKiB) = .table pt) :
    oldEntry vmm m index .fourKiB = m pt index.pteIndex := by
  simp only [oldEntry, entryAt, MapType.levels, hwalk, Virtual.slot]

theorem unmap_entries (h : WellFormed S vmm.pTable st own) (hindex : pageMapIndexer v = some index)
    (hfree : Unobstructed vmm st.tables index .fourKiB)
    (hunmap : vmm.unmap st.tables v type = some m') {P : Nat → Word → Prop}
    (hentries : Entries st.tables own P)
    (hclear : P 0 (oldEntry vmm st.tables index .fourKiB &&& ~~~ 1#64)) : Entries m' own P := by
  rcases unmap_cases h hindex hfree hunmap with ⟨_, rfl⟩ | ⟨pt, hwalk, _, rfl⟩
  · exact hentries
  · rw [oldEntry_of_walk hwalk] at hclear
    exact hentries.write (h.own_of_walk hwalk) (k := 0) rfl hclear

theorem unmap_spec (h : WellFormed S vmm.pTable st own) (hindex : pageMapIndexer v = some index)
    (hfree : Unobstructed vmm st.tables index .fourKiB)
    (hunmap : vmm.unmap st.tables v type = some m') :
    WellFormed S vmm.pTable { st with tables := m' } own ∧
    (∀ f, own f = none → m' f = st.tables f) ∧
    (∀ full : List TableIndex, full.length = 4 → lookup decode m' vmm.pTable full =
      if full = index.path then none else lookup decode st.tables vmm.pTable full) := by
  rcases unmap_cases h hindex hfree hunmap with ⟨hnone, rfl⟩ | ⟨pt, hwalk, hp, rfl⟩
  · -- there was no mapping
    refine ⟨h, fun _ _ => rfl, ?_⟩
    intro full _
    split
    · rename_i heq
      rw [heq, hnone]
    · rfl
  · have hown := h.own_of_walk hwalk
    refine ⟨⟨?_, h.ne_zero, h.taken, h.valid⟩, ?_, ?_⟩
    · apply h.tree.write hown
      intro k g _ hd
      rw [decode_clear] at hd
      cases hd
    · exact fun f hf => write_of_ne _ _ _ (Tree.ne_of_own hf hown).symm
    · intro full hfull
      split
      · rename_i heq
        rw [heq, path_eq index .fourKiB]
        exact h.tree.lookup_write_absent rfl hwalk (decode_clear _ _)
      · rename_i hne
        apply h.tree.lookup_write_of_not_prefix hown hfull
        -- a full path through the entry is the path itself
        intro hpre
        apply hne
        rw [path_eq index .fourKiB]
        exact (hpre.eq_of_length (by rw [hfull]; rfl)).symm

end unmap

end Fennix.Memory
