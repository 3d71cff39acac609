import Fennix.Memory.Virtual

/-! # Page tables as trees

    What the operations of `Virtual` do, in terms of the tree that the tables
    form. `WellFormed` says that the tables below `pTable` form a tree without
    sharing, all of whose tables were handed out by the supplier.

    - `leaf`: the entry that translates an address, which `GetPhysical` and
      `GetMapType` read off the tree.
    - `openPath_spec`: opening directories adds blank tables below, changes
      no table of anyone else and, unless a stale `PageSize` bit is in the
      way, changes no translation.
-/

namespace Fennix.Memory

open Entry Radix
open Function (update_of_ne update)

/-! ## Section 1: Decoding entries -/

namespace Entry

theorem decode_zero (k : Nat) : decode k 0 = .absent := by
  cases k <;> simp [decode, present]

theorem decode_absent {k : Nat} {raw : Word} (h : present raw = false) :
    decode k raw = .absent := by
  cases k <;> simp [decode, h]

/-- The flags that are given to directories: the low six bits. -/
def IsDirectoryFlags (flags : Word) : Prop := ∀ i, 6 ≤ i → flags.getLsbD i = false

theorem isDirectoryFlags (flags : Word) : IsDirectoryFlags (flags &&& 0x3F#64) := by
  have hmask : ∀ i : Fin 64, 6 ≤ i.val → (0x3F#64).getLsbD i.val = false := by decide
  intro i hi
  by_cases h : i < 64
  · rw [BitVec.getLsbD_and, hmask ⟨i, h⟩ hi, Bool.and_false]
  · exact BitVec.getLsbD_of_ge _ _ (by omega)

section directoryFlags

variable {flags : Word} (h : IsDirectoryFlags flags)
include h

theorem IsDirectoryFlags.and_addressMask : flags &&& addressMask = 0#64 := by
  apply BitVec.eq_of_getLsbD_eq
  intro i hi
  rw [BitVec.getLsbD_and, getLsbD_addressMask, BitVec.getLsbD_zero]
  by_cases hi' : 6 ≤ i
  · rw [h i hi', Bool.false_and]
  · rw [decide_eq_false (by omega), Bool.and_false]

theorem IsDirectoryFlags.isPageSize_or (raw : Word) :
    isPageSize (raw ||| flags) = isPageSize raw := by
  simp only [isPageSize, BitVec.getLsbD_or, h 7 (by omega), Bool.or_false]

theorem IsDirectoryFlags.decode_or {raw : Word} (hp : present raw = true) (k : Nat) :
    decode k (raw ||| flags) = decode k raw := by
  have hp' : present (raw ||| flags) = true := by
    simp only [present, BitVec.getLsbD_or] at hp ⊢
    rw [hp, Bool.true_or]
  cases k with
  | zero => simp [decode, hp, hp']
  | succ k => simp only [decode, hp, hp', h.isPageSize_or, pointer_or h.and_addressMask]

end directoryFlags

/-- The entry that links `page`: `Present = true`, `SetAddress`, and then the
    directory flags. -/
def link (flags page raw : Word) : Word := setAddress (raw ||| 1#64) (page >>> 12) ||| flags

section link

variable {flags page : Word}

theorem present_link (raw : Word) : present (link flags page raw) = true := by
  simp only [present, link, BitVec.getLsbD_or, getLsbD_setAddress _ _ (Or.inl (by omega : 0 < 12))]
  simp

variable (h : IsDirectoryFlags flags)
include h

theorem isPageSize_link (raw : Word) : isPageSize (link flags page raw) = isPageSize raw := by
  rw [link, h.isPageSize_or]
  simp only [isPageSize, getLsbD_setAddress _ _ (Or.inl (by omega : 7 < 12)), BitVec.getLsbD_or]
  simp

theorem pointer_link (hpage : IsPage page) (raw : Word) : pointer (link flags page raw) = page := by
  rw [link, pointer_or h.and_addressMask, pointer_setAddress]
  exact hpage

theorem decode_link (hpage : IsPage page) (raw : Word) (k : Nat) :
    decode (k + 1) (link flags page raw) =
      if isPageSize raw = true ∧ k < 2 then .leaf else .table page := by
  simp only [decode, present_link, isPageSize_link h, pointer_link h hpage, if_true]

end link

end Entry

/-! ## Section 2: Well-formed tables -/

/-- The path at which each table hangs. -/
abbrev Owner := Word → Option (List TableIndex)

/-- The tables below `root` form a tree, are not null and were handed out. -/
structure WellFormed {σ : Type} (S : Supplier σ) (root : Word) (st : Machine σ) (own : Owner) :
    Prop where
  tree : Tree decode 4 st.tables root own
  ne_zero : ∀ {f path}, own f = some path → f ≠ 0
  taken : ∀ {f path}, own f = some path → S.Taken st.supply f
  valid : S.Valid st.supply

/-- Every entry of every table satisfies `P`, which may depend on the number
    of levels below the entry. -/
def Entries (m : Tables) (own : Owner) (P : Nat → Word → Prop) : Prop :=
  ∀ ⦃f path k⦄, own f = some path → path.length + 1 + k = 4 → ∀ i, P k (m f i)

theorem Entries.write {m : Tables} {own : Owner} {P : Nat → Word → Prop} {f e : Word}
    {path : List TableIndex} {i : TableIndex} {k : Nat} (h : Entries m own P)
    (hf : own f = some path) (hk : path.length + 1 + k = 4) (he : P k e) :
    Entries (Radix.write m f i e) own P := by
  intro f' path' k' hf' hk' i'
  by_cases hcell : f' = f ∧ i' = i
  · obtain ⟨rfl, rfl⟩ := hcell
    rw [hf] at hf'
    cases hf'
    obtain rfl : k' = k := by omega
    rw [write_self]
    exact he
  · rw [write_of_ne_index _ _ (by tauto)]
    exact h hf' hk' i'

theorem Entries.fill {m : Tables} {own : Owner} {P : Nat → Word → Prop} {g : Word}
    {path : List TableIndex} (h : Entries m own P) (hzero : ∀ k, P k 0) :
    Entries (Radix.fill m g 0) (update own g (some path)) P := by
  intro f' path' k' hf' hk' i'
  by_cases hg : f' = g
  · subst hg
    rw [fill_self]
    exact hzero k'
  · rw [update_of_ne hg] at hf'
    rw [fill_of_ne _ _ hg]
    exact h hf' hk' i'

/-- The leaf entry that translates `v`. -/
def leaf (vmm : Virtual) (m : Tables) (v : Word) : Option Word :=
  lookup decode m vmm.pTable (PageMapIndexer.ofAddress v).path

/-- The leaf entry that translates `v` and the levels left below it, which give
    the size of the page. -/
def mapping (vmm : Virtual) (m : Tables) (v : Word) : Option (Nat × Word) :=
  leafAt decode m vmm.pTable (PageMapIndexer.ofAddress v).path

/-- The type of a mapping with this many levels below its leaf. -/
def MapType.ofLevels : Nat → MapType
  | 0 => .fourKiB
  | 1 => .twoMiB
  | _ => .oneGiB

section reading

variable {σ : Type} {S : Supplier σ} {vmm : Virtual} {st : Machine σ} {own : Owner}

theorem WellFormed.pointer_ne_zero (h : WellFormed S vmm.pTable st own) {f : Word}
    {path : List TableIndex} {i : TableIndex} {k : Nat} (hf : own f = some path)
    (hk : path.length + 1 + (k + 1) = 4) (hp : present (st.tables f i) = true)
    (hl : ¬ (isPageSize (st.tables f i) = true ∧ k < 2)) :
    own (pointer (st.tables f i)) = some (path ++ [i]) ∧ pointer (st.tables f i) ≠ 0 := by
  have hd : decode (k + 1) (st.tables f i) = .table (pointer (st.tables f i)) := by
    simp only [decode, hp, hl, if_true, if_false]
  have hown := h.tree.own_child hf hk hd
  exact ⟨hown, h.ne_zero hown⟩

variable {v : Word}

theorem WellFormed.read_of_index (h : WellFormed S vmm.pTable st own) {index : PageMapIndexer}
    (hindex : pageMapIndexer (pageBase v) = some index) :
    vmm.getPhysical st.tables v =
      some (((leafAt decode st.tables vmm.pTable index.path).map fun e => pointer e.2).getD 0) ∧
    vmm.getMapType st.tables v =
      some (((leafAt decode st.tables vmm.pTable index.path).map fun e =>
        MapType.ofLevels e.1).getD .noMapType) := by
  simp only [Virtual.getPhysical, Virtual.getMapType, hindex, Option.map_some,
    PageMapIndexer.path, leafAt, List.length_cons, List.length_nil, Option.some.injEq]
  -- one level at a time: an absent entry and a leaf end all three walks
  cases hp3 : present (st.tables vmm.pTable index.pmlIndex) with
  | false => simp [decode, hp3]
  | true =>
    obtain ⟨hown3, hne3⟩ := h.pointer_ne_zero h.tree.own_root (k := 2) rfl hp3 (by omega)
    simp only [decode, hp3, hne3, if_true, ne_eq, not_false_eq_true, Nat.lt_irrefl, and_false,
      if_false, false_or]
    generalize pointer (st.tables vmm.pTable index.pmlIndex) = pdpt at *
    cases hp2 : present (st.tables pdpt index.pdpteIndex) with
    | false => simp
    | true =>
      cases hl2 : isPageSize (st.tables pdpt index.pdpteIndex) with
      | true => simp [MapType.ofLevels]
      | false =>
        obtain ⟨hown2, hne2⟩ := h.pointer_ne_zero hown3 (k := 1) rfl hp2 (by simp [hl2])
        simp only [hne2, if_true, not_false_eq_true, Bool.false_eq_true, false_and, if_false,
          false_or, Bool.true_eq_false]
        generalize pointer (st.tables pdpt index.pdpteIndex) = pd at *
        cases hp1 : present (st.tables pd index.pdeIndex) with
        | false => simp
        | true =>
          cases hl1 : isPageSize (st.tables pd index.pdeIndex) with
          | true => simp [MapType.ofLevels]
          | false =>
            obtain ⟨_, hne1⟩ := h.pointer_ne_zero hown2 (k := 0) rfl hp1 (by simp [hl1])
            simp only [hne1, if_true, not_false_eq_true, Bool.false_eq_true, false_and, if_false,
              Bool.true_eq_false]
            cases hp0 : present (st.tables (pointer (st.tables pd index.pdeIndex)) index.pteIndex)
              <;> simp [MapType.ofLevels]

theorem WellFormed.getPhysical_of_index (h : WellFormed S vmm.pTable st own)
    {index : PageMapIndexer} (hindex : pageMapIndexer (pageBase v) = some index) :
    vmm.getPhysical st.tables v =
      some (((lookup decode st.tables vmm.pTable index.path).map pointer).getD 0) := by
  rw [(h.read_of_index hindex).1, ← map_leafAt, Option.map_map]
  rfl

theorem WellFormed.getPhysical_eq (h : WellFormed S vmm.pTable st own) (hv : Canonical v) :
    vmm.getPhysical st.tables v = some (((leaf vmm st.tables v).map pointer).getD 0) := by
  have hindex := pageMapIndexer_of_canonical hv.pageBase
  rw [PageMapIndexer.ofAddress_pageBase] at hindex
  exact h.getPhysical_of_index hindex

end reading

/-! ## Section 3: Opening one directory -/

/-- No stale `PageSize` bit is left in a directory entry that is not present. -/
def NoStale (k : Nat) (raw : Word) : Prop :=
  present raw = false → 0 < k → k < 3 → isPageSize raw = false

/-- What a property of entries needs in order to survive the opening of
    directories. -/
structure DirectoryClosed (P : Nat → Word → Prop) (flags : Word) : Prop where
  zero : ∀ k, P k 0
  or : ∀ {k raw}, P (k + 1) raw → present raw = true → ¬ (isPageSize raw = true ∧ k < 2) →
    P (k + 1) (raw ||| flags)
  link : ∀ {k raw page}, P (k + 1) raw → present raw = false → IsPage page → page ≠ 0 →
    P (k + 1) (link flags page raw)

theorem noStale_closed (flags : Word) : DirectoryClosed NoStale flags where
  zero := by
    intro k _ _ _
    simp [isPageSize]
  or := by
    intro k raw _ hp _ hp'
    simp only [present, BitVec.getLsbD_or] at hp hp'
    rw [hp, Bool.true_or] at hp'
    cases hp'
  link := by
    intro k raw page _ _ _ _ hp'
    rw [present_link] at hp'
    cases hp'

section opening

variable {σ : Type} (S : Supplier σ) (flags root : Word)

/-- `st'` is `st` with some directories opened below `root`. -/
structure Opened (st : Machine σ) (own : Owner) (st' : Machine σ) (own' : Owner) : Prop where
  wellFormed : WellFormed S root st' own'
  keeps : ∀ {f path}, own f = some path → own' f = some path
  /-- Pages of anyone else are left alone. -/
  frame : ∀ {f}, S.Taken st.supply f → own f = none → own' f = none ∧ st'.tables f = st.tables f
  mono : ∀ {f}, S.Taken st.supply f → S.Taken st'.supply f
  entries : ∀ {P}, DirectoryClosed P flags → Entries st.tables own P → Entries st'.tables own' P
  lookup_eq : Entries st.tables own NoStale → ∀ {full : List TableIndex}, full.length = 4 →
    lookup decode st'.tables root full = lookup decode st.tables root full

variable {S flags root} {st st' st'' : Machine σ} {own own' own'' : Owner}

theorem Opened.refl (h : WellFormed S root st own) : Opened S flags root st own st own :=
  ⟨h, id, fun _ hf => ⟨hf, rfl⟩, id, fun _ => id, fun _ _ _ => rfl⟩

theorem Opened.trans (h : Opened S flags root st own st' own')
    (h' : Opened S flags root st' own' st'' own'') : Opened S flags root st own st'' own'' where
  wellFormed := h'.wellFormed
  keeps := fun hf => h'.keeps (h.keeps hf)
  frame := by
    intro f ht hf
    obtain ⟨hf', heq⟩ := h.frame ht hf
    obtain ⟨hf'', heq'⟩ := h'.frame (h.mono ht) hf'
    exact ⟨hf'', heq'.trans heq⟩
  mono := fun ht => h'.mono (h.mono ht)
  entries := fun hP he => h'.entries hP (h.entries hP he)
  lookup_eq := by
    intro hs full hn
    rw [h'.lookup_eq (h.entries (noStale_closed flags) hs) hn, h.lookup_eq hs hn]

variable {f g : Word} {path : List TableIndex} {i : TableIndex} {k : Nat}

theorem openDirectory_cases (hopen : Virtual.openDirectory S flags st f i = some (g, st')) :
    (present (st.tables f i) = true ∧ g = pointer (st.tables f i) ∧
      st' = st.write f i (st.tables f i ||| flags)) ∨
    (present (st.tables f i) = false ∧ ∃ supply, S.request st.supply 2 = some (g, supply) ∧
      st' = ⟨Radix.write (Radix.fill st.tables g 0) f i
        (link flags g (Radix.fill st.tables g 0 f i)), supply⟩) := by
  unfold Virtual.openDirectory at hopen
  by_cases hp : present (st.tables f i) = true
  · rw [if_pos hp, Option.some.injEq, Prod.mk.injEq] at hopen
    exact Or.inl ⟨hp, hopen.1.symm, hopen.2.symm⟩
  · rw [if_neg hp] at hopen
    obtain ⟨⟨page, supply⟩, hreq, hval⟩ := Option.map_eq_some_iff.mp hopen
    rw [Prod.mk.injEq] at hval
    obtain ⟨rfl, rfl⟩ := hval
    exact Or.inr ⟨by simpa using hp, supply, hreq, rfl⟩

/-- What it means to have opened entry `i` of table `f`: the directory behind
    it is `g`. -/
structure OpenedAt (S : Supplier σ) (flags root f : Word) (path : List TableIndex) (i : TableIndex)
    (k : Nat) (st : Machine σ) (own : Owner) (g : Word) (st' : Machine σ) (own' : Owner) : Prop
    extends Opened S flags root st own st' own' where
  own_next : own' g = some (path ++ [i])
  /-- If `f` was where `path` leads to, `g` is where `path` extended leads to. -/
  reaches : Entries st.tables own NoStale → walk decode st.tables (k + 2) root path = .table f →
    walk decode st'.tables (k + 1) root (path ++ [i]) = .table g
  /-- Further down no leaf turns up, and the entries are what they were. -/
  unblocked : ∀ {n rest}, rest.length + n = k + 1 →
    walk decode st.tables n f (i :: rest) ≠ .leaf → walk decode st'.tables n g rest ≠ .leaf
  /-- What was already there further down still is. -/
  walk_below : ∀ {n rest}, rest.length + n = k + 1 →
    walk decode st.tables n f (i :: rest) ≠ .absent →
    walk decode st'.tables n g rest = walk decode st.tables n f (i :: rest)
  entryAt_eq : ∀ {n rest}, rest.length + n = k + 1 → ∀ j,
    entryAt decode st'.tables 0 n g rest j = entryAt decode st.tables 0 n f (i :: rest) j

variable {n : Nat} {rest : List TableIndex} {supply : σ}

theorem openPath_induct {P : σ → Prop}
    (hreq : ∀ {s page s'}, S.request s 2 = some (page, s') → P s → P s')
    (hopen : Virtual.openPath S flags st f rest = some (g, st')) (h : P st.supply) :
    P st'.supply := by
  induction rest generalizing st f with
  | nil =>
    simp only [Virtual.openPath, Option.some.injEq, Prod.mk.injEq] at hopen
    rw [← hopen.2]
    exact h
  | cons i rest ih =>
    obtain ⟨⟨next, st₁⟩, hdir, hrest⟩ := Option.bind_eq_some_iff.mp hopen
    apply ih hrest
    rcases openDirectory_cases hdir with ⟨_, _, rfl⟩ | ⟨_, supply, hr, rfl⟩
    · exact h
    · exact hreq hr h

variable (h : WellFormed S root st own) (hflags : IsDirectoryFlags flags) (hf : own f = some path)
  (hk : path.length + 1 + (k + 1) = 4)

include h

theorem WellFormed.own_of_request {count : Nat} (hcount : 0 < count)
    (hreq : S.request st.supply count = some (g, supply)) : own g = none := by
  cases hg : own g with
  | none => rfl
  | some path' => exact absurd (h.taken hg) (S.fresh h.valid hcount hreq)

include hf hk

theorem walk_write_child (hnext : own g = some (path ++ [i])) (e : Word)
    (hn : rest.length + n = k + 1) :
    walk decode (st.write f i e).tables n g rest = walk decode st.tables n g rest ∧
    ∀ {g'}, walk decode st.tables n g rest = .table g' → (st.write f i e).tables g' = st.tables g' := by
  have hlen : (path ++ [i]).length + rest.length + n = 4 := by
    simp only [List.length_append, List.length_singleton]
    omega
  -- a table that hangs below the entry is not `f`
  have hother : ∀ {f' rest}, own f' = some (path ++ [i] ++ rest) → f' ≠ f := by
    intro f' rest hf' heq
    rw [heq, hf, Option.some.injEq] at hf'
    have := congrArg List.length hf'
    simp only [List.length_append, List.length_singleton] at this
    omega
  constructor
  · apply h.tree.walk_congr hnext hlen
    intro front j back g' _ hg'
    rw [Machine.write_tables, write_of_ne _ _ _ (hother hg')]
  · intro g' hwalk
    rw [Machine.write_tables, write_of_ne _ _ _ (hother (h.tree.own_walk hnext hlen hwalk))]

include hflags

theorem openedAt_of_present (hp : present (st.tables f i) = true)
    (hleaf : decode (k + 1) (st.tables f i) ≠ .leaf) :
    OpenedAt S flags root f path i k st own (pointer (st.tables f i))
      (st.write f i (st.tables f i ||| flags)) own := by
  have hnot : ¬ (isPageSize (st.tables f i) = true ∧ k < 2) := by
    intro hl
    exact hleaf (by simp only [decode, hp, hl, if_true, and_self])
  have htable : decode (k + 1) (st.tables f i) = .table (pointer (st.tables f i)) := by
    simp only [decode, hp, hnot, if_true, if_false]
  -- the directory flags change nothing about the entry but its flags
  have hsame := hflags.decode_or hp
  have hnext := h.tree.own_child hf hk htable
  have htree : Tree decode 4 (Radix.write st.tables f i (st.tables f i ||| flags)) root own := by
    apply h.tree.write hf
    intro k' g' hk' hd
    rw [hsame] at hd
    exact h.tree.own_child hf hk' hd
  have hstep : ∀ {n rest}, rest.length + n = k + 1 → walk decode st.tables n f (i :: rest) =
      walk decode st.tables n (pointer (st.tables f i)) rest := by
    intro n rest hn
    simp only [walk, hn, htable]
  -- below the entry a walk reads other tables
  have hbelow {n : Nat} {rest : List TableIndex} (hn : rest.length + n = k + 1) :=
    walk_write_child h hf hk hnext (st.tables f i ||| flags) hn
  refine
    { wellFormed := ⟨htree, h.ne_zero, h.taken, h.valid⟩
      keeps := id
      frame := fun _ hf' => ⟨hf', write_of_ne _ _ _ (Tree.ne_of_own hf' hf).symm⟩
      mono := id
      entries := ?_
      lookup_eq := ?_
      own_next := hnext
      reaches := ?_
      unblocked := ?_
      walk_below := ?_
      entryAt_eq := ?_ }
  · intro P hP hentries
    exact hentries.write hf hk (hP.or (hentries hf hk i) hp hnot)
  · intro _ full hn
    exact h.tree.lookup_write_same hf hk (hsame _) (by rw [hsame]; exact hleaf) hn
  · intro _ hwalk
    have hwalk' := h.tree.walk_write_below (by omega) hwalk (i := i)
      (e := st.tables f i ||| flags)
    apply walk_concat hwalk'
    rw [write_self, hsame, htable]
  · intro n rest hn hwalk
    rw [(hbelow hn).1, ← hstep hn]
    exact hwalk
  · intro n rest hn _
    rw [(hbelow hn).1, hstep hn]
  · intro n rest hn j
    simp only [entryAt, (hbelow hn).1, hstep hn]
    cases hwalk : walk decode st.tables n (pointer (st.tables f i)) rest with
    | absent => rfl
    | leaf => rfl
    | table g' => simp only [(hbelow hn).2 hwalk]

theorem WellFormed.link (hreq : S.request st.supply 2 = some (g, supply)) :
    WellFormed S root
      ⟨Radix.write (Radix.fill st.tables g 0) f i (Entry.link flags g (st.tables f i)), supply⟩
      (update own g (some (path ++ [i]))) := by
  obtain ⟨hpage, hg0⟩ := S.isPage h.valid (by omega) hreq
  have hnone := h.own_of_request (by omega) hreq
  have hne : f ≠ g := Tree.ne_of_own hnone hf
  have hblank : Tree decode 4 (Radix.fill st.tables g 0) root
      (update own g (some (path ++ [i]))) := h.tree.fill hnone decode_zero
  refine ⟨?_, ?_, ?_, S.valid h.valid (by omega) hreq⟩
  · apply hblank.write (by rw [update_of_ne hne, hf])
    intro k' g' hk' hd
    obtain rfl : k' = k + 1 := by omega
    -- whatever the entry leads to is the new page
    rw [decode_link hflags hpage] at hd
    split at hd
    · cases hd
    · rw [← Node.table.inj hd, Function.update_self]
  · intro f' path' hf'
    by_cases hg : f' = g
    · rw [hg]
      exact hg0
    · rw [update_of_ne hg] at hf'
      exact h.ne_zero hf'
  · intro f' path' hf'
    by_cases hg : f' = g
    · rw [hg]
      exact S.taken h.valid (by omega) hreq
    · rw [update_of_ne hg] at hf'
      exact S.taken_mono h.valid (by omega) hreq (h.taken hf')

theorem openedAt_of_absent (hp : present (st.tables f i) = false)
    (hreq : S.request st.supply 2 = some (g, supply)) :
    OpenedAt S flags root f path i k st own g
      ⟨Radix.write (Radix.fill st.tables g 0) f i (link flags g (Radix.fill st.tables g 0 f i)),
        supply⟩ (update own g (some (path ++ [i]))) := by
  obtain ⟨hpage, hg0⟩ := S.isPage h.valid (by omega) hreq
  have hnone := h.own_of_request (by omega) hreq
  have hne : ∀ {f' path'}, own f' = some path' → f' ≠ g := Tree.ne_of_own hnone
  have hf' : update own g (some (path ++ [i])) f = some path := by
    rw [update_of_ne (hne hf), hf]
  have hentry : Radix.fill st.tables g 0 f i = st.tables f i := by
    rw [fill_of_ne _ _ (hne hf)]
  -- without a stale `PageSize` bit the entry does link the page
  have hlink : Entries st.tables own NoStale →
      decode (k + 1) (link flags g (st.tables f i)) = .table g := by
    intro hstale
    rw [decode_link hflags hpage, if_neg]
    intro hboth
    obtain ⟨hl, hk2⟩ := hboth
    rw [hstale hf hk i hp (by omega) (by omega)] at hl
    cases hl
  rw [hentry]
  have hblank : Tree decode 4 (Radix.fill st.tables g 0) root
      (update own g (some (path ++ [i]))) := h.tree.fill hnone decode_zero
  have hzero : ∀ j,
      Radix.write (Radix.fill st.tables g 0) f i (link flags g (st.tables f i)) g j = 0 := by
    intro j
    rw [write_of_ne _ _ _ (fun hgf => hne hf hgf.symm), fill_self]
  refine
    { wellFormed := h.link hflags hf hk hreq
      keeps := fun hf'' => by rw [update_of_ne (hne hf''), hf'']
      frame := ?_
      mono := fun ht => S.taken_mono h.valid (by omega) hreq ht
      entries := ?_
      lookup_eq := ?_
      own_next := Function.update_self _ _ _
      reaches := ?_
      unblocked := ?_
      walk_below := ?_
      entryAt_eq := ?_ }
  · intro f'' ht hf''
    have hg : f'' ≠ g := by
      intro heq
      subst heq
      exact S.fresh h.valid (by omega) hreq ht
    refine ⟨by rw [update_of_ne hg, hf''], ?_⟩
    show Radix.write _ _ _ _ f'' = _
    rw [write_of_ne _ _ _ (Tree.ne_of_own hf'' hf).symm, fill_of_ne _ _ hg]
  · intro P hP hentries
    exact (hentries.fill hP.zero).write hf' hk (hP.link (hentries hf hk i) hp hpage hg0)
  · intro hstale full hn
    show lookup decode (Radix.write _ _ _ _) root full = _
    rw [hblank.lookup_link hf' hk _ (hlink hstale) (fun j => fill_self _ _ _ j) decode_zero
      (fun hgf => hne hf hgf.symm) hn, h.tree.lookup_fill hnone hn]
    rw [hentry]
    exact decode_absent hp
  · intro hstale hwalk
    rw [← h.tree.walk_fill hnone (z := 0) (by omega)] at hwalk
    have hwalk' := hblank.walk_write_below (by omega) hwalk (i := i)
      (e := link flags g (st.tables f i))
    apply walk_concat hwalk'
    rw [write_self, hlink hstale]
  · -- the new table is blank, so the walk ends there
    intro n rest hn _
    cases rest with
    | nil => simp [walk]
    | cons j rest => simp only [walk, hzero j, decode_zero, ne_eq, reduceCtorEq, not_false_eq_true]
  · intro n rest hn hwalk
    exact absurd (by simp only [walk, decode_absent hp]) hwalk
  · intro n rest hn j
    have hold : walk decode st.tables n f (i :: rest) = .absent := by
      simp only [walk, decode_absent hp]
    simp only [entryAt, hold]
    cases rest with
    | nil => simp only [walk, hzero j]
    | cons j' rest => simp only [walk, hzero j', decode_zero]

theorem openDirectory_spec (hleaf : decode (k + 1) (st.tables f i) ≠ .leaf)
    (hopen : Virtual.openDirectory S flags st f i = some (g, st')) :
    ∃ own', OpenedAt S flags root f path i k st own g st' own' := by
  rcases openDirectory_cases hopen with ⟨hp, rfl, rfl⟩ | ⟨hp, supply, hreq, rfl⟩
  · exact ⟨own, openedAt_of_present h hflags hf hk hp hleaf⟩
  · exact ⟨_, openedAt_of_absent h hflags hf hk hp hreq⟩

omit hk in
theorem openPath_spec (hn : path.length + rest.length + n = 4) (hpos : 0 < n)
    (hblock : walk decode st.tables n f rest ≠ .leaf)
    (hopen : Virtual.openPath S flags st f rest = some (g, st')) :
    ∃ own', Opened S flags root st own st' own' ∧ own' g = some (path ++ rest) ∧
      (Entries st.tables own NoStale →
        walk decode st.tables (rest.length + n) root path = .table f →
        walk decode st'.tables n root (path ++ rest) = .table g) ∧
      ∀ j, st'.tables g j = entryAt decode st.tables 0 n f rest j := by
  -- along the path: each directory is opened in the machine that the last one left
  induction rest generalizing st own f path with
  | nil =>
    simp only [Virtual.openPath, Option.some.injEq, Prod.mk.injEq] at hopen
    obtain ⟨rfl, rfl⟩ := hopen
    refine ⟨own, Opened.refl h, by rw [List.append_nil]; exact hf, ?_, fun j => rfl⟩
    intro _ hwalk
    simpa using hwalk
  | cons i rest ih =>
    simp only [List.length_cons] at hn
    obtain ⟨⟨next, st₁⟩, hdir, hrest⟩ := Option.bind_eq_some_iff.mp hopen
    obtain ⟨k, hk⟩ : ∃ k, rest.length + n = k + 1 := ⟨rest.length + n - 1, by omega⟩
    -- a large page here would block the walk
    have hleaf : decode (k + 1) (st.tables f i) ≠ .leaf := by
      intro hl
      apply hblock
      simp only [walk, hk, hl]
    obtain ⟨own₁, hat⟩ := openDirectory_spec h hflags hf (by omega) hleaf hdir
    obtain ⟨own', hopened, hg, hreach, hcontent⟩ :=
      ih hat.wellFormed hat.own_next
        (by simp only [List.length_append, List.length_singleton]; omega)
        (hat.unblocked hk hblock) hrest
    refine ⟨own', hat.toOpened.trans hopened, ?_, ?_, ?_⟩
    · rw [hg, List.append_assoc]
      rfl
    · intro hstale hwalk
      have hwalk₁ := hat.reaches hstale (by
        rw [← hwalk]
        simp only [List.length_cons]
        congr 1
        omega)
      have := hreach (hat.entries (noStale_closed flags) hstale) (by rw [hk]; exact hwalk₁)
      rwa [List.append_assoc] at this
    · intro j
      rw [hcontent j, hat.entryAt_eq hk j]

omit hk in
theorem openPath_of_walk (hn : path.length + rest.length + n = 4) (hpos : 0 < n)
    (hwalk : walk decode st.tables n f rest = .table g) :
    ∃ st', Virtual.openPath S flags st f rest = some (g, st') ∧ st'.supply = st.supply := by
  induction rest generalizing st own f path with
  | nil =>
    simp only [walk, Node.table.injEq] at hwalk
    exact ⟨st, by rw [Virtual.openPath, hwalk], rfl⟩
  | cons i rest ih =>
    simp only [List.length_cons] at hn
    obtain ⟨k, hk⟩ : ∃ k, rest.length + n = k + 1 := ⟨rest.length + n - 1, by omega⟩
    have hne : decode (k + 1) (st.tables f i) ≠ .absent ∧ decode (k + 1) (st.tables f i) ≠ .leaf := by
      constructor
      · intro hd
        simp [walk, hk, hd] at hwalk
      · intro hd
        simp [walk, hk, hd] at hwalk
    have hp : present (st.tables f i) = true := by
      by_contra hp
      exact hne.1 (decode_absent (by simpa using hp))
    -- the entry is present, so all that happens is that it gets the flags
    have hat := openedAt_of_present h hflags hf (by omega) hp hne.2
    have hnext := hat.walk_below hk (by rw [hwalk]; simp)
    rw [hwalk] at hnext
    obtain ⟨st', hopen, hsupply⟩ := ih hat.wellFormed hat.own_next
      (by simp only [List.length_append, List.length_singleton]; omega) hnext
    refine ⟨st', ?_, hsupply⟩
    rw [Virtual.openPath, Virtual.openDirectory, if_pos hp, Option.bind_some]
    exact hopen

end opening

end Fennix.Memory
