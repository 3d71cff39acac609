import Fennix.Framework.System
import Fennix.Memory.PageMap

/-! # Map and translate

    Runs of 4 KiB `Map`, `Remap` and `Unmap` calls on one page table, from the
    zeroed table on. In such runs no directory entry is ever a large page
    (`Plain`), so every call finds or makes its four levels, and the
    translation behaves like a finite map: `Map` and `Remap` set one page,
    `Unmap` removes one page, all the other pages keep their translation.
-/

namespace Fennix.Memory

open Entry Radix
open PageMapIndexer (ofAddress)

/-! ## Section 1: Runs -/

/-- A 4 KiB call. -/
inductive PageOp where
  | map (v p flags : Word)
  | remap (v p flags : Word)
  | unmap (v : Word)

section runs

variable {σ : Type} (S : Supplier σ) (vmm : Virtual)

/-- A zeroed page table, whose page the supplier will not hand out. -/
def Blank (st : Machine σ) : Prop :=
  vmm.pTable ≠ 0 ∧ (∀ i, st.tables vmm.pTable i = 0) ∧ S.Valid st.supply ∧
    S.Taken st.supply vmm.pTable

/-- Runs of 4 KiB calls, with any arguments for which they return. -/
def paging : System (Machine σ) PageOp where
  init := Blank S vmm
  step := fun st op st' =>
    match op with
    | .map v p flags => vmm.map S st v p flags .fourKiB = some st'
    | .remap v p flags => vmm.remap S st v p flags .fourKiB = some st'
    | .unmap v => (vmm.unmap st.tables v .fourKiB).map (fun m => { st with tables := m }) = some st'

/-- The supplier grants `n` more requests of `count` pages. -/
def Supplier.Grants (count : Nat) : Nat → σ → Prop
  | 0, _ => True
  | n + 1, s => ∃ page s', S.request s count = some (page, s') ∧ Supplier.Grants count n s'

end runs

/-! ## Section 2: Tables without large pages -/

/-- No directory entry has its `PageSize` bit set. -/
def NoLarge (k : Nat) (raw : Word) : Prop := 0 < k → k < 3 → isPageSize raw = false

theorem noLarge_closed {flags : Word} (hflags : IsDirectoryFlags flags) :
    DirectoryClosed NoLarge flags where
  zero := by
    intro k _ _
    simp [isPageSize]
  or := by
    intro k raw h _ _ h1 h2
    rw [hflags.isPageSize_or]
    exact h h1 h2
  link := by
    intro k raw page h _ _ _ h1 h2
    rw [isPageSize_link hflags]
    exact h h1 h2

section plain

variable {σ : Type} {S : Supplier σ} {vmm : Virtual} {st st' : Machine σ}

/-- The tables are well formed and hold no large page. -/
def Plain (S : Supplier σ) (vmm : Virtual) (st : Machine σ) : Prop :=
  ∃ own, WellFormed S vmm.pTable st own ∧ Entries st.tables own NoLarge

variable {m : Tables} {own : Owner} {v flags : Word} {entry : Word → Word} {type : MapType}

theorem Entries.noStale (h : Entries m own NoLarge) :
    Entries m own NoStale := fun _ _ _ hf hk i _ h1 h2 => h hf hk i h1 h2

theorem WellFormed.walk_ne_leaf (h : WellFormed S vmm.pTable st own)
    (hlarge : Entries st.tables own NoLarge) {f : Word} {path rest : List TableIndex} {n : Nat}
    (hf : own f = some path) (hn : path.length + rest.length + n = 4) (hpos : 0 < n) :
    walk decode st.tables n f rest ≠ .leaf := by
  induction rest generalizing f path with
  | nil => simp [walk]
  | cons i rest ih =>
    simp only [List.length_cons] at hn
    obtain ⟨k, hk⟩ : ∃ k, rest.length + n = k + 1 := ⟨rest.length + n - 1, by omega⟩
    have hentry := hlarge hf (show path.length + 1 + (k + 1) = 4 by omega) i
    simp only [walk, hk]
    cases hd : decode (k + 1) (st.tables f i) with
    | absent => simp
    | leaf =>
      -- a leaf above the bottom level has its `PageSize` bit set
      simp only [decode] at hd
      split at hd
      · split at hd
        · rename_i hl
          rw [hentry (by omega) (by omega)] at hl
          exact absurd hl.1 (by simp)
        · cases hd
      · cases hd
    | table g =>
      exact ih (h.tree.own_child hf (by omega) hd)
        (by simp only [List.length_append, List.length_singleton]; omega)

theorem WellFormed.unobstructed (h : WellFormed S vmm.pTable st own)
    (hlarge : Entries st.tables own NoLarge) (index : PageMapIndexer) (type : MapType) :
    Unobstructed vmm st.tables index type :=
  h.walk_ne_leaf hlarge h.tree.own_root (by simpa using length_directories index type)
    (Nat.succ_pos _)

theorem wellFormed_of_blank (h : Blank S vmm st) {P : Nat → Word → Prop} (hP : ∀ k, P k 0) :
    ∃ own, WellFormed S vmm.pTable st own ∧ Entries st.tables own P := by
  obtain ⟨hroot, hzero, hvalid, htaken⟩ := h
  have hown : ∀ {f path}, (if f = vmm.pTable then some ([] : List TableIndex) else none) =
      some path → f = vmm.pTable := by
    intro f path hf
    by_contra hne
    simp [hne] at hf
  -- no entry links anything
  refine ⟨fun f => if f = vmm.pTable then some [] else none, ⟨⟨by simp, ?_⟩, ?_, ?_, hvalid⟩, ?_⟩
  · intro f g path i k hf _ hd
    rw [hown hf, hzero, decode_zero] at hd
    cases hd
  · intro f path hf
    rw [hown hf]
    exact hroot
  · intro f path hf
    rw [hown hf]
    exact htaken
  · intro f path k hf _ i
    rw [hown hf, hzero]
    exact hP k

theorem plain_of_blank (h : Blank S vmm st) : Plain S vmm st :=
  wellFormed_of_blank h (noLarge_closed (isDirectoryFlags 0)).zero

theorem pageMapIndexer_eq {index : PageMapIndexer} (h : pageMapIndexer v = some index) :
    index = ofAddress v := by
  unfold pageMapIndexer at h
  simp only at h
  split at h
  · cases h
  · exact (Option.some.inj h).symm

theorem index_of_place (hroot : vmm.pTable ≠ 0)
    (h : Virtual.place S entry vmm st v flags type = some st') :
    ∃ index, pageMapIndexer v = some index := by
  rw [Virtual.place, if_neg hroot] at h
  obtain ⟨index, hindex, _⟩ := Option.bind_eq_some_iff.mp h
  exact ⟨index, hindex⟩

theorem index_of_unmap {m' : Tables} (hroot : vmm.pTable ≠ 0) (h : vmm.unmap m v type = some m') :
    ∃ index, pageMapIndexer v = some index := by
  rw [Virtual.unmap, if_neg hroot] at h
  obtain ⟨index, hindex, _⟩ := Option.map_eq_some_iff.mp h
  exact ⟨index, hindex⟩

theorem Plain.pTable_ne_zero (h : Plain S vmm st) : vmm.pTable ≠ 0 := by
  obtain ⟨own, hwf, _⟩ := h
  exact hwf.ne_zero hwf.tree.own_root

section place

variable {own own' : Owner} {entry : Word → Word} {v flags e : Word}

theorem WellFormed.place (h : WellFormed S vmm.pTable st own)
    (hlarge : Entries st.tables own NoLarge) (hleaf : ∀ raw, decode 0 (entry raw) = .leaf)
    (hplace : Virtual.place S entry vmm st v flags .fourKiB = some st') :
    ∃ own', Placed S (flags &&& 0x3F#64) vmm.pTable (ofAddress v).path 0
        (entry (oldEntry vmm st.tables (ofAddress v) .fourKiB)) st own st' own' ∧
      Entries st'.tables own' NoLarge := by
  obtain ⟨index, hindex⟩ := index_of_place (h.ne_zero h.tree.own_root) hplace
  obtain rfl := pageMapIndexer_eq hindex
  obtain ⟨own', hplaced⟩ :=
    place_spec h hindex (h.unobstructed hlarge _ .fourKiB) hleaf hplace
  -- a leaf at the bottom is no directory entry
  refine ⟨own', hplaced, ?_⟩
  exact hplaced.entries (noLarge_closed (isDirectoryFlags flags))
    (fun h0 => absurd h0 (by simp [MapType.levels])) hlarge

theorem Placed.leaf_self
    (h : Placed S flags vmm.pTable (ofAddress v).path 0 e st own st' own')
    (hlarge : Entries st.tables own NoLarge) : leaf vmm st'.tables v = some e :=
  h.lookup_target hlarge.noStale rfl (List.prefix_refl _)

theorem Placed.leaf_other
    (h : Placed S flags vmm.pTable (ofAddress v).path 0 e st own st' own')
    (hlarge : Entries st.tables own NoLarge) {w : Word}
    (hw : ofAddress w ≠ ofAddress v) :
    leaf vmm st'.tables w = leaf vmm st.tables w := by
  apply h.lookup_other hlarge.noStale rfl
  intro hpre
  exact hw (PageMapIndexer.path_inj (hpre.eq_of_length rfl)).symm

theorem Plain.place (h : Plain S vmm st) (hleaf : ∀ raw, decode 0 (entry raw) = .leaf)
    (hplace : Virtual.place S entry vmm st v flags .fourKiB = some st') :
    Plain S vmm st' ∧
    leaf vmm st'.tables v =
      some (entry (oldEntry vmm st.tables (ofAddress v) .fourKiB)) ∧
    ∀ w, ofAddress w ≠ ofAddress v →
      leaf vmm st'.tables w = leaf vmm st.tables w := by
  obtain ⟨own, hwf, hlarge⟩ := h
  obtain ⟨own', hplaced, hlarge'⟩ := hwf.place hlarge hleaf hplace
  exact ⟨⟨own', hplaced.wellFormed, hlarge'⟩, hplaced.leaf_self hlarge,
    fun w hw => hplaced.leaf_other hlarge hw⟩

end place

theorem Plain.unmap {m' : Tables} (h : Plain S vmm st)
    (hunmap : vmm.unmap st.tables v .fourKiB = some m') :
    Plain S vmm { st with tables := m' } ∧ leaf vmm m' v = none ∧
    ∀ w, ofAddress w ≠ ofAddress v →
      leaf vmm m' w = leaf vmm st.tables w := by
  have hroot := h.pTable_ne_zero
  obtain ⟨own, hwf, hlarge⟩ := h
  obtain ⟨index, hindex⟩ := index_of_unmap hroot hunmap
  obtain rfl := pageMapIndexer_eq hindex
  have hfree := hwf.unobstructed hlarge (ofAddress v) .fourKiB
  obtain ⟨hwf', _, hlookup⟩ := unmap_spec hwf hindex hfree hunmap
  refine ⟨⟨own, hwf', ?_⟩, ?_, ?_⟩
  · apply unmap_entries hwf hindex hfree hunmap hlarge
    intro h0
    exact absurd h0 (Nat.lt_irrefl 0)
  · rw [leaf, hlookup _ rfl, if_pos rfl]
  · intro w hw
    rw [leaf, hlookup _ rfl, if_neg]
    · rfl
    · exact fun heq => hw (PageMapIndexer.path_inj heq)

theorem Plain.step {op : PageOp} (h : Plain S vmm st) (hstep : (paging S vmm).step st op st') :
    Plain S vmm st' := by
  match op with
  | .map v p flags => exact (h.place (decode_mapEntry p flags .fourKiB) hstep).1
  | .remap v p flags => exact (h.place (decode_remapEntry p flags .fourKiB) hstep).1
  | .unmap v =>
    obtain ⟨m', hunmap, rfl⟩ := Option.map_eq_some_iff.mp hstep
    exact (h.unmap hunmap).1

theorem plain_of_reachable (h : (paging S vmm).Reachable st) : Plain S vmm st := by
  refine h.invariant ?_ ?_
  · intro st hblank
    exact plain_of_blank hblank
  · intro _ _ _ hi hs
    exact hi.step hs

theorem Plain.getPhysical_eq (h : Plain S vmm st) (hv : Canonical v) :
    vmm.getPhysical st.tables v = some (((leaf vmm st.tables v).map pointer).getD 0) := by
  obtain ⟨own, hwf, _⟩ := h
  exact hwf.getPhysical_eq hv

/-! ## Section 3: Calls return -/

theorem Supplier.Grants.of_succ {count n : Nat} {s : σ} (h : S.Grants count (n + 1) s) :
    S.Grants count n s := by
  induction n generalizing s with
  | zero => trivial
  | succ n ih =>
    obtain ⟨page, s', hreq, hrest⟩ := h
    exact ⟨page, s', hreq, ih hrest⟩

theorem openPath_isSome {f : Word} {rest : List TableIndex} (h : S.Grants 2 rest.length st.supply) :
    (Virtual.openPath S flags st f rest).isSome := by
  induction rest generalizing st f with
  | nil => rfl
  | cons i rest ih =>
    simp only [Virtual.openPath, Virtual.openDirectory]
    split
    · -- the directory is there, and one request is left over
      exact ih h.of_succ
    · obtain ⟨page, s', hreq, hrest⟩ := h
      rw [show toPages (4096 + 1) = 2 from rfl, hreq]
      exact ih hrest

theorem place_isSome (hv : Canonical v) (h : S.Grants 2 3 st.supply) :
    ∃ st', Virtual.place S entry vmm st v flags .fourKiB = some st' := by
  unfold Virtual.place
  split
  · exact ⟨st, rfl⟩
  · rw [pageMapIndexer_of_canonical hv, Option.bind_some]
    have hopen : (Virtual.openPath S (flags &&& 0x3F#64) st vmm.pTable
        (Virtual.directories (ofAddress v) .fourKiB)).isSome := openPath_isSome h
    obtain ⟨r, hr⟩ := Option.isSome_iff_exists.mp hopen
    rw [hr]
    exact ⟨_, rfl⟩

section mapped

variable {own : Owner} {v e : Word}

variable (h : WellFormed S vmm.pTable st own) (hlarge : Entries st.tables own NoLarge)

include h hlarge

theorem WellFormed.walk_of_leaf (hleaf : leaf vmm st.tables v = some e) :
    ∃ pt, walk decode st.tables 1 vmm.pTable
        (Virtual.directories (ofAddress v) .fourKiB) = .table pt ∧
      st.tables pt (Virtual.slot (ofAddress v) .fourKiB) = e := by
  rw [leaf, path_eq _ .fourKiB] at hleaf
  exact walk_of_lookup hleaf (h.unobstructed hlarge (ofAddress v) .fourKiB)

theorem WellFormed.oldEntry_of_leaf (hleaf : leaf vmm st.tables v = some e) :
    oldEntry vmm st.tables (ofAddress v) .fourKiB = e := by
  obtain ⟨pt, hwalk, hentry⟩ := h.walk_of_leaf hlarge hleaf
  simp only [oldEntry, entryAt, MapType.levels, hwalk, hentry]

theorem WellFormed.place_of_leaf {entry : Word → Word} {flags : Word} (hv : Canonical v)
    (hleaf : leaf vmm st.tables v = some e) :
    ∃ st', Virtual.place S entry vmm st v flags .fourKiB = some st' ∧
      st'.supply = st.supply := by
  obtain ⟨pt, hwalk, _⟩ := h.walk_of_leaf hlarge hleaf
  obtain ⟨st₁, hopen, hsupply⟩ := openPath_of_walk h (isDirectoryFlags flags) h.tree.own_root
    rfl (by omega) hwalk
  rw [Virtual.place, if_neg (h.ne_zero h.tree.own_root), pageMapIndexer_of_canonical hv,
    Option.bind_some, hopen, Option.map_some]
  exact ⟨_, rfl, hsupply⟩

end mapped

theorem place_induct {P : σ → Prop}
    (hreq : ∀ {s page s'}, S.request s 2 = some (page, s') → P s → P s')
    (hplace : Virtual.place S entry vmm st v flags type = some st') (h : P st.supply) :
    P st'.supply := by
  unfold Virtual.place at hplace
  split at hplace
  · rw [← Option.some.inj hplace]
    exact h
  · obtain ⟨index, _, hplace⟩ := Option.bind_eq_some_iff.mp hplace
    obtain ⟨⟨table, st₁⟩, hopen, rfl⟩ := Option.map_eq_some_iff.mp hplace
    have h₁ : P st₁.supply := openPath_induct hreq hopen h
    exact h₁

theorem unmap_isSome (hv : Canonical v) (type : MapType) : ∃ m', vmm.unmap m v type = some m' := by
  unfold Virtual.unmap
  split
  · exact ⟨m, rfl⟩
  · rw [pageMapIndexer_of_canonical hv]
    exact ⟨_, rfl⟩

/-! ## Section 4: Translation -/

/-- The translation of every other page is the same. -/
def Unchanged (vmm : Virtual) (m m' : Tables) (v : Word) : Prop :=
  ∀ w, Canonical w → pageBase w ≠ pageBase v →
    vmm.getPhysical m' w = vmm.getPhysical m w

theorem Plain.unchanged (h : Plain S vmm st) (h' : Plain S vmm st') (hv : Canonical v)
    (hleaf : ∀ w, ofAddress w ≠ ofAddress v →
      leaf vmm st'.tables w = leaf vmm st.tables w) :
    Unchanged vmm st.tables st'.tables v := by
  intro w hw hne
  rw [h.getPhysical_eq hw, h'.getPhysical_eq hw, hleaf]
  intro heq
  exact hne (PageMapIndexer.ofAddress_inj hw hv heq)

theorem Plain.place_translates {p : Word} (h : Plain S vmm st) (hv : Canonical v) (hp : IsPage p)
    (hleaf : ∀ raw, decode 0 (entry raw) = .leaf)
    (hpointer : ∀ raw, pointer (entry raw) = p &&& addressMask)
    (hplace : Virtual.place S entry vmm st v flags .fourKiB = some st') :
    vmm.getPhysical st'.tables v = some p ∧ Unchanged vmm st.tables st'.tables v := by
  obtain ⟨hplain, hat, hother⟩ := h.place hleaf hplace
  refine ⟨?_, h.unchanged hplain hv hother⟩
  rw [hplain.getPhysical_eq hv, hat, Option.map_some, Option.getD_some, hpointer]
  exact congrArg some hp

end plain

/-- **Map and translate**: in every table reached by 4 KiB calls, `Map` and
    `Remap` make `GetPhysical` answer with the physical page and `Unmap` with
    null, all other pages keep their translation, and the calls return as long
    as the supplier grants the tables they may need. -/
theorem map_translate {σ : Type} (S : Supplier σ) (vmm : Virtual) {st : Machine σ}
    (h : (paging S vmm).Reachable st) {v p : Word} (flags : Word) (hv : Canonical v)
    (hp : IsPage p) :
    (∀ st', vmm.map S st v p flags .fourKiB = some st' →
      vmm.getPhysical st'.tables v = some p ∧ Unchanged vmm st.tables st'.tables v) ∧
    (∀ st', vmm.remap S st v p flags .fourKiB = some st' →
      vmm.getPhysical st'.tables v = some p ∧ Unchanged vmm st.tables st'.tables v) ∧
    (∀ m', vmm.unmap st.tables v .fourKiB = some m' →
      vmm.getPhysical m' v = some 0 ∧ Unchanged vmm st.tables m' v) ∧
    (S.Grants 2 3 st.supply → (∃ st', vmm.map S st v p flags .fourKiB = some st') ∧
      ∃ st', vmm.remap S st v p flags .fourKiB = some st') ∧
    ∃ m', vmm.unmap st.tables v .fourKiB = some m' := by
  have hplain := plain_of_reachable h
  refine ⟨?_, ?_, ?_, ?_, unmap_isSome hv _⟩
  · intro st' hmap
    exact hplain.place_translates hv hp (decode_mapEntry p flags .fourKiB)
      (pointer_mapEntry p _ .fourKiB) hmap
  · intro st' hremap
    exact hplain.place_translates hv hp (decode_remapEntry p flags .fourKiB)
      (pointer_remapEntry p _ .fourKiB) hremap
  · intro m' hunmap
    obtain ⟨hplain', hnone, hother⟩ := hplain.unmap hunmap
    refine ⟨?_, hplain.unchanged hplain' hv hother⟩
    rw [hplain'.getPhysical_eq hv]
    simp only [hnone, Option.map_none, Option.getD_none]
  · intro hgrants
    exact ⟨place_isSome hv hgrants, place_isSome hv hgrants⟩

/-- A zeroed table at page 1; the pages from 2 on are free. -/
def blankMachine : Machine Nat where
  tables := fun _ _ => 0
  supply := 2

theorem blank_blankMachine : Blank bump ⟨0x1000⟩ blankMachine :=
  ⟨by decide, fun _ => rfl, show 0 < 2 ∧ 2 ≤ 2 ^ 40 by decide, show 0x1000 < 2 * 4096 by decide⟩

/-- A page is mapped in the zeroed table and looked up. -/
theorem map_translate_blankMachine :
    ∃ st', (Virtual.mk 0x1000).map bump blankMachine 0x400000 0x7000 0x2 .fourKiB = some st' ∧
      (Virtual.mk 0x1000).getPhysical st'.tables 0x400000 = some 0x7000 := by
  have hgrants : bump.Grants 2 3 blankMachine.supply :=
    ⟨_, 4, rfl, _, 6, rfl, _, 8, rfl, trivial⟩
  obtain ⟨hmap, _, _, hreturns, _⟩ :=
    map_translate bump ⟨0x1000⟩ (.init blank_blankMachine) 0x2 (v := 0x400000) (p := 0x7000)
      (by decide) (by decide)
  obtain ⟨⟨st', hst'⟩, _⟩ := hreturns hgrants
  exact ⟨st', hst', (hmap st' hst').1⟩

end Fennix.Memory
