import Fennix.Memory.Translation

/-! # Soundness of the flag check

    `Check` walks the tables with stop conditions of its own: it tests
    `Present` at the top level only, and below looks for `PageSize` bits and
    null pointers. Its answer is about the mapping of an address as long as no
    entry that is not present has anything left in it, and no present leaf
    points to page 0 (`Clean`).

    Runs of `Map`, `Remap` and `Unmap` of all types keep that up as long as
    nothing is mapped to page 0 or below a large page, and no mapping is
    removed but a 4 KiB one without flags (`KeepsClean`).
-/

namespace Fennix.Memory

open Entry Radix
open PageMapIndexer (ofAddress)

/-! ## Section 1: Runs with all types of mappings -/

/-- A call of any type. -/
inductive MapOp where
  | map (v p flags : Word) (type : MapType)
  | remap (v p flags : Word) (type : MapType)
  | unmap (v : Word) (type : MapType)

section runs

variable {σ : Type} (S : Supplier σ) (vmm : Virtual)

/-- Runs from the zeroed table on, with any arguments for which calls return. -/
def mappings : System (Machine σ) MapOp where
  init := Blank S vmm
  step := fun st op st' =>
    match op with
    | .map v p flags type => vmm.map S st v p flags type = some st'
    | .remap v p flags type => vmm.remap S st v p flags type = some st'
    | .unmap v type => (vmm.unmap st.tables v type).map (fun m => { st with tables := m }) = some st'

/-- `Check` answers true only for a flag of the entry that translates the
    address. -/
def CheckSound (m : Tables) : Prop :=
  ∀ (v : Word) (flag : PTFlag), vmm.check m v flag.mask = some true →
    (∃ q, vmm.getPhysical m v = some q ∧ q ≠ 0) ∧
    ∃ e, leaf vmm m v = some e ∧ e &&& flag.mask ≠ 0

/-- The guard on runs. A mapping is to a page other than page 0 and not below
    a large page; what is unmapped is a 4 KiB page without flags, or nothing. -/
def KeepsClean (st : Machine σ) : MapOp → Prop
  | .map v p _ type | .remap v p _ type =>
      p &&& addressMask ≠ 0 ∧ Unobstructed vmm st.tables (ofAddress v) type
  | .unmap v _ =>
      Unobstructed vmm st.tables (ofAddress v) .fourKiB ∧
      ∀ flag : PTFlag, flag ≠ .p →
        oldEntry vmm st.tables (ofAddress v) .fourKiB &&& flag.mask = 0

end runs

/-! ## Section 2: Clean entries -/

/-- Directory entries are zero or present, entries of pages that are not
    present have no flags, and leaves do not point to page 0. -/
def Clean : Nat → Word → Prop
  | 0, raw => (present raw = true ∧ pointer raw ≠ 0) ∨
      (present raw = false ∧ ∀ flag : PTFlag, raw &&& flag.mask = 0)
  | k + 1, raw => k < 2 →
      raw = 0 ∨ (present raw = true ∧ (isPageSize raw = true → pointer raw ≠ 0))

theorem clean_closed {flags : Word} (hflags : IsDirectoryFlags flags) :
    DirectoryClosed Clean flags where
  zero := by
    intro k
    cases k with
    | zero => exact Or.inr ⟨by decide, fun flag => by simp⟩
    | succ k => exact fun _ => Or.inl rfl
  or := by
    intro k raw _ hp hl hk
    refine Or.inr ⟨by rw [present_or, hp, Bool.true_or], fun hl' => ?_⟩
    rw [hflags.isPageSize_or] at hl'
    exact absurd ⟨hl', hk⟩ hl
  link := by
    intro k raw page h hp _ _ hk
    refine Or.inr ⟨present_link raw, fun hl => ?_⟩
    rw [isPageSize_link hflags] at hl
    -- an entry that was not present was zero
    rcases h hk with rfl | ⟨hp', _⟩
    · exact absurd hl (by decide)
    · rw [hp] at hp'
      cases hp'

theorem clean_of_leaf {k : Nat} {raw : Word} (hd : decode k raw = .leaf)
    (hpointer : pointer raw ≠ 0) : Clean k raw := by
  have hp : present raw = true := by
    cases hp : present raw with
    | true => rfl
    | false =>
      rw [decode_absent hp] at hd
      cases hd
  cases k with
  | zero => exact Or.inl ⟨hp, hpointer⟩
  | succ k => exact fun _ => Or.inr ⟨hp, fun _ => hpointer⟩

theorem clean_clear {raw : Word} (h : ∀ flag : PTFlag, flag ≠ .p → raw &&& flag.mask = 0) :
    Clean 0 (raw &&& ~~~ 1#64) := by
  refine Or.inr ⟨present_clear raw, ?_⟩
  intro flag
  rw [BitVec.and_assoc, BitVec.and_comm (~~~ 1#64), ← BitVec.and_assoc]
  by_cases hp : flag = .p
  · subst hp
    rw [BitVec.and_assoc, show PTFlag.p.mask &&& ~~~ 1#64 = 0#64 from by decide]
    exact BitVec.and_zero
  · rw [h flag hp]
    exact BitVec.zero_and

/-! ## Section 3: `Check` on clean tables -/

section check

variable {σ : Type} {S : Supplier σ} {vmm : Virtual} {st st' : Machine σ} {own : Owner}

theorem ne_zero_of_and {raw mask : Word} (h : raw &&& mask ≠ 0) : raw ≠ 0 := by
  intro heq
  subst heq
  exact h BitVec.zero_and

theorem ne_zero_of_pointer {raw : Word} (h : pointer raw ≠ 0) : raw ≠ 0 := by
  intro heq
  subst heq
  exact h (by decide)

/-- The entries that `Check` comes to if it finds a flag. -/
theorem check_cases {m : Tables} {v mask : Word} (h : vmm.check m v mask = some true) :
    ∃ index pdpt, ofAddress v = index ∧ pageMapIndexer (pageBase v) = some index ∧
      pointer (m vmm.pTable index.pmlIndex) = pdpt ∧
      present (m vmm.pTable index.pmlIndex) = true ∧ pdpt ≠ 0 ∧
      ((isPageSize (m pdpt index.pdpteIndex) = true ∧ m pdpt index.pdpteIndex &&& mask ≠ 0) ∨
        ∃ pd, pointer (m pdpt index.pdpteIndex) = pd ∧
          isPageSize (m pdpt index.pdpteIndex) = false ∧ pd ≠ 0 ∧
          ((isPageSize (m pd index.pdeIndex) = true ∧ m pd index.pdeIndex &&& mask ≠ 0) ∨
            ∃ pt, pointer (m pd index.pdeIndex) = pt ∧
              isPageSize (m pd index.pdeIndex) = false ∧ pt ≠ 0 ∧
              m pt index.pteIndex &&& mask ≠ 0)) := by
  obtain ⟨index, hindex, hcheck⟩ := Option.map_eq_some_iff.mp h
  have hpath := pageMapIndexer_eq hindex
  rw [PageMapIndexer.ofAddress_pageBase] at hpath
  refine ⟨index, _, hpath.symm, hindex, rfl, ?_⟩
  dsimp only at hcheck
  split_ifs at hcheck <;> simp_all

theorem WellFormed.leaf_of_check (h : WellFormed S vmm.pTable st own)
    (hclean : Entries st.tables own Clean) {v : Word} {flag : PTFlag}
    (hcheck : vmm.check st.tables v flag.mask = some true) :
    ∃ e, leaf vmm st.tables v = some e ∧ e &&& flag.mask ≠ 0 ∧ pointer e ≠ 0 := by
  obtain ⟨index, pdpt, hpath, -, hpdpt, hp3, -, hcases⟩ := check_cases hcheck
  obtain ⟨hown3, -⟩ := h.pointer_ne_zero h.tree.own_root (k := 2) rfl hp3 (by omega)
  rw [hpdpt] at hown3
  simp only [leaf, hpath, PageMapIndexer.path, lookup, List.length_cons, List.length_nil, decode,
    hp3, hpdpt, if_true, if_false, Nat.lt_irrefl, and_false]
  -- an entry with a flag or a pointer is not zero, so it is present
  have hclean2 := hclean hown3 (k := 2) rfl index.pdpteIndex (by decide)
  obtain ⟨hl2, hflag⟩ | ⟨pd, hpd, hl2, hne2, hcases⟩ := hcases
  · obtain ⟨hp2, hptr⟩ := hclean2.resolve_left (ne_zero_of_and hflag)
    exact ⟨_, by simp [hp2, hl2], hflag, hptr hl2⟩
  obtain ⟨hp2, -⟩ := hclean2.resolve_left (ne_zero_of_pointer (hpd ▸ hne2))
  obtain ⟨hown2, -⟩ := h.pointer_ne_zero hown3 (k := 1) rfl hp2 (by simp [hl2])
  rw [hpd] at hown2
  simp only [hp2, hl2, hpd, if_true, if_false, Bool.false_eq_true, false_and]
  have hclean1 := hclean hown2 (k := 1) rfl index.pdeIndex (by decide)
  obtain ⟨hl1, hflag⟩ | ⟨pt, hpt, hl1, hne1, hflag⟩ := hcases
  · obtain ⟨hp1, hptr⟩ := hclean1.resolve_left (ne_zero_of_and hflag)
    exact ⟨_, by simp [hp1, hl1], hflag, hptr hl1⟩
  obtain ⟨hp1, -⟩ := hclean1.resolve_left (ne_zero_of_pointer (hpt ▸ hne1))
  obtain ⟨hown1, -⟩ := h.pointer_ne_zero hown2 (k := 0) rfl hp1 (by simp [hl1])
  rw [hpt] at hown1
  simp only [hp1, hl1, hpt, if_true, if_false, Bool.false_eq_true, false_and]
  rcases hclean hown1 (k := 0) rfl index.pteIndex with ⟨hp0, hptr⟩ | ⟨_, hnone⟩
  · exact ⟨_, by simp [hp0], hflag, hptr⟩
  · -- an entry that is not present has no flag to find
    exact absurd (hnone flag) hflag

theorem WellFormed.checkSound (h : WellFormed S vmm.pTable st own)
    (hclean : Entries st.tables own Clean) : CheckSound vmm st.tables := by
  intro v flag hcheck
  obtain ⟨e, hleaf, hflag, hptr⟩ := h.leaf_of_check hclean hcheck
  obtain ⟨index, hindex, _⟩ := Option.map_eq_some_iff.mp hcheck
  refine ⟨⟨pointer e, ?_, hptr⟩, e, hleaf, hflag⟩
  have hpath := pageMapIndexer_eq hindex
  rw [PageMapIndexer.ofAddress_pageBase] at hpath
  rw [h.getPhysical_of_index hindex, hpath]
  rw [leaf] at hleaf
  rw [hleaf, Option.map_some, Option.getD_some]

end check

/-! ## Section 4: Guarded runs -/

section guarded

variable {σ : Type} {S : Supplier σ} {vmm : Virtual} {st st' : Machine σ}

/-- Well-formed tables with clean entries. -/
def CleanTables (S : Supplier σ) (vmm : Virtual) (st : Machine σ) : Prop :=
  ∃ own, WellFormed S vmm.pTable st own ∧ Entries st.tables own Clean

theorem CleanTables.pTable_ne_zero (h : CleanTables S vmm st) : vmm.pTable ≠ 0 := by
  obtain ⟨own, hwf, _⟩ := h
  exact hwf.ne_zero hwf.tree.own_root

theorem cleanTables_of_blank (h : Blank S vmm st) : CleanTables S vmm st :=
  wellFormed_of_blank h (clean_closed (isDirectoryFlags 0)).zero

theorem CleanTables.place {entry : Word → Word} {v flags : Word} {type : MapType}
    (h : CleanTables S vmm st)
    (hfree : Unobstructed vmm st.tables (ofAddress v) type)
    (hleaf : ∀ raw, decode type.levels (entry raw) = .leaf)
    (hpointer : ∀ raw, pointer (entry raw) ≠ 0)
    (hplace : Virtual.place S entry vmm st v flags type = some st') : CleanTables S vmm st' := by
  have hroot := h.pTable_ne_zero
  obtain ⟨own, hwf, hclean⟩ := h
  obtain ⟨index, hindex⟩ := index_of_place hroot hplace
  obtain rfl := pageMapIndexer_eq hindex
  obtain ⟨own', hplaced⟩ := place_spec hwf hindex hfree hleaf hplace
  refine ⟨own', hplaced.wellFormed, ?_⟩
  exact hplaced.entries (clean_closed (isDirectoryFlags flags))
    (clean_of_leaf (hleaf _) (hpointer _)) hclean

theorem CleanTables.unmap {v : Word} {type : MapType} {m' : Tables} (h : CleanTables S vmm st)
    (hfree : Unobstructed vmm st.tables (ofAddress v) .fourKiB)
    (hflags : ∀ flag : PTFlag, flag ≠ .p →
      oldEntry vmm st.tables (ofAddress v) .fourKiB &&& flag.mask = 0)
    (hunmap : vmm.unmap st.tables v type = some m') :
    CleanTables S vmm { st with tables := m' } := by
  have hroot := h.pTable_ne_zero
  obtain ⟨own, hwf, hclean⟩ := h
  obtain ⟨index, hindex⟩ := index_of_unmap hroot hunmap
  obtain rfl := pageMapIndexer_eq hindex
  refine ⟨own, (unmap_spec hwf hindex hfree hunmap).1, ?_⟩
  exact unmap_entries hwf hindex hfree hunmap hclean (clean_clear hflags)

theorem CleanTables.step {op : MapOp} (h : CleanTables S vmm st)
    (hstep : ((mappings S vmm).restrict (KeepsClean vmm)).step st op st') :
    CleanTables S vmm st' := by
  obtain ⟨hguard, hstep⟩ := hstep
  match op with
  | .map v p flags type =>
    exact h.place hguard.2 (decode_mapEntry p flags type)
      (fun raw => by rw [pointer_mapEntry]; exact hguard.1) hstep
  | .remap v p flags type =>
    exact h.place hguard.2 (decode_remapEntry p flags type)
      (fun raw => by rw [pointer_remapEntry]; exact hguard.1) hstep
  | .unmap v type =>
    obtain ⟨m', hunmap, rfl⟩ := Option.map_eq_some_iff.mp hstep
    exact h.unmap hguard.1 hguard.2 hunmap

end guarded

/-- **Flag check**: in every run whose calls meet the guard, a true answer of
    `Check` is about a mapped address and a flag of the entry that maps it. -/
theorem checkSound_of_guarded {σ : Type} (S : Supplier σ) (vmm : Virtual) {st : Machine σ}
    (h : ((mappings S vmm).restrict (KeepsClean vmm)).Reachable st) :
    CheckSound vmm st.tables := by
  have hclean : CleanTables S vmm st := by
    refine h.invariant ?_ ?_
    · intro st hblank
      exact cleanTables_of_blank hblank
    · intro _ _ _ hi hs
      exact hi.step hs
  obtain ⟨own, hwf, hentries⟩ := hclean
  exact hwf.checkSound hentries

/-- A page of 2 MiB is mapped in the zeroed table. -/
theorem checkSound_blankMachine :
    ∃ st', (Virtual.mk 0x1000).map bump blankMachine 0x400000 0x200000 PTFlag.rw.mask .twoMiB =
        some st' ∧
      CheckSound ⟨0x1000⟩ st'.tables := by
  have hsome : ((Virtual.mk 0x1000).map bump blankMachine 0x400000 0x200000 PTFlag.rw.mask
      .twoMiB).isSome := by decide +kernel
  obtain ⟨st', hst'⟩ := Option.isSome_iff_exists.mp hsome
  have hfree : Unobstructed ⟨0x1000⟩ blankMachine.tables (ofAddress 0x400000)
      .twoMiB := by
    show walk decode _ _ _ _ ≠ .leaf
    decide
  have hreach : ((mappings bump ⟨0x1000⟩).restrict (KeepsClean ⟨0x1000⟩)).Reachable st' :=
    .step (l := MapOp.map 0x400000 0x200000 PTFlag.rw.mask .twoMiB) (.init blank_blankMachine)
      ⟨⟨by decide, hfree⟩, hst'⟩
  exact ⟨st', hst', checkSound_of_guarded bump ⟨0x1000⟩ hreach⟩

/-- A writable page is mapped and unmapped. `Check` still finds it writable,
    and `GetPhysical` finds nothing. -/
theorem unmapped_page_checks :
    ∃ st, (mappings bump ⟨0x1000⟩).Reachable st ∧
      (Virtual.mk 0x1000).check st.tables 0x400000 PTFlag.rw.mask = some true ∧
      (Virtual.mk 0x1000).getPhysical st.tables 0x400000 = some 0 ∧
      ¬ CheckSound ⟨0x1000⟩ st.tables := by
  obtain ⟨st, hmap, st', hunmap, hcheck, hphysical⟩ : ∃ st,
      (Virtual.mk 0x1000).map bump blankMachine 0x400000 0x7000 PTFlag.rw.mask .fourKiB = some st ∧
      ∃ st', ((Virtual.mk 0x1000).unmap st.tables 0x400000 .fourKiB).map
          (fun m => { st with tables := m }) = some st' ∧
        (Virtual.mk 0x1000).check st'.tables 0x400000 PTFlag.rw.mask = some true ∧
        (Virtual.mk 0x1000).getPhysical st'.tables 0x400000 = some 0 := by
    decide +kernel
  have hmapped : (mappings bump ⟨0x1000⟩).Reachable st :=
    .step (l := MapOp.map 0x400000 0x7000 PTFlag.rw.mask .fourKiB) (.init blank_blankMachine) hmap
  refine ⟨_, hmapped.step (l := MapOp.unmap 0x400000 .fourKiB) hunmap, hcheck, hphysical,
    fun hsound => ?_⟩
  obtain ⟨⟨q, hq, hne⟩, _⟩ := hsound 0x400000 .rw hcheck
  rw [hphysical, Option.some.injEq] at hq
  exact hne hq.symm

end Fennix.Memory
