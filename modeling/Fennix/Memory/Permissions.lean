import Fennix.Memory.Translation

/-! # Page permissions

    Which flags a page has after it was mapped again. `Unmap` clears `Present`
    and leaves the rest of the entry, `Map` adds its flags to what it finds,
    and `Remap` keeps the low twelve bits of what it finds. So a page gets the
    flags that were asked for exactly when the old entry, mapped or not, has
    no other flag.
-/

namespace Fennix.Memory

open Entry Radix
open PageMapIndexer (ofAddress)

/-! ## Section 1: Flags of an entry -/

/-- All bits of an entry but its address. -/
def Entry.flagsOf (raw : Word) : Word := raw &&& ~~~ addressMask

theorem Entry.flagsOf_or (raw raw' : Word) : flagsOf (raw ||| raw') = flagsOf raw ||| flagsOf raw' := by
  apply BitVec.eq_of_getLsbD_eq
  intro i hi
  simp only [flagsOf, BitVec.getLsbD_or, BitVec.getLsbD_and]
  cases (~~~ addressMask).getLsbD i <;> simp

theorem Entry.flagsOf_setAddress (raw p : Word) : flagsOf (setAddress raw (p >>> 12)) = flagsOf raw := by
  rw [setAddress_eq]
  apply BitVec.eq_of_getLsbD_eq
  intro i hi
  simp only [flagsOf, BitVec.getLsbD_or, BitVec.getLsbD_and, BitVec.getLsbD_not]
  cases addressMask.getLsbD i <;> simp

theorem Entry.flagsOf_low {flags : Word} (h : flags &&& 0xFFF#64 = flags) : flagsOf flags = flags := by
  have hmask : 0xFFF#64 &&& ~~~ addressMask = 0xFFF#64 := by decide
  rw [flagsOf, ← h, BitVec.and_assoc, hmask]

theorem or_eq_right_iff (a b : Word) : a ||| b = b ↔ a &&& ~~~ b = 0#64 := by
  constructor
  · intro h
    apply BitVec.eq_of_getLsbD_eq
    intro i hi
    have := congrArg (·.getLsbD i) h
    simp only [BitVec.getLsbD_or] at this
    simp only [BitVec.getLsbD_and, BitVec.getLsbD_not, BitVec.getLsbD_zero]
    cases ha : a.getLsbD i <;> cases hb : b.getLsbD i <;> simp_all
  · intro h
    apply BitVec.eq_of_getLsbD_eq
    intro i hi
    have := congrArg (·.getLsbD i) h
    simp only [BitVec.getLsbD_and, BitVec.getLsbD_not, BitVec.getLsbD_zero] at this
    simp only [BitVec.getLsbD_or]
    cases ha : a.getLsbD i <;> cases hb : b.getLsbD i <;> simp_all

/-! ## Section 2: What is asked for and what is there -/

/-- The leaf of `v` carries exactly `flags` and `Present`. -/
def Exact (vmm : Virtual) (m : Tables) (v flags : Word) : Prop :=
  ∃ e, leaf vmm m v = some e ∧ flagsOf e = flags ||| PTFlag.p.mask

section permissions

variable {σ : Type} {S : Supplier σ} {vmm : Virtual} {st st' : Machine σ} {v p flags : Word}

theorem flagsOf_p (hflags : flags &&& 0xFFF#64 = flags) :
    flagsOf (flags ||| PTFlag.p.mask) = flags ||| PTFlag.p.mask := by
  rw [flagsOf_or, flagsOf_low hflags]
  congr 1

theorem flagsOf_mapEntry (hflags : flags &&& 0xFFF#64 = flags) (raw : Word) :
    flagsOf (Virtual.mapEntry p (flags ||| PTFlag.p.mask) .fourKiB raw) =
      flagsOf raw ||| (flags ||| PTFlag.p.mask) := by
  have hp : flagsOf 1#64 ||| (flags ||| PTFlag.p.mask) = flags ||| PTFlag.p.mask := by
    have : flagsOf 1#64 = PTFlag.p.mask := by decide
    rw [this, BitVec.or_comm, BitVec.or_assoc, BitVec.or_self]
  show flagsOf (setAddress ((raw ||| 1#64) ||| (flags ||| PTFlag.p.mask)) (p >>> 12)) = _
  rw [flagsOf_setAddress, flagsOf_or, flagsOf_or, flagsOf_p hflags, BitVec.or_assoc, hp]

theorem flagsOf_remapEntry (hflags : flags &&& 0xFFF#64 = flags) (raw : Word) :
    flagsOf (Virtual.remapEntry p (flags ||| PTFlag.p.mask) .fourKiB raw) =
      (raw &&& 0xFFF#64) ||| (flags ||| PTFlag.p.mask) := by
  have hp : flagsOf 1#64 = PTFlag.p.mask := by decide
  have hlow : flagsOf (raw &&& 0xFFF#64) = raw &&& 0xFFF#64 := by
    apply flagsOf_low
    rw [BitVec.and_assoc, BitVec.and_self]
  show flagsOf (setAddress (((raw &&& 0xFFF#64) ||| (flags ||| PTFlag.p.mask)) ||| 1#64)
    (p >>> 12)) = _
  rw [flagsOf_setAddress, flagsOf_or, flagsOf_or, flagsOf_p hflags, hp, hlow, BitVec.or_assoc,
    BitVec.or_assoc, BitVec.or_self]

theorem Plain.flagsOf_oldEntry_unmap {m' : Tables} (h : Plain S vmm st)
    (hunmap : vmm.unmap st.tables v .fourKiB = some m') :
    flagsOf (oldEntry vmm m' (ofAddress v) .fourKiB) ||| (flags ||| PTFlag.p.mask) =
      flagsOf (oldEntry vmm st.tables (ofAddress v) .fourKiB) |||
        (flags ||| PTFlag.p.mask) := by
  have hroot := h.pTable_ne_zero
  obtain ⟨own, hwf, hlarge⟩ := h
  obtain ⟨index, hindex⟩ := index_of_unmap hroot hunmap
  obtain rfl := pageMapIndexer_eq hindex
  rcases unmap_cases hwf hindex (hwf.unobstructed hlarge _ _) hunmap with
    ⟨_, rfl⟩ | ⟨pt, hwalk, _, rfl⟩
  · rfl
  · -- the walk to the entry is the same before and after
    have hwalk' := hwf.tree.walk_write_below rfl hwalk
      (i := (ofAddress v).pteIndex)
      (e := st.tables pt (ofAddress v).pteIndex &&& ~~~ 1#64)
    rw [Virtual.clearPresent, oldEntry_of_walk hwalk, oldEntry_of_walk hwalk', write_self]
    -- the two entries differ in `Present`, which the flags asked for make up for
    generalize st.tables pt (ofAddress v).pteIndex = raw
    apply BitVec.eq_of_getLsbD_eq
    intro i hi
    have hp : ∀ i : Fin 64, (PTFlag.p.mask).getLsbD i.val = (1#64).getLsbD i.val := by decide
    have := hp ⟨i, hi⟩
    simp only [flagsOf, BitVec.getLsbD_or, BitVec.getLsbD_and, BitVec.getLsbD_not] at this ⊢
    rw [this]
    cases (1#64).getLsbD i <;> simp [hi]

end permissions

/-- **Permissions**: in every table reached by 4 KiB calls, a page that is
    unmapped and mapped again has exactly the flags that were asked for if and
    only if its old entry has no other flag, and a page that is remapped if and
    only if its old entry has no other flag in the low twelve bits. -/
theorem permissions_exact_iff {σ : Type} (S : Supplier σ) (vmm : Virtual) {st : Machine σ}
    (h : (paging S vmm).Reachable st) (v p : Word) {flags : Word}
    (hflags : flags &&& 0xFFF#64 = flags) :
    (∀ m' st', vmm.unmap st.tables v .fourKiB = some m' →
      vmm.map S { st with tables := m' } v p flags .fourKiB = some st' →
      (Exact vmm st'.tables v flags ↔
        flagsOf (oldEntry vmm st.tables (ofAddress v) .fourKiB) &&&
          ~~~ (flags ||| PTFlag.p.mask) = 0#64)) ∧
    (∀ st', vmm.remap S st v p flags .fourKiB = some st' →
      (Exact vmm st'.tables v flags ↔
        (oldEntry vmm st.tables (ofAddress v) .fourKiB &&& 0xFFF#64) &&&
          ~~~ (flags ||| PTFlag.p.mask) = 0#64)) := by
  have hplain := plain_of_reachable h
  constructor
  · intro m' st' hunmap hmap
    have hplain' := (hplain.unmap hunmap).1
    have hat := (hplain'.place (decode_mapEntry p flags .fourKiB) hmap).2.1
    have hflagsOf := flagsOf_mapEntry (p := p) hflags
      (oldEntry vmm m' (ofAddress v) .fourKiB)
    -- in terms of the entry before `Unmap`
    rw [hplain.flagsOf_oldEntry_unmap hunmap] at hflagsOf
    rw [← or_eq_right_iff, ← hflagsOf, Exact]
    simp only [hat, Option.some.injEq, exists_eq_left']
  · intro st' hremap
    have hat := (hplain.place (decode_remapEntry p flags .fourKiB) hremap).2.1
    have hflagsOf := flagsOf_remapEntry (p := p) hflags
      (oldEntry vmm st.tables (ofAddress v) .fourKiB)
    rw [← or_eq_right_iff, ← hflagsOf, Exact]
    simp only [hat, Option.some.injEq, exists_eq_left']

/-- A page without a mapping gets just the flags of `Remap`. -/
theorem permissions_blankMachine :
    ∃ st', (Virtual.mk 0x1000).remap bump blankMachine 0x400000 0x7000 0x2#64 .fourKiB = some st' ∧
      Exact ⟨0x1000⟩ st'.tables 0x400000 0x2#64 := by
  have hgrants : bump.Grants 2 3 blankMachine.supply :=
    ⟨_, 4, rfl, _, 6, rfl, _, 8, rfl, trivial⟩
  obtain ⟨st', hst'⟩ : ∃ st', (Virtual.mk 0x1000).remap bump blankMachine 0x400000 0x7000 0x2#64
      .fourKiB = some st' := place_isSome (by decide) hgrants
  refine ⟨st', hst', ?_⟩
  exact ((permissions_exact_iff bump ⟨0x1000⟩ (.init blank_blankMachine) 0x400000 0x7000
    (by decide)).2 st' hst').mpr (by decide)

/-- A user page is taken away from the user: it is unmapped and mapped again
    with `RW` only, or remapped with `RW`. Either way its entry still has `US`. -/
theorem user_flag_survives :
    ∃ st, (paging bump ⟨0x1000⟩).Reachable st ∧
      (∃ m' st', (Virtual.mk 0x1000).unmap st.tables 0x400000 .fourKiB = some m' ∧
        (Virtual.mk 0x1000).map bump { st with tables := m' } 0x400000 0x7000 PTFlag.rw.mask
          .fourKiB = some st' ∧
        ¬ Exact ⟨0x1000⟩ st'.tables 0x400000 PTFlag.rw.mask) ∧
      (∃ st', (Virtual.mk 0x1000).remap bump st 0x400000 0x7000 PTFlag.rw.mask .fourKiB = some st' ∧
        ¬ Exact ⟨0x1000⟩ st'.tables 0x400000 PTFlag.rw.mask) := by
  obtain ⟨st, hst, ⟨m', hunmap, st', hmap, hleaf⟩, st'', hremap, hleaf'⟩ : ∃ st,
      (Virtual.mk 0x1000).map bump blankMachine 0x400000 0x7000 (PTFlag.rw.mask ||| PTFlag.us.mask)
        .fourKiB = some st ∧
      (∃ m', (Virtual.mk 0x1000).unmap st.tables 0x400000 .fourKiB = some m' ∧
        ∃ st', (Virtual.mk 0x1000).map bump { st with tables := m' } 0x400000 0x7000 PTFlag.rw.mask
          .fourKiB = some st' ∧ (leaf ⟨0x1000⟩ st'.tables 0x400000).map flagsOf = some 0x7) ∧
      ∃ st', (Virtual.mk 0x1000).remap bump st 0x400000 0x7000 PTFlag.rw.mask .fourKiB = some st' ∧
        (leaf ⟨0x1000⟩ st'.tables 0x400000).map flagsOf = some 0x7 := by
    decide +kernel
  have hexact : ∀ m, (leaf ⟨0x1000⟩ m 0x400000).map flagsOf = some 0x7 →
      ¬ Exact ⟨0x1000⟩ m 0x400000 PTFlag.rw.mask := by
    intro m hm hex
    obtain ⟨e, he, hflags⟩ := hex
    rw [he, Option.map_some, Option.some.injEq, hflags] at hm
    exact absurd hm (by decide)
  have hreach : (paging bump ⟨0x1000⟩).Reachable st := .step
    (l := PageOp.map 0x400000 0x7000 (PTFlag.rw.mask ||| PTFlag.us.mask)) (.init blank_blankMachine) hst
  exact ⟨st, hreach, ⟨m', st', hunmap, hmap, hexact _ hleaf⟩,
    ⟨st'', hremap, hexact _ hleaf'⟩⟩

end Fennix.Memory
