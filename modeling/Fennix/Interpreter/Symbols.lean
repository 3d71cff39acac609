import Fennix.Interpreter.ElfHash

/-! # Symbol lookup of the dynamic loader

    `find_symbol` of `Userspace/libc/interpreter/helper.c`, `GetSymbolAddress` and
    `ResolveExternalSymbol` of `load.c`.

    A carry in `elf_hash` selects another bucket than the one in which the linker has put
    the name. An entry of the table is taken for a definition whatever its section is, and
    an address that is equal to `-ENOSYS` for none.

    - `findSymbol_spec`: what is found in a well-formed table.
    - `resolveExternalSymbol_iff`: when the lookup is right.
-/

namespace Fennix.Interpreter

/-! ## Section 1: The functions -/

/-- `Elf64_Sym`, the fields that are read. -/
structure Sym where
  stName : BitVec 32
  stInfo : BitVec 8
  stShndx : BitVec 16
  stValue : BitVec 64

/-- An entry of the dynamic table. `ProcessNeededLibraries` has replaced the name of a
    needed library by the address of its `ElfInfo`. -/
inductive Dyn (ι : Type) where
  | null
  | needed (lib : ι)
  | other

/-- `ElfInfo`, as far as symbols are concerned. The tables are arrays in memory. -/
structure ElfInfo (ι : Type) where
  baseAddress : BitVec 64
  path : List Byte
  dynamic : List (Dyn ι)
  hash : Nat → BitVec 32
  symtab : Nat → Sym
  strtab : Nat → Byte

def STN_UNDEF : Nat := 0
def SHN_UNDEF : BitVec 16 := 0
def STB_WEAK : BitVec 8 := 2
def ENOSYS : Nat := 55
def EINVAL : Int := 28

/-- `-ENOSYS` as `uintptr_t`. -/
def noSymbol : BitVec 64 := BitVec.ofInt 64 (-ENOSYS)

/-- `strcmp` of the string at `l` and a string; the terminating zero is not part of the
    list. -/
def strcmp (memory : Nat → Byte) : Nat → List Byte → Int
  | l, [] => (memory l).toInt
  | l, c :: r =>
    if memory l ≠ 0 ∧ memory l = c then strcmp memory (l + 1) r
    else (memory l).toInt - c.toInt

namespace ElfInfo

variable {ι : Type}

def nbucket (info : ElfInfo ι) : Nat := (info.hash 0).toNat
def nchain (info : ElfInfo ι) : Nat := (info.hash 1).toNat
def bucket (info : ElfInfo ι) (b : Nat) : Nat := (info.hash (2 + b)).toNat
def chain (info : ElfInfo ι) (i : Nat) : Nat := (info.hash (2 + info.nbucket + i)).toNat

/-- The loop of `find_symbol`; `none` if it has not ended after so many rounds. -/
def walk (info : ElfInfo ι) (name : List Byte) : Nat → Nat → Option (Option Nat)
  | 0, _ => none
  | rounds + 1, i =>
    if i = STN_UNDEF then some none
    else if strcmp info.strtab (info.symtab i).stName.toNat name = 0 then some (some i)
    else walk info name rounds (info.chain i)

/-- `find_symbol`: the index of the entry whose address is returned. -/
def findSymbol (info : ElfInfo ι) (rounds : Nat) (name : List Byte) : Option (Option Nat) :=
  info.walk name rounds (info.bucket ((elfHash name).toNat % info.nbucket))

/-- The load-adjusted address of an entry. -/
def address (info : ElfInfo ι) (i : Nat) : BitVec 64 := info.baseAddress + (info.symtab i).stValue

/-- `GetSymbolAddress`. -/
def getSymbolAddress (info : ElfInfo ι) (rounds : Nat) (name : List Byte) :
    Option (BitVec 64) :=
  (info.findSymbol rounds name).map fun sym =>
    match sym with
    | none => noSymbol
    | some i => info.address i

end ElfInfo

/-- What `ResolveExternalSymbol` returns and stores, and the path and the name that it
    prints if the symbol is unresolved. -/
structure Resolution where
  result : Int
  symAddress : BitVec 64
  unresolved : Option (List Byte × List Byte)
  deriving DecidableEq

section resolve

variable {ι : Type} (libs : ι → ElfInfo ι) (rounds : Nat) (name : List Byte)

/-- The loop over the dynamic table. -/
def search : List (Dyn ι) → BitVec 64 → Option (BitVec 64)
  | [], symAddress => some symAddress
  | dyn :: rest, symAddress =>
    if symAddress = noSymbol then
      match dyn with
      | .null => some symAddress
      | .other => search rest symAddress
      | .needed lib => ((libs lib).getSymbolAddress rounds name).bind fun symAddress =>
        search rest symAddress
    else some symAddress

/-- `ResolveExternalSymbol`. -/
def resolveExternalSymbol (info : ElfInfo ι) (sym : Sym) : Option Resolution :=
  (search libs rounds name info.dynamic noSymbol).map fun symAddress =>
    if symAddress ≠ noSymbol then ⟨0, symAddress, none⟩
    else if sym.stInfo >>> 4 ≠ STB_WEAK then ⟨-EINVAL, symAddress, some (info.path, name)⟩
    else ⟨0, 0, some (info.path, name)⟩

end resolve

/-! ## Section 2: Strings and chains -/

/-- The terminated string at `l`. -/
def IsString (memory : Nat → Byte) : Nat → List Byte → Prop
  | l, [] => memory l = 0
  | l, c :: s => memory l = c ∧ c ≠ 0 ∧ IsString memory (l + 1) s

variable {s : List Byte}

theorem IsString.unique {memory : Nat → Byte} {l : Nat} {s' : List Byte} (h : IsString memory l s)
    (h' : IsString memory l s') : s = s' := by
  induction s generalizing l s' with
  | nil =>
    cases s' with
    | nil => rfl
    | cons c s' => exact absurd (h'.1.symm.trans h) h'.2.1
  | cons c s ih =>
    cases s' with
    | nil => exact absurd (h.1.symm.trans h') h.2.1
    | cons c' s' =>
      obtain rfl : c = c' := h.1.symm.trans h'.1
      rw [ih h.2.2 h'.2.2]

theorem strcmp_eq_zero_iff {memory : Nat → Byte} (hs : 0 ∉ s) (l : Nat) :
    strcmp memory l s = 0 ↔ IsString memory l s := by
  induction s generalizing l with
  | nil =>
    rw [strcmp, IsString, ← BitVec.toInt_inj]
    exact Iff.rfl
  | cons c s ih =>
    obtain ⟨hc, hs⟩ := not_or.mp (List.mem_cons.not.mp hs)
    rw [strcmp, IsString]
    by_cases hl : memory l = c
    · have hnz : memory l ≠ 0 := fun h => hc (h.symm.trans hl)
      rw [if_pos ⟨hnz, hl⟩, ih hs]
      exact ⟨fun h => ⟨hl, fun h => hc h.symm, h⟩, fun h => h.2.2⟩
    · rw [if_neg fun h => hl h.2]
      refine iff_of_false ?_ fun h => hl h.1
      intro hsub
      exact hl (BitVec.toInt_inj.mp (by omega))

namespace ElfInfo

variable {ι : Type} {info : ElfInfo ι} {name : List Byte}

/-- The name of an entry. -/
def Named (info : ElfInfo ι) (i : Nat) (s : List Byte) : Prop :=
  IsString info.strtab (info.symtab i).stName.toNat s

/-- The entries of the chain that starts at `i`. -/
def Follows (info : ElfInfo ι) : Nat → List Nat → Prop
  | i, [] => i = STN_UNDEF
  | i, j :: l => i = j ∧ j ≠ STN_UNDEF ∧ info.Follows (info.chain j) l

variable {i rounds : Nat}

theorem Follows.unique {l l' : List Nat} (h : info.Follows i l) (h' : info.Follows i l') :
    l = l' := by
  induction l generalizing i l' with
  | nil =>
    cases l' with
    | nil => rfl
    | cons j l' => exact absurd (h'.1.symm.trans h) h'.2.1
  | cons j l ih =>
    cases l' with
    | nil => exact absurd (h.1.symm.trans h') h.2.1
    | cons j' l' =>
      obtain rfl : j = j' := h.1.symm.trans h'.1
      rw [ih h.2.2 h'.2.2]

/-- A hash table as the linker makes it: the chain of a bucket has the entries whose
    names hash to it. -/
structure WellFormed (info : ElfInfo ι) : Prop where
  nbucket_pos : 0 < info.nbucket
  chains : ∀ b, b < info.nbucket → ∃ l, info.Follows (info.bucket b) l ∧ l.Nodup ∧
    ∀ i, i ∈ l ↔ 0 < i ∧ i < info.nchain ∧
      ∃ s, info.Named i s ∧ (standardHash s).toNat % info.nbucket = b

/-- The bucket that `find_symbol` looks into is the one of the name. -/
def HashAgrees (info : ElfInfo ι) (name : List Byte) : Prop :=
  (elfHash name).toNat % info.nbucket = (standardHash name).toNat % info.nbucket

/-- The first entry of that name in the chain of its bucket. -/
def FirstEntry (info : ElfInfo ι) (name : List Byte) (i : Nat) : Prop :=
  ∃ front rest, info.Follows (info.bucket ((standardHash name).toNat % info.nbucket))
      (front ++ i :: rest) ∧
    info.Named i name ∧ ∀ j ∈ front, ¬ info.Named j name

/-- An entry that defines the name. -/
def IsDefinition (info : ElfInfo ι) (name : List Byte) (i : Nat) : Prop :=
  0 < i ∧ i < info.nchain ∧ info.Named i name ∧ (info.symtab i).stShndx ≠ SHN_UNDEF

def Defines (info : ElfInfo ι) (name : List Byte) : Prop := ∃ i, info.IsDefinition name i

theorem walk_eq {l : List Nat} (h : info.Follows i l) (hl : l.length < rounds) :
    info.walk name rounds i = some (l.find? fun j =>
      decide (strcmp info.strtab (info.symtab j).stName.toNat name = 0)) := by
  induction rounds generalizing i l with
  | zero => omega
  | succ rounds ih =>
    cases l with
    | nil => exact if_pos h
    | cons j l =>
      obtain ⟨rfl, hj, hl'⟩ := h
      rw [List.length_cons] at hl
      rw [walk, if_neg hj, List.find?_cons]
      by_cases hname : strcmp info.strtab (info.symtab i).stName.toNat name = 0
      · rw [if_pos hname, decide_eq_true hname]
      · rw [if_neg hname, decide_eq_false hname]
        exact ih hl' (by omega)

theorem findSymbol_spec (hwf : info.WellFormed) (hname : 0 ∉ name) (hrounds : info.nchain < rounds) :
    ∃ sym, info.findSymbol rounds name = some sym ∧
      ∀ i, sym = some i ↔ info.HashAgrees name ∧ info.FirstEntry name i := by
  obtain ⟨l, hfollows, hnodup, hmem⟩ :=
    hwf.chains _ (Nat.mod_lt (elfHash name).toNat hwf.nbucket_pos)
  have hlength : l.length ≤ info.nchain := by
    have hsub : l ⊆ List.range info.nchain := fun i hi =>
      List.mem_range.mpr ((hmem i).mp hi).2.1
    simpa using (List.subperm_of_subset hnodup hsub).length_le
  have hequal : ∀ j, decide (strcmp info.strtab (info.symtab j).stName.toNat name = 0) = true ↔
      info.Named j name := fun j => decide_eq_true_iff.trans (strcmp_eq_zero_iff hname _)
  refine ⟨_, walk_eq hfollows (by omega), ?_⟩
  intro i
  rw [List.find?_eq_some_iff_append, hequal]
  simp only [Bool.not_eq_true', ← Bool.not_eq_true, hequal]
  constructor
  · intro ⟨hnamed, front, rest, hl, hfront⟩
    -- an entry of that name is in the chain of the name's bucket
    obtain ⟨s, hs, hbucket⟩ := ((hmem i).mp (by rw [hl]; simp)).2.2
    rw [hs.unique hnamed] at hbucket
    refine ⟨hbucket.symm, front, rest, ?_, hnamed, hfront⟩
    rw [hbucket, ← hl]
    exact hfollows
  · intro ⟨hagrees, front, rest, hfollows', hnamed, hfront⟩
    rw [← hagrees] at hfollows'
    exact ⟨hnamed, front, rest, hfollows.unique hfollows', hfront⟩

theorem FirstEntry.mem (hwf : info.WellFormed) (h : info.FirstEntry name i) :
    0 < i ∧ i < info.nchain ∧ info.Named i name := by
  obtain ⟨front, rest, hfollows, hnamed, -⟩ := h
  obtain ⟨l, hl, -, hmem⟩ := hwf.chains _ (Nat.mod_lt (standardHash name).toNat hwf.nbucket_pos)
  obtain ⟨hpos, hlt, -⟩ := (hmem i).mp (by rw [hl.unique hfollows]; simp)
  exact ⟨hpos, hlt, hnamed⟩

/-- The entry of a library with which the search ends. -/
def answer (info : ElfInfo ι) (rounds : Nat) (name : List Byte) : Option (Option Nat) :=
  (info.findSymbol rounds name).map fun sym => sym.filter fun i => info.address i ≠ noSymbol

theorem answer_spec (hwf : info.WellFormed) (hname : 0 ∉ name) (hrounds : info.nchain < rounds) :
    ∃ sym, info.answer rounds name = some sym ∧
      ∀ i, sym = some i ↔
        info.HashAgrees name ∧ info.FirstEntry name i ∧ info.address i ≠ noSymbol := by
  obtain ⟨sym, hfind, hsym⟩ := findSymbol_spec hwf hname hrounds
  refine ⟨sym.filter fun i => info.address i ≠ noSymbol, ?_, ?_⟩
  · rw [answer, hfind, Option.map_some]
  · intro i
    rw [Option.filter_eq_some_iff, hsym i, decide_eq_true_iff, and_assoc]

/-- The lookup stops in this library, with an entry that defines the name. -/
def Finds (info : ElfInfo ι) (name : List Byte) : Prop :=
  info.HashAgrees name ∧ ∃ i, info.FirstEntry name i ∧
    (info.symtab i).stShndx ≠ SHN_UNDEF ∧ info.address i ≠ noSymbol

/-- The lookup goes on to the next library. -/
def Passes (info : ElfInfo ι) (name : List Byte) : Prop :=
  info.HashAgrees name → ∀ i, info.FirstEntry name i → info.address i = noSymbol

end ElfInfo

/-! ## Section 3: The search -/

/-- The libraries named in the dynamic table. -/
def neededLibraries {ι : Type} : List (Dyn ι) → List ι
  | [] => []
  | .null :: _ => []
  | .needed lib :: rest => lib :: neededLibraries rest
  | .other :: rest => neededLibraries rest

section search

variable {ι : Type} (libs : ι → ElfInfo ι) (rounds : Nat) (name : List Byte)

/-- The library and the entry whose address the loop ends with. -/
def taken : List (Dyn ι) → Option (Option (ι × Nat))
  | [] => some none
  | .null :: _ => some none
  | .other :: rest => taken rest
  | .needed lib :: rest =>
    ((libs lib).answer rounds name).bind fun sym =>
      match sym with
      | none => taken rest
      | some i => some (some (lib, i))

/-- The address of what was taken. -/
def takenAddress : Option (ι × Nat) → BitVec 64
  | none => noSymbol
  | some (lib, i) => (libs lib).address i

theorem search_of_ne {symAddress : BitVec 64} (h : symAddress ≠ noSymbol) (dynamic : List (Dyn ι)) :
    search libs rounds name dynamic symAddress = some symAddress := by
  cases dynamic with
  | nil => rfl
  | cons dyn rest => exact if_neg h

theorem search_eq (dynamic : List (Dyn ι)) :
    search libs rounds name dynamic noSymbol =
      (taken libs rounds name dynamic).map (takenAddress libs) := by
  induction dynamic with
  | nil => rfl
  | cons dyn rest ih =>
    cases dyn with
    | null => exact if_pos rfl
    | other => exact (if_pos rfl).trans ih
    | needed lib =>
      refine (if_pos rfl).trans ?_
      simp only [taken, ElfInfo.getSymbolAddress, ElfInfo.answer]
      cases (libs lib).findSymbol rounds name with
      | none => rfl
      | some sym =>
        cases sym with
        | none => exact ih
        | some i =>
          simp only [Option.map_some, Option.bind_some]
          by_cases haddress : (libs lib).address i = noSymbol
          · rw [Option.filter_some_neg (by simpa using haddress), haddress, ih]
          · rw [Option.filter_some_pos (by simpa using haddress),
              search_of_ne libs rounds name haddress]
            rfl

variable {lib : ι} {list : List ι}

theorem taken_answer {dynamic : List (Dyn ι)} {i : Nat}
    (h : taken libs rounds name dynamic = some (some (lib, i))) :
    (libs lib).answer rounds name = some (some i) := by
  induction dynamic with
  | nil => cases h
  | cons dyn rest ih =>
    cases dyn with
    | null => cases h
    | other => exact ih h
    | needed lib' =>
      rw [taken] at h
      obtain ⟨sym, hanswer, h⟩ := Option.bind_eq_some_iff.mp h
      cases sym with
      | none => exact ih h
      | some j =>
        cases h
        exact hanswer

/-- The first library of a list that defines the name. -/
def FirstDefining (list : List ι) (lib : ι) : Prop :=
  ∃ before after, list = before ++ lib :: after ∧ (libs lib).Defines name ∧
    ∀ l ∈ before, ¬ (libs l).Defines name

/-- What should be taken: a definition of the first library that has one, and nothing if
    there is none. -/
def TakenRight (list : List ι) : Option (ι × Nat) → Prop
  | none => ∀ l ∈ list, ¬ (libs l).Defines name
  | some (lib, i) => FirstDefining libs name list lib ∧ (libs lib).IsDefinition name i

/-- Up to the first library that defines the name, the lookup goes on; there it stops at
    the definition. -/
def Found : List ι → Prop
  | [] => True
  | lib :: rest =>
    (libs lib).Defines name ∧ (libs lib).Finds name ∨
      ¬ (libs lib).Defines name ∧ (libs lib).Passes name ∧ Found rest

variable {libs} {rounds} {name}

theorem FirstDefining.eq_of_defines {lib' : ι} (hlib : (libs lib).Defines name)
    (h : FirstDefining libs name (lib :: list) lib') : lib' = lib := by
  obtain ⟨before, after, hlist, -, hbefore⟩ := h
  cases before with
  | nil => exact (List.cons.inj hlist).1.symm
  | cons l before =>
    obtain rfl := (List.cons.inj hlist).1
    exact absurd hlib (hbefore lib List.mem_cons_self)

theorem TakenRight.cons_iff {found : Option (ι × Nat)} (hlib : ¬ (libs lib).Defines name) :
    TakenRight libs name (lib :: list) found ↔ TakenRight libs name list found := by
  cases found with
  | none =>
    constructor
    · exact fun h l hl => h l (List.mem_cons_of_mem lib hl)
    · exact fun h => List.forall_mem_cons.mpr ⟨hlib, h⟩
  | some entry =>
    refine and_congr_left fun _ => ⟨?_, ?_⟩
    · intro ⟨before, after, hlist, hdefines, hbefore⟩
      cases before with
      | nil =>
        obtain rfl := (List.cons.inj hlist).1
        exact absurd hdefines hlib
      | cons l before =>
        exact ⟨before, after, (List.cons.inj hlist).2, hdefines,
          fun l hl => hbefore l (List.mem_cons_of_mem _ hl)⟩
    · intro ⟨before, after, hlist, hdefines, hbefore⟩
      exact ⟨lib :: before, after, by rw [hlist, List.cons_append], hdefines,
        List.forall_mem_cons.mpr ⟨hlib, hbefore⟩⟩

theorem takenRight_some_iff {i : Nat} (hwf : (libs lib).WellFormed)
    (hsym : ∀ j, some i = some j ↔ (libs lib).HashAgrees name ∧ (libs lib).FirstEntry name j ∧
      (libs lib).address j ≠ noSymbol) :
    TakenRight libs name (lib :: list) (some (lib, i)) ↔ Found libs name (lib :: list) := by
  obtain ⟨hagrees, hfirst, haddress⟩ := (hsym i).mp rfl
  constructor
  · intro ⟨_, hdefinition⟩
    exact .inl ⟨⟨i, hdefinition⟩, hagrees, i, hfirst, hdefinition.2.2.2, haddress⟩
  · rintro (⟨hdefines, -, j, hfirst', hshndx, haddress'⟩ | ⟨-, hpasses, -⟩)
    · obtain rfl : i = j := Option.some.inj ((hsym j).mpr ⟨hagrees, hfirst', haddress'⟩)
      obtain ⟨hpos, hlt, hnamed⟩ := hfirst.mem hwf
      exact ⟨⟨[], list, rfl, hdefines, fun l hl => (List.not_mem_nil hl).elim⟩,
        hpos, hlt, hnamed, hshndx⟩
    · exact absurd (hpasses hagrees i hfirst) haddress

theorem takenRight_none_iff {found : Option (ι × Nat)}
    (hsym : ∀ j, (none : Option Nat) = some j ↔ (libs lib).HashAgrees name ∧
      (libs lib).FirstEntry name j ∧ (libs lib).address j ≠ noSymbol) (hother : ∀ i, found ≠ some (lib, i)) (hright : TakenRight libs name list found ↔ Found libs name list) :
    TakenRight libs name (lib :: list) found ↔ Found libs name (lib :: list) := by
  have hnone : ∀ j, (libs lib).HashAgrees name → (libs lib).FirstEntry name j →
      (libs lib).address j = noSymbol := by
    intro j hagrees hfirst
    by_contra haddress
    cases (hsym j).mpr ⟨hagrees, hfirst, haddress⟩
  by_cases hlib : (libs lib).Defines name
  · refine iff_of_false ?_ ?_
    · intro htaken
      cases found with
      | none => exact htaken lib List.mem_cons_self hlib
      | some entry =>
        have hentry : entry.1 = lib := htaken.1.eq_of_defines hlib
        exact hother entry.2 (by rw [← hentry])
    · rintro (⟨-, hagrees, j, hfirst, -, haddress⟩ | ⟨hnot, -⟩)
      · exact haddress (hnone j hagrees hfirst)
      · exact hnot hlib
  · rw [TakenRight.cons_iff hlib, hright]
    constructor
    · exact fun hfound => .inr ⟨hlib, fun hagrees j => hnone j hagrees, hfound⟩
    · rintro (⟨hdefines, -⟩ | ⟨-, -, hfound⟩)
      · exact absurd hdefines hlib
      · exact hfound

/-- In well-formed libraries the loop ends, and takes what it should exactly if the
    condition holds. -/
theorem taken_right_iff (hname : 0 ∉ name) {dynamic : List (Dyn ι)}
    (hwf : ∀ lib ∈ neededLibraries dynamic,
      (libs lib).WellFormed ∧ (libs lib).nchain < rounds) :
    ∃ found, taken libs rounds name dynamic = some found ∧
      (TakenRight libs name (neededLibraries dynamic) found ↔
        Found libs name (neededLibraries dynamic)) := by
  induction dynamic with
  | nil => exact ⟨none, rfl, iff_of_true (fun l hl => (List.not_mem_nil hl).elim) trivial⟩
  | cons dyn rest ih =>
    cases dyn with
    | null => exact ⟨none, rfl, iff_of_true (fun l hl => (List.not_mem_nil hl).elim) trivial⟩
    | other => exact ih hwf
    | needed lib =>
      obtain ⟨found, htaken, hright⟩ := ih fun l hl => hwf l (List.mem_cons_of_mem lib hl)
      obtain ⟨hlib, hrounds⟩ := hwf lib List.mem_cons_self
      obtain ⟨sym, hanswer, hsym⟩ := ElfInfo.answer_spec hlib hname hrounds
      rw [taken, hanswer, Option.bind_some]
      cases sym with
      | some i => exact ⟨some (lib, i), rfl, takenRight_some_iff hlib hsym⟩
      | none =>
        refine ⟨found, htaken, takenRight_none_iff hsym ?_ hright⟩
        rintro i rfl
        rw [taken_answer libs rounds name htaken] at hanswer
        cases hanswer

end search

/-! ## Section 4: When a symbol is resolved -/

/-- What the function does with a symbol that is unresolved. -/
def unresolved {ι : Type} (info : ElfInfo ι) (sym : Sym) (name : List Byte) : Resolution :=
  if sym.stInfo >>> 4 ≠ STB_WEAK then ⟨-EINVAL, noSymbol, some (info.path, name)⟩
  else ⟨0, 0, some (info.path, name)⟩

/-- The symbol is resolved to a definition in the first library that has one, or it is
    treated as unresolved and there is none. -/
def Resolves {ι : Type} (libs : ι → ElfInfo ι) (rounds : Nat) (name : List Byte)
    (info : ElfInfo ι) (sym : Sym) : Prop :=
  (∃ lib i, FirstDefining libs name (neededLibraries info.dynamic) lib ∧
    (libs lib).IsDefinition name i ∧ taken libs rounds name info.dynamic = some (some (lib, i)) ∧
    resolveExternalSymbol libs rounds name info sym = some ⟨0, (libs lib).address i, none⟩) ∨
  (∀ lib ∈ neededLibraries info.dynamic, ¬ (libs lib).Defines name) ∧
    resolveExternalSymbol libs rounds name info sym = some (unresolved info sym name)

section resolves

variable {ι : Type} (libs : ι → ElfInfo ι) {rounds : Nat} {name : List Byte}

theorem resolveExternalSymbol_of_none {info : ElfInfo ι} (sym : Sym)
    (h : taken libs rounds name info.dynamic = some none) :
    resolveExternalSymbol libs rounds name info sym = some (unresolved info sym name) := by
  rw [resolveExternalSymbol, search_eq, h, Option.map_some, Option.map_some]
  exact congrArg some (if_neg fun hne => hne rfl)

theorem resolveExternalSymbol_of_some {info : ElfInfo ι} (sym : Sym) {lib : ι} {i : Nat}
    (h : taken libs rounds name info.dynamic = some (some (lib, i))) :
    resolveExternalSymbol libs rounds name info sym = some ⟨0, (libs lib).address i, none⟩ := by
  obtain ⟨found, -, hfilter⟩ := Option.map_eq_some_iff.mp (taken_answer libs rounds name h)
  have haddress := (Option.filter_eq_some_iff.mp hfilter).2
  rw [resolveExternalSymbol, search_eq, h, Option.map_some, Option.map_some]
  exact congrArg some (if_pos (of_decide_eq_true haddress))

/-- For every object, needed libraries with well-formed tables and name: the lookup is
    right exactly if, up to the first library that defines the name, every library has no
    entry of that name in the bucket that `elf_hash` selects (or one whose address is
    `-ENOSYS`), and that library has its first such entry defined. -/
theorem resolveExternalSymbol_iff (info : ElfInfo ι) (sym : Sym) (hname : 0 ∉ name)
    (hwf : ∀ lib ∈ neededLibraries info.dynamic, (libs lib).WellFormed)
    (hrounds : ∀ lib ∈ neededLibraries info.dynamic, (libs lib).nchain < rounds) :
    (resolveExternalSymbol libs rounds name info sym).isSome ∧
      (Resolves libs rounds name info sym ↔
        Found libs name (neededLibraries info.dynamic)) := by
  have hlibs : ∀ lib ∈ neededLibraries info.dynamic,
      (libs lib).WellFormed ∧ (libs lib).nchain < rounds :=
    fun lib hlib => ⟨hwf lib hlib, hrounds lib hlib⟩
  obtain ⟨found, htaken, hright⟩ := taken_right_iff hname hlibs
  rw [← hright]
  cases found with
  | none =>
    have hresolve := resolveExternalSymbol_of_none libs sym htaken
    refine ⟨by rw [hresolve, Option.isSome_some], ?_, fun h => .inr ⟨h, hresolve⟩⟩
    rintro (⟨lib, i, -, -, htaken', -⟩ | ⟨hnone, -⟩)
    · rw [htaken] at htaken'
      cases htaken'
    · exact hnone
  | some entry =>
    have hresolve := resolveExternalSymbol_of_some libs sym htaken
    refine ⟨by rw [hresolve, Option.isSome_some], ?_, ?_⟩
    · rintro (⟨lib, i, hfirst, hdefinition, htaken', -⟩ | ⟨-, hunresolved⟩)
      · rw [htaken] at htaken'
        cases htaken'
        exact ⟨hfirst, hdefinition⟩
      · rw [hresolve, unresolved] at hunresolved
        split_ifs at hunresolved <;> simp at hunresolved
    · intro ⟨hfirst, hdefinition⟩
      exact .inl ⟨entry.1, entry.2, hfirst, hdefinition, htaken, hresolve⟩

end resolves

/-! ## Section 5: Libraries with one symbol -/

/-- A library whose table has one entry besides the null entry. -/
def single {ι : Type} (baseAddress stValue : BitVec 64) (stShndx : BitVec 16) (nbucket : Nat)
    (name : List Byte) : ElfInfo ι where
  baseAddress := baseAddress
  path := []
  dynamic := [.null]
  hash k :=
    if k = 0 then nbucket
    else if k = 1 then 2
    else if k = 2 + (standardHash name).toNat % nbucket then 1 else 0
  symtab _ := ⟨0, 0x10, stShndx, stValue⟩
  strtab k := name.getD k 0

/-- The name `f`. -/
def nameF : List Byte := [0x66]

/-- The name `gsyhyazoos`. Adding its last character carries. -/
def nameG : List Byte := [0x67, 0x73, 0x79, 0x68, 0x79, 0x61, 0x7a, 0x6f, 0x6f, 0x73]

/-- A library that imports `f`, and one that defines it. -/
def importAndDefinition : Bool → ElfInfo Bool
  | false => single 0x1000000 0 SHN_UNDEF 1 nameF
  | true => single 0x2000000 0x40 1 1 nameF

/-- A library that defines `gsyhyazoos`, with three buckets. -/
def carrying : Bool → ElfInfo Bool := fun _ => single 0x1000000 0x40 1 3 nameG

/-- An object that needs the libraries in this order. -/
def needing (first second : Bool) : ElfInfo Bool where
  baseAddress := 0
  path := []
  dynamic := [.other, .needed first, .needed second, .null]
  hash _ := 0
  symtab _ := ⟨0, 0, 0, 0⟩
  strtab _ := 0

theorem importAndDefinition_named (lib : Bool) (i : Nat) : (importAndDefinition lib).Named i nameF :=
  (strcmp_eq_zero_iff (by decide) _).mp (by cases lib <;> rfl)

theorem importAndDefinition_wellFormed (lib : Bool) : (importAndDefinition lib).WellFormed := by
  obtain ⟨hnbucket, hnchain, hbucket, hchain⟩ : (importAndDefinition lib).nbucket = 1 ∧
      (importAndDefinition lib).nchain = 2 ∧ (importAndDefinition lib).bucket 0 = 1 ∧
      (importAndDefinition lib).chain 1 = 0 := by
    cases lib <;> decide
  refine ⟨by omega, fun b hb => ⟨[1], ?_, List.nodup_singleton 1, fun i => ?_⟩⟩
  · obtain rfl : b = 0 := by omega
    exact ⟨hbucket, Nat.one_ne_zero, hchain⟩
  · rw [List.mem_singleton]
    constructor
    · rintro rfl
      exact ⟨by omega, by omega, nameF, importAndDefinition_named lib 1, by rw [hnbucket]; omega⟩
    · rintro ⟨hpos, hlt, -⟩
      omega

theorem importAndDefinition_defines : (importAndDefinition true).Defines nameF :=
  ⟨1, Nat.one_pos, Nat.one_lt_two, importAndDefinition_named true 1, by decide⟩

/-- With the library that defines the name in front the lookup is right. -/
theorem resolveExternalSymbol_iff_defined :
    Resolves importAndDefinition 3 nameF (needing true false) ⟨0, 0x10, 0, 0⟩ := by
  refine (resolveExternalSymbol_iff importAndDefinition (needing true false) ⟨0, 0x10, 0, 0⟩
    (by decide) (fun lib _ => importAndDefinition_wellFormed lib) ?_).2.mpr ?_
  · intro lib _
    cases lib <;> decide
  · refine .inl ⟨importAndDefinition_defines, by unfold ElfInfo.HashAgrees; decide, 1,
      ⟨[], [], ?_, importAndDefinition_named true 1, ?_⟩, by decide, by decide⟩
    · exact ⟨by decide, by decide, show _ = 0 by decide⟩
    · exact fun j hj => (List.not_mem_nil hj).elim

/-- An imported entry is taken for the definition; and a name whose hash carries is not
    found in the only library that defines it. -/
theorem resolveExternalSymbol_misses :
    (resolveExternalSymbol importAndDefinition 3 nameF (needing false true) ⟨0, 0x10, 0, 0⟩ =
        some ⟨0, 0x1000000, none⟩ ∧
      ¬ Resolves importAndDefinition 3 nameF (needing false true) ⟨0, 0x10, 0, 0⟩) ∧
    (resolveExternalSymbol carrying 3 nameG (needing true true) ⟨0, 0x10, 0, 0⟩ =
        some ⟨-EINVAL, noSymbol, some ([], nameG)⟩ ∧
      ¬ Resolves carrying 3 nameG (needing true true) ⟨0, 0x10, 0, 0⟩) := by
  have himport : resolveExternalSymbol importAndDefinition 3 nameF (needing false true)
      ⟨0, 0x10, 0, 0⟩ = some ⟨0, 0x1000000, none⟩ := by decide +kernel
  have hcarry : resolveExternalSymbol carrying 3 nameG (needing true true) ⟨0, 0x10, 0, 0⟩ =
      some ⟨-EINVAL, noSymbol, some ([], nameG)⟩ := by decide +kernel
  refine ⟨⟨himport, ?_⟩, hcarry, ?_⟩
  · rintro (⟨lib, i, -, hdefinition, htaken, -⟩ | ⟨hnone, -⟩)
    · have htaken' : taken importAndDefinition 3 nameF (needing false true).dynamic =
          some (some (false, 1)) := by decide +kernel
      rw [htaken'] at htaken
      cases htaken
      exact hdefinition.2.2.2 rfl
    · exact hnone true (by decide) importAndDefinition_defines
  · rintro (⟨lib, i, -, -, -, hresolve⟩ | ⟨hnone, -⟩)
    · rw [hcarry] at hresolve
      have hresult : -EINVAL = 0 := congrArg Resolution.result (Option.some.inj hresolve)
      exact absurd hresult (by decide)
    · exact hnone true (by decide)
        ⟨1, Nat.one_pos, Nat.one_lt_two, (strcmp_eq_zero_iff (by decide) _).mp (by decide), by decide⟩

end Fennix.Interpreter
