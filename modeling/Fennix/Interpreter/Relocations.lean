import Fennix.Framework.Traversal
import Fennix.Interpreter.Symbols

/-! # Relocations of the dynamic loader

    `HandleRelocations` and `SearchNeeded` of `Userspace/libc/interpreter/load.c`. A
    library is flagged as relocated at the end of its pass, after those of the libraries
    that it needs, and only if it has a PLT relocation table that is in order: libraries
    that need each other are come to without end, and a library that is never flagged is
    relocated again each time it is needed.

    What a relocation does to memory is left out; a pass is the list of the entries that
    it applies.

    - `handleRelocations_eq`: the function is a traversal of the needed libraries.
    - `handleRelocations_iff`: when it ends and applies every relocation once.
-/

namespace Fennix.Interpreter

open Fennix.Traversal
open Relation (TransGen)

/-! ## Section 1: One library -/

/-- The entries of `DynamicTable` and `DynamicSize` that are read; `jmprelInfo` is `r_info`
    of the entries of the PLT relocation table. -/
structure Tables where
  rel : BitVec 64
  rela : BitVec 64
  jmprel : BitVec 64
  bindNow : BitVec 64
  relsz : BitVec 64
  relent : BitVec 64
  relasz : BitVec 64
  relaent : BitVec 64
  pltrelsz : BitVec 64
  pltrel : BitVec 64
  jmprelInfo : Nat → BitVec 64

def DT_REL : BitVec 64 := 17
def DT_RELA : BitVec 64 := 7
def R_JMP_SLOT : BitVec 64 := 7

/-- An entry that is applied: by `RelocateHelper`, or, for the PLT without `BIND_NOW`, by
    adjusting its slot. -/
inductive Application where
  | rel (i : Nat)
  | rela (i : Nat)
  | plt (i : Nat)
  | slot (i : Nat)
  deriving DecidableEq

inductive Message where
  | wrongPltRelocationType (pltrel : BitVec 64)
  | wrongJmprelType (type : BitVec 64)
  deriving DecidableEq

/-- What one pass over a library does. -/
structure Pass where
  applied : List Application
  message : Option Message
  relocated : Bool
  result : Int

/-- The number of entries that a loop over `REL` or `RELA` goes through. -/
def entries (table size entrySize : BitVec 64) : Nat :=
  if table ≠ 0 ∧ entrySize ≠ 0 then size.toNat / entrySize.toNat else 0

/-- The loop over the slots, for `n` entries from `i` on. -/
def adjustSlots (info : Nat → BitVec 64) : Nat → Nat → List Application × Option Message
  | 0, _ => ([], none)
  | n + 1, i =>
    let type := info i &&& 0xffffffff
    if type ≠ R_JMP_SLOT then ([], some (.wrongJmprelType type))
    else
      let rest := adjustSlots info n (i + 1)
      (.slot i :: rest.1, rest.2)

/-- `HandleRelocations` behind the call of `SearchNeeded`. -/
def relocate (t : Tables) : Pass :=
  let applied := (List.range (entries t.rel t.relsz t.relent)).map Application.rel ++
    (List.range (entries t.rela t.relasz t.relaent)).map Application.rela
  if t.jmprel = 0 ∨ t.pltrelsz = 0 then ⟨applied, none, false, 0⟩
  else if t.pltrel ≠ DT_REL ∧ t.pltrel ≠ DT_RELA then
    ⟨applied, some (.wrongPltRelocationType t.pltrel), false, -EINVAL⟩
  else
    let relsize := if t.pltrel = DT_REL then 16 else 24
    let n := t.pltrelsz.toNat / relsize
    if t.bindNow ≠ 0 then ⟨applied ++ (List.range n).map Application.plt, none, true, 0⟩
    else
      let slots := adjustSlots t.jmprelInfo n 0
      if slots.2 = none then ⟨applied ++ slots.1, none, true, 0⟩
      else ⟨applied ++ slots.1, slots.2, false, -EINVAL⟩

/-! ## Section 2: All libraries -/

/-- A loaded library. -/
structure Library (ι : Type) where
  dynamic : List (Dyn ι)
  tables : Tables

/-- The flags, and what has been applied and printed so far. -/
structure State (ι : Type) where
  relocated : ι → Bool
  applied : List (ι × Application)
  printed : List Message

namespace State

variable {ι : Type}

/-- No library is flagged: `AllocateLib` clears the flags. -/
def start : State ι := ⟨fun _ => false, [], []⟩

def record [DecidableEq ι] (s : State ι) (lib : ι) (pass : Pass) : State ι where
  relocated l := s.relocated l || (decide (l = lib) && pass.relocated)
  applied := s.applied ++ pass.applied.map fun a => (lib, a)
  printed := s.printed ++ pass.message.toList

/-- What has been applied to a library. -/
def appliedTo [DecidableEq ι] (s : State ι) (lib : ι) : List Application :=
  (s.applied.filter fun a => a.1 = lib).map Prod.snd

end State

section handle

variable {ι : Type} [DecidableEq ι] (libs : ι → Library ι)

/-- `SearchNeeded`, given the recursive call. -/
def searchNeeded (handle : State ι → ι → Option (State ι)) :
    List (Dyn ι) → State ι → Option (State ι)
  | [], s => some s
  | .null :: _, s => some s
  | .other :: rest, s => searchNeeded handle rest s
  | .needed lib :: rest, s => (handle s lib).bind fun s => searchNeeded handle rest s

/-- `HandleRelocations`; `none` if calls are nested deeper than `depth`. -/
def handleRelocations : Nat → State ι → ι → Option (State ι × Int)
  | 0, _, _ => none
  | depth + 1, s, lib =>
    if s.relocated lib then some (s, 0)
    else
      (searchNeeded (fun s lib => (handleRelocations depth s lib).map Prod.fst)
        (libs lib).dynamic s).map fun s =>
          let pass := relocate (libs lib).tables
          (s.record lib pass, pass.result)

end handle

/-! ## Section 3: The traversal -/

theorem searchNeeded_eq {ι : Type} (handle : State ι → ι → Option (State ι)) (dynamic : List (Dyn ι))
    (s : State ι) : searchNeeded handle dynamic s = (neededLibraries dynamic).foldlM handle s := by
  induction dynamic generalizing s with
  | nil => rfl
  | cons dyn rest ih =>
    cases dyn with
    | null => rfl
    | other => exact ih s
    | needed lib =>
      rw [neededLibraries, List.foldlM_cons]
      exact congrArg ((handle s lib).bind) (funext ih)

section traversal

variable {ι : Type} [DecidableEq ι] (libs : ι → Library ι)

/-- The libraries that a library needs. -/
def needs (lib : ι) : List ι := neededLibraries (libs lib).dynamic

/-- A library that is flagged at the end of its pass. -/
def Flagged (lib : ι) : Prop := (relocate (libs lib).tables).relocated = true

instance : DecidablePred (Flagged libs) := fun lib =>
  inferInstanceAs (Decidable ((relocate (libs lib).tables).relocated = true))

/-- The state after passes over these libraries. -/
def after (log : List ι) : State ι where
  relocated lib := decide (Flagged libs lib ∧ lib ∈ log)
  applied := log.flatMap fun lib => (relocate (libs lib).tables).applied.map fun a => (lib, a)
  printed := log.flatMap fun lib => (relocate (libs lib).tables).message.toList

theorem after_relocated (log : List ι) (lib : ι) :
    (after libs log).relocated lib = true ↔ Flagged libs lib ∧ lib ∈ log :=
  decide_eq_true_iff

theorem after_nil : after libs [] = .start := by
  simp [after, State.start]

theorem after_record (log : List ι) (lib : ι) :
    (after libs log).record lib (relocate (libs lib).tables) = after libs (log ++ [lib]) := by
  simp only [State.record, after, List.flatMap_append, List.flatMap_singleton, State.mk.injEq,
    and_true]
  funext l
  by_cases hl : l = lib
  · subst hl
    by_cases hflag : Flagged libs l
    · simp [hflag, show (relocate (libs l).tables).relocated = true from hflag]
    · simp [hflag, show ¬ (relocate (libs l).tables).relocated = true from hflag]
  · simp [hl]

theorem handleRelocations_eq (depth : Nat) (log : List ι) (lib : ι) :
    (handleRelocations libs depth (after libs log) lib).map Prod.fst =
      (visit (needs libs) (Flagged libs) depth log lib).map (after libs) := by
  induction depth generalizing log lib with
  | zero => rfl
  | succ depth ih =>
    have hfold : ∀ nodes log, List.foldlM (fun s lib =>
          (handleRelocations libs depth s lib).map Prod.fst) (after libs log) nodes =
        (nodes.foldlM (visit (needs libs) (Flagged libs) depth) log).map (after libs) := by
      intro nodes
      induction nodes with
      | nil => exact fun _ => rfl
      | cons b nodes ihnodes =>
        intro log
        rw [List.foldlM_cons, List.foldlM_cons, ih log b]
        cases visit (needs libs) (Flagged libs) depth log b with
        | none => rfl
        | some log' => exact ihnodes log'
    rw [handleRelocations, visit]
    by_cases hflag : Flagged libs lib ∧ lib ∈ log
    · rw [if_pos hflag, if_pos ((after_relocated libs log lib).mpr hflag)]
      rfl
    · rw [if_neg hflag, if_neg ((after_relocated libs log lib).not.mpr hflag), searchNeeded_eq]
      change Option.map Prod.fst (Option.map _ (List.foldlM _ _ (needs libs lib))) = _
      rw [hfold, Option.map_map, Option.map_map, Option.map_map]
      congr 1
      funext log'
      exact after_record libs log' lib

end traversal

/-! ## Section 4: Relocations applied once -/

section once

variable {ι : Type} [DecidableEq ι] (libs : ι → Library ι)

/-- The relocations of every library that can be reached have been applied once, in the
    order of its pass, and none of other libraries. -/
def AppliedOnce (exe : ι) (s : State ι) : Prop :=
  (∀ lib, Reach (needs libs) exe lib →
    s.appliedTo lib = (relocate (libs lib).tables).applied) ∧
  ∀ lib, ¬ Reach (needs libs) exe lib → s.appliedTo lib = []

/-- A library to which a pass applies something. -/
def HasRelocations (lib : ι) : Prop := (relocate (libs lib).tables).applied ≠ []

theorem appliedTo_after (log : List ι) (lib : ι) :
    (after libs log).appliedTo lib =
      (List.replicate (log.count lib) (relocate (libs lib).tables).applied).flatten := by
  unfold State.appliedTo after
  induction log with
  | nil => rfl
  | cons l log ih =>
    rw [List.flatMap_cons, List.filter_append, List.map_append, ih, List.count_cons]
    by_cases hl : l = lib
    · subst hl
      rw [beq_self_eq_true, if_pos rfl, List.replicate_succ, List.flatten_cons]
      congr 1
      rw [List.filter_map, List.map_map]
      simp [Function.comp_def]
    · rw [if_neg (by simpa using hl), Nat.add_zero, List.filter_eq_nil_iff.mpr (by simp [hl])]
      rfl

theorem appliedTo_after_eq_iff (log : List ι) (lib : ι) :
    (after libs log).appliedTo lib = (relocate (libs lib).tables).applied ↔
      (HasRelocations libs lib → log.count lib = 1) := by
  rw [appliedTo_after]
  constructor
  · intro h hne
    have hlength := congrArg List.length h
    rw [List.length_flatten, List.map_replicate, List.sum_replicate_nat] at hlength
    have hpos : 0 < (relocate (libs lib).tables).applied.length := List.length_pos_iff.mpr hne
    exact Nat.eq_of_mul_eq_mul_right hpos (hlength.trans (Nat.one_mul _).symm)
  · intro h
    by_cases hne : HasRelocations libs lib
    · rw [h hne]
      simp
    · rw [not_not.mp hne]
      simp

theorem appliedOnce_after_iff {exe : ι} {log : List ι}
    (h : Complete (needs libs) (Flagged libs) exe log) :
    AppliedOnce libs exe (after libs log) ↔
      ∀ lib, Reach (needs libs) exe lib → HasRelocations libs lib → log.count lib = 1 := by
  constructor
  · intro honce lib hlib
    exact (appliedTo_after_eq_iff libs log lib).mp (honce.1 lib hlib)
  · intro honce
    refine ⟨fun lib hlib => (appliedTo_after_eq_iff libs log lib).mpr (honce lib hlib), ?_⟩
    intro lib hlib
    rw [appliedTo_after, List.count_eq_zero.mpr fun hmem => hlib ((h.mem_iff lib).mp hmem)]
    rfl

theorem handleRelocations_complete {depth : Nat} {exe : ι} {s : State ι} {result : Int}
    (h : handleRelocations libs depth .start exe = some (s, result)) :
    ∃ log, s = after libs log ∧ Complete (needs libs) (Flagged libs) exe log := by
  have hvisit := handleRelocations_eq libs depth [] exe
  rw [after_nil, h, Option.map_some] at hvisit
  obtain ⟨log, hlog, hs⟩ := Option.map_eq_some_iff.mp hvisit.symm
  exact ⟨log, hs.symm, visit_complete hlog⟩

/-- For every finite graph of libraries: the call on the executable ends and applies the
    relocations of every library that can be reached once, exactly if no library that can
    be reached needs itself in the end, and at most one entry names each library that is
    not flagged, if it has relocations or leads to a library that has some through such
    libraries. -/
theorem handleRelocations_iff [Finite ι] (exe : ι) :
    (∃ depth s result, handleRelocations libs depth .start exe = some (s, result) ∧
      AppliedOnce libs exe s) ↔
    (∀ lib, Reach (needs libs) exe lib → ¬ TransGen (Edge (needs libs)) lib lib) ∧
    ∀ lib, Reach (needs libs) exe lib → ¬ Flagged libs lib →
      (∃ lib', HasRelocations libs lib' ∧ Through (needs libs) (Flagged libs) lib lib') →
        SingleParent (needs libs) exe lib := by
  constructor
  · intro ⟨depth, s, result, hhandle, honce⟩
    obtain ⟨log, rfl, hcomplete⟩ := handleRelocations_complete libs hhandle
    refine ⟨(grounded_iff exe).mp hcomplete.grounded, ?_⟩
    exact (hcomplete.once_iff _).mp ((appliedOnce_after_iff libs hcomplete).mp honce)
  · intro ⟨hacyclic, hparents⟩
    obtain ⟨depth, log, hvisit⟩ := (visit_isSome_iff (Flagged libs) exe).mpr hacyclic
    have hcomplete := visit_complete hvisit
    have hhandle := handleRelocations_eq libs depth [] exe
    rw [after_nil, hvisit, Option.map_some] at hhandle
    obtain ⟨⟨s, result⟩, hhandle, hs⟩ := Option.map_eq_some_iff.mp hhandle
    refine ⟨depth, s, result, hhandle, ?_⟩
    rw [show s = after libs log from hs]
    exact (appliedOnce_after_iff libs hcomplete).mpr ((hcomplete.once_iff _).mpr hparents)

end once

/-! ## Section 5: A diamond and a cycle -/

/-- One entry in `RELA`, and no PLT. -/
def withoutPlt : Tables where
  rel := 0
  rela := 0x1000
  jmprel := 0
  bindNow := 0
  relsz := 0
  relent := 0
  relasz := 24
  relaent := 24
  pltrelsz := 0
  pltrel := 0
  jmprelInfo _ := 0

/-- One entry in the PLT as well, bound at once. -/
def withPlt : Tables :=
  { withoutPlt with jmprel := 0x2000, bindNow := 1, pltrelsz := 24, pltrel := DT_RELA }

/-- Library 0 needs 1 and 2, which both need 3. -/
def diamond (last : Tables) : Fin 4 → Library (Fin 4)
  | 0 => ⟨[.needed 1, .other, .needed 2, .null], withPlt⟩
  | 1 => ⟨[.needed 3, .null], withPlt⟩
  | 2 => ⟨[.needed 3, .null], withPlt⟩
  | 3 => ⟨[.null], last⟩

/-- Two libraries that need each other. -/
def mutually : Bool → Library Bool := fun lib => ⟨[.needed (!lib), .null], withPlt⟩

theorem diamond_lt {a b : Fin 4} (h : TransGen (Edge (needs (diamond withPlt))) a b) : a < b := by
  have hedges : ∀ a b, b ∈ needs (diamond withPlt) a → a < b := by decide
  induction h with
  | single hedge => exact hedges _ _ hedge
  | tail _ hedge ih => exact ih.trans (hedges _ _ hedge)

/-- If all have a PLT, the library that is needed twice is relocated once. -/
theorem handleRelocations_iff_diamond :
    ∃ depth s result, handleRelocations (diamond withPlt) depth .start 0 = some (s, result) ∧
      AppliedOnce (diamond withPlt) 0 s := by
  have hflagged : ∀ lib, Flagged (diamond withPlt) lib := by decide
  refine (handleRelocations_iff (diamond withPlt) 0).mpr ⟨?_, ?_⟩
  · intro lib _ hcycle
    exact lt_irrefl lib (diamond_lt hcycle)
  · intro lib _ hflag
    exact absurd (hflagged lib) hflag

/-- Without a PLT in the library that is needed twice its relocation is applied twice; and
    the call does not end for libraries that need each other. -/
theorem handleRelocations_repeats :
    ((handleRelocations (diamond withoutPlt) 4 .start 0).map fun r => r.1.appliedTo 3) =
        some [.rela 0, .rela 0] ∧
      (¬ ∃ depth s result, handleRelocations (diamond withoutPlt) depth .start 0 =
        some (s, result) ∧ AppliedOnce (diamond withoutPlt) 0 s) ∧
      ∀ depth, handleRelocations mutually depth .start true = none := by
  refine ⟨by decide, ?_, ?_⟩
  · intro ⟨depth, s, result, hhandle, honce⟩
    obtain ⟨log, rfl, hcomplete⟩ := handleRelocations_complete _ hhandle
    have hfirst : Reach (needs (diamond withoutPlt)) 0 1 := .single (show 1 ∈ _ by decide)
    have hsecond : Reach (needs (diamond withoutPlt)) 0 2 := .single (show 2 ∈ _ by decide)
    have hparents : ¬ SingleParent (needs (diamond withoutPlt)) 0 3 := fun h =>
      absurd (h 1 2 hfirst hsecond (show 3 ∈ _ by decide) (show 3 ∈ _ by decide)).1 (by decide)
    have htwo := hcomplete.two_le_count (show ¬ Flagged (diamond withoutPlt) 3 by decide) hparents
    have hone := (appliedOnce_after_iff _ hcomplete).mp honce 3
      (hfirst.tail (show 3 ∈ _ by decide))
      (show (relocate (diamond withoutPlt 3).tables).applied ≠ [] by decide)
    omega
  · intro depth
    by_contra hsome
    obtain ⟨⟨s, result⟩, hhandle⟩ := Option.ne_none_iff_exists'.mp hsome
    obtain ⟨log, -, hcomplete⟩ := handleRelocations_complete mutually hhandle
    exact hcomplete.grounded.not_cycle (.tail (.single (show false ∈ _ by decide))
      (show true ∈ _ by decide))

end Fennix.Interpreter
