import Fennix.Framework.Loop
import Fennix.Framework.System
import Fennix.Memory.PageTree

/-! # mprotect

    `linux_mprotect` of `Kernel/subsystem/linux/syscall.cpp`, with `GetPTE` of
    `Kernel/arch/amd64/memory/vmm.cpp`. Every round of the loop asks for the entry of
    `addr` and not of the page it has come to, so one entry is set again and again.
    The tables are arbitrary: an entry may be that of several pages, or of none.
-/

namespace Fennix.Memory

open Entry Radix

/-! ## Section 1: The call -/

/-- Where an entry stands: its table and its index. -/
abbrev Place := Word × TableIndex

/-- `Virtual::GetPTE`; the null pointer is `some none`. The type argument is not used by
    the source. -/
def Virtual.getPTE (vmm : Virtual) (m : Tables) (virtualAddress : Word) : Option (Option Place) :=
  (pageMapIndexer (pageBase virtualAddress)).map fun index =>
    let pml4 := m vmm.pTable index.pmlIndex
    if present pml4 = false then none
    else
      let pdpte := m (pointer pml4) index.pdpteIndex
      if present pdpte = false then none
      else
        -- a large page is walked through like a directory
        let pde := m (pointer pdpte) index.pdeIndex
        if present pde = false then none
        else if present (m (pointer pde) index.pteIndex) then some (pointer pde, index.pteIndex)
        else none

namespace Entry

/-- The bit field `ReadWrite`. -/
def readWrite (raw : Word) : Bool := raw.getLsbD 1

/-- The bit field `UserSupervisor`. -/
def userSupervisor (raw : Word) : Bool := raw.getLsbD 2

/-- An assignment to a bit field of one bit. -/
def setField (raw : Word) (bit : Nat) (value : Bool) : Word :=
  if value then raw ||| (1#64 <<< bit) else raw &&& ~~~ (1#64 <<< bit)

end Entry

namespace Mprotect

/-- What `linux_mprotect` uses of `prot`. -/
structure Protection where
  read : Bool
  write : Bool
  deriving DecidableEq

/-- `linux_PROT_READ` and `linux_PROT_WRITE`. -/
def Protection.ofProt (prot : BitVec 32) : Protection where
  read := prot &&& 0x1#32 ≠ 0
  write := prot &&& 0x2#32 ≠ 0

/-- The entry is not present or lacks a permission that is asked for. -/
def Protection.forbidden (p : Protection) (raw : Word) : Bool :=
  !present raw || (!userSupervisor raw && p.read) || (!readWrite raw && p.write)

/-- The assignments to an entry. -/
def Protection.assign (p : Protection) (raw : Word) : Word :=
  setField (setField raw 2 p.read) 1 p.write

/-- `linux_EACCES`, `linux_EINVAL` and `linux_ENOMEM`. -/
def linuxEacces : Int := 13

@[inherit_doc linuxEacces]
def linuxEinval : Int := 22

@[inherit_doc linuxEacces]
def linuxEnomem : Int := 12

section call

variable (vmm : Virtual) (addr len : Word) (p : Protection)

/-- The tables after the assignments of one round. -/
def assigned (m : Tables) : Tables :=
  match vmm.getPTE m addr with
  | some (some (table, index)) => Radix.write m table index (p.assign (m table index))
  | _ => m

/-- The loop variable and the tables after one round. -/
def next (x : Word × Tables) : Word × Tables := (x.1 + 4096#64, assigned vmm addr p x.2)

/-- What a round returns, if it does not go on; `some none` is a failed assertion. -/
def stop (x : Word × Tables) : Option (Option (Int × Tables)) :=
  if x.1 < addr + len then
    match vmm.check x.2 x.1 PTFlag.g.mask, vmm.getPTE x.2 addr with
    | some true, _ => some (some (-linuxEnomem, x.2))
    | some false, some none => none
    | some false, some (some (table, index)) =>
      if p.forbidden (x.2 table index) then some (some (-linuxEacces, x.2)) else none
    | _, _ => some none
  else some (some (0, x.2))

end call

/-- `linux_mprotect`, with so many rounds at most. -/
def linuxMprotect (vmm : Virtual) (rounds : Nat) (m : Tables) (addr len : Word)
    (prot : BitVec 32) : Option (Option (Int × Tables)) :=
  if len = 0 then some (some (-linuxEinval, m))
  else if addr.toNat % 4096 ≠ 0 then some (some (-linuxEinval, m))
  else
    Loop.run (next vmm addr (.ofProt prot)) (stop vmm addr len (.ofProt prot))
      rounds (addr, m)

/-- The call returns `ret` and leaves the tables `m'`. -/
def Returns (vmm : Virtual) (m : Tables) (addr len : Word) (prot : BitVec 32) (ret : Int)
    (m' : Tables) : Prop :=
  ∃ rounds, linuxMprotect vmm rounds m addr len prot = some (some (ret, m'))

/-! ## Section 2: The assignments -/

theorem getLsbD_setField (raw : Word) {bit : Nat} (hbit : bit < 64) (value : Bool) (i : Nat) :
    (setField raw bit value).getLsbD i = if i = bit then value else raw.getLsbD i := by
  have hone : ∀ j, (1#64 <<< bit).getLsbD j = decide (j = bit) := by
    intro j
    simp only [BitVec.getLsbD_shiftLeft, BitVec.getLsbD_one]
    by_cases hj : j = bit
    · simp [hj, hbit]
    · simp [hj]
      omega
  by_cases hi : i = bit
  · subst hi
    cases value <;> simp [setField, hbit]
  · cases value with
    | true => simp [setField, hone, hi]
    | false =>
      simp only [setField, Bool.false_eq_true, if_false, BitVec.getLsbD_and, BitVec.getLsbD_not, hone,
        hi, decide_false, Bool.not_false, Bool.and_true]
      by_cases hlt : i < 64
      · simp [hlt]
      · simp [BitVec.getLsbD_of_ge raw i (by omega)]

/-- The words differ in the permissions at most. -/
def SameButPermissions (raw raw' : Word) : Prop :=
  ∀ i, i ≠ 1 → i ≠ 2 → raw'.getLsbD i = raw.getLsbD i

namespace SameButPermissions

variable {raw raw' : Word}

variable (h : SameButPermissions raw raw')

include h

theorem present : present raw' = present raw :=
  h 0 (by decide) (by decide)

theorem isPageSize : isPageSize raw' = isPageSize raw :=
  h 7 (by decide) (by decide)

theorem and_eq {mask : Word} (h1 : mask.getLsbD 1 = false) (h2 : mask.getLsbD 2 = false) :
    raw' &&& mask = raw &&& mask := by
  apply BitVec.eq_of_getLsbD_eq
  intro i _
  simp only [BitVec.getLsbD_and]
  by_cases hi1 : i = 1
  · rw [hi1, h1, Bool.and_false, Bool.and_false]
  · by_cases hi2 : i = 2
    · rw [hi2, h2, Bool.and_false, Bool.and_false]
    · rw [h i hi1 hi2]

theorem pointer : pointer raw' = pointer raw := by
  rw [pointer_eq, pointer_eq]
  exact h.and_eq (by decide) (by decide)

theorem decode (k : Nat) : decode k raw' = decode k raw := by
  cases k <;> simp only [Entry.decode, h.present, h.isPageSize, h.pointer]

end SameButPermissions

namespace Protection

variable (p : Protection) (raw : Word)

/-- The permissions are as asked for. -/
def Granted (raw : Word) : Prop := userSupervisor raw = p.read ∧ readWrite raw = p.write

theorem getLsbD_assign (i : Nat) :
    (p.assign raw).getLsbD i = if i = 1 then p.write else if i = 2 then p.read else raw.getLsbD i := by
  rw [assign, getLsbD_setField _ (by decide), getLsbD_setField _ (by decide)]

theorem granted_assign : p.Granted (p.assign raw) :=
  ⟨p.getLsbD_assign raw 2, p.getLsbD_assign raw 1⟩

theorem sameButPermissions_assign : SameButPermissions raw (p.assign raw) := by
  intro i h1 h2
  rw [getLsbD_assign, if_neg h1, if_neg h2]

variable {p raw}

theorem assign_of_granted (h : p.Granted raw) : p.assign raw = raw := by
  apply BitVec.eq_of_getLsbD_eq
  intro i _
  rw [getLsbD_assign]
  split
  · next hi => rw [hi]; exact h.2.symm
  · split
    · next hi => rw [hi]; exact h.1.symm
    · rfl

theorem not_forbidden_of_granted (hpresent : present raw = true) (h : p.Granted raw) :
    p.forbidden raw = false := by
  rw [forbidden, hpresent, h.1, h.2]
  cases p.read <;> cases p.write <;> rfl

end Protection

/-- The tables differ in permissions at most. -/
def TablesAlike (m m' : Tables) : Prop := ∀ table index, SameButPermissions (m table index) (m' table index)

namespace TablesAlike

variable {m m' : Tables} (vmm : Virtual)

theorem check (h : TablesAlike m m') (v : Word) :
    vmm.check m' v PTFlag.g.mask = vmm.check m v PTFlag.g.mask := by
  have hand : ∀ table index, m' table index &&& PTFlag.g.mask = m table index &&& PTFlag.g.mask :=
    fun table index => (h table index).and_eq (by decide) (by decide)
  simp only [Virtual.check, (h _ _).present, (h _ _).isPageSize, (h _ _).pointer, hand]

theorem getPTE (h : TablesAlike m m') (v : Word) : vmm.getPTE m' v = vmm.getPTE m v := by
  simp only [Virtual.getPTE, (h _ _).present, (h _ _).pointer]

theorem locate (h : TablesAlike m m') (f : Word) (path : List TableIndex) :
    Radix.locate decode m' f path = Radix.locate decode m f path :=
  Radix.locate_congr (fun k table index => (h table index).decode k) f path

end TablesAlike

section assigned

variable {vmm : Virtual} {addr : Word} {p : Protection} {m : Tables}

theorem assigned_some {place : Place} (h : vmm.getPTE m addr = some (some place)) :
    assigned vmm addr p m = Radix.write m place.1 place.2 (p.assign (m place.1 place.2)) := by
  rw [assigned, h]

theorem assigned_of_not_some (h : ∀ place, vmm.getPTE m addr ≠ some (some place)) :
    assigned vmm addr p m = m := by
  rcases hfound : vmm.getPTE m addr with _ | _ | place
  · rw [assigned, hfound]
  · rw [assigned, hfound]
  · exact absurd hfound (h place)

theorem assigned_apply (vmm : Virtual) (addr : Word) (p : Protection) (m : Tables) (table : Word)
    (index : TableIndex) :
    (vmm.getPTE m addr = some (some (table, index)) ∧
        assigned vmm addr p m table index = p.assign (m table index)) ∨
      (vmm.getPTE m addr ≠ some (some (table, index)) ∧
        assigned vmm addr p m table index = m table index) := by
  by_cases hat : vmm.getPTE m addr = some (some (table, index))
  · refine .inl ⟨hat, ?_⟩
    rw [assigned_some hat, write_self]
  · refine .inr ⟨hat, ?_⟩
    by_cases hsome : ∃ place, vmm.getPTE m addr = some (some place)
    · obtain ⟨⟨t, i⟩, hplace⟩ := hsome
      rw [assigned_some hplace, write_of_ne_index]
      by_contra hboth
      simp only [not_or, ne_eq, not_not] at hboth
      exact hat (by rw [hplace, hboth.1, hboth.2])
    · rw [assigned_of_not_some fun place hplace => hsome ⟨place, hplace⟩]

theorem tablesAlike_assigned (vmm : Virtual) (addr : Word) (p : Protection) (m : Tables) :
    TablesAlike m (assigned vmm addr p m) := by
  intro table index
  rcases assigned_apply vmm addr p m table index with ⟨-, heq⟩ | ⟨-, heq⟩
  · rw [heq]
    exact p.sameButPermissions_assign _
  · rw [heq]
    exact fun _ _ _ => rfl

theorem assigned_assigned : assigned vmm addr p (assigned vmm addr p m) = assigned vmm addr p m := by
  have hsame := (tablesAlike_assigned vmm addr p m).getPTE vmm addr
  by_cases hsome : ∃ place, vmm.getPTE m addr = some (some place)
  · obtain ⟨place, h⟩ := hsome
    rw [assigned_some (hsame.trans h), assigned_some h, write_self,
      Protection.assign_of_granted (p.granted_assign _), write_write]
  · exact assigned_of_not_some fun place hplace => hsome ⟨place, hsame.symm.trans hplace⟩

theorem present_of_getPTE {place : Place} (h : vmm.getPTE m addr = some (some place)) :
    present (m place.1 place.2) = true := by
  obtain ⟨index, -, h⟩ := Option.map_eq_some_iff.mp h
  dsimp only at h
  split at h
  · cases h
  split at h
  · cases h
  split at h
  · cases h
  split at h
  · next hpresent =>
    cases h
    exact hpresent
  · cases h

end assigned

/-! ## Section 3: The loop -/

section loop

variable (vmm : Virtual) (m : Tables) (addr len : Word) (p : Protection)

/-- The page that the loop has come to. -/
def visited : Nat → Word
  | 0 => addr
  | k + 1 => visited k + 4096#64

/-- The first `n` pages are in the range, and none is global. -/
def Clear (n : Nat) : Prop :=
  ∀ k < n, visited addr k < addr + len ∧ vmm.check m (visited addr k) PTFlag.g.mask = some false

/-- No page of the range is global. -/
def Completes : Prop := ∃ n, Clear vmm m addr len n ∧ ¬ visited addr n < addr + len

/-- A page of the range is global. -/
def Interrupted : Prop :=
  ∃ n, Clear vmm m addr len n ∧ visited addr n < addr + len ∧
    vmm.check m (visited addr n) PTFlag.g.mask = some true

/-- The entry of the first page, if there is one, lacks a permission that is asked for. -/
def Forbidden : Prop :=
  ∃ place : Place, vmm.getPTE m addr = some (some place) ∧ p.forbidden (m place.1 place.2) = true

/-- The call fails before it has changed anything. -/
def Refused : Prop := vmm.check m addr PTFlag.g.mask = some true ∨ Forbidden vmm m addr p

variable {vmm m addr len p} {i : Word} {ret : Int} {m' : Tables}

theorem stop_some_iff :
    stop vmm addr len p (i, m) = some (some (ret, m')) ↔
      m' = m ∧ ((¬ i < addr + len ∧ ret = 0) ∨
        (i < addr + len ∧ vmm.check m i PTFlag.g.mask = some true ∧ ret = -linuxEnomem) ∨
        (i < addr + len ∧ vmm.check m i PTFlag.g.mask = some false ∧ Forbidden vmm m addr p ∧
          ret = -linuxEacces)) := by
  by_cases hi : i < addr + len
  · rcases hcheck : vmm.check m i PTFlag.g.mask with _ | _ | _
    · simp [stop, hi, hcheck]
    · rcases hpte : vmm.getPTE m addr with _ | _ | ⟨t, j⟩
      · simp [stop, hi, hcheck, hpte, Forbidden]
      · simp [stop, hi, hcheck, hpte, Forbidden]
      · by_cases hforbidden : p.forbidden (m t j) = true
        · simp [stop, hi, hcheck, hpte, Forbidden, hforbidden]
          exact ⟨fun h => ⟨h.2.symm, h.1.symm⟩, fun h => ⟨h.2.symm, h.1.symm⟩⟩
        · simp [stop, hi, hcheck, hpte, Forbidden, hforbidden]
    · simp [stop, hi, hcheck]
      exact ⟨fun h => ⟨h.2.symm, h.1.symm⟩, fun h => ⟨h.2.symm, h.1.symm⟩⟩
  · simp [stop, hi]
    exact ⟨fun h => ⟨h.2.symm, h.1.symm⟩, fun h => ⟨h.2.symm, h.1.symm⟩⟩

theorem stop_none_iff :
    stop vmm addr len p (i, m) = none ↔
      i < addr + len ∧ vmm.check m i PTFlag.g.mask = some false ∧
        (∃ found, vmm.getPTE m addr = some found) ∧ ¬ Forbidden vmm m addr p := by
  by_cases hi : i < addr + len
  · rcases hcheck : vmm.check m i PTFlag.g.mask with _ | _ | _
    · simp [stop, hi, hcheck]
    · rcases hpte : vmm.getPTE m addr with _ | _ | ⟨t, j⟩
      · simp [stop, hi, hcheck, hpte]
      · simp [stop, hi, hcheck, hpte, Forbidden]
      · by_cases hforbidden : p.forbidden (m t j) = true
        · simp [stop, hi, hcheck, hpte, Forbidden, hforbidden]
        · simp [stop, hi, hcheck, hpte, Forbidden, hforbidden]
    · simp [stop, hi, hcheck]
  · simp [stop, hi]

theorem not_forbidden_assigned : ¬ Forbidden vmm (assigned vmm addr p m) addr p := by
  rintro ⟨place, hplace, hforbidden⟩
  rw [(tablesAlike_assigned vmm addr p m).getPTE vmm addr] at hplace
  have hpresent := present_of_getPTE hplace
  rw [assigned_some hplace, write_self, Protection.not_forbidden_of_granted _ (p.granted_assign _)]
    at hforbidden
  · cases hforbidden
  · rw [(p.sameButPermissions_assign _).present]
    exact hpresent

theorem iterate_next (k : Nat) :
    (next vmm addr p)^[k + 1] (addr, m) = (visited addr (k + 1), assigned vmm addr p m) := by
  induction k with
  | zero => rfl
  | succ k ih =>
    rw [Function.iterate_succ_apply', ih, next, assigned_assigned]
    rfl

/-- The first round goes on. -/
def Starts (vmm : Virtual) (m : Tables) (addr : Word) (p : Protection) : Prop :=
  vmm.check m addr PTFlag.g.mask = some false ∧ (∃ found, vmm.getPTE m addr = some found) ∧
    ¬ Forbidden vmm m addr p

theorem reachesAt_iff (hrange : addr < addr + len) (k : Nat) :
    Loop.ReachesAt (next vmm addr p) (stop vmm addr len p) (addr, m) (k + 1) ↔
      Starts vmm m addr p ∧ Clear vmm m addr len (k + 1) := by
  have halike := tablesAlike_assigned vmm addr p m
  constructor
  · intro h
    have hfirst := h 0 (by omega)
    rw [Function.iterate_zero_apply, stop_none_iff] at hfirst
    refine ⟨hfirst.2, fun j hj => ?_⟩
    cases j with
    | zero => exact ⟨hfirst.1, hfirst.2.1⟩
    | succ j =>
      have hround := h (j + 1) hj
      rw [iterate_next, stop_none_iff, halike.check vmm] at hround
      exact ⟨hround.1, hround.2.1⟩
  · rintro ⟨⟨hcheck, hfound, hallowed⟩, hclear⟩ j hj
    cases j with
    | zero =>
      rw [Function.iterate_zero_apply, stop_none_iff]
      exact ⟨hrange, hcheck, hfound, hallowed⟩
    | succ j =>
      rw [iterate_next, stop_none_iff, halike.check vmm, halike.getPTE vmm]
      exact ⟨(hclear (j + 1) hj).1, (hclear (j + 1) hj).2, hfound, not_forbidden_assigned⟩

theorem returns_iff {prot : BitVec 32} (haligned : addr.toNat % 4096 = 0) (hlen : len ≠ 0)
    (hrange : addr < addr + len) :
    Returns vmm m addr len prot ret m' ↔
      (m' = m ∧ ((vmm.check m addr PTFlag.g.mask = some true ∧ ret = -linuxEnomem) ∨
        (vmm.check m addr PTFlag.g.mask = some false ∧ Forbidden vmm m addr (.ofProt prot) ∧
          ret = -linuxEacces))) ∨
      (Starts vmm m addr (.ofProt prot) ∧ m' = assigned vmm addr (.ofProt prot) m ∧
        ((Completes vmm m addr len ∧ ret = 0) ∨
          (Interrupted vmm m addr len ∧ ret = -linuxEnomem))) := by
  have halike := tablesAlike_assigned vmm addr (.ofProt prot) m
  have hloop : Returns vmm m addr len prot ret m' ↔
      ∃ k, Loop.ReachesAt (next vmm addr (.ofProt prot)) (stop vmm addr len (.ofProt prot))
        (addr, m) k ∧ stop vmm addr len (.ofProt prot)
          ((next vmm addr (.ofProt prot))^[k] (addr, m)) = some (some (ret, m')) := by
    simp only [Returns, linuxMprotect, if_neg hlen, haligned, ne_eq, not_true, if_false,
      Loop.run_eq_some_iff]
    constructor
    · rintro ⟨_, k, -, h⟩
      exact ⟨k, h⟩
    · rintro ⟨k, h⟩
      exact ⟨k + 1, k, by omega, h⟩
  rw [hloop]
  constructor
  · rintro ⟨k, hreach, hstop⟩
    cases k with
    | zero =>
      rw [Function.iterate_zero_apply, stop_some_iff] at hstop
      obtain ⟨hm, ⟨hout, -⟩ | ⟨-, hglobal, hret⟩ | ⟨-, hcheck, hforbidden, hret⟩⟩ := hstop
      · exact absurd hrange hout
      · exact .inl ⟨hm, .inl ⟨hglobal, hret⟩⟩
      · exact .inl ⟨hm, .inr ⟨hcheck, hforbidden, hret⟩⟩
    | succ k =>
      rw [reachesAt_iff hrange] at hreach
      rw [iterate_next, stop_some_iff, halike.check vmm] at hstop
      obtain ⟨hm, ⟨hout, hret⟩ | ⟨hin, hglobal, hret⟩ | ⟨-, -, hforbidden, -⟩⟩ := hstop
      · exact .inr ⟨hreach.1, hm, .inl ⟨⟨k + 1, hreach.2, hout⟩, hret⟩⟩
      · exact .inr ⟨hreach.1, hm, .inr ⟨⟨k + 1, hreach.2, hin, hglobal⟩, hret⟩⟩
      · exact absurd hforbidden not_forbidden_assigned
  · rintro (⟨hm, hfirst⟩ | ⟨hstarts, hm, hlater⟩)
    · refine ⟨0, fun j hj => by omega, ?_⟩
      rw [Function.iterate_zero_apply, stop_some_iff]
      refine ⟨hm, .inr ?_⟩
      obtain ⟨hglobal, hret⟩ | ⟨hcheck, hforbidden, hret⟩ := hfirst
      · exact .inl ⟨hrange, hglobal, hret⟩
      · exact .inr ⟨hrange, hcheck, hforbidden, hret⟩
    · -- The loop does not end in its first round.
      have hround : ∀ n, Clear vmm m addr len n → (¬ visited addr n < addr + len ∨
          vmm.check m (visited addr n) PTFlag.g.mask = some true) → ∃ k, n = k + 1 := by
        intro n _ hend
        cases n with
        | zero =>
          obtain hout | hglobal := hend
          · exact absurd hrange hout
          · cases hstarts.1.symm.trans hglobal
        | succ k => exact ⟨k, rfl⟩
      obtain ⟨⟨n, hclear, hout⟩, hret⟩ | ⟨⟨n, hclear, hin, hglobal⟩, hret⟩ := hlater
      · obtain ⟨k, rfl⟩ := hround n hclear (.inl hout)
        refine ⟨k + 1, (reachesAt_iff hrange k).mpr ⟨hstarts, hclear⟩, ?_⟩
        rw [iterate_next, stop_some_iff]
        exact ⟨hm, .inl ⟨hout, hret⟩⟩
      · obtain ⟨k, rfl⟩ := hround n hclear (.inr hglobal)
        refine ⟨k + 1, (reachesAt_iff hrange k).mpr ⟨hstarts, hclear⟩, ?_⟩
        rw [iterate_next, stop_some_iff, halike.check vmm]
        exact ⟨hm, .inr (.inl ⟨hin, hglobal, hret⟩)⟩

theorem starts_of_clear {n : Nat} (hclear : Clear vmm m addr len (n + 1))
    (hrefused : ¬ Refused vmm m addr p) : Starts vmm m addr p := by
  have hcheck := (hclear 0 (by omega)).2
  obtain ⟨index, hindex, -⟩ := Option.map_eq_some_iff.mp hcheck
  have hfound : ∃ found, vmm.getPTE m addr = some found := by
    rw [Virtual.getPTE, show pageMapIndexer (pageBase addr) = some index from hindex]
    exact ⟨_, rfl⟩
  exact ⟨hcheck, hfound, fun hforbidden => hrefused (.inr hforbidden)⟩

theorem Starts.not_refused (h : Starts vmm m addr p) : ¬ Refused vmm m addr p := by
  rintro (hglobal | hforbidden)
  · cases h.1.symm.trans hglobal
  · exact h.2.2 hforbidden

theorem Completes.starts (h : Completes vmm m addr len) (hrange : addr < addr + len)
    (hrefused : ¬ Refused vmm m addr p) : Starts vmm m addr p := by
  obtain ⟨n, hclear, hout⟩ := h
  cases n with
  | zero => exact absurd hrange hout
  | succ n => exact starts_of_clear hclear hrefused

theorem Interrupted.starts (h : Interrupted vmm m addr len)
    (hrefused : ¬ Refused vmm m addr p) : Starts vmm m addr p := by
  obtain ⟨n, hclear, -, hglobal⟩ := h
  cases n with
  | zero => exact absurd (.inl hglobal) hrefused
  | succ n => exact starts_of_clear hclear hrefused

end loop

/-! ## Section 4: What mprotect is for -/

section right

variable (vmm : Virtual) (m : Tables) (addr len : Word) (p : Protection)

/-- The place of the entry that translates `v`. -/
def placeOf (v : Word) : Option Place :=
  if Canonical v then Radix.locate decode m vmm.pTable (PageMapIndexer.ofAddress v).path else none

/-- The entry that translates `v`. -/
def entryOf (v : Word) : Option Word := if Canonical v then leaf vmm m v else none

/-- The page of `v` has bytes in the range. -/
def Overlaps (v : Word) : Prop :=
  (pageBase v).toNat < addr.toNat + len.toNat ∧ addr.toNat < (pageBase v).toNat + 4096

/-- The pages of the range get the permissions and no other page changes, or none does. -/
structure ProtectsRight (ret : Int) (m' : Tables) : Prop where
  granted : ret = 0 → ∀ v, Overlaps addr len v → ∃ e, entryOf vmm m' v = some e ∧ p.Granted e
  others : ret = 0 → ∀ v, ¬ Overlaps addr len v → entryOf vmm m' v = entryOf vmm m v
  failed : ret ≠ 0 → ∀ v, entryOf vmm m' v = entryOf vmm m v

/-- The entry that `GetPTE` finds for `addr` is that of `v`, and it has other permissions. -/
def Changes (v : Word) : Prop :=
  ∃ place : Place, placeOf vmm m v = some place ∧ vmm.getPTE m addr = some (some place) ∧
    ¬ p.Granted (m place.1 place.2)

/-- The page of `v` has the permissions already, or its entry is the one that `GetPTE` finds
    for `addr`. -/
def Granting (v : Word) : Prop :=
  ∃ place : Place, placeOf vmm m v = some place ∧
    (vmm.getPTE m addr = some (some place) ∨ p.Granted (m place.1 place.2))

/-- When the call is right: it is refused at once; or no page of the range is global, all of
    them but the first have the permissions already and the entry of the first is no other
    page's; or some page is global and the first has the permissions already. -/
def Harmless : Prop :=
  ¬ Refused vmm m addr p →
    (Completes vmm m addr len →
      (∀ v, Overlaps addr len v → Granting vmm m addr p v) ∧
      ∀ v, ¬ Overlaps addr len v → ¬ Changes vmm m addr p v) ∧
    (Interrupted vmm m addr len → ∀ v, ¬ Changes vmm m addr p v)

variable {vmm m addr len p} {v : Word}

theorem entryOf_eq : entryOf vmm m v = (placeOf vmm m v).map fun q => m q.1 q.2 := by
  unfold entryOf placeOf
  split
  · exact (map_locate _ _).symm
  · rfl

theorem placeOf_assigned : placeOf vmm (assigned vmm addr p m) v = placeOf vmm m v := by
  unfold placeOf
  rw [(tablesAlike_assigned vmm addr p m).locate]

theorem entryOf_assigned :
    entryOf vmm (assigned vmm addr p m) v =
      (placeOf vmm m v).map fun q => assigned vmm addr p m q.1 q.2 := by
  rw [entryOf_eq, placeOf_assigned]

theorem entryOf_assigned_eq_iff :
    entryOf vmm (assigned vmm addr p m) v = entryOf vmm m v ↔ ¬ Changes vmm m addr p v := by
  rw [entryOf_assigned, entryOf_eq]
  cases hplace : placeOf vmm m v with
  | none =>
    refine iff_of_true rfl ?_
    rintro ⟨place, heq, -⟩
    cases hplace.symm.trans heq
  | some place =>
    simp only [Option.map_some, Option.some.injEq]
    constructor
    · rintro heq ⟨place', hplace', hpte, hgranted⟩
      obtain rfl := Option.mem_unique hplace hplace'
      rw [assigned_some hpte, write_self] at heq
      exact hgranted (heq ▸ p.granted_assign _)
    · intro hsame
      obtain ⟨hpte, heq⟩ | ⟨-, heq⟩ := assigned_apply vmm addr p m place.1 place.2
      · rw [heq]
        refine Protection.assign_of_granted ?_
        by_contra hgranted
        exact hsame ⟨place, hplace, hpte, hgranted⟩
      · exact heq

theorem granted_assigned_iff :
    (∃ e, entryOf vmm (assigned vmm addr p m) v = some e ∧ p.Granted e) ↔
      Granting vmm m addr p v := by
  rw [entryOf_assigned]
  constructor
  · rintro ⟨e, he, hgranted⟩
    obtain ⟨place, hplace, rfl⟩ := Option.map_eq_some_iff.mp he
    refine ⟨place, hplace, ?_⟩
    obtain ⟨hpte, -⟩ | ⟨-, heq⟩ := assigned_apply vmm addr p m place.1 place.2
    · exact .inl hpte
    · rw [heq] at hgranted
      exact .inr hgranted
  · rintro ⟨place, hplace, hcase⟩
    refine ⟨assigned vmm addr p m place.1 place.2, by rw [hplace]; rfl, ?_⟩
    obtain ⟨-, heq⟩ | ⟨hpte, heq⟩ := assigned_apply vmm addr p m place.1 place.2
    · rw [heq]
      exact p.granted_assign _
    · rw [heq]
      exact hcase.resolve_left hpte

/-- **mprotect.** Whatever the call returns, it is right exactly if the state before it is
    `Harmless`. -/
theorem mprotect_right_iff (prot : BitVec 32) (haligned : addr.toNat % 4096 = 0) (hlen : len ≠ 0)
    (hover : addr.toNat + len.toNat < 2 ^ 64) :
    (∀ ret m', Returns vmm m addr len prot ret m' →
        ProtectsRight vmm m addr len (.ofProt prot) ret m') ↔
      Harmless vmm m addr len (.ofProt prot) := by
  have hrange : addr < addr + len := by
    have hpos : 0 < len.toNat := by
      by_contra hzero
      exact hlen (BitVec.eq_of_toNat_eq (by simpa using hzero))
    rw [BitVec.lt_def, BitVec.toNat_add_of_lt hover]
    omega
  have herror : -linuxEnomem ≠ 0 ∧ -linuxEacces ≠ 0 := by decide
  constructor
  · intro hright hrefused
    refine ⟨fun hcompletes => ?_, fun hinterrupted v => ?_⟩
    · have hstarts := hcompletes.starts hrange hrefused
      have hall := hright 0 _ ((returns_iff haligned hlen hrange).mpr
        (.inr ⟨hstarts, rfl, .inl ⟨hcompletes, rfl⟩⟩))
      exact ⟨fun v hv => granted_assigned_iff.mp (hall.granted rfl v hv),
        fun v hv => entryOf_assigned_eq_iff.mp (hall.others rfl v hv)⟩
    · have hstarts := hinterrupted.starts hrefused
      have hall := hright (-linuxEnomem) _ ((returns_iff haligned hlen hrange).mpr
        (.inr ⟨hstarts, rfl, .inr ⟨hinterrupted, rfl⟩⟩))
      exact entryOf_assigned_eq_iff.mp (hall.failed herror.1 v)
  · intro hharmless ret m' hreturns
    rw [returns_iff haligned hlen hrange] at hreturns
    obtain ⟨rfl, ⟨-, rfl⟩ | ⟨-, -, rfl⟩⟩ | ⟨hstarts, rfl, hlater⟩ := hreturns
    · exact ⟨fun h => absurd h herror.1, fun h => absurd h herror.1, fun _ _ => rfl⟩
    · exact ⟨fun h => absurd h herror.2, fun h => absurd h herror.2, fun _ _ => rfl⟩
    · obtain ⟨hcomplete, hinterrupt⟩ := hharmless hstarts.not_refused
      obtain ⟨hcompletes, rfl⟩ | ⟨hinterrupted, rfl⟩ := hlater
      · obtain ⟨hgranted, hothers⟩ := hcomplete hcompletes
        exact ⟨fun _ v hv => granted_assigned_iff.mpr (hgranted v hv),
          fun _ v hv => entryOf_assigned_eq_iff.mpr (hothers v hv), fun h => absurd rfl h⟩
      · exact ⟨fun h => absurd h herror.1, fun h => absurd h herror.1,
          fun _ v => entryOf_assigned_eq_iff.mpr (hinterrupt hinterrupted v)⟩

/-- Pages 5 and 6 are mapped with all permissions. -/
def exampleTables : Tables := fun table index =>
  if table = 0x1000#64 ∧ index = 0 then 0x2007#64
  else if table = 0x2000#64 ∧ index = 0 then 0x3007#64
  else if table = 0x3000#64 ∧ index = 0 then 0x4007#64
  else if table = 0x4000#64 ∧ index = 5 then 0x9007#64
  else if table = 0x4000#64 ∧ index = 6 then 0xA007#64
  else 0

theorem harmless_page : Harmless ⟨0x1000#64⟩ exampleTables 0x5000#64 0x1000#64 (.ofProt 3) := by
  have hpte : Virtual.getPTE ⟨0x1000#64⟩ exampleTables 0x5000#64 = some (some (0x4000#64, 5)) := by
    decide +kernel
  have hgranted : (Protection.ofProt 3).Granted (exampleTables 0x4000#64 5) := by
    unfold Protection.Granted
    decide +kernel
  have hchanges : ∀ v, ¬ Changes ⟨0x1000#64⟩ exampleTables 0x5000#64 (.ofProt 3) v := by
    rintro v ⟨place, -, hplace, hnot⟩
    obtain rfl := Option.some.inj (Option.mem_unique hpte hplace)
    exact hnot hgranted
  intro _
  refine ⟨fun _ => ⟨fun v hv => ?_, fun v _ => hchanges v⟩, fun _ => hchanges⟩
  have hpage : pageBase v = 0x5000#64 := by
    apply BitVec.eq_of_toNat_eq
    have hbase := pageBase_toNat v
    obtain ⟨hlow, hhigh⟩ := hv
    simp only [BitVec.toNat_ofNat] at hlow hhigh ⊢
    omega
  have hcanonical : Canonical v := by
    have hbase := pageBase_toNat v
    rw [hpage] at hbase
    left
    simp only [BitVec.toNat_ofNat] at hbase
    omega
  refine ⟨(0x4000#64, 5), ?_, .inl hpte⟩
  rw [placeOf, if_pos hcanonical, ← PageMapIndexer.ofAddress_pageBase, hpage]
  decide +kernel

/-- The call returns 0, and rightly. -/
theorem mprotect_right_page :
    ∃ m', Returns ⟨0x1000#64⟩ exampleTables 0x5000#64 0x1000#64 3 0 m' ∧
      ProtectsRight ⟨0x1000#64⟩ exampleTables 0x5000#64 0x1000#64 (.ofProt 3) 0 m' := by
  have hrun : (linuxMprotect ⟨0x1000#64⟩ 2 exampleTables 0x5000#64 0x1000#64 3).bind
      (Option.map Prod.fst) = some 0 := by decide +kernel
  obtain ⟨r, hr, hmap⟩ := Option.bind_eq_some_iff.mp hrun
  obtain ⟨⟨ret, m'⟩, rfl, rfl⟩ := Option.map_eq_some_iff.mp hmap
  exact ⟨m', ⟨2, hr⟩,
    (mprotect_right_iff 3 (by decide) (by decide) (by decide)).mpr harmless_page _ m' ⟨2, hr⟩⟩

/-- `PROT_READ` for pages 5 and 6: the call returns 0, and page 6 can still be written. -/
theorem mprotect_misses_second_page :
    ∃ m', Returns ⟨0x1000#64⟩ exampleTables 0x5000#64 0x2000#64 1 0 m' ∧
      entryOf ⟨0x1000#64⟩ m' 0x6000#64 = some 0xA007#64 ∧
      ¬ ProtectsRight ⟨0x1000#64⟩ exampleTables 0x5000#64 0x2000#64 (.ofProt 1) 0 m' := by
  obtain ⟨r, hr, m', rfl, hentry⟩ : ∃ r,
      linuxMprotect ⟨0x1000#64⟩ 3 exampleTables 0x5000#64 0x2000#64 1 = some r ∧
      ∃ m', r = some (0, m') ∧ entryOf ⟨0x1000#64⟩ m' 0x6000#64 = some 0xA007#64 := by
    decide +kernel
  refine ⟨m', ⟨3, hr⟩, hentry, fun hright => ?_⟩
  have hoverlaps : Overlaps 0x5000#64 0x2000#64 0x6000#64 := by
    unfold Overlaps
    decide +kernel
  obtain ⟨e, he, hgranted⟩ := hright.granted rfl 0x6000#64 hoverlaps
  obtain rfl := Option.mem_unique hentry he
  have hwrite := hgranted.2
  revert hwrite
  decide +kernel

end right

end Mprotect

end Fennix.Memory
