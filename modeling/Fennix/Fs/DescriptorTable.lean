import Fennix.Fs.Descriptor
import Fennix.Framework.System

/-! # The descriptor table over runs

    What each of `usr_open`, `usr_dup`, `usr_dup2` and `usr_close` can do to the
    table and to the nodes, said once per call, and runs of these calls on one
    table. What a descriptor names stays there, so a close always returns.
-/

namespace Fennix.Fs.FileDescriptorTable

open Fennix.Fs.Path
open Option (map_eq_some_iff bind_eq_some_iff)

variable {σ : Type} (fs : Nat → InodeOperations σ) (pcb : Pcb)

/-! ## Section 1: The map and its free numbers -/

variable {fd : Int} {s : FileDescriptorTable σ}

theorem insert_of_none {fileMap : FileMap} (h : fileMap fd = none) (f : Fildes) :
    fileMap.insert fd f = Function.update fileMap fd (some f) := by
  rw [FileMap.insert, h]
  rfl

theorem asInt_of_lt {i : Nat} (h : i < 2 ^ 31) : asInt i = i := by
  rw [asInt, BitVec.toInt_eq_toNat_cond, BitVec.toNat_ofNat, Nat.mod_eq_of_lt (by omega),
    if_pos (by omega)]

theorem asInt_le (i : Nat) : asInt i ≤ i ∧ asInt i < 2 ^ 31 := by
  have hmod : i % 2 ^ 32 ≤ i := Nat.mod_le _ _
  have hlt : i % 2 ^ 32 < 2 ^ 32 := Nat.mod_lt _ (by decide)
  rw [asInt, BitVec.toInt_eq_toNat_cond, BitVec.toNat_ofNat]
  split
  · omega
  · omega

theorem free_spec {fileMap : FileMap} (h : 0 ≤ getFreeFileDescriptor pcb fileMap) :
    fileMap (getFreeFileDescriptor pcb fileMap) = none ∧
      getFreeFileDescriptor pcb fileMap < pcb.openFiles ∧
      ∀ fd, 0 ≤ fd → fd < getFreeFileDescriptor pcb fileMap → fileMap fd ≠ none := by
  cases hfind : (List.range pcb.openFiles).find? (fun i => (fileMap (asInt i)).isNone) with
  | none =>
    rw [getFreeFileDescriptor, hfind] at h
    exact absurd h (by decide)
  | some i =>
    have hfree : getFreeFileDescriptor pcb fileMap = asInt i := by
      rw [getFreeFileDescriptor, hfind]
    rw [hfree] at h ⊢
    obtain ⟨hnone, hi, hbefore⟩ := List.find?_range_eq_some.mp hfind
    obtain ⟨hle, hlt⟩ := asInt_le i
    have hused : ∀ j < i, fileMap (asInt j) ≠ none := by
      intro j hj hfree
      have hnot := hbefore j hj
      rw [hfree] at hnot
      cases hnot
    -- a wrapped number would have been found before
    have hself : asInt (asInt i).toNat = asInt i := by
      rw [asInt_of_lt (by omega)]
      omega
    have hnot : ¬(asInt i).toNat < i := by
      intro hj
      have hwrapped := hused _ hj
      rw [hself] at hwrapped
      exact hwrapped (Option.isNone_iff_eq_none.mp hnone)
    have hi' := List.mem_range.mp hi
    refine ⟨Option.isNone_iff_eq_none.mp hnone, by omega, ?_⟩
    intro fd hpos hfd
    have hfd' : asInt fd.toNat = fd := by
      rw [asInt_of_lt (by omega)]
      omega
    exact hfd' ▸ hused fd.toNat (by omega)

/-! ## Section 2: What a call can do -/

/-- The `Error` of `Lookup`, if any. -/
def lookupError (v : Vfs σ) (path : Str) : Option Int :=
  (v.lookup fs pcb.cwd path).bind fun (ret, _) =>
    match ret with
    | .error c => some c
    | .ok _ => none

/-- The `Error` of `Create` or `Lookup` with which `usr_open` gives up, if it
    does. -/
def openError (s : FileDescriptorTable σ) (pathname : Option Str) (flags mode : BitVec 32) :
    Option Int :=
  pathname.bind fun path =>
    if probeMode mode flags < 0 then none
    else
      (creation fs pcb s.vfs path mode flags).bind fun (refused, v) =>
        refused.or (lookupError fs pcb v path)

section Cases

variable {fs pcb}
variable {s s' : FileDescriptorTable σ} {ret fd oldfd newfd : Int}

variable {flags : BitVec 32}

theorem creation_grows {v v' : Vfs σ} {path : Str} {mode : BitVec 32} {refused : Option Int}
    (h : creation fs pcb v path mode flags = some (refused, v')) : v.Grows v' := by
  unfold creation at h
  split at h
  · cases h
    exact .refl _
  · obtain ⟨⟨result, mid⟩, hcreate, h⟩ := map_eq_some_iff.mp h
    have hmid : mid = v' := by
      dsimp only at h
      split at h
      · exact (Prod.mk.inj h).2
      · exact (Prod.mk.inj h).2
    exact hmid ▸ Vfs.createNode_grows fs hcreate

theorem preparation_grows {v v' : Vfs σ} {node : Nat} {offset : Int}
    (h : preparation fs pcb v node flags = some (offset, v')) : v.Grows v' := by
  obtain ⟨mid, hmid, h⟩ := bind_eq_some_iff.mp h
  have htruncate : v.Grows mid := by
    split at hmid
    · cases hmid
      exact .refl _
    · obtain ⟨⟨r, mid'⟩, htruncate, rfl⟩ := map_eq_some_iff.mp hmid
      exact Vfs.truncate_grows fs htruncate
  refine htruncate.trans ?_
  split at h
  · cases h
    exact .refl _
  · obtain ⟨size, -, h⟩ := bind_eq_some_iff.mp h
    obtain ⟨x, -, h⟩ := map_eq_some_iff.mp h
    cases h
    exact .refl _

theorem installation_cases {fdn : Int} {f : Fildes} {path : Str}
    (h : installation fs pcb s fdn f path = some (ret, s')) :
    ret = fdn ∧ s'.fileMap = s.fileMap.insert fdn f ∧ s.vfs.Grows s'.vfs := by
  obtain ⟨⟨link, mid⟩, hlink, h⟩ := bind_eq_some_iff.mp h
  dsimp only at h
  split at h
  · cases h
  · obtain ⟨⟨r, v'⟩, hopen, h⟩ := map_eq_some_iff.mp h
    cases h
    exact ⟨rfl, rfl, (Vfs.createNode_grows fs hlink).trans (Vfs.openNode_grows fs hopen)⟩

/-- `usr_open` either leaves the table alone, or it installs the node that it
    has looked up under a free number. -/
theorem usrOpen_cases {pathname : Option Str} {mode : BitVec 32}
    (h : s.usrOpen fs pcb pathname flags mode = some (ret, s')) :
    s.vfs.Grows s'.vfs ∧
    ((s'.fileMap = s.fileMap ∧
        ((ret < 0 ∧ openError fs pcb s pathname flags mode = none) ∨
          ∃ c, openError fs pcb s pathname flags mode = some c ∧ ret = -c)) ∨
      ∃ path f, pathname = some path ∧ openError fs pcb s pathname flags mode = none ∧ 0 ≤ ret ∧
        ret = getFreeFileDescriptor pcb s.fileMap ∧
        s'.fileMap = Function.update s.fileMap ret (some f) ∧
        s'.vfs.lookup fs pcb.cwd path = some (.ok f.node, s'.vfs)) := by
  cases pathname with
  | none =>
    cases h
    exact ⟨.refl _, Or.inl ⟨rfl, Or.inl ⟨by decide, rfl⟩⟩⟩
  | some path =>
    unfold usrOpen addFileDescriptor at h
    dsimp only at h
    split at h
    · rename_i hprobe
      cases h
      refine ⟨.refl _, Or.inl ⟨rfl, Or.inl ⟨by decide, ?_⟩⟩⟩
      rw [openError, Option.bind_some, if_pos hprobe]
    · rename_i hprobe
      obtain ⟨⟨refused, v⟩, hcreation, h⟩ := bind_eq_some_iff.mp h
      have hgrows := creation_grows hcreation
      have herror : openError fs pcb s (some path) flags mode =
          refused.or (lookupError fs pcb v path) := by
        rw [openError, Option.bind_some, if_neg hprobe, hcreation, Option.bind_some]
      dsimp only at h
      split at h
      · -- creation is refused
        rename_i c
        cases h
        exact ⟨hgrows, Or.inl ⟨rfl, Or.inr ⟨c, herror, rfl⟩⟩⟩
      · obtain ⟨⟨found, v'⟩, hlookup, h⟩ := bind_eq_some_iff.mp h
        obtain ⟨hgrows', -, hagain⟩ := Vfs.lookup_spec fs hlookup
        rw [Option.none_or, lookupError, hlookup, Option.bind_some] at herror
        dsimp only at h
        split at h
        · -- the path is not found
          rename_i c
          cases h
          exact ⟨hgrows.trans hgrows', Or.inl ⟨rfl, Or.inr ⟨c, herror, rfl⟩⟩⟩
        · rename_i node
          obtain ⟨⟨offset, v''⟩, hprepare, h⟩ := bind_eq_some_iff.mp h
          have hgrows'' := preparation_grows hprepare
          dsimp only at h
          split at h
          · -- the table is full
            rename_i hfull
            cases h
            exact ⟨(hgrows.trans hgrows').trans hgrows'', Or.inl ⟨rfl, Or.inl ⟨hfull, herror⟩⟩⟩
          · rename_i hfree
            have hpos := Int.not_lt.mp hfree
            obtain ⟨rfl, hmap, hgrows3⟩ := installation_cases h
            refine ⟨((hgrows.trans hgrows').trans hgrows'').trans hgrows3,
              Or.inr ⟨path, ⟨mode, flags, node, offset⟩, rfl, herror, hpos, rfl, ?_, ?_⟩⟩
            · rw [hmap]
              exact insert_of_none (free_spec pcb hpos).1 _
            · exact hagain node rfl s'.vfs (hgrows''.trans hgrows3)

theorem usrClose_cases (h : s.usrClose fs fd = some (ret, s')) :
    (s.fileMap fd = none ∧ ret = -ebadf ∧ s' = s) ∨
      ∃ f r v', s.fileMap fd = some f ∧ s.vfs.remove fs f.node = some (r, v') ∧ ret = 0 ∧
        s' = ⟨v', s.fileMap.erase fd⟩ := by
  unfold usrClose at h
  split at h
  · rename_i hnone
    cases h
    exact Or.inl ⟨hnone, rfl, rfl⟩
  · rename_i f hf
    rw [removeFileDescriptor, hf] at h
    obtain ⟨⟨r, v'⟩, hremove, heq⟩ := map_eq_some_iff.mp h
    cases heq
    exact Or.inr ⟨f, r, v', hf, hremove, rfl, rfl⟩

theorem usrClose_fileMap (h : s.usrClose fs fd = some (ret, s')) :
    s'.fileMap = s.fileMap.erase fd := by
  obtain ⟨hnone, -, rfl⟩ | ⟨f, r, v', -, -, -, rfl⟩ := usrClose_cases h
  · exact (Function.update_eq_self_iff.mpr hnone.symm).symm
  · rfl

theorem usrDup_cases (h : s.usrDup pcb oldfd = (ret, s')) :
    (ret < 0 ∧ s' = s) ∨
      ∃ f, s.fileMap oldfd = some f ∧ 0 ≤ ret ∧ ret = getFreeFileDescriptor pcb s.fileMap ∧
        s' = ⟨s.vfs, Function.update s.fileMap ret (some (duplicate f))⟩ := by
  unfold usrDup at h
  split at h
  · cases h
    exact Or.inl ⟨by decide, rfl⟩
  · rename_i f hf
    dsimp only at h
    split at h
    · cases h
      exact Or.inl ⟨by decide, rfl⟩
    · rename_i hfree
      cases h
      have hpos := Int.not_lt.mp hfree
      refine Or.inr ⟨f, hf, hpos, rfl, ?_⟩
      rw [insert_of_none (free_spec pcb hpos).1]

theorem usrDup2_cases (h : s.usrDup2 fs oldfd newfd = some (ret, s')) :
    (ret < 0 ∧ s' = s ∧ (newfd < 0 ∨ s.fileMap oldfd = none)) ∨
      (0 ≤ newfd ∧ ret = newfd ∧ newfd = oldfd ∧ s' = s ∧ s.fileMap oldfd ≠ none) ∨
      ∃ f mid r, 0 ≤ newfd ∧ s.fileMap oldfd = some f ∧ newfd ≠ oldfd ∧ ret = newfd ∧
        s.usrClose fs newfd = some (r, mid) ∧
        s' = ⟨mid.vfs, Function.update s.fileMap newfd (some (duplicate f))⟩ := by
  unfold usrDup2 at h
  split at h
  · rename_i hneg
    cases h
    exact Or.inl ⟨by decide, rfl, Or.inl hneg⟩
  rename_i hneg
  have hpos := Int.not_lt.mp hneg
  split at h
  · rename_i hnone
    cases h
    exact Or.inl ⟨by decide, rfl, Or.inr hnone⟩
  · rename_i f hf
    split at h
    · rename_i hsame
      cases h
      refine Or.inr (Or.inl ⟨hpos, rfl, hsame, rfl, ?_⟩)
      rw [hf]
      exact Option.some_ne_none f
    · rename_i hne
      obtain ⟨⟨r, mid⟩, hclose, heq⟩ := map_eq_some_iff.mp h
      obtain ⟨rfl, rfl⟩ := Prod.mk.inj heq
      refine Or.inr (Or.inr ⟨f, mid, r, hpos, hf, hne, rfl, hclose, ?_⟩)
      -- the number is free after the close
      have hmap := usrClose_fileMap hclose
      have hnone : mid.fileMap newfd = none := by
        rw [hmap]
        exact Function.update_self ..
      rw [insert_of_none hnone, hmap, FileMap.erase, Function.update_idem]

end Cases

/-! ## Section 3: Runs -/

/-- A call on the table. -/
inductive TableCall where
  | usrOpen (pathname : Option Str) (flags mode : BitVec 32)
  | usrDup (oldfd : Int)
  | usrDup2 (oldfd newfd : Int)
  | usrClose (fd : Int)

/-- What a call returns and leaves. -/
def invoke (s : FileDescriptorTable σ) : TableCall → Option (Int × FileDescriptorTable σ)
  | .usrOpen pathname flags mode => s.usrOpen fs pcb pathname flags mode
  | .usrDup oldfd => some (s.usrDup pcb oldfd)
  | .usrDup2 oldfd newfd => s.usrDup2 fs oldfd newfd
  | .usrClose fd => s.usrClose fs fd

/-- Every node that the table names is there. -/
structure Sound (s : FileDescriptorTable σ) : Prop where
  nodes : ∀ fd f, s.fileMap fd = some f → ∃ n, s.vfs.node f.node = some n

/-- Runs of calls from any table. -/
def tableCalls : System (FileDescriptorTable σ) TableCall where
  init := Sound
  step := fun s call s' => ∃ ret, s.invoke fs pcb call = some (ret, s')

theorem Sound.update (h : Sound s) {v : Vfs σ}
    (hv : ∀ i n, s.vfs.node i = some n → v.node i = some n) {f : Fildes}
    (hf : ∃ n, v.node f.node = some n) : Sound ⟨v, Function.update s.fileMap fd (some f)⟩ where
  nodes := by
    intro fd' f' hf'
    change Function.update s.fileMap fd (some f) fd' = some f' at hf'
    by_cases hfd : fd' = fd
    · subst hfd
      rw [Function.update_self] at hf'
      cases hf'
      exact hf
    · rw [Function.update_of_ne hfd] at hf'
      obtain ⟨n, hn⟩ := h.nodes fd' f' hf'
      exact ⟨n, hv _ _ hn⟩

theorem Sound.close {s' : FileDescriptorTable σ} (h : Sound s) {ret : Int}
    (hclose : s.usrClose fs fd = some (ret, s')) :
    Sound s' ∧ ∀ i, s'.vfs.node i = s.vfs.node i := by
  obtain ⟨-, -, rfl⟩ | ⟨f, r, v', -, hremove, -, rfl⟩ := usrClose_cases hclose
  · exact ⟨h, fun _ => rfl⟩
  · have hnode := Vfs.remove_node fs hremove
    refine ⟨⟨?_⟩, hnode⟩
    intro fd' f' hf'
    change Function.update s.fileMap fd none fd' = some f' at hf'
    by_cases hfd : fd' = fd
    · subst hfd
      rw [Function.update_self] at hf'
      cases hf'
    · rw [Function.update_of_ne hfd] at hf'
      obtain ⟨n, hn⟩ := h.nodes fd' f' hf'
      exact ⟨n, (hnode _).trans hn⟩

theorem Sound.usrClose_returns (h : Sound s) (fd : Int) :
    ∃ ret s', s.usrClose fs fd = some (ret, s') := by
  cases hf : s.fileMap fd with
  | none =>
    refine ⟨-ebadf, s, ?_⟩
    rw [usrClose, hf]
  | some f =>
    obtain ⟨n, hn⟩ := h.nodes fd f hf
    obtain ⟨r, v', hremove⟩ := Vfs.remove_returns fs hn
    refine ⟨0, ⟨v', s.fileMap.erase fd⟩, ?_⟩
    rw [usrClose, hf]
    simp only [removeFileDescriptor, hf, hremove, Option.map_some]

theorem Sound.usrDup2_returns (h : Sound s) (oldfd newfd : Int) :
    ∃ ret s', s.usrDup2 fs oldfd newfd = some (ret, s') := by
  obtain ⟨ret, mid, hclose⟩ := h.usrClose_returns fs newfd
  rw [usrDup2]
  split
  · exact ⟨_, _, rfl⟩
  · split
    · exact ⟨_, _, rfl⟩
    · split
      · exact ⟨_, _, rfl⟩
      · rw [hclose]
        exact ⟨_, _, rfl⟩

theorem Sound.invoke_returns (h : Sound s) {call : TableCall}
    (hcall : ∀ pathname flags mode, call ≠ .usrOpen pathname flags mode) :
    ∃ ret s', s.invoke fs pcb call = some (ret, s') := by
  cases call with
  | usrOpen pathname flags mode => exact absurd rfl (hcall pathname flags mode)
  | usrDup oldfd => exact ⟨_, _, rfl⟩
  | usrDup2 oldfd newfd => exact h.usrDup2_returns fs oldfd newfd
  | usrClose fd => exact h.usrClose_returns fs fd

theorem Sound.invoke {s' : FileDescriptorTable σ} (h : Sound s) {call : TableCall} {ret : Int}
    (hcall : s.invoke fs pcb call = some (ret, s')) : Sound s' := by
  cases call with
  | usrOpen pathname flags mode =>
    obtain ⟨hgrows, ⟨hmap, -⟩ | ⟨path, f, -, -, -, -, hmap, hlookup⟩⟩ := usrOpen_cases hcall
    · refine ⟨?_⟩
      intro fd f hf
      obtain ⟨n, hn⟩ := h.nodes fd f (hmap ▸ hf)
      exact ⟨n, hgrows.node hn⟩
    · have hupdate : Sound ⟨s'.vfs, Function.update s.fileMap ret (some f)⟩ :=
        h.update (fun _ _ hn => hgrows.node hn) (Vfs.lookup_node fs hlookup)
      exact ⟨fun fd f hf => hupdate.nodes fd f (hmap ▸ hf)⟩
  | usrDup oldfd =>
    obtain ⟨-, rfl⟩ | ⟨f, hf, -, -, rfl⟩ := usrDup_cases (Option.some.inj hcall)
    · exact h
    · exact h.update (fun _ _ hn => hn) (h.nodes oldfd f hf)
  | usrDup2 oldfd newfd =>
    obtain ⟨-, rfl, -⟩ | ⟨-, -, -, rfl, -⟩ | ⟨f, mid, r, -, hf, -, -, hclose, rfl⟩ :=
      usrDup2_cases hcall
    · exact h
    · exact h
    · obtain ⟨-, hnode⟩ := h.close fs hclose
      obtain ⟨n, hn⟩ := h.nodes oldfd f hf
      exact h.update (fun i n hn => (hnode i).trans hn) ⟨n, (hnode _).trans hn⟩
  | usrClose fd => exact (h.close fs hcall).1

theorem sound_of_reachable (h : (tableCalls fs pcb).Reachable s) : Sound s := by
  refine h.invariant (fun _ hs => hs) ?_
  intro s call s' hs hstep
  obtain ⟨ret, hcall⟩ := hstep
  exact hs.invoke fs pcb hcall

end Fennix.Fs.FileDescriptorTable
