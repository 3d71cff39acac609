import Fennix.Framework.System
import Fennix.Fs.Basic
import Fennix.Std.UnorderedMap

/-! # Registered file systems

    `RegisterFileSystem` and `UnregisterFileSystem` of `Kernel/fs/vfs.cpp`. The
    key of a new file system is the number of those that are registered, so it
    may be in use after one of them was unregistered.
-/

namespace Fennix.Fs

open Fennix.Std

/-- A `FileSystemInfo *`. -/
abbrev FileSystemInfo := Nat

/-- `Virtual::FileSystems`, with any hash of the keys. -/
abbrev FileSystems (hash : BitVec 64 → Nat) := UnorderedMap hash FileSystemInfo

namespace FileSystems

variable {hash : BitVec 64 → Nat}

/-! ## Section 1: The calls -/

/-- `RegisterFileSystem`. -/
def registerFileSystem (m : FileSystems hash) (fsi : FileSystemInfo) :
    BitVec 64 × FileSystems hash :=
  let m' := m.insert m.size fsi
  (m'.size - 1, m')

/-- `UnregisterFileSystem`. What the operations of the file system do on the way
    is left out. -/
def unregisterFileSystem (m : FileSystems hash) (device : BitVec 64) : Int × FileSystems hash :=
  let (found, m') := m.find device
  match found with
  | none => (-enoent, m')
  | some _ => (0, m'.erase device)

/-- The table with what was registered and not yet unregistered: the identifiers
    as they were returned, and the file systems that were passed. -/
structure Registry (hash : BitVec 64 → Nat) where
  table : FileSystems hash
  live : List (BitVec 64 × FileSystemInfo)

/-- A call. -/
inductive RegistryCall where
  | register (fsi : FileSystemInfo)
  | unregister (device : BitVec 64)

/-- The effect of a call. -/
def Registry.apply (s : Registry hash) : RegistryCall → Registry hash
  | .register fsi =>
    let (device, table) := s.table.registerFileSystem fsi
    ⟨table, s.live ++ [(device, fsi)]⟩
  | .unregister device =>
    ⟨(s.table.unregisterFileSystem device).2, s.live.filter fun e => e.1 ≠ device⟩

/-- Runs of calls in which each `UnregisterFileSystem` names a live identifier. -/
def registryCalls : System (Registry hash) RegistryCall where
  init := fun s => s = ⟨UnorderedMap.empty, []⟩
  step := fun s call s' =>
    (∀ device, call = .unregister device → device ∈ s.live.map Prod.fst) ∧ s' = s.apply call

/-- The live identifiers are distinct, and each leads to its file system. -/
structure Registry.Right (s : Registry hash) : Prop where
  distinct : (s.live.map Prod.fst).Nodup
  found : ∀ e ∈ s.live, s.table.lookup e.1 = some e.2

/-- The key of a new file system is not in use. -/
def FreshKey (s : Registry hash) : RegistryCall → Prop
  | .register _ => s.table.lookup s.table.size = none
  | .unregister _ => True

instance (s : Registry hash) (call : RegistryCall) : Decidable (FreshKey s call) :=
  match call with
  | .register _ => inferInstanceAs (Decidable (s.table.lookup s.table.size = none))
  | .unregister _ => isTrue trivial

/-! ## Section 2: One call -/

/-- The table has the live file systems and nothing else. -/
structure Registry.Exact (s : Registry hash) : Prop where
  distinct : (s.live.map Prod.fst).Nodup
  exact : ∀ device fsi, s.table.lookup device = some fsi ↔ (device, fsi) ∈ s.live

variable {s : Registry hash}

theorem Registry.Exact.right (h : s.Exact) : s.Right :=
  ⟨h.distinct, fun e he => (h.exact e.1 e.2).mpr he⟩

theorem registerFileSystem_fresh {m : FileSystems hash} (h : m.lookup m.size = none)
    (fsi : FileSystemInfo) :
    (m.registerFileSystem fsi).1 = m.size ∧
      ∀ device, (m.registerFileSystem fsi).2.lookup device =
        if device = m.size then some fsi else m.lookup device := by
  obtain ⟨hlookup, hsize⟩ := UnorderedMap.insert_of_none h fsi
  refine ⟨?_, hlookup⟩
  show (m.insert m.size fsi).size - 1 = m.size
  rw [hsize, BitVec.add_sub_cancel]

theorem registerFileSystem_taken {m : FileSystems hash} (h : m.lookup m.size ≠ none)
    (fsi : FileSystemInfo) (device : BitVec 64) :
    (m.registerFileSystem fsi).2.lookup device = m.lookup device :=
  (UnorderedMap.insert_of_some h fsi).1 device

theorem lookup_unregister (m : FileSystems hash) (device other : BitVec 64) :
    (m.unregisterFileSystem device).2.lookup other =
      if other = device then none else m.lookup other := by
  unfold unregisterFileSystem UnorderedMap.find
  dsimp only
  split
  · rename_i hnone
    rw [UnorderedMap.lookup_grown] at hnone ⊢
    split
    · rename_i heq
      rw [heq]
      exact hnone
    · rfl
  · rw [UnorderedMap.lookup_erase, UnorderedMap.lookup_grown]

theorem Registry.Exact.not_live (h : s.Exact) {device : BitVec 64}
    (hnone : s.table.lookup device = none) : device ∉ s.live.map Prod.fst := by
  intro hmem
  obtain ⟨⟨device', fsi⟩, he, rfl⟩ := List.mem_map.mp hmem
  have hsome := (h.exact device' fsi).mpr he
  rw [hnone] at hsome
  cases hsome

theorem Registry.Exact.register (h : s.Exact) (fsi : FileSystemInfo)
    (hfresh : s.table.lookup s.table.size = none) : (s.apply (.register fsi)).Exact := by
  obtain ⟨hdevice, hlookup⟩ := registerFileSystem_fresh hfresh fsi
  have hlive : (s.apply (.register fsi)).live = s.live ++ [(s.table.size, fsi)] := by
    rw [← hdevice]
    rfl
  have hnew := h.not_live hfresh
  refine ⟨?_, ?_⟩
  · rw [hlive, List.map_append]
    refine h.distinct.append (List.nodup_singleton _) ?_
    intro device hmem hsingle
    rw [List.mem_singleton.mp hsingle] at hmem
    exact hnew hmem
  · intro device fsi'
    rw [hlive, List.mem_append, List.mem_singleton, Prod.mk.injEq, ← h.exact]
    show (s.table.registerFileSystem fsi).2.lookup device = _ ↔ _
    rw [hlookup]
    split
    · rename_i heq
      rw [heq, hfresh]
      simp [eq_comm]
    · rename_i hne
      simp [hne]

theorem Registry.Exact.unregister (h : s.Exact) (device : BitVec 64) :
    (s.apply (.unregister device)).Exact := by
  refine ⟨h.distinct.sublist (List.filter_sublist.map Prod.fst), ?_⟩
  intro other fsi
  show (s.table.unregisterFileSystem device).2.lookup other = _ ↔
    (other, fsi) ∈ s.live.filter _
  rw [lookup_unregister, List.mem_filter, ← h.exact]
  split
  · rename_i heq
    simp [heq]
  · rename_i hne
    simp [hne]

theorem Registry.Exact.apply (h : s.Exact) {call : RegistryCall} (hfresh : FreshKey s call) :
    (s.apply call).Exact := by
  cases call with
  | register fsi => exact h.register fsi hfresh
  | unregister device => exact h.unregister device

/-- If the key is in use, the new file system cannot be found under what is
    returned, or another one has the same identifier. -/
theorem Registry.Exact.fresh_of_right (h : s.Exact) (fsi : FileSystemInfo)
    (hright : (s.apply (.register fsi)).Right) : s.table.lookup s.table.size = none := by
  by_contra htaken
  have hfound := hright.found ((s.table.registerFileSystem fsi).1, fsi)
    (List.mem_append_right _ (List.mem_singleton_self _))
  have hold : s.table.lookup (s.table.registerFileSystem fsi).1 = some fsi :=
    (registerFileSystem_taken htaken fsi _).symm.trans hfound
  have hdistinct := hright.distinct
  rw [show (s.apply (.register fsi)).live =
    s.live ++ [((s.table.registerFileSystem fsi).1, fsi)] from rfl, List.map_append] at hdistinct
  exact List.disjoint_of_nodup_append hdistinct
    (List.mem_map_of_mem ((h.exact _ _).mp hold)) (List.mem_singleton_self _)

/-! ## Section 3: Runs -/

theorem exact_of_reachable (h : (registryCalls.restrict FreshKey).Reachable s) : s.Exact := by
  refine System.Reachable.invariant ?_ ?_ h
  · rintro _ rfl
    refine ⟨List.nodup_nil, ?_⟩
    intro device fsi
    exact iff_of_false nofun nofun
  · rintro s call s' hs ⟨hfresh, -, rfl⟩
    exact hs.apply hfresh

/-- **File system identifiers.** In a run in which every new key is fresh, the live
    identifiers are distinct and lead to their file systems; and the next call
    keeps this exactly if its key is fresh. -/
theorem identifiers_right_iff_fresh {s : Registry hash}
    (h : (registryCalls.restrict FreshKey).Reachable s) :
    s.Right ∧ ∀ call s', registryCalls.step s call s' → (s'.Right ↔ FreshKey s call) := by
  have hexact := exact_of_reachable h
  refine ⟨hexact.right, ?_⟩
  rintro call s' ⟨-, rfl⟩
  refine ⟨?_, fun hfresh => (hexact.apply hfresh).right⟩
  cases call with
  | register fsi => exact hexact.fresh_of_right fsi
  | unregister device => exact fun _ => trivial

/-- Two file systems are registered and the first one is unregistered. -/
def oneLeft : Registry (fnv1a 8) :=
  (((Registry.mk UnorderedMap.empty []).apply (.register 10)).apply (.register 11)).apply
    (.unregister 0)

theorem oneLeft_reachable : (registryCalls.restrict FreshKey).Reachable oneLeft := by
  have hnone : (registryCalls.restrict FreshKey).Reachable
      (⟨UnorderedMap.empty, []⟩ : Registry (fnv1a 8)) := .init rfl
  have hone := hnone.step (l := .register 10) ⟨by decide +kernel, nofun, rfl⟩
  have htwo := hone.step (l := .register 11) ⟨by decide +kernel, nofun, rfl⟩
  refine htwo.step (l := .unregister 0)
    ⟨show FreshKey _ (.unregister 0) from trivial, ?_, rfl⟩
  intro device hcall
  obtain rfl : 0 = device := by injection hcall
  decide +kernel

theorem identifiers_right_iff_fresh_oneLeft :
    oneLeft.Right ∧ (oneLeft.apply (.unregister 1)).Right := by
  obtain ⟨hright, hstep⟩ := identifiers_right_iff_fresh oneLeft_reachable
  refine ⟨hright, (hstep (.unregister 1) _ ⟨?_, rfl⟩).mpr trivial⟩
  intro device hcall
  obtain rfl : 1 = device := by injection hcall
  decide +kernel

/-- The third file system is not in the table under the identifier that its
    registration returns. -/
theorem third_registration_lost :
    registryCalls.Reachable oneLeft ∧ (oneLeft.table.registerFileSystem 12).1 = 0 ∧
      (oneLeft.table.registerFileSystem 12).2.lookup 0 = none ∧
      ¬ (oneLeft.apply (.register 12)).Right := by
  have hlost : (oneLeft.table.registerFileSystem 12).2.lookup 0 = none := by decide +kernel
  refine ⟨oneLeft_reachable.of_restrict, by decide +kernel, hlost, ?_⟩
  intro hright
  have hfound := hright.found (0, 12) (by decide +kernel)
  exact absurd (hlost.symm.trans hfound) nofun

end FileSystems

end Fennix.Fs
