import Fennix.Framework.System
import Fennix.Fs.Basic
import Fennix.Std.UnorderedMap

/-! # Device numbers

    The calls of `Driver::Manager` in `Kernel/core/driver/manager.cpp` by which a
    driver registers devices, and how a file operation on a device node finds
    its handlers in `Kernel/core/driver/dev.cpp`. The files of the device
    directories are behind an arbitrary `DeviceTree`.

    A device node has the number of the driver in twelve bits and the minor number
    in eight. The handlers are in the driver's table under the minor number; but
    nodes whose driver number is that of the device file system itself are served
    without looking at any driver.
-/

namespace Fennix.Driver

open Fennix.Std

/-! ## Section 1: Device files -/

/-- `EEXIST`. -/
def eexist : Int := 20

/-- `EOVERFLOW`. -/
def eoverflow : Int := 65

/-- `devNode`, `devInputNode` and `devBlockNode`. -/
inductive DeviceDirectory where
  | dev
  | input
  | block
  deriving DecidableEq

/-- The name of a file. -/
abbrev Name := List Char

/-- What the calls use of the file system: whether `Lookup` finds a file, and the
    error of `Create`, if any. -/
structure DeviceTree (ω : Type) where
  lookup : ω → DeviceDirectory → Name → Bool × ω
  create : ω → DeviceDirectory → Name → BitVec 32 → Option Int × ω

/-- A `const InodeOperations *`. -/
abbrev Operations := Nat

/-- `struct DriverHandlers`; an inode is named by its number. -/
structure DriverHandlers where
  ops : Operations
  node : Nat
  deriving DecidableEq

/-- `SetDevice`: the `RawDevice` of an inode. -/
def setDevice (major minor : Nat) : Nat := major % 4096 * 256 + minor % 256

/-- `GetMajor`. -/
def getMajor (rawDevice : Nat) : Nat := rawDevice / 256 % 4096

/-- `GetMinor`. -/
def getMinor (rawDevice : Nat) : Nat := rawDevice % 256

/-- The driver, with the files. Inodes are numbered in the order in which they are
    created. -/
structure Manager (hash : Nat → Nat) (ω : Type) where
  world : ω
  deviceOperations : UnorderedMap hash DriverHandlers
  rawDevice : Nat → Nat
  inodes : Nat

/-- What stays the same for a driver: its number, that of the device file system,
    and the operations that other drivers have under a minor number. -/
structure DriverObject where
  driverID : Nat
  deviceDirID : Nat
  others : Nat → Nat → Option Operations

namespace Manager

variable {hash : Nat → Nat} {ω : Type} (tree : DeviceTree ω) (driver : DriverObject)

/-- The first minor number that the driver does not use. -/
def freeMinor (s : Manager hash ω) : Option Nat :=
  (List.range 128).find? fun i => (s.deviceOperations.lookup i).isNone

/-- The first of the numbers with which the name is not taken. -/
def missingName (directory : DeviceDirectory) (base : Name) :
    List Nat → ω → Option (Nat × Name) × ω
  | [], world => (none, world)
  | j :: rest, world =>
    let name := base ++ Nat.toDigits 10 j
    let (found, world) := tree.lookup world directory name
    if found then missingName directory base rest world else (some (j, name), world)

/-- A new inode with its numbers, and its handlers if the minor number is not in
    the table. -/
def install (s : Manager hash ω) (world : ω) (minor : Nat) (ops : Operations) : Manager hash ω where
  world := world
  deviceOperations := s.deviceOperations.insert minor ⟨ops, s.inodes⟩
  rawDevice := Function.update s.rawDevice s.inodes (setDevice driver.driverID minor)
  inodes := s.inodes + 1

/-- `DEVICE_TYPE_MASK`. -/
def deviceTypeMask : BitVec 64 := 0xFF00000000#64

/-- `DEVICE_TYPE_INPUT`. -/
def deviceTypeInput : BitVec 64 := 0x100000000#64

/-- `RegisterDevice`. If `Create` fails, a null pointer is used. -/
def registerDevice (s : Manager hash ω) (type : BitVec 64) (ops : Operations) :
    Option (Except Int Nat × Manager hash ω) :=
  match s.freeMinor with
  | none => some (.error (-eoverflow), s)
  | some i =>
    if type &&& deviceTypeMask ≠ deviceTypeInput then some (.error (-Fs.einval), s)
    else
      let (missing, world) :=
        missingName tree .input ['e', 'v', 'e', 'n', 't'] (List.range 128) s.world
      match missing with
      | none => some (.error (-eoverflow), { s with world := world })
      | some (_, name) =>
        match tree.create world .input name 0o20744#32 with
        | (some _, _) => none
        | (none, world) => some (.ok i, s.install driver world i ops)

/-- `CreateDeviceFile`. -/
def createDeviceFile (s : Manager hash ω) (name : Name) (mode : BitVec 32) (ops : Operations) :
    Except Int Nat × Manager hash ω :=
  match s.freeMinor with
  | none => (.error (-eoverflow), s)
  | some i =>
    let (found, world) := tree.lookup s.world .dev name
    if found then (.error (-eexist), { s with world := world })
    else
      match tree.create world .dev name mode with
      | (some error, world) => (.error (-error), { s with world := world })
      | (none, world) => (.ok i, s.install driver world i ops)

/-- `RegisterBlockDevice`: the minor number is the one in the name. -/
def registerBlockDevice (s : Manager hash ω) (base : Name) (ops : Operations) :
    Option (Except Int Nat × Manager hash ω) :=
  let (missing, world) := missingName tree .block base (List.range 128) s.world
  match missing with
  | none => some (.error (-eoverflow), { s with world := world })
  | some (j, name) =>
    match tree.create world .block name 0o60700#32 with
    | (some _, _) => none
    | (none, world) => some (.ok j, s.install driver world j ops)

/-- What both ways to unregister do. The file stays. -/
def unregister (s : Manager hash ω) (device : Nat) : Int × Manager hash ω :=
  let (found, table) := s.deviceOperations.find device
  match found with
  | none => (-Fs.einval, { s with deviceOperations := table })
  | some _ => (0, { s with deviceOperations := table.erase device })

/-- `UnregisterDevice`. -/
def unregisterDevice (s : Manager hash ω) (device : Nat) : Int × Manager hash ω :=
  s.unregister device

/-- `UnregisterBlockDevice`. -/
def unregisterBlockDevice (s : Manager hash ω) (deviceID : Nat) : Int × Manager hash ω :=
  s.unregister deviceID

/-- The handlers that a file operation on an inode calls, as `__fs_Read`,
    `__fs_Write` and the others find them. -/
def handlers (s : Manager hash ω) (inode : Nat) : Option Operations :=
  let major := getMajor (s.rawDevice inode)
  let minor := getMinor (s.rawDevice inode)
  if major = driver.deviceDirID then none
  else if major = driver.driverID then (s.deviceOperations.lookup minor).map DriverHandlers.ops
  else driver.others major minor

end Manager

/-! ## Section 2: Runs -/

/-- A call by the driver. -/
inductive Call where
  | registerDevice (type : BitVec 64) (ops : Operations)
  | createDeviceFile (name : Name) (mode : BitVec 32) (ops : Operations)
  | registerBlockDevice (base : Name) (ops : Operations)
  | unregisterDevice (device : Nat)
  | unregisterBlockDevice (deviceID : Nat)

/-- What a call has done. -/
inductive Outcome where
  | registered (minor : Nat) (ops : Operations)
  | unregistered (device : Nat)
  | failed

/-- A registration that has not been undone: the number that was returned, the
    operations that were passed and the inode that was created. -/
structure Registration where
  minor : Nat
  ops : Operations
  inode : Nat

/-- The driver with its registrations. -/
structure Devices (hash : Nat → Nat) (ω : Type) where
  manager : Manager hash ω
  live : List Registration

section Runs

variable {hash : Nat → Nat} {ω : Type} (tree : DeviceTree ω) (driver : DriverObject)

/-- The outcome of a registration. -/
def Outcome.ofReturn (ops : Operations) : Except Int Nat → Outcome
  | .ok minor => .registered minor ops
  | .error _ => .failed

/-- The outcome of a call, and the driver after it. -/
def Manager.perform (s : Manager hash ω) : Call → Option (Outcome × Manager hash ω)
  | .registerDevice type ops =>
    (s.registerDevice tree driver type ops).map fun r => (.ofReturn ops r.1, r.2)
  | .createDeviceFile name mode ops =>
    let r := s.createDeviceFile tree driver name mode ops
    some (.ofReturn ops r.1, r.2)
  | .registerBlockDevice base ops =>
    (s.registerBlockDevice tree driver base ops).map fun r => (.ofReturn ops r.1, r.2)
  | .unregisterDevice device =>
    let r := s.unregisterDevice device
    some (if r.1 = 0 then .unregistered device else .failed, r.2)
  | .unregisterBlockDevice deviceID =>
    let r := s.unregisterBlockDevice deviceID
    some (if r.1 = 0 then .unregistered deviceID else .failed, r.2)

/-- What is registered after a call. -/
def Devices.record (s : Devices hash ω) : Outcome → List Registration
  | .registered minor ops => s.live ++ [⟨minor, ops, s.manager.inodes⟩]
  | .unregistered device => s.live.filter fun r => r.minor ≠ device
  | .failed => s.live

/-- The effect of a call. -/
def Devices.apply (s : Devices hash ω) (call : Call) : Option (Outcome × Devices hash ω) :=
  (s.manager.perform tree driver call).map fun (outcome, manager) =>
    (outcome, ⟨manager, s.record outcome⟩)

/-- Runs of calls by one driver, from an empty table. -/
def deviceCalls : System (Devices hash ω) Call where
  init := fun s => s.manager.deviceOperations = UnorderedMap.empty ∧ s.live = []
  step := fun s call s' => ∃ outcome, s.apply tree driver call = some (outcome, s')

/-- Each registered number leads to the operations it was registered with, in the
    table and by a file operation on the node. -/
structure Devices.Right (s : Devices hash ω) : Prop where
  distinct : (s.live.map Registration.minor).Nodup
  table : ∀ r ∈ s.live,
    (s.manager.deviceOperations.lookup r.minor).map DriverHandlers.ops = some r.ops
  file : ∀ r ∈ s.live, s.manager.handlers driver r.inode = some r.ops

/-- What a call is meant to do: a number that it returns was not in use, and all
    numbers stay right. -/
def CallRight (s : Devices hash ω) (outcome : Outcome) (s' : Devices hash ω) : Prop :=
  (∀ minor ops, outcome = .registered minor ops →
    s.manager.deviceOperations.lookup minor = none) ∧ s'.Right driver

/-- A file operation on a node with this minor number comes to the driver's table,
    or to a table that has the same operations. -/
def Routed (minor : Nat) (ops : Operations) : Prop :=
  driver.driverID % 4096 ≠ driver.deviceDirID ∧
    (driver.driverID < 4096 ∨ driver.others (driver.driverID % 4096) minor = some ops)

/-- The number that a registration is about to return is not in the table, and
    file operations come to it. -/
def Free (s : Devices hash ω) (call : Call) : Prop :=
  ∀ minor ops after, s.manager.perform tree driver call = some (.registered minor ops, after) →
    s.manager.deviceOperations.lookup minor = none ∧ Routed driver minor ops

end Runs

/-! ## Section 3: What a call does -/

section Calls

variable {hash : Nat → Nat} {ω : Type} {tree : DeviceTree ω} {driver : DriverObject}
variable {s s' : Manager hash ω}

/-- The tables and nodes are as they were. -/
structure Unchanged (s s' : Manager hash ω) : Prop where
  lookup : ∀ k, s'.deviceOperations.lookup k = s.deviceOperations.lookup k
  rawDevice : s'.rawDevice = s.rawDevice
  inodes : s'.inodes = s.inodes

theorem Unchanged.world (s : Manager hash ω) (world : ω) : Unchanged s { s with world := world } :=
  ⟨fun _ => rfl, rfl, rfl⟩

theorem Manager.freeMinor_spec {i : Nat} (h : s.freeMinor = some i) :
    i < 128 ∧ s.deviceOperations.lookup i = none := by
  obtain ⟨hnone, hi, -⟩ := List.find?_range_eq_some.mp h
  exact ⟨List.mem_range.mp hi, Option.isNone_iff_eq_none.mp hnone⟩

theorem Manager.missingName_mem {directory : DeviceDirectory} {base name : Name} {l : List Nat}
    {world world' : ω} {j : Nat}
    (h : missingName tree directory base l world = (some (j, name), world')) : j ∈ l := by
  induction l generalizing world with
  | nil => cases h
  | cons i rest ih =>
    unfold missingName at h
    dsimp only at h
    split at h
    · exact List.mem_cons_of_mem i (ih h)
    · obtain ⟨rfl, -⟩ := Prod.mk.inj (Option.some.inj (Prod.mk.inj h).1)
      exact List.mem_cons_self

/-- A registration fails without a change, or installs a number below 128. -/
def Registers (driver : DriverObject) (s : Manager hash ω) (ops : Operations)
    (r : Except Int Nat × Manager hash ω) : Prop :=
  (∃ code, r.1 = .error code ∧ Unchanged s r.2) ∨
    ∃ minor world, minor < 128 ∧ r = (.ok minor, s.install driver world minor ops)

variable {ops : Operations}

theorem Manager.registerDevice_cases {type : BitVec 64} {r : Except Int Nat × Manager hash ω}
    (h : s.registerDevice tree driver type ops = some r) :
    Registers driver s ops r ∧ ∀ minor, r.1 = .ok minor → s.deviceOperations.lookup minor = none := by
  unfold registerDevice at h
  split at h
  · cases h
    exact ⟨Or.inl ⟨_, rfl, Unchanged.world s s.world⟩, fun _ heq => by cases heq⟩
  · rename_i i hfree
    obtain ⟨hlt, hnone⟩ := freeMinor_spec hfree
    split at h
    · cases h
      exact ⟨Or.inl ⟨_, rfl, Unchanged.world s s.world⟩, fun _ heq => by cases heq⟩
    · dsimp only at h
      split at h
      · cases h
        exact ⟨Or.inl ⟨_, rfl, Unchanged.world s _⟩, fun _ heq => by cases heq⟩
      · split at h
        · cases h
        · cases h
          refine ⟨Or.inr ⟨i, _, hlt, rfl⟩, ?_⟩
          intro minor hminor
          obtain rfl := Except.ok.inj hminor
          exact hnone

theorem Manager.createDeviceFile_cases (tree : DeviceTree ω) (driver : DriverObject)
    (s : Manager hash ω) (name : Name) (mode : BitVec 32) (ops : Operations) :
    Registers driver s ops (s.createDeviceFile tree driver name mode ops) ∧
      ∀ minor, (s.createDeviceFile tree driver name mode ops).1 = .ok minor →
        s.deviceOperations.lookup minor = none := by
  unfold createDeviceFile
  split
  · exact ⟨Or.inl ⟨_, rfl, Unchanged.world s s.world⟩, fun _ heq => by cases heq⟩
  · rename_i i hfree
    obtain ⟨hlt, hnone⟩ := freeMinor_spec hfree
    dsimp only
    split
    · exact ⟨Or.inl ⟨_, rfl, Unchanged.world s _⟩, fun _ heq => by cases heq⟩
    · split
      · exact ⟨Or.inl ⟨_, rfl, Unchanged.world s _⟩, fun _ heq => by cases heq⟩
      · refine ⟨Or.inr ⟨i, _, hlt, rfl⟩, ?_⟩
        intro minor hminor
        obtain rfl := Except.ok.inj hminor
        exact hnone

theorem Manager.registerBlockDevice_cases {base : Name} {r : Except Int Nat × Manager hash ω}
    (h : s.registerBlockDevice tree driver base ops = some r) : Registers driver s ops r := by
  unfold registerBlockDevice at h
  dsimp only at h
  split at h
  · cases h
    exact Or.inl ⟨_, rfl, Unchanged.world s _⟩
  · rename_i j name hmissing
    split at h
    · cases h
    · cases h
      have hmem := missingName_mem (Prod.ext hmissing rfl)
      exact Or.inr ⟨j, _, List.mem_range.mp hmem, rfl⟩

theorem Manager.unregister_cases (device : Nat) :
    ((s.unregister device).1 ≠ 0 ∧ Unchanged s (s.unregister device).2) ∨
      ((s.unregister device).1 = 0 ∧ (s.unregister device).2.rawDevice = s.rawDevice ∧
        (s.unregister device).2.inodes = s.inodes ∧
        ∀ k, (s.unregister device).2.deviceOperations.lookup k =
          if k = device then none else s.deviceOperations.lookup k) := by
  unfold unregister UnorderedMap.find
  dsimp only
  split
  · refine Or.inl ⟨show -Fs.einval ≠ 0 by decide, ?_, rfl, rfl⟩
    intro k
    exact UnorderedMap.lookup_grown _ k
  · refine Or.inr ⟨rfl, rfl, rfl, ?_⟩
    intro k
    exact (UnorderedMap.lookup_erase _ device k).trans (by rw [UnorderedMap.lookup_grown])

theorem Manager.perform_cases {call : Call} {outcome : Outcome}
    (h : s.perform tree driver call = some (outcome, s')) :
    (outcome = .failed ∧ Unchanged s s') ∨
    (∃ minor ops world, outcome = .registered minor ops ∧ minor < 128 ∧
      s' = s.install driver world minor ops ∧
      ((∀ base ops, call ≠ .registerBlockDevice base ops) →
        s.deviceOperations.lookup minor = none)) ∨
    ∃ device, outcome = .unregistered device ∧ s'.rawDevice = s.rawDevice ∧
      s'.inodes = s.inodes ∧ ∀ k, s'.deviceOperations.lookup k =
        if k = device then none else s.deviceOperations.lookup k := by
  cases call with
  | registerDevice type ops =>
    obtain ⟨r, hr, heq⟩ := Option.map_eq_some_iff.mp h
    cases heq
    obtain ⟨⟨code, hcode, hsame⟩ | ⟨minor, world, hlt, rfl⟩, hnone⟩ := registerDevice_cases hr
    · exact Or.inl ⟨by rw [hcode]; rfl, hsame⟩
    · exact Or.inr (Or.inl ⟨minor, ops, world, rfl, hlt, rfl, fun _ => hnone minor rfl⟩)
  | createDeviceFile name mode ops =>
    cases h
    obtain ⟨⟨code, hcode, hsame⟩ | ⟨minor, world, hlt, heq⟩, hnone⟩ :=
      createDeviceFile_cases tree driver s name mode ops
    · exact Or.inl ⟨by rw [hcode]; rfl, hsame⟩
    · refine Or.inr (Or.inl ⟨minor, ops, world, by rw [heq]; rfl, hlt, by rw [heq], ?_⟩)
      exact fun _ => hnone minor (by rw [heq])
  | registerBlockDevice base ops =>
    obtain ⟨r, hr, heq⟩ := Option.map_eq_some_iff.mp h
    cases heq
    obtain ⟨code, hcode, hsame⟩ | ⟨minor, world, hlt, rfl⟩ := registerBlockDevice_cases hr
    · exact Or.inl ⟨by rw [hcode]; rfl, hsame⟩
    · exact Or.inr (Or.inl ⟨minor, ops, world, rfl, hlt, rfl, fun hne => absurd rfl (hne base ops)⟩)
  | unregisterDevice device | unregisterBlockDevice device =>
    cases h
    obtain ⟨hne, hsame⟩ | ⟨hzero, hraw, hinodes, hlookup⟩ := unregister_cases (s := s) device
    · exact Or.inl ⟨if_neg hne, hsame⟩
    · exact Or.inr (Or.inr ⟨device, if_pos hzero, hraw, hinodes, hlookup⟩)

theorem setDevice_spec (major : Nat) {minor : Nat} (h : minor < 128) :
    getMajor (setDevice major minor) = major % 4096 ∧
      getMinor (setDevice major minor) = minor := by
  simp only [getMajor, getMinor, setDevice]
  omega

theorem Manager.handlers_iff {inode minor : Nat} {node : Nat}
    (hraw : s.rawDevice inode = setDevice driver.driverID minor) (hminor : minor < 128)
    (hlookup : s.deviceOperations.lookup minor = some ⟨ops, node⟩) :
    s.handlers driver inode = some ops ↔ Routed driver minor ops := by
  obtain ⟨hmajor, hmin⟩ := setDevice_spec driver.driverID hminor
  unfold handlers Routed
  dsimp only
  rw [hraw, hmajor, hmin]
  split
  · rename_i hdir
    exact iff_of_false (fun heq => by cases heq) fun h => h.1 hdir
  · rename_i hdir
    split
    · rename_i hself
      have hlt : driver.driverID < 4096 := by omega
      rw [hlookup]
      exact iff_of_true rfl ⟨hdir, Or.inl hlt⟩
    · rename_i hself
      have hge : ¬ driver.driverID < 4096 := fun hlt => hself (Nat.mod_eq_of_lt hlt)
      rw [or_iff_right hge, and_iff_right hdir]

end Calls

/-! ## Section 4: Whole runs -/

section Invariant

variable {hash : Nat → Nat} {ω : Type} {tree : DeviceTree ω} {driver : DriverObject}

/-- What is known of a registration. -/
structure Entry (driver : DriverObject) (s : Manager hash ω) (r : Registration) : Prop where
  minor_lt : r.minor < 128
  inode_lt : r.inode < s.inodes
  raw : s.rawDevice r.inode = setDevice driver.driverID r.minor
  lookup : s.deviceOperations.lookup r.minor = some ⟨r.ops, r.inode⟩
  routed : Routed driver r.minor r.ops

variable {r : Registration} {s s' : Devices hash ω} {call : Call} {outcome : Outcome}

theorem Entry.file {s : Manager hash ω} (h : Entry driver s r) :
    s.handlers driver r.inode = some r.ops :=
  (Manager.handlers_iff h.raw h.minor_lt h.lookup).mpr h.routed

/-- The invariant of runs whose registrations are all free. -/
structure Tracked (driver : DriverObject) (s : Devices hash ω) : Prop where
  distinct : (s.live.map Registration.minor).Nodup
  entries : ∀ r ∈ s.live, Entry driver s.manager r

theorem Tracked.right (h : Tracked driver s) : s.Right driver where
  distinct := h.distinct
  table := fun r hr => by rw [(h.entries r hr).lookup]; rfl
  file := fun r hr => (h.entries r hr).file

theorem Entry.unchanged {s s' : Manager hash ω} (h : Entry driver s r) (hsame : Unchanged s s') :
    Entry driver s' r where
  minor_lt := h.minor_lt
  inode_lt := by rw [hsame.inodes]; exact h.inode_lt
  raw := by rw [hsame.rawDevice]; exact h.raw
  lookup := (hsame.lookup _).trans h.lookup
  routed := h.routed

section Install

variable {s : Manager hash ω} {minor : Nat} {ops : Operations} (world : ω)

theorem install_lookup (driver : DriverObject) (ops : Operations)
    (hfree : s.deviceOperations.lookup minor = none) (k : Nat) :
    (s.install driver world minor ops).deviceOperations.lookup k =
      if k = minor then some ⟨ops, s.inodes⟩ else s.deviceOperations.lookup k :=
  (UnorderedMap.insert_of_none hfree _).1 k

theorem install_raw (driver : DriverObject) (s : Manager hash ω) (minor : Nat) (ops : Operations) :
    (s.install driver world minor ops).rawDevice s.inodes = setDevice driver.driverID minor :=
  Function.update_self ..

theorem entry_install (hfree : s.deviceOperations.lookup minor = none) (hlt : minor < 128)
    (hrouted : Routed driver minor ops) :
    Entry driver (s.install driver world minor ops) ⟨minor, ops, s.inodes⟩ where
  minor_lt := hlt
  inode_lt := Nat.lt_succ_self _
  raw := install_raw world driver s minor ops
  lookup := by rw [install_lookup world driver ops hfree, if_pos rfl]
  routed := hrouted

theorem Entry.install {r : Registration} (h : Entry driver s r)
    (hfree : s.deviceOperations.lookup minor = none) :
    Entry driver (s.install driver world minor ops) r where
  minor_lt := h.minor_lt
  inode_lt := Nat.lt_succ_of_lt h.inode_lt
  raw := (Function.update_of_ne (Nat.ne_of_lt h.inode_lt) ..).trans h.raw
  lookup := by
    have hne : r.minor ≠ minor := by
      rintro heq
      cases hfree.symm.trans (heq ▸ h.lookup)
    rw [install_lookup world driver ops hfree, if_neg hne]
    exact h.lookup
  routed := h.routed

end Install

theorem Entry.unregister {s s' : Manager hash ω} (h : Entry driver s r) {device : Nat}
    (hne : r.minor ≠ device) (hraw : s'.rawDevice = s.rawDevice) (hinodes : s'.inodes = s.inodes)
    (hlookup : ∀ k, s'.deviceOperations.lookup k =
      if k = device then none else s.deviceOperations.lookup k) :
    Entry driver s' r where
  minor_lt := h.minor_lt
  inode_lt := by rw [hinodes]; exact h.inode_lt
  raw := by rw [hraw]; exact h.raw
  lookup := by
    rw [hlookup, if_neg hne]
    exact h.lookup
  routed := h.routed

theorem apply_spec (h : s.apply tree driver call = some (outcome, s')) :
    s.manager.perform tree driver call = some (outcome, s'.manager) ∧
      s'.live = s.record outcome := by
  obtain ⟨⟨o, manager⟩, hperform, heq⟩ := Option.map_eq_some_iff.mp h
  cases heq
  exact ⟨hperform, rfl⟩

theorem Tracked.step (h : Tracked driver s) (hfree : Free tree driver s call)
    (happly : s.apply tree driver call = some (outcome, s')) : Tracked driver s' := by
  obtain ⟨hperform, hlive⟩ := apply_spec happly
  obtain ⟨rfl, hsame⟩ | ⟨minor, ops, world, rfl, hlt, hinstall, -⟩ |
    ⟨device, rfl, hraw, hinodes, hlookup⟩ := Manager.perform_cases hperform
  · refine ⟨by rw [hlive]; exact h.distinct, ?_⟩
    intro r hr
    rw [hlive] at hr
    exact (h.entries r hr).unchanged hsame
  · obtain ⟨hnone, hrouted⟩ := hfree minor ops _ hperform
    refine ⟨?_, ?_⟩
    · rw [hlive]
      rw [Devices.record, List.map_append]
      refine h.distinct.append (List.nodup_singleton _) ?_
      intro k hk hk'
      obtain ⟨r, hr, rfl⟩ := List.mem_map.mp hk
      have hnew : r.minor = minor := List.mem_singleton.mp hk'
      cases hnone.symm.trans (hnew ▸ (h.entries r hr).lookup)
    · rw [hlive, hinstall]
      exact List.forall_mem_append.mpr ⟨fun r hr => (h.entries r hr).install world hnone,
        List.forall_mem_singleton.mpr (entry_install world hnone hlt hrouted)⟩
  · refine ⟨?_, ?_⟩
    · rw [hlive]
      exact h.distinct.sublist (List.filter_sublist.map _)
    · intro r hr
      rw [hlive] at hr
      obtain ⟨hr, hne⟩ := List.mem_filter.mp hr
      exact (h.entries r hr).unregister (of_decide_eq_true hne) hraw hinodes hlookup

theorem free_of_callRight (happly : s.apply tree driver call = some (outcome, s'))
    (hright : CallRight driver s outcome s') : Free tree driver s call := by
  obtain ⟨hperform, hlive⟩ := apply_spec happly
  intro minor ops after hcall
  obtain ⟨rfl, rfl⟩ := Prod.mk.inj (Option.mem_unique hperform hcall)
  have hnone := hright.1 minor ops rfl
  refine ⟨hnone, ?_⟩
  obtain ⟨hfailed, -⟩ | ⟨minor', ops', world, heq, hlt, hinstall, -⟩ | ⟨device, hunregistered, -⟩ :=
    Manager.perform_cases hperform
  · cases hfailed
  · obtain ⟨rfl, rfl⟩ := Outcome.registered.inj heq
    have hmem : ⟨minor, ops, s.manager.inodes⟩ ∈ s'.live := by
      rw [hlive]
      exact List.mem_append_right _ (List.mem_singleton_self _)
    have hfile := hright.2.file _ hmem
    rw [hinstall] at hfile
    have hlookup := install_lookup world driver ops hnone minor
    rw [if_pos rfl] at hlookup
    exact (Manager.handlers_iff (install_raw world driver s.manager minor ops) hlt hlookup).mp hfile
  · cases hunregistered

theorem tracked_of_reachable
    (h : ((deviceCalls tree driver).restrict (Free tree driver)).Reachable s) :
    Tracked driver s := by
  refine System.Reachable.invariant ?_ ?_ h
  · rintro s ⟨-, hnil⟩
    refine ⟨by rw [hnil]; exact List.nodup_nil, ?_⟩
    intro r hr
    rw [hnil] at hr
    cases hr
  · rintro s call s' hs ⟨hfree, outcome, happly⟩
    exact hs.step hfree happly

end Invariant

/-! ## Section 5: Two drivers -/

/-- Directories as lists of names. -/
def namesTree : DeviceTree (List (DeviceDirectory × Name)) where
  lookup := fun world directory name => (world.contains (directory, name), world)
  create := fun world directory name _ => (none, (directory, name) :: world)

/-- `std::hash<dev_t>`. -/
def hashDev (device : Nat) : Nat := fnv1a 8 (BitVec.ofNat 64 device)

/-- No devices and no files. -/
def noDevices : Devices hashDev (List (DeviceDirectory × Name)) :=
  ⟨⟨[], UnorderedMap.empty, fun _ => 0, 0⟩, []⟩

/-- A driver. The device file system has number 2, as it is the third that the
    kernel registers. -/
def driverNumber (driverID : Nat) : DriverObject := ⟨driverID, 2, fun _ _ => none⟩

/-- Driver 3 after it has registered an input device. -/
def oneInput : Devices hashDev (List (DeviceDirectory × Name)) :=
  ((noDevices.apply namesTree (driverNumber 3)
    (.registerDevice Manager.deviceTypeInput 1)).map Prod.snd).getD noDevices

theorem oneInput_reachable : (deviceCalls namesTree (driverNumber 3)).Reachable oneInput := by
  have hinit : (deviceCalls namesTree (driverNumber 3)).Reachable noDevices := .init ⟨rfl, rfl⟩
  exact hinit.step (l := .registerDevice Manager.deviceTypeInput 1) ⟨.registered 0 1, rfl⟩

end Fennix.Driver
