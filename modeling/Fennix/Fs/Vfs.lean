import Fennix.Fs.Basic
import Fennix.Fs.Path
import Fennix.Framework.Forest

/-! # The virtual file system

    `class Virtual` of `Kernel/fs/vfs.cpp` over the nodes of
    `Kernel/include/fs/node.hpp`. A node caches an inode of some file system;
    the nodes form trees by their parents and children, and `Lookup` follows
    the names of a path through the cache, asking the file system where a name
    is not cached yet.

    The file systems are parameters: `InodeOperations` are functions on a state
    `σ` of all of them together, each of which may be missing. `none` as a
    result of a call is a failed assertion, which stops the kernel.
-/

namespace Fennix.Fs

open Fennix.Fs.Path
open Option (map_eq_some_iff bind_eq_some_iff bind_some)

/-! ## Section 1: Inodes and operations -/

/-- `EEXIST`. -/
def eexist : Int := 20

/-- `EISDIR`. -/
def eisdir : Int := 31

/-- `ENOTSUP`. -/
def enotsup : Int := 61

/-- `S_IFMT`, the bits of the file type. -/
def sIfmt : BitVec 32 := 0o170000#32

/-- `S_IFLNK`. -/
def sIflnk : BitVec 32 := 0o120000#32

/-- `S_IFREG`. -/
def sIfreg : BitVec 32 := 0o100000#32

/-- `S_IFDIR`. -/
def sIfdir : BitVec 32 := 0o040000#32

/-- What the calls use of `struct Inode`. -/
structure Inode where
  device : Nat
  index : Nat
  mode : BitVec 32
  deriving DecidableEq

/-- `struct InodeOperations`, as far as the calls use it. An operation returns
    zero or an error, `read` and `write` a number of bytes. `stat` gives the
    `Size` that it stores, if any. -/
structure InodeOperations (σ : Type) where
  lookup : Option (σ → Inode → Str → Int × Inode) := none
  create : Option (σ → Inode → Str → BitVec 32 → Int × Inode × σ) := none
  remove : Option (σ → Inode → Str → Int × σ) := none
  read : Option (σ → Inode → Nat → Int → Int × List Byte) := none
  write : Option (σ → Inode → List Byte → Int → Int × σ) := none
  truncate : Option (σ → Inode → Int → Int × σ) := none
  openNode : Option (σ → Inode → BitVec 32 → BitVec 32 → Int × σ) := none
  seek : Option (σ → Inode → Int → Int) := none
  stat : Option (σ → Inode → Int × Option Int) := none

/-! ## Section 2: Nodes -/

/-- `class NodeCache` without the parent and the children. -/
structure NodeCache where
  inode : Inode
  fsi : Nat
  mountPoint : Bool
  name : Str
  path : Str
  link : Str
  deriving DecidableEq

namespace NodeCache

/-- `IsDirectory`. -/
def isDirectory (node : NodeCache) : Bool := node.inode.mode &&& sIfmt = sIfdir

/-- `IsRegularFile`. -/
def isRegularFile (node : NodeCache) : Bool := node.inode.mode &&& sIfmt = sIfreg

/-- `IsSymbolicLink`. -/
def isSymbolicLink (node : NodeCache) : Bool := node.inode.mode &&& sIfmt = sIflnk

end NodeCache

/-- All nodes; a `Node` is the number of one. -/
abbrev Tree := Forest NodeCache

/-- The nodes and what the file systems hold. -/
structure Vfs (σ : Type) where
  tree : Tree
  world : σ

namespace Vfs

variable {σ : Type} (fs : Nat → InodeOperations σ)

/-- The node with a number. -/
def node (v : Vfs σ) (i : Nat) : Option NodeCache := v.tree.nodes[i]?.map Forest.Entry.value

/-- `NodeCache::CachedSearch`. -/
def cachedSearch (v : Vfs σ) (entry : Forest.Entry NodeCache) (name : Str) : Option Nat :=
  v.tree.search NodeCache.name entry name

/-- `Virtual::Convert` with a parent, and the name, path and link that the
    callers set. -/
def convert (v : Vfs σ) (parent : Nat) (inode : Inode) (name path link : Str) :
    Option (Nat × Vfs σ) :=
  if h : parent < v.tree.nodes.length then
    (v.node parent).map fun p =>
      (v.tree.nodes.length,
        { v with tree := v.tree.addChild parent h ⟨inode, p.fsi, false, name, path, link⟩ })
  else none

/-! ## Section 3: Lookup -/

/-- `Virtual::NormalizePath`. -/
def normalizePath (parent : NodeCache) (path : Str) (join : Bool) : Str :=
  if join then Path.join parent.path path else Path.normalize path

/-- `currentPath` with one more segment. -/
def appendSegment (currentPath segment : Str) : Str :=
  if currentPath = ['/'] then currentPath ++ segment else currentPath ++ '/' :: segment

/-- The loop of `Virtual::Lookup` over the segments. An error is the `Error` of
    the result. -/
def walk (v : Vfs σ) (node : Nat) (currentPath : Str) :
    List Str → Option (Except Int Nat × Vfs σ)
  | [] => some (.ok node, v)
  | segment :: rest =>
    v.tree.nodes[node]?.bind fun entry =>
      let currentPath' := appendSegment currentPath segment
      match v.cachedSearch entry segment with
      | some child => walk v child currentPath' rest
      | none =>
        -- cache miss
        match (fs entry.value.fsi).lookup with
        | none => some (.error enotsup, v)
        | some lookup =>
          let (ret, inode) := lookup v.world entry.value.inode segment
          if ret ≠ 0 then some (.error ret, v)
          else
            (v.convert node inode segment currentPath' []).bind fun (child, v) =>
              walk v child currentPath' rest

/-- The beginning of `Virtual::Lookup`: the node from which the loop starts, its
    path and the segments to follow. There are none where the source returns a
    node at once. -/
def lookupStart (v : Vfs σ) (parent : Nat) (path : Str) : Option (Nat × Str × List Str) :=
  v.tree.nodes[parent]?.bind fun p =>
    if path = ['.'] then some (parent, [], [])
    else if path = ['.', '.'] then some (p.parent.getD parent, [], [])
    else
      let absolute := isAbsolute path
      let base := if absolute then v.tree.root parent else parent
      (v.node base).bind fun b =>
        let path := normalizePath b path !absolute
        if segments path = [] then if path = ['/'] then some (base, [], []) else none
        else
          let node := if absolute then base else v.tree.root base
          (v.node node).map fun n =>
            (node, if n.path = [] then ['/'] else n.path, segments path)

/-- `Virtual::Lookup`. -/
def lookup (v : Vfs σ) (parent : Nat) (path : Str) : Option (Except Int Nat × Vfs σ) :=
  (v.lookupStart parent path).bind fun (node, currentPath, names) =>
    v.walk fs node currentPath names

/-! ## Section 4: The other calls -/

/-- `Virtual::Create`; `link` is what `CreateLink` sets in the new node. -/
def createNode (v : Vfs σ) (parent : Nat) (name : Str) (mode : BitVec 32) (errorIfExists : Bool)
    (link : Str) : Option (Except Int Nat × Vfs σ) :=
  (v.lookup fs parent name).bind fun (found, v) =>
    match found with
    | .ok node =>
      if errorIfExists then some (.error eexist, v)
      else
        (v.node node).bind fun n =>
          if n.inode.mode &&& sIfmt = mode &&& sIfmt then some (.ok node, v) else none
    | .error _ =>
      (v.node parent).bind fun p =>
        match (fs p.fsi).create with
        | none => some (.error enotsup, v)
        | some create =>
          let (ret, inode, world) := create v.world p.inode name mode
          let v := { v with world }
          if ret ≠ 0 then some (.error ret, v)
          else
            let unnormalized := if p.path = ['/'] then '/' :: name else p.path ++ '/' :: name
            (v.convert parent inode name (normalizePath p unnormalized false) link).map
              fun (child, v) => (.ok child, v)

/-- `Virtual::Create`. -/
def create (v : Vfs σ) (parent : Nat) (name : Str) (mode : BitVec 32) (errorIfExists : Bool) :
    Option (Except Int Nat × Vfs σ) :=
  v.createNode fs parent name mode errorIfExists []

/-- `Virtual::CreateLink`; the mode is `rwxrwxrwx` and `S_IFLNK`. -/
def createLink (v : Vfs σ) (parent : Nat) (name target : Str) :
    Option (Except Int Nat × Vfs σ) :=
  v.createNode fs parent name 0o120777#32 true target

/-- `Virtual::Remove` of a node. -/
def remove (v : Vfs σ) (node : Nat) : Option (Int × Vfs σ) :=
  v.tree.nodes[node]?.bind fun n =>
    match n.parent with
    | none => some (-einval, v)
    | some parent =>
      (v.node parent).map fun p =>
        match (fs p.fsi).remove with
        | none => (-enotsup, v)
        | some remove =>
          let (ret, world) := remove v.world n.value.inode n.value.name
          let v := { v with world }
          if ret = 0 then (ret, { v with tree := v.tree.eraseChild parent node }) else (ret, v)

/-- `Virtual::Read`. -/
def read (v : Vfs σ) (target size : Nat) (offset : Int) : Option (Int × List Byte) :=
  (v.node target).map fun n =>
    if n.isDirectory || n.mountPoint then (-eisdir, [])
    else if n.isSymbolicLink then (-einval, [])
    else
      match (fs n.fsi).read with
      | none => (-enotsup, [])
      | some read => read v.world n.inode size offset

/-- `Virtual::Write`. -/
def write (v : Vfs σ) (target : Nat) (buffer : List Byte) (offset : Int) :
    Option (Int × Vfs σ) :=
  (v.node target).map fun n =>
    if n.isDirectory || n.mountPoint then (-eisdir, v)
    else if n.isSymbolicLink then (-einval, v)
    else
      match (fs n.fsi).write with
      | none => (-enotsup, v)
      | some write =>
        let (ret, world) := write v.world n.inode buffer offset
        (ret, { v with world })

/-- `Virtual::Truncate`. -/
def truncate (v : Vfs σ) (target : Nat) (size : Int) : Option (Int × Vfs σ) :=
  (v.node target).map fun n =>
    if n.isDirectory || n.mountPoint then (-eisdir, v)
    else if !n.isRegularFile then (-einval, v)
    else
      match (fs n.fsi).truncate with
      | none => (-enotsup, v)
      | some truncate =>
        let (ret, world) := truncate v.world n.inode size
        (ret, { v with world })

/-- `Virtual::Open`. -/
def openNode (v : Vfs σ) (target : Nat) (flags mode : BitVec 32) : Option (Int × Vfs σ) :=
  (v.node target).map fun n =>
    match (fs n.fsi).openNode with
    | none => (-enotsup, v)
    | some openNode =>
      let (ret, world) := openNode v.world n.inode flags mode
      (ret, { v with world })

/-- `Virtual::Seek`. -/
def seek (v : Vfs σ) (target : Nat) (offset : Int) : Option Int :=
  (v.node target).map fun n =>
    match (fs n.fsi).seek with
    | none => -enotsup
    | some seek => seek v.world n.inode offset

/-- `Virtual::Stat`: what it returns and the `Size` that it stores, if any. -/
def stat (v : Vfs σ) (target : Nat) : Option (Int × Option Int) :=
  (v.node target).map fun n =>
    match (fs n.fsi).stat with
    | none => (-enotsup, none)
    | some stat => stat v.world n.inode

/-! ## Section 5: Looking up again -/

variable {v v' : Vfs σ} {parent m : Nat} {path : Str} {names : List Str} {result : Except Int Nat}
  {ret : Int}

theorem node_of_entry {i : Nat} {e : Forest.Entry NodeCache} (h : v.tree.nodes[i]? = some e) :
    v.node i = some e.value :=
  map_eq_some_iff.mpr ⟨e, h, rfl⟩

/-- What a call keeps of the nodes: it adds some. -/
def Grows (v v' : Vfs σ) : Prop := v.tree.Le v'.tree

theorem Grows.refl (v : Vfs σ) : v.Grows v := Forest.Le.refl _

theorem Grows.of_tree (h : v'.tree = v.tree) : v.Grows v' := by
  rw [Grows, h]
  exact Forest.Le.refl _

theorem Grows.trans {v'' : Vfs σ} (h : v.Grows v') (h' : v'.Grows v'') : v.Grows v'' :=
  Forest.Le.trans h h'

theorem Grows.node (h : v.Grows v') {i : Nat} {n : NodeCache} (hn : v.node i = some n) :
    v'.node i = some n := by
  obtain ⟨e, he, rfl⟩ := map_eq_some_iff.mp hn
  obtain ⟨e', he', hvalue, -⟩ := h i e he
  exact map_eq_some_iff.mpr ⟨e', he', hvalue⟩

theorem convert_spec {c : Nat} {inode : Inode} {name link : Str}
    (h : v.convert parent inode name path link = some (c, v')) :
    v.Grows v' ∧ v'.world = v.world ∧ c = v.tree.nodes.length ∧
      (∃ p, v.node parent = some p ∧ v'.node c = some ⟨inode, p.fsi, false, name, path, link⟩) ∧
      ∀ e, v.tree.nodes[parent]? = some e → v.cachedSearch e name = none →
        v'.tree.follow NodeCache.name parent [name] = some c := by
  unfold convert at h
  split at h
  · rename_i hlt
    obtain ⟨p, hp, heq⟩ := map_eq_some_iff.mp h
    cases heq
    refine ⟨v.tree.le_addChild _ hlt _, rfl, rfl, ⟨p, hp, ?_⟩, ?_⟩
    · exact map_eq_some_iff.mpr ⟨_, Forest.grown_new .., rfl⟩
    · intro e he hmiss
      have hentry := Forest.grown_old he parent
        (⟨inode, p.fsi, false, name, path, link⟩ : NodeCache)
      rw [if_pos rfl] at hentry
      have hfound := Forest.search_addChild hlt
        (a := (⟨inode, p.fsi, false, name, path, link⟩ : NodeCache)) he hmiss
      exact Forest.follow_cons hentry hfound []
  · cases h

section Walk

variable {fs}
variable {v : Vfs σ} {node : Nat} {entry : Forest.Entry NodeCache} {segment : Str}

theorem walk_hit {child : Nat} (hentry : v.tree.nodes[node]? = some entry)
    (hhit : v.cachedSearch entry segment = some child) (currentPath : Str) (rest : List Str) :
    v.walk fs node currentPath (segment :: rest) =
      v.walk fs child (appendSegment currentPath segment) rest := by
  rw [walk, hentry, bind_some]
  simp only [hhit]

variable {look : σ → Inode → Str → Int × Inode}

theorem walk_unknown (hentry : v.tree.nodes[node]? = some entry)
    (hmiss : v.cachedSearch entry segment = none) (hlook : (fs entry.value.fsi).lookup = some look)
    (herror : (look v.world entry.value.inode segment).1 ≠ 0) (currentPath : Str)
    (rest : List Str) :
    v.walk fs node currentPath (segment :: rest) =
      some (.error (look v.world entry.value.inode segment).1, v) := by
  rw [walk, hentry, bind_some]
  simp only [hmiss, hlook]
  rw [if_pos herror]

theorem walk_known (hentry : v.tree.nodes[node]? = some entry)
    (hmiss : v.cachedSearch entry segment = none) (hlook : (fs entry.value.fsi).lookup = some look)
    (hknown : (look v.world entry.value.inode segment).1 = 0) (currentPath : Str)
    (rest : List Str) :
    ∃ (child : Nat) (v' : Vfs σ) (e' : Forest.Entry NodeCache),
      v.walk fs node currentPath (segment :: rest) =
        v'.walk fs child (appendSegment currentPath segment) rest ∧
      v'.world = v.world ∧ v'.tree.nodes[child]? = some e' ∧ e'.children = [] ∧
      e'.value.inode = (look v.world entry.value.inode segment).2 ∧
      e'.value.fsi = entry.value.fsi := by
  have hlt : node < v.tree.nodes.length := (List.getElem?_eq_some_iff.mp hentry).1
  rw [walk, hentry, bind_some]
  simp only [hmiss, hlook]
  rw [if_neg (not_not_intro hknown), convert, dif_pos hlt, node_of_entry hentry]
  exact ⟨_, _, _, rfl, rfl, Forest.grown_new .., rfl, rfl, rfl⟩

end Walk

theorem walk_spec {node : Nat} {currentPath : Str}
    (h : v.walk fs node currentPath names = some (result, v')) :
    v.Grows v' ∧ v'.world = v.world ∧
      ∀ m, result = .ok m → v'.tree.follow NodeCache.name node names = some m := by
  induction names generalizing v node currentPath with
  | nil =>
    cases h
    exact ⟨.refl _, rfl, fun m hm => congrArg some (Except.ok.inj hm)⟩
  | cons name rest ih =>
    obtain ⟨entry, hentry, h⟩ := bind_eq_some_iff.mp h
    dsimp only at h
    split at h
    · -- cache hit
      rename_i child hhit
      obtain ⟨hgrows, hworld, hfollow⟩ := ih h
      obtain ⟨entry', hentry', -, -, hchildren⟩ := hgrows node entry hentry
      refine ⟨hgrows, hworld, ?_⟩
      rw [Forest.follow_cons hentry' (hgrows.search hentry hchildren hhit)]
      exact hfollow
    · rename_i hmiss
      split at h
      · -- the file system has no such operation
        cases h
        exact ⟨.refl _, rfl, fun m hm => by cases hm⟩
      · split at h
        · -- it does not know the name
          cases h
          exact ⟨.refl _, rfl, fun m hm => by cases hm⟩
        · -- a new node below this one
          obtain ⟨⟨child, mid⟩, hconvert, h⟩ := bind_eq_some_iff.mp h
          obtain ⟨hmid, hmidworld, -, -, hfound⟩ := convert_spec hconvert
          obtain ⟨hgrows, hworld, hfollow⟩ := ih h
          refine ⟨hmid.trans hgrows, hworld.trans hmidworld, ?_⟩
          intro m hm
          have hstep := hgrows.follow (hfound entry hentry hmiss)
          rw [← List.singleton_append, Forest.follow_append, hstep]
          exact hfollow m hm

theorem walk_of_follow {node : Nat} (currentPath : Str)
    (h : v.tree.follow NodeCache.name node names = some m) :
    v.walk fs node currentPath names = some (.ok m, v) := by
  induction names generalizing node currentPath with
  | nil =>
    cases h
    rfl
  | cons name rest ih =>
    obtain ⟨entry, hentry, h⟩ := bind_eq_some_iff.mp h
    obtain ⟨child, hchild, h⟩ := bind_eq_some_iff.mp h
    rw [walk_hit hentry hchild]
    exact ih _ h

theorem walk_append {node : Nat} (h : v.tree.follow NodeCache.name node names = some m)
    (currentPath : Str) (rest : List Str) :
    ∃ currentPath', v.walk fs node currentPath (names ++ rest) = v.walk fs m currentPath' rest := by
  induction names generalizing node currentPath with
  | nil =>
    cases h
    exact ⟨currentPath, rfl⟩
  | cons name names ih =>
    obtain ⟨entry, hentry, h⟩ := bind_eq_some_iff.mp h
    obtain ⟨child, hchild, h⟩ := bind_eq_some_iff.mp h
    rw [List.cons_append, walk_hit hentry hchild]
    exact ih h _

theorem lookup_absolute {base : Nat} {be : Forest.Entry NodeCache}
    (hbase : v.tree.nodes[base]? = some be) (hplain : ∀ s ∈ names, Plain s) (hne : names ≠ []) :
    ∃ currentPath, v.lookup fs base ('/' :: output names) =
      v.walk fs (v.tree.root base) currentPath names := by
  obtain ⟨r, hr, -⟩ := v.tree.root_spec hbase
  have hroot := node_of_entry hr
  have hnormal : normalizePath r.value ('/' :: output names) (!true) = '/' :: output names :=
    normalize_of_plain hplain
  refine ⟨if r.value.path = [] then ['/'] else r.value.path, ?_⟩
  rw [lookup, lookupStart, hbase, bind_some, if_neg (by simp), if_neg (by simp)]
  simp only [isAbsolute, List.head?_cons, decide_true, if_true, hroot, bind_some, hnormal,
    segments_absolute hplain]
  rw [if_neg hne]
  rfl

theorem Grows.lookupStart {w : Vfs σ} (h : v.Grows w) {start : Nat × Str × List Str}
    (hstart : v.lookupStart parent path = some start) : w.lookupStart parent path = some start := by
  obtain ⟨p, hp, hstart⟩ := bind_eq_some_iff.mp hstart
  obtain ⟨p', hp', -, hparent, -⟩ := h parent p hp
  rw [Vfs.lookupStart, hp', bind_some, hparent, ← hstart]
  by_cases hdot : path = ['.']
  · rw [if_pos hdot, if_pos hdot]
  by_cases hdots : path = ['.', '.']
  · rw [if_neg hdot, if_neg hdot, if_pos hdots, if_pos hdots]
  rw [if_neg hdot, if_neg hdots] at hstart
  rw [if_neg hdot, if_neg hdots, if_neg hdot, if_neg hdots]
  obtain ⟨b, hb, hrest⟩ := bind_eq_some_iff.mp hstart
  obtain ⟨e, he, -⟩ := map_eq_some_iff.mp hb
  simp only [h.root hp, h.node hb, hb, bind_some, h.root he]
  by_cases hnone : segments (normalizePath b path !isAbsolute path) = []
  · rw [if_pos hnone, if_pos hnone]
  · dsimp only at hrest
    rw [if_neg hnone] at hrest ⊢
    obtain ⟨n, hn, -⟩ := map_eq_some_iff.mp hrest
    rw [if_neg hnone, h.node hn, hn]

theorem lookup_spec (h : v.lookup fs parent path = some (result, v')) :
    v.Grows v' ∧ v'.world = v.world ∧
      ∀ m, result = .ok m → ∀ w : Vfs σ, v'.Grows w → w.lookup fs parent path = some (.ok m, w) := by
  obtain ⟨⟨node, currentPath, names⟩, hstart, hwalk⟩ := bind_eq_some_iff.mp h
  obtain ⟨hgrows, hworld, hfollow⟩ := walk_spec fs hwalk
  refine ⟨hgrows, hworld, ?_⟩
  intro m hm w hw
  rw [lookup, (hgrows.trans hw).lookupStart hstart]
  exact walk_of_follow fs currentPath (hw.follow (hfollow m hm))

theorem lookupStart_node {node : Nat} {currentPath : Str}
    (h : v.lookupStart parent path = some (node, currentPath, names)) :
    ∃ e, v.tree.nodes[node]? = some e := by
  obtain ⟨p, hp, h⟩ := bind_eq_some_iff.mp h
  split at h
  · cases h
    exact ⟨p, hp⟩
  split at h
  · cases h
    cases hparent : p.parent with
    | none => exact ⟨p, hp⟩
    | some q => exact Forest.exists_parent hp hparent
  obtain ⟨b, hb, h⟩ := bind_eq_some_iff.mp h
  obtain ⟨be, hbe, -⟩ := map_eq_some_iff.mp hb
  dsimp only at h
  split at h
  · split at h
    · cases h
      exact ⟨be, hbe⟩
    · cases h
  · obtain ⟨n, hn, h⟩ := map_eq_some_iff.mp h
    cases h
    obtain ⟨ne, hne, -⟩ := map_eq_some_iff.mp hn
    exact ⟨ne, hne⟩

theorem lookup_node (h : v.lookup fs parent path = some (.ok m, v')) : ∃ n, v'.node m = some n := by
  obtain ⟨⟨node, currentPath, names⟩, hstart, hwalk⟩ := bind_eq_some_iff.mp h
  obtain ⟨hgrows, -, hfollow⟩ := walk_spec fs hwalk
  obtain ⟨e, he⟩ := lookupStart_node hstart
  obtain ⟨e', he', -⟩ := hgrows node e he
  obtain ⟨me, hme⟩ := Forest.exists_follow he' (hfollow m rfl)
  exact ⟨me.value, map_eq_some_iff.mpr ⟨me, hme, rfl⟩⟩

theorem createNode_grows {name link : Str} {mode : BitVec 32} {errorIfExists : Bool}
    (h : v.createNode fs parent name mode errorIfExists link = some (result, v')) : v.Grows v' := by
  obtain ⟨⟨found, mid⟩, hlookup, h⟩ := bind_eq_some_iff.mp h
  refine (lookup_spec fs hlookup).1.trans ?_
  dsimp only at h
  split at h
  · -- it exists
    split at h
    · cases h
      exact .refl _
    · obtain ⟨n, -, h⟩ := bind_eq_some_iff.mp h
      split at h
      · cases h
        exact .refl _
      · cases h
  · obtain ⟨p, hp, h⟩ := bind_eq_some_iff.mp h
    split at h
    · cases h
      exact .refl _
    · split at h
      · cases h
        exact .refl _
      · obtain ⟨⟨child, last⟩, hconvert, h⟩ := map_eq_some_iff.mp h
        cases h
        exact (convert_spec hconvert).1

theorem truncate_grows {target : Nat} {size : Int} (h : v.truncate fs target size = some (ret, v')) :
    v.Grows v' := by
  obtain ⟨n, -, h⟩ := map_eq_some_iff.mp h
  have htree : v'.tree = v.tree := by
    split at h
    · rw [← (Prod.mk.inj h).2]
    split at h
    · rw [← (Prod.mk.inj h).2]
    split at h
    · rw [← (Prod.mk.inj h).2]
    · rw [← (Prod.mk.inj h).2]
  exact .of_tree htree

theorem openNode_grows {target : Nat} {flags mode : BitVec 32}
    (h : v.openNode fs target flags mode = some (ret, v')) : v.Grows v' := by
  obtain ⟨n, -, h⟩ := map_eq_some_iff.mp h
  have htree : v'.tree = v.tree := by
    split at h
    · rw [← (Prod.mk.inj h).2]
    · rw [← (Prod.mk.inj h).2]
  exact .of_tree htree

/-! ## Section 6: Removing -/

theorem node_eraseChild (v : Vfs σ) (world : σ) (p c i : Nat) :
    (Vfs.mk (v.tree.eraseChild p c) world).node i = v.node i := by
  show (v.tree.eraseChild p c).nodes[i]?.map _ = v.tree.nodes[i]?.map _
  rw [Forest.eraseChild_nodes]
  cases v.tree.nodes[i]? with
  | none => rfl
  | some e =>
    rw [Option.map_some, Option.map_some, Option.map_some]
    split
    · rfl
    · rfl

theorem remove_node {node : Nat} (h : v.remove fs node = some (ret, v')) (i : Nat) :
    v'.node i = v.node i := by
  obtain ⟨e, -, h⟩ := bind_eq_some_iff.mp h
  split at h
  · cases h
    rfl
  · obtain ⟨p, -, h⟩ := map_eq_some_iff.mp h
    split at h
    · cases h
      rfl
    · dsimp only at h
      split at h
      · cases h
        exact node_eraseChild ..
      · cases h
        rfl

theorem remove_returns {node : Nat} {n : NodeCache} (h : v.node node = some n) :
    ∃ ret v', v.remove fs node = some (ret, v') := by
  obtain ⟨e, he, -⟩ := map_eq_some_iff.mp h
  rw [remove, he, bind_some]
  cases hparent : e.parent with
  | none => exact ⟨_, _, rfl⟩
  | some p =>
    obtain ⟨pe, hpe⟩ := Forest.exists_parent he hparent
    dsimp only
    rw [node_of_entry hpe]
    exact ⟨_, _, rfl⟩

end Vfs

end Fennix.Fs
