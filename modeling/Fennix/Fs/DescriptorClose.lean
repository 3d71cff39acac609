import Fennix.Fs.DescriptorOpen

/-! # Closing a descriptor

    `RemoveFileDescriptor` calls `Remove` on the node of the descriptor, which
    asks the file system to remove an entry: the one with the node's name in the
    node itself, as if it were its own parent. For a directory that has an entry
    of its own name that succeeds, and the name space changes.
-/

namespace Fennix.Fs.FileDescriptorTable

open Fennix.Fs.Path

variable {σ : Type} (fs : Nat → InodeOperations σ) (pcb : Pcb)

/-! ## Section 1: Names -/

/-- From `base` the path leads to the inode. -/
def Resolves (v : Vfs σ) (base : Nat) (path : Str) (inode : Inode) : Prop :=
  ∃ m v' n, v.lookup fs base path = some (.ok m, v') ∧ v'.node m = some n ∧ n.inode = inode

/-- Where a path leads to. -/
def inodeAt (v : Vfs σ) (base : Nat) (path : Str) : Option Inode :=
  (v.lookup fs base path).bind fun (found, v') =>
    match found with
    | .ok m => (v'.node m).map NodeCache.inode
    | .error _ => none

theorem resolves_iff (v : Vfs σ) (base : Nat) (path : Str) (inode : Inode) :
    Resolves fs v base path inode ↔ inodeAt fs v base path = some inode := by
  constructor
  · intro h
    obtain ⟨m, v', n, hlookup, hn, rfl⟩ := h
    rw [inodeAt, hlookup, Option.bind_some]
    exact Option.map_eq_some_iff.mpr ⟨n, hn, rfl⟩
  · intro h
    obtain ⟨⟨found, v'⟩, hlookup, h⟩ := Option.bind_eq_some_iff.mp h
    dsimp only at h
    split at h
    · rename_i m
      obtain ⟨n, hn, rfl⟩ := Option.map_eq_some_iff.mp h
      exact ⟨m, v', n, hlookup, hn, rfl⟩
    · cases h

/-- Every path that leads somewhere in `v` leads to the same inode in `v'`. -/
def KeepsNames (v v' : Vfs σ) : Prop :=
  ∀ base path inode, Resolves fs v base path inode → Resolves fs v' base path inode

/-- File systems whose `Remove` takes an entry out of a directory, or refuses and
    does nothing. -/
structure RemovesEntries : Prop where
  refused : ∀ fsi op, (fs fsi).remove = some op → ∀ w i name,
    (op w i name).1 ≠ 0 → (op w i name).2 = w
  removed : ∀ fsi op, (fs fsi).remove = some op → ∀ w i name, (op w i name).1 = 0 →
    ∃ look, (fs fsi).lookup = some look ∧ (look w i name).1 = 0 ∧
      (look (op w i name).2 i name).1 ≠ 0

/-- `Remove` of the node succeeds: it takes the entry with the node's name out of
    the node's own inode. -/
structure Unlinking (v : Vfs σ) (node p : Nat) (e pe : Forest.Entry NodeCache)
    (op : σ → Inode → Str → Int × σ) : Prop where
  entry : v.tree.nodes[node]? = some e
  parent : e.parent = some p
  parentEntry : v.tree.nodes[p]? = some pe
  operation : (fs pe.value.fsi).remove = some op
  success : (op v.world e.value.inode e.value.name).1 = 0

/-- Closing `fd` removes something. -/
def Unlinks (s : FileDescriptorTable σ) (fd : Int) : Prop :=
  ∃ f p e pe op, s.fileMap fd = some f ∧ Unlinking fs s.vfs f.node p e pe op

section Remove

variable {fs}
variable {v : Vfs σ} {node p : Nat} {e pe : Forest.Entry NodeCache}
variable {op : σ → Inode → Str → Int × σ}

theorem Unlinking.remove (h : Unlinking fs v node p e pe op) :
    v.remove fs node =
      some (0, ⟨v.tree.eraseChild p node, (op v.world e.value.inode e.value.name).2⟩) := by
  rw [Vfs.remove, h.entry, Option.bind_some, h.parent]
  simp only [Vfs.node_of_entry h.parentEntry, Option.map_some, h.operation, h.success]
  rw [if_pos trivial]

theorem remove_of_not_unlinking (hfs : RemovesEntries fs) {ret : Int} {v' : Vfs σ}
    (h : v.remove fs node = some (ret, v'))
    (hnot : ¬∃ p e pe op, Unlinking fs v node p e pe op) : v' = v := by
  obtain ⟨e, he, h⟩ := Option.bind_eq_some_iff.mp h
  split at h
  · exact (Prod.mk.inj (Option.some.inj h)).2.symm
  · rename_i p hparent
    obtain ⟨pn, hpn, h⟩ := Option.map_eq_some_iff.mp h
    obtain ⟨pe, hpe, rfl⟩ := Option.map_eq_some_iff.mp hpn
    split at h
    · exact (Prod.mk.inj h).2.symm
    · rename_i op hop
      dsimp only at h
      split at h
      · rename_i hsuccess
        exact absurd ⟨p, e, pe, op, he, hparent, hpe, hop, hsuccess⟩ hnot
      · rename_i hfail
        rw [← (Prod.mk.inj h).2, hfs.refused _ op hop _ _ _ hfail]

end Remove

/-! ## Section 2: A removal breaks a path -/

/-- The node hangs in the tree as a lookup has put it there: its parent is
    reached by names, has no other child of its name, and is of the same file
    system. -/
structure Linked (v : Vfs σ) (node p : Nat) (e pe : Forest.Entry NodeCache)
    (names : List Str) : Prop where
  plain : ∀ s ∈ names, Plain s
  plainName : Plain e.value.name
  path : v.tree.follow NodeCache.name (v.tree.root node) names = some p
  alone : (pe.children.filter fun c =>
    v.tree.nodes[c]?.any fun m => m.value.name = e.value.name) = [node]
  sameFs : e.value.fsi = pe.value.fsi

section Linked

variable {fs}
variable {v : Vfs σ} {node p : Nat} {e pe : Forest.Entry NodeCache}
variable {op : σ → Inode → Str → Int × σ} {names : List Str}

theorem Linked.search (h : Linked v node p e pe names) :
    v.cachedSearch pe e.value.name = some node := by
  rw [Vfs.cachedSearch, Forest.search, ← List.head?_filter, h.alone]
  rfl

theorem Linked.lookup (fs : Nat → InodeOperations σ) (h : Linked v node p e pe names) {w : Vfs σ}
    (hentry : ∃ we, w.tree.nodes[node]? = some we)
    (hroot : w.tree.root node = v.tree.root node)
    (hpath : w.tree.follow NodeCache.name (v.tree.root node) names = some p) (below : List Str)
    (hbelow : ∀ s ∈ below, Plain s) :
    ∃ currentPath, w.lookup fs node ('/' :: output (names ++ e.value.name :: below)) =
      w.walk fs p currentPath (e.value.name :: below) := by
  obtain ⟨we, hwe⟩ := hentry
  have hplain : ∀ s ∈ names ++ e.value.name :: below, Plain s :=
    List.forall_mem_append.mpr ⟨h.plain, List.forall_mem_cons.mpr ⟨h.plainName, hbelow⟩⟩
  obtain ⟨currentPath, hlookup⟩ := Vfs.lookup_absolute fs hwe hplain (by simp)
  rw [hlookup, hroot]
  exact Vfs.walk_append fs hpath currentPath _

theorem Linked.before (h : Linked v node p e pe names) (hu : Unlinking fs v node p e pe op)
    (hfs : RemovesEntries fs) :
    Resolves fs v node ('/' :: output (names ++ [e.value.name])) e.value.inode ∧
      ∃ inode, Resolves fs v node ('/' :: output (names ++ [e.value.name, e.value.name])) inode := by
  constructor
  · obtain ⟨currentPath, hlookup⟩ := h.lookup fs ⟨e, hu.entry⟩ rfl h.path [] (by simp)
    refine ⟨node, v, e.value, ?_, Vfs.node_of_entry hu.entry, rfl⟩
    rw [hlookup, Vfs.walk_hit hu.parentEntry h.search]
    rfl
  · obtain ⟨currentPath, hlookup⟩ := h.lookup fs ⟨e, hu.entry⟩ rfl h.path [e.value.name]
      (by simpa using h.plainName)
    obtain ⟨look, hlook, hknown, -⟩ := hfs.removed _ op hu.operation _ _ _ hu.success
    rw [← h.sameFs] at hlook
    unfold Resolves
    rw [hlookup, Vfs.walk_hit hu.parentEntry h.search]
    -- the entry may be cached already
    cases hchild : v.cachedSearch e e.value.name with
    | some c =>
      obtain ⟨ce, hce, -⟩ := v.tree.child_parent node e c hu.entry
        (List.mem_of_find?_eq_some hchild)
      refine ⟨_, c, v, ce.value, ?_, Vfs.node_of_entry hce, rfl⟩
      rw [Vfs.walk_hit hu.entry hchild]
      rfl
    | none =>
      obtain ⟨child, v', ce, hwalk, -, hce, -⟩ :=
        Vfs.walk_known hu.entry hchild hlook hknown (Vfs.appendSegment currentPath e.value.name) []
      refine ⟨_, child, v', ce.value, ?_, Vfs.node_of_entry hce, rfl⟩
      rw [hwalk]
      rfl

theorem Linked.after (h : Linked v node p e pe names) (hu : Unlinking fs v node p e pe op)
    (hfs : RemovesEntries fs) {v' : Vfs σ}
    (hv' : v' = ⟨v.tree.eraseChild p node, (op v.world e.value.inode e.value.name).2⟩) :
    ¬(Resolves fs v' node ('/' :: output (names ++ [e.value.name])) e.value.inode ∧
      ∃ inode,
        Resolves fs v' node ('/' :: output (names ++ [e.value.name, e.value.name])) inode) := by
  intro hboth
  obtain ⟨⟨m, w, n, hfirst, hn, hinode⟩, inode, m', w', n', hsecond, -, -⟩ := hboth
  obtain ⟨look, hlook, -, hgone⟩ := hfs.removed _ op hu.operation _ _ _ hu.success
  -- the parent is reached as before, and does not find the name among its children
  have hparent : v'.tree.nodes[p]? = some { pe with children := pe.children.erase node } := by
    rw [hv', Forest.eraseChild_nodes, hu.parentEntry, Option.map_some, if_pos rfl]
  have hmiss : v'.cachedSearch { pe with children := pe.children.erase node } e.value.name =
      none := by
    rw [hv', Vfs.cachedSearch, Forest.search_eraseChild]
    exact Forest.search_erased h.alone
  have hroot : v'.tree.root node = v.tree.root node := by
    rw [hv', Forest.root_eraseChild]
  have hpath : v'.tree.follow NodeCache.name (v.tree.root node) names = some p := by
    rw [hv']
    exact Forest.follow_eraseChild h.path
  have hentry : ∃ we, v'.tree.nodes[node]? = some we := by
    rw [hv', Forest.eraseChild_nodes, hu.entry]
    exact ⟨_, rfl⟩
  have hworld : v'.world = (op v.world e.value.inode e.value.name).2 := by
    rw [hv']
  obtain ⟨cur1, hlookup1⟩ := h.lookup fs hentry hroot hpath [] (by simp)
  obtain ⟨cur2, hlookup2⟩ := h.lookup fs hentry hroot hpath [e.value.name]
    (by simpa using h.plainName)
  rw [hlookup1] at hfirst
  rw [hlookup2] at hsecond
  by_cases hknown : (look v'.world pe.value.inode e.value.name).1 = 0
  · -- the parent's file system finds an inode under the name
    obtain ⟨child, u, ce, hwalk, -, hce, -, hceinode, -⟩ :=
      Vfs.walk_known hparent hmiss hlook hknown cur1 []
    obtain ⟨child', u', ce', hwalk', huworld, hce', hchildren, hceinode', hcefs⟩ :=
      Vfs.walk_known hparent hmiss hlook hknown cur2 [e.value.name]
    have hsame : (look v'.world pe.value.inode e.value.name).2 = e.value.inode := by
      rw [hwalk] at hfirst
      obtain ⟨hm, rfl⟩ := Prod.mk.inj (Option.some.inj hfirst)
      obtain rfl := Except.ok.inj hm
      rw [Vfs.node_of_entry hce] at hn
      rw [← hinode, ← Option.some.inj hn, hceinode]
    -- it is the inode from which the entry is gone
    have hnone : u'.cachedSearch ce' e.value.name = none := by
      rw [Vfs.cachedSearch, Forest.search, hchildren]
      rfl
    have hlook' : (fs ce'.value.fsi).lookup = some look := by
      rw [hcefs]
      exact hlook
    have hunknown : (look u'.world ce'.value.inode e.value.name).1 ≠ 0 := by
      rw [huworld, hworld, hceinode', hsame]
      exact hgone
    rw [hwalk', Vfs.walk_unknown hce' hnone hlook' hunknown] at hsecond
    cases hsecond
  · rw [Vfs.walk_unknown hparent hmiss hlook hknown] at hfirst
    cases hfirst

end Linked

/-! ## Section 3: Closing -/

/-- The node of `fd` hangs in the tree as a lookup has put it there. -/
def IsLinked (s : FileDescriptorTable σ) (fd : Int) : Prop :=
  ∃ f p e pe names, s.fileMap fd = some f ∧ s.vfs.tree.nodes[f.node]? = some e ∧
    e.parent = some p ∧ s.vfs.tree.nodes[p]? = some pe ∧ Linked s.vfs f.node p e pe names

theorem not_keepsNames_of_unlinks {s : FileDescriptorTable σ} {fd r : Int} {f : Fildes}
    {v' : Vfs σ} (hfs : RemovesEntries fs) (hf : s.fileMap fd = some f)
    (hremove : s.vfs.remove fs f.node = some (r, v')) (hunlinks : Unlinks fs s fd)
    (hlinked : IsLinked s fd) : ¬KeepsNames fs s.vfs v' := by
  obtain ⟨f₁, p, e, pe, op, hf₁, hu⟩ := hunlinks
  obtain ⟨f₂, p₂, e₂, pe₂, names, hf₂, he₂, hp₂, hpe₂, hlinked⟩ := hlinked
  -- both speak of the same node
  obtain rfl := Option.mem_unique hf₁ hf
  obtain rfl := Option.mem_unique hf₂ hf
  obtain rfl := Option.mem_unique he₂ hu.entry
  obtain rfl := Option.mem_unique hp₂ hu.parent
  obtain rfl := Option.mem_unique hpe₂ hu.parentEntry
  have hv' := (Prod.mk.inj (Option.mem_unique hremove hu.remove)).2
  obtain ⟨hfirst, inode, hsecond⟩ := hlinked.before hu hfs
  intro hkeeps
  exact hlinked.after hu hfs hv' ⟨hkeeps _ _ _ hfirst, inode, hkeeps _ _ _ hsecond⟩

/-- A close returns and takes its entry from the table; the files are untouched
    unless it unlinks something. -/
theorem usrClose_spec {s : FileDescriptorTable σ} (hfs : RemovesEntries fs) (h : Sound s)
    (fd : Int) :
    ∃ ret s', s.usrClose fs fd = some (ret, s') ∧ s'.fileMap = s.fileMap.erase fd ∧
      (¬Unlinks fs s fd → s'.vfs = s.vfs) ∧
      (Unlinks fs s fd → IsLinked s fd → ¬KeepsNames fs s.vfs s'.vfs) := by
  obtain ⟨ret, s', hclose⟩ := h.usrClose_returns fs fd
  refine ⟨ret, s', hclose, usrClose_fileMap hclose, ?_⟩
  obtain ⟨hf, -, rfl⟩ | ⟨f, r, v', hf, hremove, -, rfl⟩ := usrClose_cases hclose
  · refine ⟨fun _ => rfl, ?_⟩
    intro hunlinks
    obtain ⟨f, p, e, pe, op, hf', -⟩ := hunlinks
    cases hf.symm.trans hf'
  · refine ⟨?_, not_keepsNames_of_unlinks fs hfs hf hremove⟩
    intro hnot
    refine remove_of_not_unlinking hfs hremove ?_
    intro hunlinking
    obtain ⟨p, e, pe, op, hu⟩ := hunlinking
    exact hnot ⟨f, p, e, pe, op, hf, hu⟩

/-- The descriptor that a call closes. -/
def closes (s : FileDescriptorTable σ) : TableCall → Option Int
  | .usrClose fd => some fd
  | .usrDup2 oldfd newfd =>
    if 0 ≤ newfd ∧ (s.fileMap oldfd).isSome ∧ newfd ≠ oldfd then some newfd else none
  | .usrOpen _ _ _ => none
  | .usrDup _ => none

theorem removesEntries_directories : RemovesEntries fun _ => directories where
  refused := by
    intro fsi op hop w i name hret
    cases hop
    dsimp only at hret ⊢
    split
    · rename_i hfound
      rw [hfound] at hret
      exact absurd rfl hret
    · rfl
  removed := by
    intro fsi op hop w i name hret
    cases hop
    refine ⟨_, rfl, ?_⟩
    dsimp only at hret ⊢
    cases hfound : w.lookup (i.index, name) with
    | none =>
      rw [hfound] at hret
      exact absurd (show -enoent = 0 from hret) (by decide)
    | some inode =>
      have hgone : (w.filter fun entry => entry.1 ≠ (i.index, name)).lookup (i.index, name) =
          none := by
        rw [List.lookup_eq_none_iff]
        intro entry hentry
        have hne := (List.mem_filter.mp hentry).2
        simp only [ne_eq, decide_not, Bool.not_eq_true', decide_eq_false_iff_not] at hne
        simpa using fun heq => hne heq.symm
      simp only [hgone]
      exact ⟨trivial, by decide⟩

/-- The small table with descriptor 0 on the directory of the descriptors. -/
def openTable : FileDescriptorTable Entries :=
  { smallTable with fileMap := fun fd => if fd = 0 then some ⟨0, 0, 1, 0⟩ else none }

theorem sound_openTable : Sound openTable where
  nodes := by
    intro fd f hf
    change (if fd = 0 then _ else _) = some f at hf
    split at hf
    · cases hf
      exact ⟨_, rfl⟩
    · cases hf

end Fennix.Fs.FileDescriptorTable
