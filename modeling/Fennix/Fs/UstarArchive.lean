import Fennix.Fs.Path
import Mathlib.Logic.Function.Basic
import Mathlib.Logic.Relation

/-! # The tree of an archive

    `USTAR::ReadArchive` of `Kernel/fs/ustar.cpp`, from where the headers have
    been found one behind the other. Each header gives a node, with the number
    of the header as inode number. A node is put below another by its path, with
    the directories that are open at the time on a stack. Then the children of
    each node get the offsets 2, 3, … that `ReadDir` goes by.

    Only the nodes below the first are numbered.
-/

namespace Fennix.Fs.Ustar

open Path

/-! ## Section 1: The nodes -/

/-- What `ReadArchive` takes of a header: the string at `name`, the `typeflag`,
    and whether the mode is that of a directory. `SetMode` adds the bits of the
    mode to a variable that has no value yet, so nothing is said about it. -/
structure Entry where
  name : Str
  typeflag : Char
  directory : Bool

/-- The `Path` of the node: the dot before a slash is removed. -/
def Entry.path (e : Entry) : Str :=
  match e.name with
  | '.' :: '/' :: rest => '/' :: rest
  | name => name

/-- The `Name` of the node: the last segment, or all if there is none. -/
def Entry.baseName (e : Entry) : Str := (segments e.path).getLastD e.path

/-! ## Section 2: The tree -/

/-- The nodes while they are put into the tree. `parentStack` has its back at the
    head here, and `pathStack` holds the paths of the same nodes. -/
structure ArchiveTree where
  stack : List Nat
  children : Nat → List Nat
  parent : Nat → Option Nat

namespace ArchiveTree

/-- `parent->Children.push_back(file); file->Parent = parent`. -/
def attach (t : ArchiveTree) (parent file : Nat) : ArchiveTree where
  stack := t.stack
  children := Function.update t.children parent (t.children parent ++ [file])
  parent := Function.update t.parent file (some parent)

/-- A directory goes below the back of the stack and becomes the back. A stack
    without a back is not looked at. -/
def pushOn (t : ArchiveTree) (file : Nat) : List Nat → Option ArchiveTree
  | [] => none
  | parent :: below => some { t.attach parent file with stack := file :: parent :: below }

/-- A path that ends with a slash. -/
def addDirectory (path : Nat → Str) (t : ArchiveTree) (file : Nat) : Option ArchiveTree :=
  let dirName := dirname (path file)
  match t.stack with
  | [] => none
  | top :: below =>
    if dirName = path top then t.pushOn file t.stack
    else if t.stack.any fun d => dirName = path d then
      t.pushOn file (t.stack.dropWhile fun d => dirName ≠ path d)
    else t.pushOn file below

/-- The loop over the stack for a file that is not in the directory at the back,
    at index `i`. The loop goes on behind a match. -/
def addHigher (path : Nat → Str) (file : Nat) (t : ArchiveTree) (i : Nat) : ArchiveTree :=
  match t.stack.reverse[i]? with
  | none => t
  | some d =>
    if dirname (path file) ≠ path d then t
    else
      match t.stack.dropWhile fun d => dirname (path file) ≠ path d with
      | [] => t
      | parent :: below => { t.attach parent file with stack := parent :: below }

/-- Any other path. -/
def addFile (path : Nat → Str) (t : ArchiveTree) (file : Nat) : Option ArchiveTree :=
  match t.stack with
  | [] => none
  | top :: _ =>
    if dirname (path file) = path top then some (t.attach top file)
    else some ((List.range t.stack.length).foldl (addHigher path file) t)

/-- The loop body. -/
def add (path : Nat → Str) (t : ArchiveTree) (file : Nat) : Option ArchiveTree :=
  if path file = ['/'] then some { t with stack := file :: t.stack }
  else
    match (path file).getLast? with
    | none => none
    | some c => if c = '/' then t.addDirectory path file else t.addFile path file

/-- No node is below another. -/
def empty : ArchiveTree := ⟨[], fun _ => [], fun _ => none⟩

end ArchiveTree

/-! ## Section 3: The offsets -/

/-- `ustarTree`. `none` if the nodes are nested deeper than `fuel`. -/
def ustarTree (children : Nat → List Nat) : Nat → Nat → (Nat → Nat) → Option (Nat → Nat)
  | 0, _, _ => none
  | fuel + 1, node, offset =>
    ((children node).zipIdx 2).foldlM (fun offset child =>
      ustarTree children fuel child.1 (Function.update offset child.1 child.2)) offset

/-- The nodes as `ReadArchive` leaves them. -/
structure Archive where
  entries : List Entry
  tree : ArchiveTree
  offset : Nat → Nat

/-- The paths of the nodes. -/
def pathOf (entries : List Entry) (file : Nat) : Str := (entries[file]?.map Entry.path).getD []

/-- `USTAR::ReadArchive`, given the headers. -/
def readArchive (entries : List Entry) : Option Archive :=
  if entries = [] then none
  else
    ((List.range entries.length).foldlM (ArchiveTree.add (pathOf entries)) .empty).bind fun tree =>
      (ustarTree tree.children entries.length 0 fun _ => 0).map fun offset =>
        ⟨entries, tree, offset⟩

/-! ## Section 4: What the tree is -/

/-- Each node is in the list of its parent and in no other, and comes behind its
    parent in the archive of which `n` headers have been looked at. -/
structure ArchiveTree.Sound (n : Nat) (t : ArchiveTree) : Prop where
  parent_iff : ∀ p c, c ∈ t.children p ↔ t.parent c = some p
  child : ∀ p c, t.parent c = some p → p < c ∧ c < n

namespace ArchiveTree

variable {path : Nat → Str} {n : Nat} {t t' : ArchiveTree}

theorem Sound.mono (h : Sound n t) : Sound (n + 1) t where
  parent_iff := h.parent_iff
  child p c hp := ⟨(h.child p c hp).1, Nat.lt_succ_of_lt (h.child p c hp).2⟩

theorem Sound.attach {p : Nat} (h : Sound (n + 1) t) (hp : p < n)
    (hn : t.parent n = none ∨ t.parent n = some p) : Sound (n + 1) (t.attach p n) where
  parent_iff q c := by
    have hiff := h.parent_iff q c
    simp only [ArchiveTree.attach]
    by_cases hq : q = p <;> by_cases hc : c = n <;>
      simp only [hq, hc, Function.update_self, ne_eq, not_false_eq_true, Function.update_of_ne,
        List.mem_append, List.mem_singleton, Option.some.injEq, or_true, or_false] at hiff ⊢
    · exact hiff
    · rw [hiff]
      rcases hn with hnone | hsome
      · simp [hnone, Ne.symm hq]
      · simp [hsome]
    · exact hiff
  child q c hc := by
    simp only [ArchiveTree.attach] at hc
    by_cases hcn : c = n
    · subst hcn
      rw [Function.update_self] at hc
      exact ⟨Option.some.inj hc ▸ hp, Nat.lt_succ_self c⟩
    · rw [Function.update_of_ne hcn] at hc
      exact h.child q c hc

/-- The tree while the first `n` headers are put into it. -/
structure Built (n : Nat) (t : ArchiveTree) : Prop extends Sound n t where
  stack_lt : ∀ d ∈ t.stack, d < n

theorem Built.parent_none (h : Built n t) : t.parent n = none := by
  cases hp : t.parent n with
  | none => rfl
  | some p => exact absurd (h.child p n hp).2 (Nat.lt_irrefl n)

theorem Built.pushOn {stack : List Nat} (h : Built n t) (hstack : ∀ d ∈ stack, d < n)
    (hpush : t.pushOn n stack = some t') : Built (n + 1) t' := by
  cases stack with
  | nil => cases hpush
  | cons parent below =>
    cases hpush
    have hsound := h.toSound.mono.attach (hstack parent List.mem_cons_self) (Or.inl h.parent_none)
    exact ⟨⟨hsound.parent_iff, hsound.child⟩, List.forall_mem_cons.mpr
      ⟨Nat.lt_succ_self _, fun d hd => Nat.lt_succ_of_lt (hstack d hd)⟩⟩

theorem Built.addDirectory (h : Built n t) (hadd : t.addDirectory path n = some t') :
    Built (n + 1) t' := by
  simp only [ArchiveTree.addDirectory] at hadd
  split at hadd
  · cases hadd
  · rename_i top below hstack
    have hdrop : ∀ d ∈ t.stack.dropWhile (fun d => decide (dirname (path n) ≠ path d)), d < n :=
      fun d hd => h.stack_lt d ((List.dropWhile_sublist _).subset hd)
    split at hadd
    · exact h.pushOn h.stack_lt hadd
    · split at hadd
      · exact h.pushOn hdrop hadd
      · refine h.pushOn (fun d hd => h.stack_lt d ?_) hadd
        rw [hstack]
        exact List.mem_cons_of_mem _ hd

/-- What the loop over the stack keeps: the file has no parent yet, or the back
    of the stack has its directory's path and is its parent. -/
structure Placing (path : Nat → Str) (n : Nat) (t : ArchiveTree) : Prop where
  sound : Sound (n + 1) t
  stack_lt : ∀ d ∈ t.stack, d < n
  parent : t.parent n = none ∨
    ∃ p below, t.stack = p :: below ∧ dirname (path n) = path p ∧ t.parent n = some p

theorem Placing.addHigher (h : Placing path n t) (i : Nat) :
    Placing path n (t.addHigher path n i) := by
  simp only [ArchiveTree.addHigher]
  split
  · exact h
  · split
    · exact h
    · split
      · exact h
      · rename_i p below hdrop
        have hsub : ∀ d ∈ p :: below, d < n := by
          intro d hd
          rw [← hdrop] at hd
          exact h.stack_lt d ((List.dropWhile_sublist _).subset hd)
        have hpath : dirname (path n) = path p := by
          have hhead := List.head?_dropWhile_not
            (fun d => decide (dirname (path n) ≠ path d)) t.stack
          rw [hdrop] at hhead
          simpa using hhead
        -- a parent from an earlier match is at the back, where nothing is dropped
        have hparent : t.parent n = none ∨ t.parent n = some p := by
          rcases h.parent with hnone | ⟨q, rest, hstack, hq, hsome⟩
          · exact Or.inl hnone
          · rw [hstack, List.dropWhile_cons_of_neg (by simp [hq])] at hdrop
            rw [hsome, (List.cons.inj hdrop).1]
            exact Or.inr rfl
        have hsound := h.sound.attach (hsub p List.mem_cons_self) hparent
        exact ⟨⟨hsound.parent_iff, hsound.child⟩, hsub,
          Or.inr ⟨p, below, rfl, hpath, Function.update_self ..⟩⟩

theorem Placing.foldl (h : Placing path n t) (is : List Nat) :
    Placing path n (is.foldl (ArchiveTree.addHigher path n) t) :=
  List.foldlRecOn (motive := Placing path n) is _ h fun _ ht i _ => ht.addHigher i

theorem Built.addFile (h : Built n t) (hadd : t.addFile path n = some t') : Built (n + 1) t' := by
  simp only [ArchiveTree.addFile] at hadd
  split at hadd
  · cases hadd
  · rename_i top below hstack
    split at hadd
    · cases hadd
      have htop : top < n := h.stack_lt top (by rw [hstack]; exact List.mem_cons_self)
      exact ⟨h.toSound.mono.attach htop (Or.inl h.parent_none),
        fun d hd => Nat.lt_succ_of_lt (h.stack_lt d hd)⟩
    · cases hadd
      have hplacing : Placing path n t := ⟨h.toSound.mono, h.stack_lt, Or.inl h.parent_none⟩
      have hend := hplacing.foldl (List.range t.stack.length)
      exact ⟨hend.sound, fun d hd => Nat.lt_succ_of_lt (hend.stack_lt d hd)⟩

theorem Built.add (h : Built n t) (hadd : t.add path n = some t') : Built (n + 1) t' := by
  simp only [ArchiveTree.add] at hadd
  split at hadd
  · cases hadd
    exact ⟨⟨h.toSound.mono.parent_iff, h.toSound.mono.child⟩, List.forall_mem_cons.mpr
      ⟨Nat.lt_succ_self _, fun d hd => Nat.lt_succ_of_lt (h.stack_lt d hd)⟩⟩
  · split at hadd
    · cases hadd
    · split at hadd
      · exact h.addDirectory hadd
      · exact h.addFile hadd

theorem built_foldlM (n : Nat) :
    ∀ t, (List.range n).foldlM (ArchiveTree.add path) .empty = some t → Built n t := by
  induction n with
  | zero =>
    intro t ht
    cases ht
    exact ⟨⟨fun p c => by simp [empty], fun p c hp => nomatch hp⟩, fun d hd => nomatch hd⟩
  | succ n ih =>
    intro t ht
    rw [List.range_succ, List.foldlM_append] at ht
    obtain ⟨mid, hmid, hadd⟩ := Option.bind_eq_some_iff.mp ht
    rw [List.foldlM_cons] at hadd
    obtain ⟨last, hlast, heq⟩ := Option.bind_eq_some_iff.mp hadd
    cases heq
    exact (ih mid hmid).add hlast

end ArchiveTree

/-! ## Section 5: Which offsets the nodes get -/

/-- The node `c` is `p` or somewhere below it. -/
def Inside (children : Nat → List Nat) : Nat → Nat → Prop :=
  Relation.ReflTransGen fun c p => c ∈ children p

/-- The offsets after `ustarTree` has come back from `node`: a node below has the
    offset of the last place it has among the children of its parent, the others
    keep theirs. -/
structure Numbered (children : Nat → List Nat) (node : Nat) (offset offset' : Nat → Nat) :
    Prop where
  inside : ∀ p before c after, Inside children p node → children p = before ++ c :: after →
    c ∉ after → offset' c = before.length + 2
  outside : ∀ c, (∀ p, Inside children p node → c ∉ children p) → offset' c = offset c

section numbering

variable {children : Nat → List Nat} {n : Nat}
  (hunique : ∀ {p q c}, c ∈ children p → c ∈ children q → p = q)
  (hchild : ∀ {p c}, c ∈ children p → p < c ∧ c < n)

include hchild in
theorem Inside.le {c p : Nat} (h : Inside children c p) : p ≤ c := by
  induction h with
  | refl => exact Nat.le_refl c
  | tail _ hstep ih => exact Nat.le_trans (Nat.le_of_lt (hchild hstep).1) ih

include hunique hchild in
theorem Inside.not_child {d d' node p : Nat} (hd : d ∈ children node) (hp : Inside children p d)
    (hd' : d' ∈ children node) : d' ∉ children p := by
  intro hmem
  obtain rfl := hunique hmem hd'
  have hle := Inside.le hchild hp
  have hlt := (hchild hd).1
  omega

include hunique hchild in
theorem Inside.same_child {d d' node p : Nat} (hd : d ∈ children node)
    (hd' : d' ∈ children node) (hp : Inside children p d) (hp' : Inside children p d') :
    d = d' := by
  -- of two nodes above `p` one is above the other
  have hnot : ∀ {a b : Nat}, a ∈ children node → b ∈ children node → Inside children a b →
      a = b := by
    intro a b ha hb hab
    rcases Relation.ReflTransGen.cases_head hab with rfl | ⟨q, haq, hqb⟩
    · rfl
    · obtain rfl := hunique haq ha
      have hle := Inside.le hchild hqb
      have hlt := (hchild hb).1
      omega
  have hright : Relator.RightUnique fun c p => c ∈ children p := fun _ _ _ h h' => hunique h h'
  rcases Relation.ReflTransGen.total_of_right_unique hright hp hp' with h | h
  · exact hnot hd hd' h
  · exact (hnot hd' hd h).symm

include hunique hchild in
theorem foldlM_numbered {fuel node : Nat}
    (ih : ∀ d offset, node < d → d < n →
      ∃ offset', ustarTree children fuel d offset = some offset' ∧
        Numbered children d offset offset')
    (cs : List Nat) (hcs : ∀ d ∈ cs, d ∈ children node) (k : Nat) (offset : Nat → Nat) :
    ∃ offset', (cs.zipIdx k).foldlM (fun offset child =>
        ustarTree children fuel child.1 (Function.update offset child.1 child.2)) offset =
          some offset' ∧
      (∀ d ∈ cs, ∀ p before c after, Inside children p d → children p = before ++ c :: after →
        c ∉ after → offset' c = before.length + 2) ∧
      (∀ before c after, cs = before ++ c :: after → c ∉ after → offset' c = before.length + k) ∧
      (∀ c, c ∉ cs → (∀ d ∈ cs, ∀ p, Inside children p d → c ∉ children p) →
        offset' c = offset c) := by
  induction cs generalizing k offset with
  | nil => exact ⟨offset, rfl, by simp, by simp, fun c _ _ => rfl⟩
  | cons d cs ihcs =>
    have hd := hcs d List.mem_cons_self
    have hcs' : ∀ d ∈ cs, d ∈ children node := fun d h => hcs d (List.mem_cons_of_mem _ h)
    obtain ⟨offset₁, hfirst, hnumbered⟩ :=
      ih d (Function.update offset d k) (hchild hd).1 (hchild hd).2
    obtain ⟨offset', hrest, hbelow, hplace, hother⟩ := ihcs hcs' (k + 1) offset₁
    refine ⟨offset', ?_, ?_, ?_, ?_⟩
    · rw [List.zipIdx_cons, List.foldlM_cons]
      exact Option.bind_eq_some_iff.mpr ⟨offset₁, hfirst, hrest⟩
    · -- what is below `d` is numbered at once and left alone by the others
      intro e he p before c after hp hchildren hlast
      by_cases hin : e ∈ cs
      · exact hbelow e hin p before c after hp hchildren hlast
      · obtain rfl := (List.mem_cons.mp he).resolve_right hin
        have hc : c ∈ children p := by
          rw [hchildren]
          simp
        rw [hother c, hnumbered.inside p before c after hp hchildren hlast]
        · exact fun hmem => Inside.not_child hunique hchild hd hp (hcs' c hmem) hc
        · intro d' hd' q hq hcq
          obtain rfl := hunique hc hcq
          exact hin (Inside.same_child hunique hchild hd (hcs' d' hd') hp hq ▸ hd')
    · intro before c after hsplit hlast
      cases before with
      | nil =>
        obtain ⟨rfl, rfl⟩ := List.cons.inj hsplit
        rw [hother d hlast fun d' hd' p hp =>
            Inside.not_child hunique hchild (hcs' d' hd') hp hd,
          hnumbered.outside d fun p hp => Inside.not_child hunique hchild hd hp hd,
          Function.update_self, List.length_nil, Nat.zero_add]
      | cons b before =>
        obtain ⟨rfl, rfl⟩ := List.cons.inj hsplit
        rw [hplace before c after rfl hlast, List.length_cons]
        omega
    · intro c hc hnot
      rw [hother c (fun h => hc (List.mem_cons_of_mem _ h)) fun e he =>
          hnot e (List.mem_cons_of_mem _ he),
        hnumbered.outside c (hnot d List.mem_cons_self), Function.update_of_ne]
      rintro rfl
      exact hc List.mem_cons_self

include hunique hchild in
theorem ustarTree_numbered (fuel node : Nat) (offset : Nat → Nat) (hnode : node < n)
    (hfuel : n ≤ fuel + node) :
    ∃ offset', ustarTree children fuel node offset = some offset' ∧
      Numbered children node offset offset' := by
  induction fuel generalizing node offset with
  | zero => omega
  | succ fuel ih =>
    obtain ⟨offset', hfold, hbelow, hplace, hother⟩ := foldlM_numbered hunique hchild
      (fun d offset hlt hd => ih d offset hd (by omega)) (children node) (fun d hd => hd) 2 offset
    refine ⟨offset', hfold, ?_, ?_⟩
    · intro p before c after hp hchildren hlast
      rcases Relation.ReflTransGen.cases_tail hp with rfl | ⟨d, hpd, hd⟩
      · exact hplace before c after hchildren hlast
      · exact hbelow d hd p before c after hpd hchildren hlast
    · intro c hnot
      exact hother c (hnot node .refl) fun d hd p hp => hnot p (hp.tail hd)

end numbering

theorem readArchive_returns {entries : List Entry} {tree : ArchiveTree} (hne : entries ≠ [])
    (htree : (List.range entries.length).foldlM (ArchiveTree.add (pathOf entries)) .empty =
      some tree) :
    ∃ offset, readArchive entries = some ⟨entries, tree, offset⟩ ∧
      Numbered tree.children 0 (fun _ => 0) offset := by
  have hbuilt := ArchiveTree.built_foldlM _ _ htree
  have hunique : ∀ {p q c}, c ∈ tree.children p → c ∈ tree.children q → p = q := by
    intro p q c hp hq
    rw [hbuilt.parent_iff] at hp hq
    exact Option.mem_unique hp hq
  have hchild : ∀ {p c}, c ∈ tree.children p → p < c ∧ c < entries.length :=
    fun hc => hbuilt.child _ _ ((hbuilt.parent_iff _ _).mp hc)
  obtain ⟨offset, hoffset, hnumbered⟩ := ustarTree_numbered hunique hchild entries.length 0
    (fun _ => 0) (List.length_pos_iff.mpr hne) (Nat.le_refl _)
  refine ⟨offset, ?_, hnumbered⟩
  rw [readArchive, if_neg hne, htree, Option.bind_some, hoffset, Option.map_some]

end Fennix.Fs.Ustar
