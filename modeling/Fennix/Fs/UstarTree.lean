import Fennix.Fs.UstarArchive
import Mathlib.Data.List.Chain
import Mathlib.Data.List.Nodup

/-! # The directories of an archive

    The tree construction of `USTAR::ReadArchive`, for archives in depth-first
    order: every entry is put below the entry of its directory.

    The stack holds the entries above the last one, the closest at the back.
    The directory of the next entry is one of them, because what is in a
    directory follows it directly; what is behind it on the stack is dropped.
-/

namespace Fennix.Fs.Ustar

open Path

/-! ## Section 1: Depth-first order -/

/-- The second path is a directory above the first: the directory part, or the
    directory part of that, and so on. -/
def Above : Str → Str → Prop := Relation.TransGen fun path dir => dirname path = dir

/-- An archive in depth-first order. -/
structure DepthFirst (entries : List Entry) : Prop where
  /-- It starts with the root. -/
  root : pathOf entries 0 = ['/']
  nonempty : entries ≠ []
  unique : ∀ {i j}, i < entries.length → j < entries.length →
    pathOf entries i = pathOf entries j → i = j
  /-- Every other entry comes behind its directory, whose path ends with a slash. -/
  listed : ∀ {i}, 0 < i → i < entries.length →
    ∃ p < i, pathOf entries p = dirname (pathOf entries i) ∧
      (pathOf entries p).getLast? = some '/'
  /-- What is in a directory follows it directly. -/
  contiguous : ∀ {d j k}, d < j → j ≤ k → k < entries.length →
    Above (pathOf entries k) (pathOf entries d) → Above (pathOf entries j) (pathOf entries d)

theorem above_iff {path dir : Str} :
    Above path dir ↔ dirname path = dir ∨ Above (dirname path) dir := by
  unfold Above
  rw [Relation.TransGen.head'_iff]
  constructor
  · rintro ⟨_, rfl, h⟩
    rcases Relation.reflTransGen_iff_eq_or_transGen.mp h with rfl | h
    · exact .inl rfl
    · exact .inr h
  · rintro (rfl | h)
    · exact ⟨_, rfl, .refl⟩
    · exact ⟨_, rfl, h.to_reflTransGen⟩

theorem eq_nil_of_above_root {dir : Str} (h : Above ['/'] dir) : dir = [] := by
  have hnil : ∀ {path dir : Str}, Above path dir → dirname path = [] → dir = [] := by
    intro path dir h
    induction h with
    | single hstep => exact fun hpath => hstep.symm.trans hpath
    | tail _ hstep ih =>
      intro hpath
      rw [← hstep, ih hpath]
      rfl
  exact hnil h rfl

namespace ArchiveTree

/-! ## Section 2: The stack -/

variable {path : Nat → Str}

theorem mem_of_above {stack : List Nat}
    (hchain : stack.IsChain fun a b => dirname (path a) = path b)
    (hroot : ∀ r, stack.getLast? = some r → path r = ['/']) {top : Nat}
    (htop : stack.head? = some top) {dir : Str} (hne : dir ≠ []) (h : Above (path top) dir) :
    ∃ d ∈ stack.tail, path d = dir := by
  induction stack generalizing top with
  | nil => cases htop
  | cons s stack ih =>
    cases htop
    cases stack with
    | nil =>
      rw [hroot s rfl] at h
      exact absurd (eq_nil_of_above_root h) hne
    | cons s' stack =>
      obtain ⟨hstep, hchain⟩ := List.isChain_cons_cons.mp hchain
      rcases above_iff.mp h with heq | habove
      · exact ⟨s', List.mem_cons_self, hstep.symm.trans heq⟩
      · rw [hstep] at habove
        obtain ⟨d, hd, hpath⟩ := ih hchain (fun r hr => hroot r (by simpa using hr)) rfl habove
        exact ⟨d, List.mem_cons_of_mem _ hd, hpath⟩

theorem dropWhile_to {above rest : List Nat} {p : Nat} {dir : Str} (hdir : dir = path p)
    (hother : ∀ d ∈ above, dir ≠ path d) :
    (above ++ p :: rest).dropWhile (fun d => decide (dir ≠ path d)) = p :: rest := by
  rw [List.dropWhile_append_of_pos (by simpa using hother)]
  exact List.dropWhile_cons_of_neg (by simp [hdir])

theorem foldl_addHigher_of_fixed {n : Nat} {t : ArchiveTree} {is : List Nat}
    (h : ∀ i ∈ is, t.addHigher path n i = t) : is.foldl (addHigher path n) t = t :=
  List.foldlRecOn (motive := (· = t)) is _ rfl fun _ ht i hi => ht ▸ h i hi

/-- The entry goes below `p`, and the stack is cut there. -/
def placeBelow (t : ArchiveTree) (p n : Nat) (stack : List Nat) : ArchiveTree :=
  { t.attach p n with stack := stack }

section place

variable {path : Nat → Str} {n p : Nat} {t : ArchiveTree} {above rest : List Nat}

/-- The loop over the stack finds the directory once: it is on the stack once,
    and the loop ends there because the stack has become shorter. -/
theorem foldl_addHigher_eq (hstack : t.stack = above ++ p :: rest)
    (hdir : dirname (path n) = path p) (habove : ∀ d ∈ above, dirname (path n) ≠ path d)
    (hrest : ∀ d ∈ rest, dirname (path n) ≠ path d) :
    (List.range t.stack.length).foldl (addHigher path n) t = t.placeBelow p n (p :: rest) := by
  have hlength : t.stack.length = rest.length + (1 + above.length) := by
    rw [hstack, List.length_append, List.length_cons]
    omega
  have hreverse : t.stack.reverse = rest.reverse ++ p :: above.reverse := by
    rw [hstack]
    simp
  rw [hlength, List.range_add, List.foldl_append]
  -- below the directory nothing matches
  rw [foldl_addHigher_of_fixed (t := t) (fun i hi => ?_)]
  · rw [List.range_add, List.map_append, List.foldl_append]
    have hmatch : t.addHigher path n rest.length = t.placeBelow p n (p :: rest) := by
      have hget : t.stack.reverse[rest.length]? = some p := by
        rw [hreverse, List.getElem?_append_right (by simp)]
        simp
      simp only [addHigher, hget, hdir, ne_eq, not_true_eq_false, if_false]
      rw [hstack, dropWhile_to rfl (fun d hd => hdir ▸ habove d hd)]
      rfl
    simp only [List.range_one, List.map_cons, List.map_nil, List.foldl_cons, List.foldl_nil,
      Nat.add_zero, hmatch]
    -- behind it the stack has ended
    refine foldl_addHigher_of_fixed fun i hi => ?_
    have hi : rest.length + 1 ≤ i := by
      simp only [List.map_map, List.mem_map, List.mem_range, Function.comp_apply] at hi
      omega
    have hnone : (t.placeBelow p n (p :: rest)).stack.reverse[i]? = none := by
      rw [List.getElem?_eq_none_iff, List.length_reverse]
      exact hi
    simp only [addHigher, hnone]
  · have hi : i < rest.reverse.length := by
      rw [List.length_reverse]
      exact List.mem_range.mp hi
    have hget : t.stack.reverse[i]? = some rest.reverse[i] := by
      rw [hreverse, List.getElem?_append_left hi, List.getElem?_eq_getElem hi]
    have hother := hrest rest.reverse[i] (List.mem_reverse.mp (List.getElem_mem hi))
    simp only [addHigher, hget, if_pos hother]

theorem add_eq (hstack : t.stack = above ++ p :: rest) (hdir : dirname (path n) = path p)
    (habove : ∀ d ∈ above, dirname (path n) ≠ path d)
    (hrest : ∀ d ∈ rest, dirname (path n) ≠ path d) (hroot : path n ≠ ['/'])
    (hne : path n ≠ []) :
    t.add path n = some (t.placeBelow p n
      (if (path n).getLast? = some '/' then n :: p :: rest else p :: rest)) := by
  obtain ⟨c, hlast⟩ := Option.isSome_iff_exists.mp (List.getLast?_isSome.mpr hne)
  rw [add, if_neg hroot, hlast]
  simp only [Option.some.injEq]
  have hdrop : t.stack.dropWhile (fun d => decide (dirname (path n) ≠ path d)) = p :: rest := by
    rw [hstack]
    exact dropWhile_to hdir habove
  by_cases hslash : c = '/'
  · rw [if_pos hslash, if_pos hslash]
    cases above with
    | nil =>
      -- the directory is at the back
      simp only [List.nil_append] at hstack
      simp only [addDirectory, hstack, if_pos hdir]
      rfl
    | cons top above =>
      have hany : t.stack.any (fun d => decide (dirname (path n) = path d)) = true := by
        rw [List.any_eq_true]
        exact ⟨p, by simp [hstack], by simp [hdir]⟩
      rw [addDirectory]
      simp only [hany, if_true, hdrop]
      rw [hstack, List.cons_append]
      simp only [if_neg (habove top List.mem_cons_self)]
      rfl
  · rw [if_neg hslash, if_neg hslash]
    cases above with
    | nil =>
      simp only [List.nil_append] at hstack
      rw [addFile, hstack]
      simp only [if_pos hdir, placeBelow]
      rw [← hstack]
      rfl
    | cons top above =>
      have hfold := foldl_addHigher_eq hstack hdir habove hrest
      rw [addFile]
      simp only [hfold]
      rw [hstack, List.cons_append]
      simp only [if_neg (habove top List.mem_cons_self)]

end place

/-- The tree of the first `n` entries of an archive in depth-first order. -/
structure Deep (path : Nat → Str) (n : Nat) (t : ArchiveTree) : Prop extends Built n t where
  /-- Each directory on the stack is in the one before it. -/
  chain : t.stack.IsChain fun a b => dirname (path a) = path b
  bottom : t.stack.getLast? = some 0
  /-- The back of the stack is the last entry, or its directory. -/
  back : ∃ top, t.stack.head? = some top ∧
    (if (path (n - 1)).getLast? = some '/' then top = n - 1 else dirname (path (n - 1)) = path top)
  nodup : t.stack.Nodup
  once : ∀ q, (t.children q).Nodup
  placed : ∀ {i}, 0 < i → i < n → ∃ p < i, path p = dirname (path i) ∧ t.parent i = some p

section step

variable {entries : List Entry} {n : Nat} {t : ArchiveTree}

theorem Deep.directory_mem (h : Deep (pathOf entries) n t) (hdf : DepthFirst entries)
    (hn : n < entries.length) {p : Nat} (hp : p < n)
    (hpath : pathOf entries p = dirname (pathOf entries n))
    (hslash : (pathOf entries p).getLast? = some '/') : p ∈ t.stack := by
  obtain ⟨top, hhead, hback⟩ := h.back
  have htop : top ∈ t.stack := List.mem_of_mem_head? hhead
  by_cases hlast : p = n - 1
  · -- the entry before it
    rw [← hlast, if_pos hslash] at hback
    exact hback ▸ htop
  · -- a directory that the entry before it is in as well
    have habove : Above (pathOf entries (n - 1)) (pathOf entries p) :=
      hdf.contiguous (by omega) (Nat.sub_le n 1) hn (.single hpath.symm)
    have hne : pathOf entries p ≠ [] := by
      intro hnil
      rw [hnil] at hslash
      cases hslash
    have hroot : ∀ r, t.stack.getLast? = some r → pathOf entries r = ['/'] := by
      intro r hr
      obtain rfl := Option.mem_unique h.bottom hr
      exact hdf.root
    obtain ⟨d, hd, hdpath⟩ : ∃ d ∈ t.stack, pathOf entries d = pathOf entries p := by
      by_cases hdirectory : (pathOf entries (n - 1)).getLast? = some '/'
      · rw [if_pos hdirectory] at hback
        rw [← hback] at habove
        obtain ⟨d, hd, hdpath⟩ := mem_of_above h.chain hroot hhead hne habove
        exact ⟨d, List.mem_of_mem_tail hd, hdpath⟩
      · rw [if_neg hdirectory] at hback
        rcases above_iff.mp habove with heq | habove
        · exact ⟨top, htop, hback.symm.trans heq⟩
        · rw [hback] at habove
          obtain ⟨d, hd, hdpath⟩ := mem_of_above h.chain hroot hhead hne habove
          exact ⟨d, List.mem_of_mem_tail hd, hdpath⟩
    have hdn := h.stack_lt d hd
    exact hdf.unique (by omega) (by omega) hdpath ▸ hd

theorem Deep.step (h : Deep (pathOf entries) n t) (hdf : DepthFirst entries) (hpos : 0 < n)
    (hn : n < entries.length) :
    ∃ t', t.add (pathOf entries) n = some t' ∧ Deep (pathOf entries) (n + 1) t' := by
  obtain ⟨p, hp, hpath, hslash⟩ := hdf.listed hpos hn
  obtain ⟨above, rest, hstack⟩ := List.append_of_mem (h.directory_mem hdf hn hp hpath hslash)
  have hnodup := h.nodup
  rw [hstack] at hnodup
  -- no other directory on the stack has that path
  have hother : ∀ d ∈ t.stack, d ≠ p → dirname (pathOf entries n) ≠ pathOf entries d := by
    intro d hd hdp heq
    have hdn := h.stack_lt d hd
    exact hdp (hdf.unique (by omega) (by omega) (heq.symm.trans hpath.symm))
  have habove : ∀ d ∈ above, dirname (pathOf entries n) ≠ pathOf entries d := by
    intro d hd
    refine hother d (by simp [hstack, hd]) ?_
    rintro rfl
    exact (List.nodup_append.mp hnodup).2.2 d hd d List.mem_cons_self rfl
  have hbelow : (p :: rest).Nodup := (List.nodup_append.mp hnodup).2.1
  have hrest : ∀ d ∈ rest, dirname (pathOf entries n) ≠ pathOf entries d := by
    intro d hd
    refine hother d (by simp [hstack, hd]) ?_
    rintro rfl
    exact (List.nodup_cons.mp hbelow).1 hd
  have hroot : pathOf entries n ≠ ['/'] := by
    intro heq
    have := hdf.unique hn (by omega) (heq.trans hdf.root.symm)
    omega
  have hne : pathOf entries n ≠ [] := by
    intro hnil
    rw [hpath, hnil] at hslash
    cases hslash
  have hadd := add_eq hstack hpath.symm habove hrest hroot hne
  refine ⟨_, hadd, ?_⟩
  have hbuilt := h.toBuilt.add hadd
  have hnew : n ∉ p :: rest := by
    intro hmem
    have := h.stack_lt n (by rw [hstack]; exact List.mem_append_right _ hmem)
    omega
  have hchain : (p :: rest).IsChain fun a b => dirname (pathOf entries a) = pathOf entries b := by
    have := h.chain
    rw [hstack] at this
    exact this.right_of_append
  have hbottom : (p :: rest).getLast? = some 0 := by
    have := h.bottom
    rw [hstack] at this
    simpa using this
  refine ⟨hbuilt, ?_, ?_, ?_, ?_, ?_, ?_⟩
  · simp only [placeBelow]
    split
    · exact List.isChain_cons_cons.mpr ⟨hpath.symm, hchain⟩
    · exact hchain
  · simp only [placeBelow]
    split
    · simpa using hbottom
    · exact hbottom
  · simp only [placeBelow, Nat.add_sub_cancel]
    by_cases hdirectory : (pathOf entries n).getLast? = some '/'
    · exact ⟨n, by simp [hdirectory], by simp [hdirectory]⟩
    · exact ⟨p, by simp [hdirectory], by simp [hdirectory, hpath]⟩
  · simp only [placeBelow]
    split
    · exact List.nodup_cons.mpr ⟨hnew, hbelow⟩
    · exact hbelow
  · intro q
    simp only [placeBelow, attach]
    by_cases hq : q = p
    · subst hq
      rw [Function.update_self]
      have hnot : n ∉ t.children q := by
        rw [h.parent_iff, h.toBuilt.parent_none]
        simp
      rw [List.nodup_append]
      refine ⟨h.once q, List.pairwise_singleton _ n, ?_⟩
      rintro a ha b hb rfl
      exact hnot (List.mem_singleton.mp hb ▸ ha)
    · rw [Function.update_of_ne hq]
      exact h.once q
  · intro i hi hin
    simp only [placeBelow, attach]
    by_cases hlast : i = n
    · subst hlast
      exact ⟨p, hp, hpath, Function.update_self ..⟩
    · rw [Function.update_of_ne hlast]
      exact h.placed hi (by omega)

theorem deep_foldlM (hdf : DepthFirst entries) (hpos : 0 < n) (hn : n ≤ entries.length) :
    ∃ t, (List.range n).foldlM (add (pathOf entries)) .empty = some t ∧
      Deep (pathOf entries) n t := by
  induction n with
  | zero => cases hpos
  | succ n ih =>
    rw [List.range_succ, List.foldlM_append]
    rcases Nat.eq_zero_or_pos n with rfl | hpos
    · -- the root
      have hadd : empty.add (pathOf entries) 0 = some { empty with stack := [0] } :=
        if_pos hdf.root
      refine ⟨{ empty with stack := [0] }, by simp [hadd], ?_⟩
      have hinit : (List.range 0).foldlM (add (pathOf entries)) .empty = some .empty := rfl
      have hbuilt := (built_foldlM 0 _ hinit).add hadd
      refine ⟨hbuilt, List.isChain_singleton 0, rfl, ⟨0, rfl, ?_⟩, List.pairwise_singleton _ 0,
        fun q => List.Pairwise.nil, fun hi hlt => ?_⟩
      · rw [show 0 + 1 - 1 = 0 from rfl, hdf.root]
        rfl
      · omega
    · obtain ⟨t, ht, hdeep⟩ := ih hpos (by omega)
      obtain ⟨t', hadd, hdeep'⟩ := hdeep.step hdf hpos (by omega)
      exact ⟨t', by simp [ht, hadd], hdeep'⟩

end step

end ArchiveTree

/-- **The directory tree**: an archive in depth-first order is read, every entry
    but the root has the entry of its directory part as its parent, is in its
    list of children once, and is in no other list. -/
theorem depthFirst_tree {entries : List Entry} (h : DepthFirst entries) :
    ∃ a, readArchive entries = some a ∧
      ∀ i, 0 < i → i < entries.length →
        ∃ p < entries.length, pathOf entries p = dirname (pathOf entries i) ∧
          a.tree.parent i = some p ∧ (a.tree.children p).count i = 1 ∧
          ∀ q, q ≠ p → i ∉ a.tree.children q := by
  obtain ⟨t, ht, hdeep⟩ :=
    ArchiveTree.deep_foldlM h (List.length_pos_iff.mpr h.nonempty) (Nat.le_refl _)
  obtain ⟨offset, hread, -⟩ := readArchive_returns h.nonempty ht
  refine ⟨_, hread, fun i hi hlt => ?_⟩
  obtain ⟨p, hp, hpath, hparent⟩ := hdeep.placed hi hlt
  refine ⟨p, by omega, hpath, hparent, ?_, ?_⟩
  · exact List.count_eq_one_of_mem (hdeep.once p) ((hdeep.parent_iff p i).mpr hparent)
  · intro q hq hmem
    rw [hdeep.parent_iff, hparent] at hmem
    exact hq (Option.some.inj hmem).symm

/-- A root, a directory in it, a file in that, and a file in the root. -/
def nestedArchive : List Entry :=
  [⟨['.', '/'], '5', true⟩, ⟨['.', '/', 'a', '/'], '5', true⟩,
    ⟨['.', '/', 'a', '/', 'x'], '0', false⟩, ⟨['.', '/', 'b'], '0', false⟩]

theorem depthFirst_nestedArchive : DepthFirst nestedArchive where
  root := rfl
  nonempty := by simp [nestedArchive]
  unique := by
    have hall : ∀ i < nestedArchive.length, ∀ j < nestedArchive.length,
        pathOf nestedArchive i = pathOf nestedArchive j → i = j := by decide
    exact fun {i j} hi hj => hall i hi j hj
  listed := by
    have hall : ∀ i < nestedArchive.length, 0 < i → ∃ p < i,
        pathOf nestedArchive p = dirname (pathOf nestedArchive i) ∧
          (pathOf nestedArchive p).getLast? = some '/' := by decide
    exact fun {i} hpos hi => hall i hi hpos
  contiguous := by
    intro d j k hdj hjk hk habove
    rcases Nat.eq_or_lt_of_le hjk with rfl | hlt
    · exact habove
    · -- the three entries before the last are each in those before them
      have hlength : nestedArchive.length = 4 := rfl
      obtain ⟨rfl, rfl⟩ | ⟨rfl, rfl⟩ | ⟨rfl, rfl⟩ :
          d = 0 ∧ j = 1 ∨ d = 1 ∧ j = 2 ∨ d = 0 ∧ j = 2 := by omega
      · exact .single rfl
      · exact .single rfl
      · exact .tail (.single rfl) rfl

/-- The theorem on that archive. -/
theorem depthFirst_tree_nested :
    ∃ a, readArchive nestedArchive = some a ∧
      ∀ i, 0 < i → i < nestedArchive.length →
        ∃ p < nestedArchive.length, pathOf nestedArchive p = dirname (pathOf nestedArchive i) ∧
          a.tree.parent i = some p ∧ (a.tree.children p).count i = 1 ∧
          ∀ q, q ≠ p → i ∉ a.tree.children q :=
  depthFirst_tree depthFirst_nestedArchive

end Fennix.Fs.Ustar
