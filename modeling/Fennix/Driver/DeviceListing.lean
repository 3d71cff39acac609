import Fennix.Framework.Cursor
import Fennix.Fs.Dirent
import Fennix.Fs.Vfs

/-! # Listing a device directory

    `__fs_Create` and `__fs_Readdir` of `Kernel/core/driver/dev.cpp`. A directory
    keeps its files in the order in which they were created. A call lists `.` at
    offset 0, `..` at offset 1 and the files from offset 2 on, as many as fit into
    the buffer; one loop goes over all files, those before the offset included.

    - `listFiles_spec`: what the loop stores.
    - `readdir_serves`: what a call stores, wherever a reader has come to.
    - `readdir_lists`: a reader that goes on behind the last record it got gets
      everything once.
-/

namespace Fennix.Driver

open Fs Fs.Path Cursor

/-! ## Section 1: The directory -/

/-- What the calls use of a file in the directory. -/
structure DeviceFile where
  index : Nat
  mode : BitVec 32
  name : Str
  deriving DecidableEq

/-- `struct DeviceInode` of a directory. `parent` and `parentInode` are the inode
    numbers that `Parent` and `ParentInode` lead to, if they are not null. -/
structure DeviceInode where
  index : Nat
  mode : BitVec 32
  parent : Option Nat
  parentInode : Option Nat
  children : List DeviceFile

/-- `__fs_Create`. -/
def DeviceInode.create (node : DeviceInode) (name : Str) (mode : BitVec 32) : DeviceInode :=
  { node with children := node.children ++ [⟨node.index + node.children.length, mode, name⟩] }

/-- The directory after some files have been created in it. -/
def DeviceInode.createAll (node : DeviceInode) (files : List (Str × BitVec 32)) : DeviceInode :=
  files.foldl (fun node file => node.create file.1 file.2) node

/-! ## Section 2: `__fs_Readdir` -/

/-- The record of the file at a place of the directory. -/
def DeviceFile.dirent (file : DeviceFile) (entryIndex : Nat) : Dirent :=
  ⟨file.index, entryIndex + 2, recordLength file.name, iftodt file.mode, file.name ++ [nul]⟩

/-- The record `.`. -/
def DeviceInode.dot (node : DeviceInode) : Dirent :=
  ⟨node.index, 0, recordLength ['.'], dtDir, ['.', nul]⟩

/-- The record `..`. -/
def DeviceInode.dotDot (node : DeviceInode) : Dirent :=
  ⟨(node.parent <|> node.parentInode).getD node.index, 1, recordLength ['.', '.'], dtDir,
    ['.', '.', nul]⟩

/-- The loop over the files, from `entryIndex` on. -/
def listFiles (size realOffset entries : Nat) : Nat → List DeviceFile → Page → Page
  | _, [], page => page
  | entryIndex, file :: files, page =>
    if entryIndex + 2 < realOffset then
      listFiles size realOffset entries (entryIndex + 1) files page
    else if entries ≠ 0 ∧ entryIndex ≥ entries then page
    else if page.total + recordLength file.name > size then page
    else
      listFiles size realOffset entries (entryIndex + 1) files (page.push (file.dirent entryIndex))

/-- What a call returns, what it has stored, and where it has stored the record of
    20 bytes that stands for the end. -/
structure Listing where
  ret : Int
  page : Page
  terminator : Option Nat

/-- `__fs_Readdir` from the loop on. -/
def readFiles (node : DeviceInode) (size realOffset entries : Nat) (page : Page) : Listing :=
  let page := listFiles size realOffset entries 0 node.children page
  ⟨page.total, page, if page.total + nameOffset + 1 > size then none else some page.total⟩

/-- `__fs_Readdir` from the record `..` on. -/
def readDotDot (node : DeviceInode) (size realOffset offset entries : Nat) (page : Page) :
    Listing :=
  if offset = 1 then
    if page.total + recordLength ['.', '.'] > size then ⟨page.total, page, none⟩
    else readFiles node size realOffset entries (page.push node.dotDot)
  else readFiles node size realOffset entries page

/-- `__fs_Readdir`. The sizes of the records of a directory cannot add up to 2^64,
    as its files are in memory. -/
def readdir (node : DeviceInode) (size offset entries : Nat) : Listing :=
  if node.mode &&& sIfmt ≠ sIfdir then ⟨-enotdir, .empty, none⟩
  else if offset = 0 then
    if recordLength ['.'] > size then ⟨-einval, .empty, none⟩
    else readDotDot node size 0 1 entries (Page.empty.push node.dot)
  else readDotDot node size offset offset entries .empty

/-! ## Section 3: Reading on -/

/-- A reader: where it asks next, and the records it got. -/
structure DeviceReader where
  offset : Nat
  listed : List Dirent

/-- The reader after `i` calls with buffers of these sizes and no limit. -/
def deviceReader (node : DeviceInode) (size : Nat → Nat) : Nat → DeviceReader
  | 0 => ⟨0, []⟩
  | i + 1 =>
    let r := deviceReader node size i
    let page := (readdir node (size i) r.offset 0).page
    ⟨advance Dirent.off r.offset page.records, r.listed ++ page.records⟩

/-- The call that the reader makes then. -/
def readdirCall (node : DeviceInode) (size : Nat → Nat) (i : Nat) : Listing :=
  readdir node (size i) (deviceReader node size i).offset 0

/-- The records of some files, the first of which is at this place. -/
def fileRecords : Nat → List DeviceFile → List Dirent
  | _, [] => []
  | entryIndex, file :: files => file.dirent entryIndex :: fileRecords (entryIndex + 1) files

/-- What is to be listed. -/
def DeviceInode.entries (node : DeviceInode) : List Dirent :=
  node.dot :: node.dotDot :: fileRecords 0 node.children

/-- Each buffer has room for the record that is due. -/
def AmpleBuffers (node : DeviceInode) (size : Nat → Nat) : Prop :=
  ∀ i d, node.entries[(deviceReader node size i).listed.length]? = some d → d.reclen ≤ size i

/-- Nothing is stored behind the buffer. -/
def Listing.InBounds (r : Listing) (size : Nat) : Prop :=
  r.page.InBounds size ∧ ∀ p ∈ r.terminator, p + (nameOffset + 1) ≤ size

/-! ## Section 4: One call -/

section call

variable {node : DeviceInode} {size offset : Nat}

/-- The loop stores a beginning of what is left from the offset on. It fits into
    the buffer, and is as long as anything that does. -/
theorem listFiles_spec (size realOffset : Nat) (files : List DeviceFile) (entryIndex : Nat)
    (page : Page) :
    ∃ ds, listFiles size realOffset 0 entryIndex files page = page.append ds ∧
      ds <+: rest Dirent.off (fileRecords entryIndex files) realOffset ∧
      (page.total ≤ size → (page.append ds).total ≤ size) ∧
      ∀ es, es <+: rest Dirent.off (fileRecords entryIndex files) realOffset →
        page.total + (es.map Dirent.reclen).sum ≤ size → es <+: ds := by
  induction files generalizing entryIndex page with
  | nil => exact ⟨[], rfl, List.nil_prefix, id, fun es hes _ => hes⟩
  | cons file files ih =>
    rw [listFiles, fileRecords]
    split
    · -- delivered by an earlier call
      rename_i hbefore
      have hskip : (file.dirent entryIndex).off < realOffset := hbefore
      rw [rest_cons_of_lt hskip]
      exact ih (entryIndex + 1) page
    · rename_i hdue
      have hdue : realOffset ≤ (file.dirent entryIndex).off := Nat.le_of_not_lt hdue
      rw [if_neg (by simp), rest_cons_of_le hdue]
      split
      · -- the record does not fit
        rename_i hfull
        refine ⟨[], rfl, List.nil_prefix, id, fun es hes hsum => ?_⟩
        rcases List.prefix_cons_iff.mp hes with rfl | ⟨es, rfl, -⟩
        · exact List.nil_prefix
        · rw [List.map_cons, List.sum_cons] at hsum
          change page.total + (recordLength file.name + _) ≤ size at hsum
          omega
      · rename_i hfits
        obtain ⟨ds, hpage, hinitial, hsize, hmost⟩ :=
          ih (entryIndex + 1) (page.push (file.dirent entryIndex))
        refine ⟨file.dirent entryIndex :: ds, hpage, (List.prefix_cons_inj _).mpr hinitial, ?_, ?_⟩
        · intro _
          exact hsize (Nat.le_of_not_lt hfits)
        · intro es hes hsum
          rcases List.prefix_cons_iff.mp hes with rfl | ⟨es', rfl, hes'⟩
          · exact List.nil_prefix
          · rw [List.map_cons, List.sum_cons] at hsum
            refine (List.prefix_cons_inj _).mpr (hmost es' hes' ?_)
            rw [Page.total_push]
            omega

theorem mem_fileRecords {d : Dirent} {files : List DeviceFile} {entryIndex : Nat}
    (h : d ∈ fileRecords entryIndex files) :
    entryIndex + 2 ≤ d.off ∧ ∃ file ∈ files, d = file.dirent (d.off - 2) := by
  induction files generalizing entryIndex with
  | nil => cases h
  | cons file files ih =>
    rcases List.mem_cons.mp h with rfl | h
    · exact ⟨Nat.le_refl _, file, List.mem_cons_self, rfl⟩
    · obtain ⟨hle, file', hmem, heq⟩ := ih h
      exact ⟨by omega, file', List.mem_cons_of_mem _ hmem, heq⟩

theorem fileRecords_increasing (entryIndex : Nat) (files : List DeviceFile) :
    (fileRecords entryIndex files).Pairwise fun a b => a.off < b.off := by
  induction files generalizing entryIndex with
  | nil => exact List.Pairwise.nil
  | cons file files ih =>
    refine List.pairwise_cons.mpr ⟨fun d hd => ?_, ih _⟩
    have hle := (mem_fileRecords hd).1
    change entryIndex + 2 < d.off
    omega

theorem entries_increasing (node : DeviceInode) :
    node.entries.Pairwise fun a b => a.off < b.off := by
  have hlow : ∀ d ∈ fileRecords 0 node.children, 2 ≤ d.off := fun d hd => (mem_fileRecords hd).1
  refine List.pairwise_cons.mpr ⟨List.forall_mem_cons.mpr ⟨Nat.zero_lt_one, fun d hd => ?_⟩,
    List.pairwise_cons.mpr ⟨hlow, fileRecords_increasing _ _⟩⟩
  exact Nat.lt_of_lt_of_le Nat.zero_lt_two (hlow d hd)

theorem rest_files (h : offset ≤ 2) :
    rest Dirent.off (fileRecords 0 node.children) offset = fileRecords 0 node.children :=
  rest_eq_self fun _ hd => Nat.le_trans h (mem_fileRecords hd).1

theorem rest_entries_one :
    rest Dirent.off node.entries 1 = node.dotDot :: fileRecords 0 node.children := by
  have hdot : node.dot.off < 1 := Nat.zero_lt_one
  have hdotDot : 1 ≤ node.dotDot.off := Nat.le_refl 1
  rw [DeviceInode.entries, rest_cons_of_lt hdot, rest_cons_of_le hdotDot, rest_files (by decide)]

theorem rest_entries_files (h : 2 ≤ offset) :
    rest Dirent.off node.entries offset = rest Dirent.off (fileRecords 0 node.children) offset := by
  have hdot : node.dot.off < offset := Nat.lt_of_lt_of_le Nat.zero_lt_two h
  have hdotDot : node.dotDot.off < offset := h
  rw [DeviceInode.entries, rest_cons_of_lt hdot, rest_cons_of_lt hdotDot]

/-- The names of the files are short. -/
def ShortNames (node : DeviceInode) : Prop := ∀ file ∈ node.children, file.name.length < 256

/-- What a call is to do: it stores a beginning of what is left, nothing only if
    nothing is left, and returns how many bytes that is. -/
structure ServesReader (node : DeviceInode) (size offset : Nat) (r : Listing) : Prop where
  page : ∃ after, rest Dirent.off node.entries offset = r.page.records ++ after ∧
    (r.page.records = [] → after = [] ∧ r.page.total = 0)
  ret : r.ret = r.page.total
  inBounds : r.InBounds size

theorem readFiles_serves {low : Nat} {page : Page} (hshort : ShortNames node)
    (hrest : rest Dirent.off node.entries low =
      page.records ++ rest Dirent.off (fileRecords 0 node.children) offset)
    (hempty : page.records = [] → page.total = 0 ∧ ∀ d,
      (rest Dirent.off (fileRecords 0 node.children) offset).head? = some d → d.reclen ≤ size)
    (hsize : page.total ≤ size) (hpage : page.InBounds size) :
    ServesReader node size low (readFiles node size offset 0 page) := by
  obtain ⟨ds, heq, ⟨after, hafter⟩, htotal, hmost⟩ :=
    listFiles_spec size offset node.children 0 page
  -- a short name is stored in the bytes that its record is long
  have hstored : ∀ d ∈ ds, d.stored ≤ d.reclen := by
    intro d hd
    have hmem : d ∈ rest Dirent.off (fileRecords 0 node.children) offset := by
      rw [← hafter]
      exact List.mem_append_left _ hd
    obtain ⟨-, file, hfile, hrecord⟩ := mem_fileRecords (List.mem_filter.mp hmem).1
    have hlt := hshort file hfile
    have hlength : recordLength file.name = nameOffset + file.name.length + 1 :=
      recordLength_of_short (by simp only [nameOffset]; omega)
    rw [hrecord]
    change nameOffset + (file.name ++ [nul]).length ≤ recordLength file.name
    rw [hlength, List.length_append, List.length_singleton]
    exact Nat.le_of_eq (Nat.add_assoc _ _ _).symm
  simp only [readFiles, heq]
  refine ⟨⟨after, ?_, ?_⟩, rfl, hpage.append hstored (htotal hsize), ?_⟩
  · rw [hrest, Page.records_append, List.append_assoc, hafter]
  · intro hnone
    rw [Page.records_append, List.append_eq_nil_iff] at hnone
    obtain ⟨hnone, rfl⟩ := hnone
    obtain ⟨hzero, hfits⟩ := hempty hnone
    refine ⟨?_, hzero⟩
    -- the first record would have been stored
    cases after with
    | nil => rfl
    | cons d after =>
      have hd := hfits d (by rw [← hafter]; rfl)
      have hfirst := hmost [d] (by rw [← hafter]; exact ⟨after, rfl⟩) (by simp; omega)
      cases List.prefix_nil.mp hfirst
  · intro p hp
    dsimp only at hp
    split at hp
    · cases hp
    · cases hp
      omega

theorem readdir_serves (hdir : node.mode &&& sIfmt = sIfdir) (hshort : ShortNames node)
    (hdue : ∀ d, (rest Dirent.off node.entries offset).head? = some d → d.reclen ≤ size) :
    ServesReader node size offset (readdir node size offset 0) := by
  have hnone : Page.empty.InBounds size := fun pd hpd => nomatch hpd
  rw [readdir, if_neg (by rw [hdir]; exact fun h => h rfl)]
  obtain rfl | rfl | hlow : offset = 0 ∨ offset = 1 ∨ 2 ≤ offset := by omega
  · have hdot : 21 ≤ size := hdue node.dot (by rw [rest_zero]; rfl)
    have hfirst : ¬ recordLength ['.'] > size := Nat.not_lt.mpr hdot
    have hpage : (Page.empty.push node.dot).InBounds size := hnone.push hdot
    rw [if_pos rfl, if_neg hfirst, readDotDot, if_pos rfl]
    by_cases hroom : 43 ≤ size
    · have hfits : ¬ (Page.empty.push node.dot).total + recordLength ['.', '.'] > size :=
        Nat.not_lt.mpr hroom
      rw [if_neg hfits]
      refine readFiles_serves hshort ?_ (fun hnil => nomatch hnil) hroom (hpage.push hroom)
      rw [rest_zero, rest_files (Nat.zero_le _)]
      rfl
    · -- there is room for `.` only
      have hfull : (Page.empty.push node.dot).total + recordLength ['.', '.'] > size :=
        Nat.lt_of_not_le hroom
      rw [if_pos hfull]
      refine ⟨⟨node.dotDot :: fileRecords 0 node.children, ?_, fun hnil => nomatch hnil⟩, rfl,
        hpage, fun p hp => nomatch hp⟩
      rw [rest_zero]
      rfl
  · have hdotDot : 22 ≤ size := hdue node.dotDot (by rw [rest_entries_one]; rfl)
    have hfits : ¬ Page.empty.total + recordLength ['.', '.'] > size := Nat.not_lt.mpr hdotDot
    rw [if_neg Nat.one_ne_zero, readDotDot, if_pos rfl, if_neg hfits]
    refine readFiles_serves hshort ?_ (fun hnil => nomatch hnil) hdotDot (hnone.push hdotDot)
    rw [rest_entries_one, rest_files (by decide)]
    rfl
  · rw [if_neg (by omega), readDotDot, if_neg (by omega)]
    rw [rest_entries_files hlow] at hdue
    exact readFiles_serves hshort (rest_entries_files hlow) (fun _ => ⟨rfl, hdue⟩)
      (Nat.zero_le _) hnone

end call

/-! ## Section 5: All calls -/

section calls

variable {node : DeviceInode} {size : Nat → Nat}

theorem listed_deviceReader (node : DeviceInode) (size : Nat → Nat) (i : Nat) :
    (deviceReader node size i).listed =
      listed (fun i => (readdirCall node size i).page.records) i := by
  induction i with
  | zero => rfl
  | succ i ih =>
    rw [listed, ← ih]
    rfl

theorem deviceReader_spec (hdir : node.mode &&& sIfmt = sIfdir) (hshort : ShortNames node)
    (hample : AmpleBuffers node size) (i : Nat) :
    ServesReader node (size i) (deviceReader node size i).offset (readdirCall node size i) ∧
    (deviceReader node size i).listed ++
        rest Dirent.off node.entries (deviceReader node size i).offset = node.entries ∧
    (rest Dirent.off node.entries (deviceReader node size i).offset).length ≤
      node.entries.length - i := by
  have hserves : ∀ i, (deviceReader node size i).listed ++
        rest Dirent.off node.entries (deviceReader node size i).offset = node.entries →
      ServesReader node (size i) (deviceReader node size i).offset (readdirCall node size i) := by
    intro i hlisted
    refine readdir_serves hdir hshort fun d hd => hample i d ?_
    -- the first record that is left is the one that is due
    rw [← hlisted, List.getElem?_append_right (Nat.le_refl _), Nat.sub_self,
      ← List.head?_eq_getElem?, hd]
  have hall := listed_all (entries_increasing node) (o := fun i => (deviceReader node size i).offset)
    (p := fun i => (readdirCall node size i).page.records) rfl (fun i => rfl)
    (fun i _ hlisted => by
      rw [← listed_deviceReader] at hlisted
      obtain ⟨after, hrest, hempty⟩ := (hserves i hlisted).page
      exact ⟨after, hrest, fun hnil => (hempty hnil).1⟩)
  obtain ⟨-, hlisted, hlength⟩ := hall i
  rw [← listed_deviceReader] at hlisted
  exact ⟨hserves i hlisted, hlisted, hlength⟩

theorem children_createAll (node : DeviceInode) (files : List (Str × BitVec 32)) :
    (node.createAll files).children.map (fun file => (file.name, file.mode)) =
      node.children.map (fun file => (file.name, file.mode)) ++ files := by
  induction files generalizing node with
  | nil => simp [DeviceInode.createAll]
  | cons file files ih =>
    change ((node.create file.1 file.2).createAll files).children.map _ = _
    rw [ih, DeviceInode.create, List.map_append, List.append_assoc]
    rfl

theorem mode_createAll (node : DeviceInode) (files : List (Str × BitVec 32)) :
    (node.createAll files).mode = node.mode := by
  induction files generalizing node with
  | nil => rfl
  | cons file files ih => exact ih (node.create file.1 file.2)

theorem names_fileRecords (entryIndex : Nat) (files : List DeviceFile) :
    (fileRecords entryIndex files).map Dirent.name = files.map fun file => file.name ++ [nul] := by
  induction files generalizing entryIndex with
  | nil => rfl
  | cons file files ih =>
    rw [fileRecords, List.map_cons, List.map_cons, ih]
    rfl

/-- **Device directories**: a directory with any files, and with some more created
    in it, is listed right with any buffers that have room for the record due. No
    call fails or stores behind its buffer. The reader gets `.`, `..` and one
    record for each file, those that were created in the order of their creation,
    and the call behind the last record returns 0. -/
theorem readdir_lists (base : DeviceInode) (hdir : base.mode &&& sIfmt = sIfdir)
    (files : List (Str × BitVec 32)) (hbase : ShortNames base)
    (hshort : ∀ file ∈ files, file.1.length < 256)
    (hample : AmpleBuffers (base.createAll files) size) :
    (base.createAll files).entries.map Dirent.name =
      ['.', nul] :: ['.', '.', nul] :: (base.children.map (fun file => file.name ++ [nul]) ++
        files.map fun file => file.1 ++ [nul]) ∧
    (∀ i, 0 ≤ (readdirCall (base.createAll files) size i).ret ∧
      (readdirCall (base.createAll files) size i).InBounds (size i) ∧
      (deviceReader (base.createAll files) size i).listed <+: (base.createAll files).entries ∧
      ((deviceReader (base.createAll files) size i).listed = (base.createAll files).entries →
        (readdirCall (base.createAll files) size i).ret = 0)) ∧
    ∀ i, (base.createAll files).entries.length ≤ i →
      (deviceReader (base.createAll files) size i).listed = (base.createAll files).entries := by
  have hfiles := children_createAll base files
  have hshort : ShortNames (base.createAll files) := by
    intro file hfile
    have hmem : (file.name, file.mode) ∈ base.children.map (fun file => (file.name, file.mode)) ++
        files := hfiles ▸ List.mem_map_of_mem hfile
    rcases List.mem_append.mp hmem with hmem | hmem
    · obtain ⟨file', hfile', heq⟩ := List.mem_map.mp hmem
      rw [← (Prod.mk.inj heq).1]
      exact hbase file' hfile'
    · exact hshort _ hmem
  rw [← mode_createAll base files] at hdir
  have hreader := deviceReader_spec hdir hshort hample
  generalize base.createAll files = node at *
  refine ⟨?_, fun i => ?_, fun i hi => ?_⟩
  · have hnames := congrArg (List.map fun file => file.1 ++ [nul]) hfiles
    rw [List.map_append, List.map_map, List.map_map] at hnames
    rw [DeviceInode.entries, List.map_cons, List.map_cons, names_fileRecords]
    exact congrArg (fun names => ['.', nul] :: ['.', '.', nul] :: names) hnames
  · obtain ⟨hserves, hlisted, -⟩ := hreader i
    refine ⟨?_, hserves.inBounds, ⟨_, hlisted⟩, fun hall => ?_⟩
    · rw [hserves.ret]
      exact Int.natCast_nonneg _
    · -- nothing is left, so the page is empty
      rw [hall, List.append_right_eq_self] at hlisted
      obtain ⟨after, hrest, hnothing⟩ := hserves.page
      rw [hlisted] at hrest
      rw [hserves.ret, (hnothing (List.append_eq_nil_iff.mp hrest.symm).1).2]
      rfl
  · obtain ⟨-, hlisted, hleft⟩ := hreader i
    have hnil : rest Dirent.off node.entries (deviceReader node size i).offset = [] :=
      List.eq_nil_of_length_eq_zero (by omega)
    rwa [hnil, List.append_nil] at hlisted

end calls

/-- An empty directory. -/
def inputDirectory : DeviceInode := ⟨7, sIfdir, none, some 1, []⟩

/-- The directory read with buffers of 64 bytes, which hold two records each. -/
theorem readdir_lists_input :
    (deviceReader (inputDirectory.createAll [("keyboard".toList, 0), ("mouse".toList, 0)])
      (fun _ => 64) 4).listed.map Dirent.name =
      [['.', nul], ['.', '.', nul], "keyboard".toList ++ [nul], "mouse".toList ++ [nul]] := by
  have hample : AmpleBuffers (inputDirectory.createAll [("keyboard".toList, 0),
      ("mouse".toList, 0)]) fun _ => 64 := by
    intro i d hd
    have hmem : ∀ d ∈ (inputDirectory.createAll [("keyboard".toList, 0),
        ("mouse".toList, 0)]).entries, d.reclen ≤ 64 := by decide
    exact hmem d (List.mem_of_getElem? hd)
  obtain ⟨hnames, -, hall⟩ := readdir_lists inputDirectory (by decide)
    [("keyboard".toList, 0), ("mouse".toList, 0)] (fun file hfile => nomatch hfile) (by decide)
    hample
  rw [hall 4 (by decide), hnames]
  rfl

end Fennix.Driver
