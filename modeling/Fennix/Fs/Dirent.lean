import Fennix.Fs.Path
import Mathlib.Algebra.BigOperators.Group.List.Basic
import Mathlib.Algebra.GroupWithZero.Nat

/-! # Directory records

    `struct kdirent` of `Kernel/include/interface/fs.h`, and a buffer that is
    filled with such records one behind the other.
-/

namespace Fennix.Fs

open Path

/-! ## Section 1: Records -/

/-- `DT_UNKNOWN`. -/
def dtUnknown : Nat := 0

/-- `DT_FIFO`. -/
def dtFifo : Nat := 1

/-- `DT_CHR`. -/
def dtChr : Nat := 2

/-- `DT_DIR`. -/
def dtDir : Nat := 4

/-- `DT_BLK`. -/
def dtBlk : Nat := 6

/-- `DT_REG`. -/
def dtReg : Nat := 8

/-- `DT_LNK`. -/
def dtLnk : Nat := 10

/-- `IFTODT`. -/
def iftodt (mode : BitVec 32) : Nat := ((mode >>> 12) &&& 0xF).toNat

/-- The end of a string. -/
def nul : Char := Char.ofNat 0

/-- `struct kdirent`. `name` are the characters that have been stored to
    `d_name`. -/
structure Dirent where
  ino : Nat
  off : Nat
  reclen : Nat
  type : Nat
  name : Str
  deriving DecidableEq

/-- `offsetof(struct kdirent, d_name)`. -/
def nameOffset : Nat := 19

/-- `sizeof(struct kdirent)`. -/
def direntSize : Nat := 24

/-- The `d_reclen` for a name, as `uint16_t`. -/
def recordLength (name : Str) : Nat := (nameOffset + name.length + 1) % 2 ^ 16

/-- How many bytes of a record are stored, if its name comes last. -/
def Dirent.stored (d : Dirent) : Nat := nameOffset + d.name.length

theorem recordLength_of_short {name : Str} (h : nameOffset + name.length + 1 < 2 ^ 16) :
    recordLength name = nameOffset + name.length + 1 := Nat.mod_eq_of_lt h

/-! ## Section 2: Buffers -/

/-- A buffer: the records with the places where they have been stored, and where
    the next one goes. -/
structure Page where
  stored : List (Nat × Dirent)
  total : Nat

namespace Page

/-- Nothing has been stored. -/
def empty : Page := ⟨[], 0⟩

def push (page : Page) (d : Dirent) : Page := ⟨page.stored ++ [(page.total, d)], page.total + d.reclen⟩

def append (page : Page) (ds : List Dirent) : Page := ds.foldl push page

def records (page : Page) : List Dirent := page.stored.map Prod.snd

/-- Nothing has been stored behind the first `size` bytes. -/
def InBounds (page : Page) (size : Nat) : Prop := ∀ pd ∈ page.stored, pd.1 + pd.2.stored ≤ size

variable {page : Page} {d : Dirent} {ds : List Dirent} {size : Nat}

@[simp] theorem records_push (page : Page) (d : Dirent) :
    (page.push d).records = page.records ++ [d] := by
  simp [records, push]

@[simp] theorem total_push (page : Page) (d : Dirent) :
    (page.push d).total = page.total + d.reclen := rfl

theorem records_append (page : Page) (ds : List Dirent) :
    (page.append ds).records = page.records ++ ds := by
  induction ds generalizing page with
  | nil => simp [append]
  | cons d ds ih =>
    change ((page.push d).append ds).records = _
    rw [ih, records_push, List.append_assoc, List.singleton_append]

theorem total_append (page : Page) (ds : List Dirent) :
    (page.append ds).total = page.total + (ds.map Dirent.reclen).sum := by
  induction ds generalizing page with
  | nil => simp [append]
  | cons d ds ih =>
    change ((page.push d).append ds).total = _
    rw [ih, total_push, List.map_cons, List.sum_cons, Nat.add_assoc]

theorem InBounds.push (h : page.InBounds size) (hd : page.total + d.stored ≤ size) :
    (page.push d).InBounds size :=
  List.forall_mem_append.mpr ⟨h, List.forall_mem_singleton.mpr hd⟩

theorem InBounds.append (h : page.InBounds size) (hds : ∀ d ∈ ds, d.stored ≤ d.reclen)
    (htotal : (page.append ds).total ≤ size) : (page.append ds).InBounds size := by
  induction ds generalizing page with
  | nil => exact h
  | cons d ds ih =>
    have hd := hds d List.mem_cons_self
    have hsum := total_append (page.push d) ds
    refine ih (h.push ?_) (fun d hd => hds d (List.mem_cons_of_mem _ hd)) htotal
    change ((page.push d).append ds).total ≤ size at htotal
    rw [total_push] at hsum
    omega

end Page

end Fennix.Fs
