import Fennix.Fs.Basic
import Mathlib.Data.Nat.Digits.Defs

/-! # The boot archive

    `USTAR::Read` of `Kernel/fs/ustar.cpp` and `GetSize` of
    `Kernel/include/fs/ustar.hpp`. An archive lies in memory; each file is a
    header of 512 bytes that announces the size in octal digits, and the
    content behind it.

    `Read` makes the same clamp as `RAMFS::Read`: a read across the end gets
    the size of the file and not of the part behind the offset. `GetSize`
    counts in 32 bits, the field has room for 33.
-/

namespace Fennix.Fs.Ustar

open Bytes
open BitVec (ofNat)

/-! ## Section 1: The calls -/

/-- What `Read` uses of `struct FileHeader`: the bytes from its field `size` on
    and the bytes behind the header. -/
structure FileHeader where
  size : List Byte
  behind : Nat → Byte

/-- What `Read` uses of `struct USTARInode`. -/
structure UstarInode where
  header : FileHeader
  deleted : Bool

/-- `GetSize`, with `ret` so far; `none` if no byte is zero. A `char` is
    signed. -/
def getSize : List Byte → BitVec 32 → Option (BitVec 32)
  | [], _ => none
  | c :: string, ret =>
    if c = 0 then some ret else getSize string (ret * 8 + (c.signExtend 32 - 48))

/-- `Files`, by inode number. -/
abbrev Files := Nat → Option UstarInode

/-- `USTAR::Read`: what it returns and the bytes it stores to `Buffer`. -/
def read (files : Files) (index size offset : Nat) : Option (Int × List Byte) :=
  (files index).bind fun node =>
    if node.deleted then some (-enoent, [])
    else
      (getSize node.header.size 0).map fun fileSize =>
        match readSize fileSize.toNat size offset with
        | none => (0, [])
        | some size => (ssize size, copyFrom node.header.behind offset size)

/-! ## Section 2: The size of a file -/

/-- The number that octal digits stand for, the first digit first. -/
def octal (digits : List Nat) : Nat := Nat.ofDigits 8 digits.reverse

/-- The field `size` is octal digits and a zero byte. -/
structure Announces (header : FileHeader) (digits : List Nat) : Prop where
  digit : ∀ d ∈ digits, d < 8
  room : digits.length ≤ 11
  field : ∃ rest, header.size = digits.map (fun d => ofNat 8 (48 + d)) ++ 0 :: rest

theorem octal_cons (d : Nat) (digits : List Nat) :
    octal (d :: digits) = d * 8 ^ digits.length + octal digits := by
  rw [octal, List.reverse_cons, Nat.ofDigits_append, Nat.ofDigits_singleton, List.length_reverse,
    Nat.mul_comm, Nat.add_comm]
  rfl

theorem char_eq {d : Nat} (h : d < 8) :
    ofNat 8 (48 + d) ≠ 0 ∧
      (ofNat 8 (48 + d)).signExtend 32 - 48 = ofNat 32 d := by
  have hall : ∀ d : Fin 8, ofNat 8 (48 + d) ≠ 0 ∧
      (ofNat 8 (48 + d)).signExtend 32 - 48 = ofNat 32 d := by decide
  exact hall ⟨d, h⟩

variable {digits : List Nat}

theorem getSize_digits (h : ∀ d ∈ digits, d < 8) (rest : List Byte) (ret : Nat) :
    getSize (digits.map (fun d => ofNat 8 (48 + d)) ++ 0 :: rest) (ofNat 32 ret) =
      some (ofNat 32 (ret * 8 ^ digits.length + octal digits)) := by
  induction digits generalizing ret with
  | nil => simp [getSize, octal]
  | cons d digits ih =>
    obtain ⟨hnonzero, hvalue⟩ := char_eq (h d List.mem_cons_self)
    have hnext : ofNat 32 ret * 8 + ofNat 32 d = ofNat 32 (ret * 8 + d) := by
      rw [BitVec.ofNat_add, BitVec.ofNat_mul]
      rfl
    rw [List.map_cons, List.cons_append, getSize, if_neg hnonzero, hvalue, hnext,
      ih (fun d hd => h d (List.mem_cons_of_mem _ hd)), octal_cons, List.length_cons]
    congr 2
    ring

theorem getSize_of_announces {header : FileHeader} (h : Announces header digits) :
    getSize header.size 0 = some (ofNat 32 (octal digits)) := by
  obtain ⟨rest, hfield⟩ := h.field
  rw [hfield]
  have hsize := getSize_digits h.digit rest 0
  rwa [Nat.zero_mul, Nat.zero_add] at hsize

/-! ## Section 3: Reads -/

/-- The content of a file of `fileSize` bytes. -/
def FileHeader.content (header : FileHeader) (fileSize : Nat) : List Byte :=
  copyFrom header.behind 0 fileSize

/-- The reads that come out right. With less than 2^32 bytes: at or past the
    end, or of something that does not cross the end unless it starts at the
    beginning. -/
def Readable (fileSize size offset : Nat) : Prop :=
  if fileSize % 2 ^ 32 ≤ offset then size = 0 ∨ fileSize ≤ offset
  else 1 ≤ size ∧ (offset + size ≤ fileSize % 2 ^ 32 ∨ (offset = 0 ∧ fileSize < 2 ^ 32) ∨
    (size = fileSize % 2 ^ 32 ∧ offset + size ≤ fileSize))

theorem delivers_content_iff (header : FileHeader) (fileSize size offset n : Nat) :
    Delivers (header.content fileSize) size offset
        (some (ssize n, copyFrom header.behind offset n)) ↔
      ssize n = ((min size (fileSize - offset) : Nat) : Int) ∧ n = min size (fileSize - offset) := by
  rw [Delivers, FileHeader.content, readAt_copyFrom, length_copyFrom, Option.some.injEq,
    Prod.mk.injEq]
  constructor
  · intro heq
    have hlen := congrArg List.length heq.2
    rw [length_copyFrom, length_copyFrom] at hlen
    exact ⟨heq.1, hlen⟩
  · intro heq
    refine ⟨heq.1, ?_⟩
    rw [← heq.2]

theorem read_eq {files : Files} {index size offset : Nat} {node : UstarInode}
    (hnode : files index = some node) (hlive : node.deleted = false)
    (hfield : Announces node.header digits) :
    read files index size offset =
      some (match readSize (octal digits % 2 ^ 32) size offset with
        | none => (0, [])
        | some size => (ssize size, copyFrom node.header.behind offset size)) := by
  rw [read, hnode, Option.bind_some, hlive, if_neg Bool.false_ne_true,
    getSize_of_announces hfield, Option.map_some, BitVec.toNat_ofNat]

theorem readSize_right_iff {fileSize size offset n : Nat} (hsize : size < 2 ^ 64)
    (hin : offset < fileSize % 2 ^ 32) (hn : readSize (fileSize % 2 ^ 32) size offset = some n) :
    (ssize n = ((min size (fileSize - offset) : Nat) : Int) ∧ n = min size (fileSize - offset)) ↔
      Readable fileSize size offset := by
  have hmod : fileSize % 2 ^ 32 ≤ fileSize := Nat.mod_le _ _
  have hlt : fileSize % 2 ^ 32 < 2 ^ 32 := Nat.mod_lt _ (by decide)
  rw [Readable, if_neg (Nat.not_le_of_lt hin)]
  by_cases hzero : size = 0
  · -- the whole file, where nothing was asked for
    subst hzero
    obtain rfl := Option.mem_unique (readSize_zero hin) hn
    exact iff_of_false (by omega) (by omega)
  have hpos : 1 ≤ size := Nat.pos_of_ne_zero hzero
  by_cases hwrap : 2 ^ 64 ≤ offset + size
  · -- not clamped, and negative as a result
    obtain rfl := Option.mem_unique (readSize_wraps hin (by omega) hsize hwrap) hn
    have hneg : ssize size < 0 := ssize_neg (by omega) hsize
    exact iff_of_false (by omega) (by omega)
  by_cases hfit : offset + size ≤ fileSize % 2 ^ 32
  · obtain rfl := Option.mem_unique (readSize_fits (by omega) hin hpos hfit) hn
    rw [ssize_of_lt (by omega)]
    exact iff_of_true (by omega) ⟨hpos, Or.inl hfit⟩
  · -- clamped to the size of the file
    obtain rfl := Option.some.inj
      ((readSize_crosses hin hpos (by omega) (by omega)).symm.trans hn)
    rw [ssize_of_lt (by omega)]
    omega

/-- Which reads of a file in the archive return and store what is there. -/
theorem read_content_iff {files : Files} {index size offset : Nat} {node : UstarInode}
    {digits : List Nat} (hnode : files index = some node) (hlive : node.deleted = false)
    (hfield : Announces node.header digits) (hsize : size < 2 ^ 64) :
    Delivers (node.header.content (octal digits)) size offset (read files index size offset) ↔
      Readable (octal digits) size offset := by
  rw [read_eq hnode hlive hfield]
  by_cases hout : octal digits % 2 ^ 32 ≤ offset
  · rw [readSize_past hout, Readable, if_pos hout]
    refine (delivers_content_iff node.header (octal digits) size offset 0).trans ?_
    rw [ssize_of_lt (by decide)]
    omega
  · obtain ⟨n, hn⟩ : ∃ n, readSize (octal digits % 2 ^ 32) size offset = some n :=
      ⟨_, readSize_inside (Nat.lt_of_not_le hout) rfl⟩
    rw [hn]
    exact (delivers_content_iff node.header (octal digits) size offset n).trans
      (readSize_right_iff hsize (Nat.lt_of_not_le hout) hn)

/-- An archive with one file of ten bytes, 0 to 9, and more behind it. -/
def tenBytes : UstarInode where
  header := ⟨[49, 50, 0], fun i => ofNat 8 i⟩
  deleted := false

theorem announces_tenBytes : Announces tenBytes.header [1, 2] where
  digit := by decide
  room := by decide
  field := ⟨[], rfl⟩

/-- The theorem on four bytes of the ten. -/
theorem read_content_tenBytes :
    Delivers [0, 1, 2, 3, 4, 5, 6, 7, 8, 9] 4 6 (read (fun _ => some tenBytes) 0 4 6) :=
  (read_content_iff rfl rfl announces_tenBytes (by decide)).mpr
    (show if 10 ≤ 6 then _ else _ from ⟨by decide, Or.inl (by decide)⟩)

/-- A read of four bytes at offset 8 of ten returns ten and stores ten bytes,
    two of the file and eight that follow it. -/
theorem read_past_buffer :
    Announces tenBytes.header [1, 2] ∧
      read (fun _ => some tenBytes) 0 4 8 =
        some (10, [8, 9, 10, 11, 12, 13, 14, 15, 16, 17]) ∧
      ¬Delivers (tenBytes.header.content (octal [1, 2])) 4 8
        (read (fun _ => some tenBytes) 0 4 8) := by
  have hread : read (fun _ => some tenBytes) 0 4 8 =
      some (10, [8, 9, 10, 11, 12, 13, 14, 15, 16, 17]) := rfl
  refine ⟨announces_tenBytes, hread, ?_⟩
  rw [hread]
  unfold Delivers
  decide

/-- A read of nothing stores the whole file. -/
example : read (fun _ => some tenBytes) 0 0 0 = some (10, [0, 1, 2, 3, 4, 5, 6, 7, 8, 9]) := rfl

end Fennix.Fs.Ustar
