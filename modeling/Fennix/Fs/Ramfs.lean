import Fennix.Fs.Basic
import Fennix.Framework.System

/-! # The RAM file system

    `RAMFS::Read` and `RAMFS::Write` of `Kernel/fs/ramfs.cpp` with the buffer
    of an inode from `Kernel/include/fs/ramfs.hpp`. The bytes of a file lie in
    a buffer that only ever grows, and `Stat.Size` says how many of them are
    the file.

    A file is meant to be a byte array. It is one as long as every write starts
    at its beginning and reaches its end: `Write` sets `Stat.Size` to the size
    of the write, wherever it is, and `Read` copies from the beginning of the
    buffer, whatever the offset.
-/

namespace Fennix.Fs

open Bytes

namespace Ramfs

/-! ## Section 1: The calls -/

/-- `kmalloc`: zeroed memory, 16 bytes of it if none is asked for. No block is
    larger than half of the address space; a request for such a block throws or
    stops. -/
def kmalloc (size : Nat) : Option (List Byte) :=
  if size ≤ 2 ^ 47 then some (List.replicate (if size = 0 then 16 else size) 0) else none

/-- `class InodeBuffer`; `data` is the memory that `Data` points to. -/
structure InodeBuffer where
  data : Option (List Byte)
  dataSize : Nat
  deriving DecidableEq

/-- What `Read` and `Write` use of `class RAMFSInode`. -/
structure RamfsInode where
  statSize : Nat
  buffer : InodeBuffer
  deriving DecidableEq

/-- `InodeBuffer::Allocate`. -/
def InodeBuffer.allocate (buffer : InodeBuffer) (size : Nat) (extend atEnd : Bool) :
    Option InodeBuffer :=
  if extend = false then (kmalloc size).map fun data => ⟨some data, size⟩
  else
    match buffer.data with
    | none => (kmalloc size).map fun data => ⟨some data, size⟩
    | some old =>
      -- `size` is added to what is there
      let newSize := (buffer.dataSize + size) % 2 ^ 64
      (kmalloc newSize).bind fun new =>
        (overwrite new (if atEnd then 0 else size) (old.take buffer.dataSize)).map fun new =>
          ⟨some new, newSize⟩

/-- `Files`, by inode number. -/
abbrev Files := Nat → Option RamfsInode

/-- The optional growth of the buffer in `Write`. -/
def growIf (c : Bool) (size : Nat) (buffer : InodeBuffer) : Option InodeBuffer :=
  if c then buffer.allocate size true true else some buffer

/-- `RAMFS::Write` of the bytes in `buf`. -/
def write (files : Files) (index : Nat) (buf : List Byte) (offset : Nat) : Option (Int × Files) :=
  (files index).bind fun node =>
    let size := buf.length
    let fileSize := node.statSize
    (if node.buffer.data.isNone then node.buffer.allocate fileSize false true
      else some node.buffer).bind fun buffer =>
      if size = 0 then
        some (-einval, Function.update files index (some { node with buffer }))
      else
        ((growIf (offset > fileSize) ((offset + size) % 2 ^ 64) buffer).bind
            (growIf (offset = fileSize) size) |>.bind
            (growIf ((offset + size) % 2 ^ 64 > fileSize) ((offset + size) % 2 ^ 64))).bind
          fun buffer =>
            (buffer.data.bind fun data => overwrite data offset buf).map fun data =>
              (ssize size, Function.update files index
                (some ⟨size, { buffer with data := some data }⟩))

/-- `RAMFS::Read`: what it returns and the bytes it stores to `Buffer`. -/
def read (files : Files) (index size offset : Nat) : Option (Int × List Byte) :=
  (files index).bind fun node =>
    match readSize node.statSize size offset with
    | none => some (0, [])
    | some size =>
      -- `memcpy(Buffer, node->Buffer.Data, Size)`
      node.buffer.data.bind fun data =>
        if size ≤ data.length then some (ssize size, data.take size) else none

/-- What a file is meant to hold, by inode number. -/
abbrev Contents := Nat → List Byte

/-- A write to a file. -/
structure WriteCall where
  index : Nat
  buf : List Byte
  offset : Nat

/-- Runs of writes that return, from empty files on, next to the byte arrays
    that the files are meant to be. Reads change nothing. -/
def ramfs : System (Files × Contents) WriteCall where
  init := fun s => (∀ index node, s.1 index = some node → node = ⟨0, none, 0⟩) ∧ ∀ index, s.2 index = []
  step := fun s call s' =>
    0 < call.buf.length ∧ call.offset < 2 ^ 63 ∧
    (∃ ret, write s.1 call.index call.buf call.offset = some (ret, s'.1)) ∧
    s'.2 = Function.update s.2 call.index (writeAt 0 (s.2 call.index) call.offset call.buf)

/-- The guard on runs: a write replaces the whole file. -/
def Replaces (s : Files × Contents) (call : WriteCall) : Prop :=
  call.offset = 0 ∧ (s.2 call.index).length ≤ call.buf.length

/-- The reads that come out right: from the beginning, past the end, or of a
    part of the file that is the same as its beginning. -/
def FromStart (file : List Byte) (size offset : Nat) : Prop :=
  offset = 0 ∨ file.length ≤ offset ∨
    offset + size ≤ file.length ∧ readAt file offset size = readAt file 0 size

/-! ## Section 2: Buffers -/

/-- The memory of a buffer is a block that `kmalloc` can return. -/
def InodeBuffer.Bounded (buffer : InodeBuffer) : Prop :=
  ∀ data, buffer.data = some data → data.length ≤ 2 ^ 47

variable {size n index offset : Nat} {data buf file : List Byte} {buffer : InodeBuffer}
  {files : Files} {node : RamfsInode}

theorem length_kmalloc (h : kmalloc size = some data) : data.length ≤ 2 ^ 47 := by
  unfold kmalloc at h
  split at h
  · rename_i hsize
    cases h
    rw [List.length_replicate]
    split
    · decide
    · exact hsize
  · cases h

theorem kmalloc_bounded
    (h : (kmalloc size).map (fun data => InodeBuffer.mk (some data) n) = some buffer) :
    buffer.Bounded := by
  obtain ⟨data, hdata, rfl⟩ := Option.map_eq_some_iff.mp h
  intro data' hdata'
  cases hdata'
  exact length_kmalloc hdata

theorem InodeBuffer.allocate_bounded {buffer' : InodeBuffer} {extend atEnd : Bool}
    (h : buffer.allocate size extend atEnd = some buffer') : buffer'.Bounded := by
  unfold InodeBuffer.allocate at h
  split at h
  · exact kmalloc_bounded h
  · split at h
    · exact kmalloc_bounded h
    · obtain ⟨new, hnew, hcopy⟩ := Option.bind_eq_some_iff.mp h
      obtain ⟨data, hdata, rfl⟩ := Option.map_eq_some_iff.mp hcopy
      intro data' hdata'
      cases hdata'
      rw [length_overwrite hdata]
      exact length_kmalloc hnew

theorem growIf_bounded {c : Bool} {buffer' : InodeBuffer} (hb : buffer.Bounded)
    (h : growIf c size buffer = some buffer') : buffer'.Bounded := by
  unfold growIf at h
  split at h
  · exact InodeBuffer.allocate_bounded h
  · cases h
    exact hb

/-- What a write that returns has done: the bytes are in the buffer at their
    offset, and the size of the file is the size of the write. -/
theorem write_cases {files' : Files} {ret : Int}
    (h : write files index buf offset = some (ret, files')) (hbuf : 0 < buf.length)
    (hb : ∀ node, files index = some node → node.buffer.Bounded) :
    ∃ memory data dataSize, overwrite memory offset buf = some data ∧ data.length ≤ 2 ^ 47 ∧
      files' = Function.update files index (some ⟨buf.length, some data, dataSize⟩) := by
  obtain ⟨node, hnode, h⟩ := Option.bind_eq_some_iff.mp h
  obtain ⟨first, hfirst, h⟩ := Option.bind_eq_some_iff.mp h
  rw [if_neg (Nat.ne_of_gt hbuf)] at h
  obtain ⟨last, hlast, h⟩ := Option.bind_eq_some_iff.mp h
  obtain ⟨second, hsecond, hlast⟩ := Option.bind_eq_some_iff.mp hlast
  obtain ⟨past, hpast, hsecond⟩ := Option.bind_eq_some_iff.mp hsecond
  obtain ⟨data, hdata, h⟩ := Option.map_eq_some_iff.mp h
  obtain ⟨memory, hmemory, hdata⟩ := Option.bind_eq_some_iff.mp hdata
  -- the buffer stays a block through the four places where it may grow
  have hbfirst : first.Bounded := by
    split at hfirst
    · exact InodeBuffer.allocate_bounded hfirst
    · cases hfirst
      exact hb node hnode
  have hblast : last.Bounded :=
    growIf_bounded (growIf_bounded (growIf_bounded hbfirst hpast) hsecond) hlast
  refine ⟨memory, data, last.dataSize, hdata, ?_, (Prod.mk.inj h).2.symm⟩
  rw [length_overwrite hdata]
  exact hblast memory hmemory

/-! ## Section 3: A file that is its buffer -/

/-- The node holds the file: the beginning of its memory, `Stat.Size` long. -/
structure Holds (node : RamfsInode) (file : List Byte) : Prop where
  size : node.statSize = file.length
  bounded : node.buffer.Bounded
  stored : file ≠ [] → ∃ data, node.buffer.data = some data ∧ data.take file.length = file ∧
    file.length ≤ data.length

theorem holds_fresh : Holds ⟨0, none, 0⟩ [] where
  size := rfl
  bounded := nofun
  stored := fun h => absurd rfl h

theorem read_eq (hnode : files index = some node) (hdata : node.buffer.data = some data)
    (hn : readSize node.statSize size offset = some n) :
    read files index size offset =
      if n ≤ data.length then some (ssize n, data.take n) else none := by
  rw [read, hnode, Option.bind_some, hn, hdata]
  rfl

theorem read_past_end (hnode : files index = some node) (h : node.statSize ≤ offset) :
    read files index size offset = some (0, []) := by
  rw [read, hnode, Option.bind_some, readSize_past h]

theorem read_of_holds (hnode : files index = some node) (h : Holds node file)
    (hin : offset < file.length) (hn : n ≤ file.length)
    (hclamp : readSize file.length size offset = some n) :
    read files index size offset = some ((n : Int), file.take n) := by
  obtain ⟨data, hdata, htake, hle⟩ := h.stored (List.ne_nil_of_length_pos (by omega))
  have hbound := h.bounded data hdata
  have hstart : data.take n = file.take n := by
    conv_rhs => rw [← htake, List.take_take, Nat.min_eq_left hn]
  rw [← h.size] at hclamp
  rw [read_eq hnode hdata hclamp, if_pos (by omega), ssize_of_lt (by omega), hstart]

theorem read_wraps (hnode : files index = some node) (h : Holds node file)
    (hin : offset < file.length) (hsize : size < 2 ^ 64) (hwrap : 2 ^ 64 ≤ offset + size) :
    read files index size offset = none := by
  obtain ⟨data, hdata, htake, hle⟩ := h.stored (List.ne_nil_of_length_pos (by omega))
  have hbound := h.bounded data hdata
  have hclamp := readSize_wraps hin (by omega) hsize hwrap
  rw [← h.size] at hclamp
  rw [read_eq hnode hdata hclamp, if_neg (by omega)]

theorem length_le_of_holds (h : Holds node file) : file.length ≤ 2 ^ 47 := by
  by_cases hempty : file = []
  · rw [hempty]
    exact Nat.zero_le _
  · obtain ⟨data, hdata, -, hle⟩ := h.stored hempty
    exact Nat.le_trans hle (h.bounded data hdata)

theorem delivers_iff (hnode : files index = some node) (h : Holds node file) (hpos : 1 ≤ size)
    (hsize : size < 2 ^ 64) :
    Delivers file size offset (read files index size offset) ↔ FromStart file size offset := by
  have hlen := length_le_of_holds h
  by_cases hout : file.length ≤ offset
  · -- past the end both are empty
    refine iff_of_true ?_ (Or.inr (Or.inl hout))
    rw [read_past_end hnode (h.size ▸ hout)]
    exact delivers_past hout
  · have hin : offset < file.length := Nat.lt_of_not_le hout
    by_cases hfit : offset + size ≤ file.length
    · -- inside the file: `size` bytes from the beginning
      rw [Delivers, read_of_holds hnode h hin (by omega)
        (readSize_fits (by omega) hin hpos hfit), Nat.min_eq_left (by omega)]
      constructor
      · intro heq
        exact Or.inr (Or.inr ⟨hfit, (Prod.mk.inj (Option.some.inj heq)).2.symm⟩)
      · intro hstart
        obtain rfl | hge | ⟨-, hsame⟩ := hstart
        · rfl
        · omega
        · rw [hsame]
          rfl
    · by_cases hwrap : 2 ^ 64 ≤ offset + size
      · rw [Delivers, read_wraps hnode h hin hsize hwrap]
        refine iff_of_false (by simp) ?_
        intro hstart
        obtain hzero | hge | ⟨hle, -⟩ := hstart <;> omega
      · -- across the end: the whole file
        rw [Delivers, read_of_holds hnode h hin (Nat.le_refl _)
          (readSize_crosses hin hpos (by omega) (by omega)), List.take_length]
        constructor
        · intro heq
          have hcount := Int.ofNat.inj (Prod.mk.inj (Option.some.inj heq)).1
          exact Or.inl (by omega)
        · intro hstart
          obtain rfl | hge | ⟨hle, -⟩ := hstart
          · rw [readAt_zero, List.take_of_length_le (by omega), Nat.sub_zero,
              Nat.min_eq_right (by omega)]
          · omega
          · omega

/-! ## Section 4: Writes -/

theorem holds_of_replaced {memory : List Byte} {dataSize : Nat}
    (hdata : overwrite memory 0 buf = some data) (hlen : data.length ≤ 2 ^ 47) :
    Holds ⟨buf.length, some data, dataSize⟩ buf where
  size := rfl
  bounded := fun data' h => by
    cases h
    exact hlen
  stored := fun _ => by
    obtain ⟨hroom, heq⟩ := overwrite_eq_some hdata
    refine ⟨data, rfl, ?_, ?_⟩
    · rw [heq, List.take_zero, List.nil_append, List.take_left]
    · rw [length_overwrite hdata]
      omega

theorem read_after_write {dataSize : Nat} {memory : List Byte} (hbuf : 0 < buf.length)
    (hdata : overwrite memory offset buf = some data) (hlen : data.length ≤ 2 ^ 47)
    (hsize : 2 ^ 47 < size) (hsize' : size < 2 ^ 64) :
    read (Function.update files index (some ⟨buf.length, some data, dataSize⟩)) index size 0 =
      some ((buf.length : Int), data.take buf.length) := by
  obtain ⟨hroom, -⟩ := overwrite_eq_some hdata
  have hle := length_overwrite hdata
  have hclamp : readSize buf.length size 0 = some buf.length :=
    readSize_crosses hbuf (by omega) (by omega) (by omega)
  rw [read_eq (Function.update_self ..) rfl hclamp, if_pos (by omega), ssize_of_lt (by omega)]

/-- The invariant of guarded runs: every file is held. -/
def AllHeld (s : Files × Contents) : Prop :=
  ∀ index node, s.1 index = some node → Holds node (s.2 index)

theorem AllHeld.write {s s' : Files × Contents} {call : WriteCall} (h : AllHeld s)
    (hguard : Replaces s call) (hstep : ramfs.step s call s') : AllHeld s' := by
  obtain ⟨hbuf, hoff, ⟨ret, hwrite⟩, hcontents⟩ := hstep
  obtain ⟨memory, data, dataSize, hdata, hlen, hfiles⟩ :=
    write_cases hwrite hbuf (fun node hnode => (h call.index node hnode).bounded)
  obtain ⟨hzero, hcover⟩ := hguard
  intro index node hnode
  rw [hcontents]
  rw [hfiles] at hnode
  by_cases hindex : index = call.index
  · subst hindex
    rw [Function.update_self] at hnode ⊢
    cases hnode
    rw [hzero, writeAt_zero_of_le 0 hcover]
    rw [hzero] at hdata
    exact holds_of_replaced hdata hlen
  · rw [Function.update_of_ne hindex] at hnode ⊢
    exact h index node hnode

theorem allHeld_of_reachable {s : Files × Contents}
    (h : (ramfs.restrict Replaces).Reachable s) : AllHeld s := by
  refine h.invariant ?_ ?_
  · intro s hinit index node hnode
    rw [hinit.1 index node hnode, hinit.2 index]
    exact holds_fresh
  · intro s call s' hheld hstep
    exact hheld.write hstep.1 hstep.2


/-- One file, with inode number 2, still empty. -/
def oneFile : Files := Function.update (fun _ => none) 2 (some ⟨0, none, 0⟩)

/-- The one file after a first write of four bytes. -/
def fourBytes : Files × Contents :=
  (Function.update oneFile 2 (some ⟨4, some [1, 2, 3, 4, 0, 0, 0, 0], 8⟩),
    Function.update (fun _ => []) 2 [1, 2, 3, 4])

theorem step_fourBytes :
    ramfs.step (oneFile, fun _ => []) ⟨2, [1, 2, 3, 4], 0⟩ fourBytes := by
  refine ⟨by decide, by decide, ⟨4, rfl⟩, rfl⟩

theorem init_oneFile : ramfs.init (oneFile, fun _ => []) := by
  refine ⟨?_, fun _ => rfl⟩
  intro index node hnode
  by_cases hindex : index = 2
  · subst hindex
    exact (Option.some.inj hnode).symm
  · have hnone : oneFile index = none := Function.update_of_ne hindex _ _
    cases hnone.symm.trans hnode

/-- A write at the end of a file of four bytes leaves a file of two bytes, and
    a read of four bytes at offset 1 is told to store them all. -/
example : ((write fourBytes.1 2 [5, 6] 4).bind fun r => read r.2 2 4 0) = some (2, [1, 2]) ∧
    read fourBytes.1 2 4 1 = some (4, [1, 2, 3, 4]) := ⟨rfl, rfl⟩

end Ramfs

end Fennix.Fs
