import Fennix.Fs.Descriptor
import Fennix.Framework.System

/-! # The offset of a descriptor

    `linux_read`, `linux_write`, `linux_lseek` and `linux_pread64` of
    `Kernel/subsystem/linux/syscall.cpp` on one descriptor of a regular file.
    None of them advances the offset itself: `usr_lseek` asks the file system to
    `Seek` and stores the answer, whatever it is. So the offset is right exactly
    as far as the file system answers with the position it was asked for, and a
    file system without `Seek` answers `-ENOTSUP`.
-/

namespace Fennix.Fs

open Bytes
open Option (bind_some mem_unique map_some)

/-! ## Section 1: Linux calls -/

/-- `errnoMap`. -/
def errnoMap : List Int :=
  [0, 7, 13, 98, 99, 97, 11, 114, 9, 74, 16, 125, 10, 103, 111, 104, 35, 89, 33, 122, 17, 14, 27,
    113, 43, 84, 115, 4, 22, 5, 106, 21, 40, 24, 31, 90, 72, 36, 100, 102, 101, 23, 105, 61, 19, 2,
    8, 37, 67, 12, 42, 92, 28, 63, 60, 38, 107, 20, 39, 131, 88, 95, 25, 6, 95, 75, 130, 1, 32, 71,
    93, 91, 34, 30, 29, 3, 116, 62, 110, 26, 11, 18]

/-- `ConvertErrnoToLinux`; `none` is a read past the table. -/
def convertErrnoToLinux (err : Int) : Option Int :=
  if err ≥ 0 then some err else errnoMap[(-err).toNat]?.map fun ret => -ret

/-- `linux_EFAULT`. -/
def linuxEfault : Int := 14

namespace FileDescriptorTable

variable {σ : Type} (fs : Nat → InodeOperations σ)

/-- `linux_read`; `mapped` is whether `UserCheckAndGetAddress` finds the buffer. -/
def linuxRead (s : FileDescriptorTable σ) (mapped : Bool) (fd : Int) (count : Nat) :
    Option (Int × FileDescriptorTable σ) :=
  if mapped = false then some (-linuxEfault, s)
  else
    (s.usrRead fs fd count).bind fun (r, _) =>
      (convertErrnoToLinux r).bind fun ret =>
        if ret ≥ 0 then (s.usrLseek fs fd ret 1).map fun (_, s) => (ret, s)
        else some (ret, s)

/-- `linux_write`. -/
def linuxWrite (s : FileDescriptorTable σ) (mapped : Bool) (fd : Int) (buf : List Byte) :
    Option (Int × FileDescriptorTable σ) :=
  if mapped = false then some (-linuxEfault, s)
  else
    (s.usrWrite fs fd buf).bind fun (r, s) =>
      (convertErrnoToLinux r).bind fun ret =>
        if ret ≠ 0 then (s.usrLseek fs fd ret 1).map fun (_, s) => (ret, s)
        else some (ret, s)

/-- `linux_lseek`. -/
def linuxLseek (s : FileDescriptorTable σ) (fd offset whence : Int) :
    Option (Int × FileDescriptorTable σ) :=
  (s.usrLseek fs fd offset whence).bind fun (r, s) =>
    (convertErrnoToLinux r).map fun ret => (ret, s)

/-- `linux_pread64`. -/
def linuxPread64 (s : FileDescriptorTable σ) (mapped : Bool) (fd : Int) (count : Nat)
    (offset : Int) : Option (Int × FileDescriptorTable σ) :=
  if mapped = false then some (-linuxEfault, s)
  else
    (s.usrLseek fs fd 0 1).bind fun (oldOff, s) =>
      (s.usrLseek fs fd offset 0).bind fun (_, s) =>
        (s.usrRead fs fd count).bind fun (r, _) =>
          (s.usrLseek fs fd oldOff 0).bind fun (_, s) =>
            (convertErrnoToLinux r).map fun ret => (ret, s)

/-- A call on the descriptor. -/
inductive OffsetCall where
  | read (mapped : Bool) (count : Nat)
  | write (mapped : Bool) (buf : List Byte)
  | lseek (offset whence : Int)
  | pread64 (mapped : Bool) (count : Nat) (offset : Int)

/-- What a call on `fd` returns and leaves. -/
def perform (fd : Int) (s : FileDescriptorTable σ) : OffsetCall → Option (Int × FileDescriptorTable σ)
  | .read mapped count => s.linuxRead fs mapped fd count
  | .write mapped buf => s.linuxWrite fs mapped fd buf
  | .lseek offset whence => s.linuxLseek fs fd offset whence
  | .pread64 mapped count offset => s.linuxPread64 fs mapped fd count offset

/-! ## Section 2: Regular files -/

/-- Minus an error number. -/
def IsErrno (r : Int) : Prop := -82 < r ∧ r < 0

/-- A file system whose files are byte arrays: `Read` and `Write` transfer what
    is asked for, or refuse. About `Seek` it says only that it returns a
    position or an error. -/
structure ByteFiles (ops : InodeOperations σ) (content : σ → Inode → List Byte) : Prop where
  read : ∀ op, ops.read = some op → ∀ w i size (off : Int),
    (0 ≤ off ∧ op w i size off =
      (((min size ((content w i).length - off.toNat) : Nat) : Int),
        readAt (content w i) off.toNat size)) ∨ IsErrno (op w i size off).1
  write : ∀ op, ops.write = some op → ∀ w i buf (off : Int),
    (0 ≤ off ∧ (op w i buf off).1 = buf.length ∧
      content (op w i buf off).2 i = writeAt 0 (content w i) off.toNat buf) ∨
    IsErrno (op w i buf off).1
  seek : ∀ op, ops.seek = some op → ∀ w i x, -82 < op w i x

/-- `fd` is open on the regular file `n`, with the entry `f`. -/
structure OnFile (s : FileDescriptorTable σ) (fd : Int) (f : Fildes) (n : NodeCache) : Prop where
  entry : s.fileMap fd = some f
  node : s.vfs.node f.node = some n
  regular : n.isRegularFile = true
  plain : n.mountPoint = false

/-- What `Seek` answers when it is asked for the position `x` of the file. -/
def answer (s : FileDescriptorTable σ) (n : NodeCache) (x : Int) : Int :=
  match (fs n.fsi).seek with
  | none => -enotsup
  | some seek => seek s.vfs.world n.inode x

/-- The table with another offset. -/
def setOffset (s : FileDescriptorTable σ) (fd : Int) (f : Fildes) (x : Int) :
    FileDescriptorTable σ :=
  { s with fileMap := Function.update s.fileMap fd (some { f with offset := x }) }

theorem setOffset_setOffset (s : FileDescriptorTable σ) (fd : Int) (f : Fildes) (x y : Int) :
    (s.setOffset fd f x).setOffset fd { f with offset := x } y = s.setOffset fd f y := by
  unfold setOffset
  rw [Function.update_idem]

theorem isDirectory_of_regular {n : NodeCache} (h : n.isRegularFile = true) :
    n.isDirectory = false ∧ n.isSymbolicLink = false := by
  have hmode : n.inode.mode &&& sIfmt = sIfreg := by simpa [NodeCache.isRegularFile] using h
  unfold NodeCache.isDirectory NodeCache.isSymbolicLink
  rw [hmode]
  decide

section OnFile

variable {fs}
variable {s : FileDescriptorTable σ} {fd : Int} {f : Fildes} {n : NodeCache}
variable {content : σ → Inode → List Byte}

theorem OnFile.answer (hfs : ByteFiles (fs n.fsi) content) (s : FileDescriptorTable σ) (x : Int) :
    0 ≤ s.answer fs n x ∨ IsErrno (s.answer fs n x) := by
  have hlow : -82 < s.answer fs n x := by
    unfold FileDescriptorTable.answer
    split
    · decide
    · rename_i op hop
      exact hfs.seek op hop _ _ _
  obtain hneg | hpos := Int.lt_or_le (s.answer fs n x) 0
  · exact Or.inr ⟨hlow, hneg⟩
  · exact Or.inl hpos

variable (h : OnFile s fd f n)

include h

theorem OnFile.setOffset (x : Int) :
    OnFile (s.setOffset fd f x) fd { f with offset := x } n where
  entry := Function.update_self ..
  node := h.node
  regular := h.regular
  plain := h.plain

theorem OnFile.seek (x : Int) : s.vfs.seek fs f.node x = some (s.answer fs n x) := by
  rw [Vfs.seek, h.node]
  rfl

theorem OnFile.lseek_set (x : Int) :
    s.usrLseek fs fd x 0 = some (s.answer fs n x, s.setOffset fd f (s.answer fs n x)) := by
  rw [usrLseek, h.entry]
  simp only [requested, if_pos, bind_some, h.seek]
  rfl

theorem OnFile.lseek_again (x y : Int) :
    (s.setOffset fd f x).usrLseek fs fd y 0 =
      some (s.answer fs n y, s.setOffset fd f (s.answer fs n y)) := by
  rw [(h.setOffset x).lseek_set, setOffset_setOffset]
  rfl

theorem OnFile.lseek_cur (x : Int) :
    s.usrLseek fs fd x 1 = some (s.answer fs n (offT (f.offset + x)),
      s.setOffset fd f (s.answer fs n (offT (f.offset + x)))) := by
  rw [usrLseek, h.entry]
  simp only [requested, if_neg (by decide : ¬(1 : Int) = 0), if_pos, bind_some, h.seek]
  rfl

variable (hfs : ByteFiles (fs n.fsi) content)

include hfs

theorem OnFile.read (count : Nat) :
    ∃ r bytes, s.usrRead fs fd count = some (r, bytes) ∧ (0 ≤ r ∨ IsErrno r) := by
  obtain ⟨hdir, hlink⟩ := isDirectory_of_regular h.regular
  rw [usrRead, h.entry]
  simp only [Vfs.read, h.node, map_some, hdir, h.plain, hlink, Bool.or_self,
    Bool.false_eq_true, if_false]
  cases hop : (fs n.fsi).read with
  | none => exact ⟨_, _, rfl, Or.inr ⟨by decide, by decide⟩⟩
  | some op =>
    refine ⟨_, _, rfl, ?_⟩
    obtain ⟨-, hall⟩ | herr := hfs.read op hop s.vfs.world n.inode count f.offset
    · rw [hall]
      exact Or.inl (Int.natCast_nonneg _)
    · exact Or.inr herr

theorem OnFile.write (buf : List Byte) :
    ∃ r s', s.usrWrite fs fd buf = some (r, s') ∧ (0 ≤ r ∨ IsErrno r) ∧ OnFile s' fd f n := by
  obtain ⟨hdir, hlink⟩ := isDirectory_of_regular h.regular
  rw [usrWrite, h.entry]
  simp only [Vfs.write, h.node, map_some, hdir, h.plain, hlink, Bool.or_self,
    Bool.false_eq_true, if_false]
  cases hop : (fs n.fsi).write with
  | none => exact ⟨-enotsup, s, rfl, Or.inr ⟨by decide, by decide⟩, h⟩
  | some op =>
    refine ⟨_, _, rfl, ?_, h.entry, h.node, h.regular, h.plain⟩
    obtain ⟨-, hall, -⟩ | herr := hfs.write op hop s.vfs.world n.inode buf f.offset
    · rw [hall]
      exact Or.inl (Int.natCast_nonneg _)
    · exact Or.inr herr

end OnFile

variable {r : Int}

theorem convert_nonneg (h : 0 ≤ r) : convertErrnoToLinux r = some r := if_pos h

theorem convert_errno (h : IsErrno r) : ∃ e, 0 < e ∧ convertErrnoToLinux r = some (-e) := by
  obtain ⟨hlow, hneg⟩ := h
  have htable : ∀ k : Fin 81, (errnoMap[k.val + 1]?.any fun e => 0 < e) = true := by decide
  have hfound := htable ⟨(-r).toNat - 1, by omega⟩
  have hindex : (-r).toNat - 1 + 1 = (-r).toNat := by omega
  rw [hindex] at hfound
  cases he : errnoMap[(-r).toNat]? with
  | none =>
    rw [he] at hfound
    cases hfound
  | some e =>
    rw [he] at hfound
    refine ⟨e, of_decide_eq_true hfound, ?_⟩
    rw [convertErrnoToLinux, if_neg (by omega), he]
    rfl

theorem convert_total (h : 0 ≤ r ∨ IsErrno r) : ∃ ret, convertErrnoToLinux r = some ret := by
  obtain hpos | herr := h
  · exact ⟨r, convert_nonneg hpos⟩
  · obtain ⟨e, -, hconvert⟩ := convert_errno herr
    exact ⟨-e, hconvert⟩

/-! ## Section 3: What each call does to the offset -/

section Calls

variable {fs}
variable {s : FileDescriptorTable σ} {fd : Int} {f : Fildes} {n : NodeCache}
variable {content : σ → Inode → List Byte}

variable (h : OnFile s fd f n) (hfs : ByteFiles (fs n.fsi) content)

include h

theorem OnFile.requested (offset whence : Int) :
    ∃ position, s.requested fs f offset whence = some position := by
  unfold FileDescriptorTable.requested
  split
  · exact ⟨_, rfl⟩
  split
  · exact ⟨_, rfl⟩
  split
  · rw [Vfs.stat, h.node]
    exact ⟨_, rfl⟩
  · exact ⟨_, rfl⟩

include hfs

theorem OnFile.linuxRead_cases (count : Nat) :
    ∃ r bytes, s.usrRead fs fd count = some (r, bytes) ∧
      ((0 ≤ r ∧ s.linuxRead fs true fd count =
          some (r, s.setOffset fd f (s.answer fs n (offT (f.offset + r))))) ∨
        (r < 0 ∧ ∃ e, 0 < e ∧ s.linuxRead fs true fd count = some (-e, s))) := by
  obtain ⟨r, bytes, hread, hr⟩ := h.read hfs count
  refine ⟨r, bytes, hread, ?_⟩
  rw [linuxRead, if_neg (by decide), hread, bind_some]
  obtain hpos | herr := hr
  · refine Or.inl ⟨hpos, ?_⟩
    simp only [convert_nonneg hpos, bind_some, if_pos hpos, h.lseek_cur]
    rfl
  · obtain ⟨e, he, hconvert⟩ := convert_errno herr
    refine Or.inr ⟨herr.2, e, he, ?_⟩
    simp only [hconvert, bind_some]
    rw [if_neg (by omega)]

theorem OnFile.linuxWrite_cases (buf : List Byte) :
    ∃ r s' ret, s.usrWrite fs fd buf = some (r, s') ∧ convertErrnoToLinux r = some ret ∧
      OnFile s' fd f n ∧
      ((ret = 0 ∧ s.linuxWrite fs true fd buf = some (ret, s')) ∨
        (ret ≠ 0 ∧ s.linuxWrite fs true fd buf =
          some (ret, s'.setOffset fd f (s'.answer fs n (offT (f.offset + ret)))))) := by
  obtain ⟨r, s', hwrite, hr, h'⟩ := h.write hfs buf
  obtain ⟨ret, hconvert⟩ := convert_total hr
  refine ⟨r, s', ret, hwrite, hconvert, h', ?_⟩
  rw [linuxWrite, if_neg (by decide), hwrite, bind_some]
  simp only [hconvert, bind_some]
  by_cases hzero : ret = 0
  · refine Or.inl ⟨hzero, ?_⟩
    rw [if_neg (not_not_intro hzero)]
  · refine Or.inr ⟨hzero, ?_⟩
    rw [if_pos hzero, h'.lseek_cur]
    rfl

theorem OnFile.linuxPread64_eq (count : Nat) (offset : Int) :
    ∃ ret, s.linuxPread64 fs true fd count offset =
      some (ret, s.setOffset fd f (s.answer fs n (s.answer fs n (offT f.offset)))) := by
  obtain ⟨r, bytes, hread, hr⟩ := (h.setOffset (s.answer fs n offset)).read hfs count
  obtain ⟨ret, hconvert⟩ := convert_total hr
  have hfirst : s.usrLseek fs fd 0 1 = some (s.answer fs n (offT f.offset),
      s.setOffset fd f (s.answer fs n (offT f.offset))) := by
    rw [h.lseek_cur, Int.add_zero]
  refine ⟨ret, ?_⟩
  rw [linuxPread64, if_neg (by decide), hfirst]
  simp only [bind_some, h.lseek_again, hread, hconvert, map_some]

theorem OnFile.linuxLseek_cases (offset whence : Int) :
    (s.requested fs f offset whence = some none ∧
      s.linuxLseek fs fd offset whence = some (-22, s)) ∨
    ∃ x ret, s.requested fs f offset whence = some (some x) ∧
      s.linuxLseek fs fd offset whence = some (ret, s.setOffset fd f (s.answer fs n x)) ∧
      ((0 ≤ s.answer fs n x ∧ ret = s.answer fs n x) ∨ (s.answer fs n x < 0 ∧ ret < 0)) := by
  obtain ⟨position, hposition⟩ := h.requested offset whence
  cases position with
  | none =>
    refine Or.inl ⟨hposition, ?_⟩
    rw [linuxLseek, usrLseek, h.entry]
    simp only [hposition, bind_some]
    rfl
  | some x =>
    have hseek : s.usrLseek fs fd offset whence =
        some (s.answer fs n x, s.setOffset fd f (s.answer fs n x)) := by
      rw [usrLseek, h.entry]
      simp only [hposition, bind_some, h.seek]
      rfl
    refine Or.inr ⟨x, ?_⟩
    rw [linuxLseek, hseek, bind_some]
    obtain hpos | herr := OnFile.answer hfs s x
    · refine ⟨_, hposition, ?_, Or.inl ⟨hpos, rfl⟩⟩
      simp only [convert_nonneg hpos, map_some]
    · obtain ⟨e, he, hconvert⟩ := convert_errno herr
      refine ⟨-e, hposition, ?_, Or.inr ⟨herr.2, by omega⟩⟩
      simp only [hconvert, map_some]

end Calls

/-! ## Section 4: When the offset is right -/

/-- The offset of `fd`. -/
def offsetOf (s : FileDescriptorTable σ) (fd : Int) : Option Int :=
  (s.fileMap fd).map Fildes.offset

/-- The position that `lseek` is meant to go to, in a file with these bytes. -/
def wanted (file : List Byte) (f : Fildes) (offset whence : Int) : Option Int :=
  if whence = 0 then some offset
  else if whence = 1 then some (f.offset + offset)
  else if whence = 2 then some (file.length + offset)
  else none

/-- What a call that returns `ret` is meant to do to the offset. -/
def OffsetRight (file : List Byte) (fd : Int) (f : Fildes) (s' : FileDescriptorTable σ)
    (ret : Int) : OffsetCall → Prop
  | .read _ _ => s'.offsetOf fd = some (if 0 ≤ ret then f.offset + ret else f.offset)
  | .write _ _ => s'.offsetOf fd = some (if 0 ≤ ret then f.offset + ret else f.offset)
  | .lseek offset whence =>
    if 0 ≤ ret then wanted file f offset whence = some ret ∧ s'.offsetOf fd = some ret
    else s'.offsetOf fd = some f.offset
  | .pread64 _ _ _ => s'.offsetOf fd = some f.offset

/-- The condition on the file system's answers under which a call is right. -/
def AnswersRight (file : List Byte) (s : FileDescriptorTable σ) (fd : Int) (f : Fildes)
    (n : NodeCache) : OffsetCall → Prop
  | .read mapped count => mapped = true → ∀ r bytes, s.usrRead fs fd count = some (r, bytes) →
      0 ≤ r → s.answer fs n (offT (f.offset + r)) = f.offset + r
  | .write mapped buf => mapped = true → ∀ r s' ret, s.usrWrite fs fd buf = some (r, s') →
      convertErrnoToLinux r = some ret → ret ≠ 0 →
      s'.answer fs n (offT (f.offset + ret)) = if 0 < ret then f.offset + ret else f.offset
  | .lseek offset whence => ∀ x, s.requested fs f offset whence = some (some x) →
      if 0 ≤ s.answer fs n x then wanted file f offset whence = some (s.answer fs n x)
      else s.answer fs n x = f.offset
  | .pread64 mapped _ _ => mapped = true →
      s.answer fs n (s.answer fs n (offT f.offset)) = f.offset

section Right

variable {fs}
variable {s : FileDescriptorTable σ} {fd : Int} {f : Fildes} {n : NodeCache}
variable {content : σ → Inode → List Byte}

theorem OnFile.offsetOf (h : OnFile s fd f n) : s.offsetOf fd = some f.offset := by
  rw [FileDescriptorTable.offsetOf, h.entry]
  rfl

theorem offsetOf_setOffset (s : FileDescriptorTable σ) (fd : Int) (f : Fildes) (x y : Int) :
    (s.setOffset fd f x).offsetOf fd = some y ↔ x = y := by
  have hself : (s.setOffset fd f x).fileMap fd = some { f with offset := x } :=
    Function.update_self ..
  rw [FileDescriptorTable.offsetOf, hself]
  exact Option.some_inj

/-- A call returns, the descriptor stays on its file, and the offset is right
    exactly if the answers are. -/
def Settled (fs : Nat → InodeOperations σ) (content : σ → Inode → List Byte)
    (s : FileDescriptorTable σ) (fd : Int) (f : Fildes) (n : NodeCache) (call : OffsetCall) : Prop :=
  ∃ ret s' f', s.perform fs fd call = some (ret, s') ∧ OnFile s' fd f' n ∧
    (OffsetRight (content s.vfs.world n.inode) fd f s' ret call ↔
      AnswersRight fs (content s.vfs.world n.inode) s fd f n call)

variable (h : OnFile s fd f n) (hfs : ByteFiles (fs n.fsi) content)

include h hfs

theorem OnFile.read_settled (mapped : Bool) (count : Nat) :
    Settled fs content s fd f n (.read mapped count) := by
  cases mapped with
  | false =>
    refine ⟨-linuxEfault, s, f, rfl, h, iff_of_true ?_ ?_⟩
    · exact h.offsetOf
    · intro hmapped
      cases hmapped
  | true =>
    obtain ⟨r, bytes, hread, ⟨hpos, heq⟩ | ⟨hneg, e, he, heq⟩⟩ := h.linuxRead_cases hfs count
    · refine ⟨r, _, _, heq, h.setOffset _, ?_⟩
      show _ = _ ↔ _
      rw [if_pos hpos, offsetOf_setOffset]
      constructor
      · intro hanswer _ r' bytes' hread' _
        obtain ⟨rfl, -⟩ := Prod.mk.inj (mem_unique hread hread')
        exact hanswer
      · intro hall
        exact hall rfl r bytes hread hpos
    · refine ⟨-e, s, f, heq, h, iff_of_true ?_ ?_⟩
      · show _ = some (if _ then _ else _)
        rw [if_neg (by omega)]
        exact h.offsetOf
      · intro _ r' bytes' hread' hpos
        obtain ⟨rfl, -⟩ := Prod.mk.inj (mem_unique hread hread')
        omega

theorem OnFile.write_settled (mapped : Bool) (buf : List Byte) :
    Settled fs content s fd f n (.write mapped buf) := by
  cases mapped with
  | false =>
    refine ⟨-linuxEfault, s, f, rfl, h, iff_of_true ?_ ?_⟩
    · exact h.offsetOf
    · intro hmapped
      cases hmapped
  | true =>
    obtain ⟨r, s', ret, hwrite, hconvert, h', hcases⟩ := h.linuxWrite_cases hfs buf
    -- the result that the condition speaks of is this one
    have hsame : ∀ r' s'' ret', s.usrWrite fs fd buf = some (r', s'') →
        convertErrnoToLinux r' = some ret' → s'' = s' ∧ ret' = ret := by
      intro r' s'' ret' hwrite' hconvert'
      obtain ⟨rfl, rfl⟩ := Prod.mk.inj (mem_unique hwrite hwrite')
      exact ⟨rfl, (mem_unique hconvert hconvert').symm⟩
    obtain ⟨hzero, heq⟩ | ⟨hne, heq⟩ := hcases
    · refine ⟨ret, s', f, heq, h', iff_of_true ?_ ?_⟩
      · show _ = some (if _ then _ else _)
        rw [hzero, if_pos (Int.le_refl 0), Int.add_zero]
        exact h'.offsetOf
      · intro _ r' s'' ret' hwrite' hconvert' hne
        exact absurd ((hsame r' s'' ret' hwrite' hconvert').2.trans hzero) hne
    · refine ⟨ret, _, _, heq, h'.setOffset _, ?_⟩
      have hpos : (if 0 ≤ ret then f.offset + ret else f.offset) =
          if 0 < ret then f.offset + ret else f.offset := by
        by_cases hlt : 0 < ret
        · rw [if_pos hlt, if_pos (Int.le_of_lt hlt)]
        · rw [if_neg hlt, if_neg (by omega)]
      show _ = some (if _ then _ else _) ↔ _
      rw [hpos, offsetOf_setOffset]
      constructor
      · intro hanswer _ r' s'' ret' hwrite' hconvert' _
        obtain ⟨rfl, rfl⟩ := hsame r' s'' ret' hwrite' hconvert'
        exact hanswer
      · intro hall
        exact hall rfl r s' ret hwrite hconvert hne

theorem OnFile.lseek_settled (offset whence : Int) :
    Settled fs content s fd f n (.lseek offset whence) := by
  obtain ⟨hnone, heq⟩ | ⟨x, ret, hx, heq, hcases⟩ := h.linuxLseek_cases hfs offset whence
  · refine ⟨-22, s, f, heq, h, iff_of_true ?_ ?_⟩
    · exact h.offsetOf
    · intro x hx
      cases hnone.symm.trans hx
  · refine ⟨ret, _, _, heq, h.setOffset _, ?_⟩
    have hall : AnswersRight fs (content s.vfs.world n.inode) s fd f n (.lseek offset whence) ↔
        if 0 ≤ s.answer fs n x then
          wanted (content s.vfs.world n.inode) f offset whence = some (s.answer fs n x)
        else s.answer fs n x = f.offset := by
      constructor
      · intro hright
        exact hright x hx
      · intro hright x' hx'
        obtain rfl := Option.some.inj (mem_unique hx hx')
        exact hright
    rw [hall, OffsetRight]
    obtain ⟨hpos, rfl⟩ | ⟨hneg, hret⟩ := hcases
    · rw [if_pos hpos, if_pos hpos, offsetOf_setOffset]
      exact and_iff_left rfl
    · rw [if_neg (by omega), if_neg (by omega), offsetOf_setOffset]

theorem OnFile.pread64_settled (mapped : Bool) (count : Nat) (offset : Int) :
    Settled fs content s fd f n (.pread64 mapped count offset) := by
  cases mapped with
  | false =>
    refine ⟨-linuxEfault, s, f, rfl, h, iff_of_true ?_ ?_⟩
    · exact h.offsetOf
    · intro hmapped
      cases hmapped
  | true =>
    obtain ⟨ret, heq⟩ := h.linuxPread64_eq hfs count offset
    refine ⟨ret, _, _, heq, h.setOffset _, ?_⟩
    rw [OffsetRight, offsetOf_setOffset]
    exact ⟨fun hanswer _ => hanswer, fun hall => hall rfl⟩

theorem OnFile.settled (call : OffsetCall) : Settled fs content s fd f n call := by
  cases call with
  | read mapped count => exact h.read_settled hfs mapped count
  | write mapped buf => exact h.write_settled hfs mapped buf
  | lseek offset whence => exact h.lseek_settled hfs offset whence
  | pread64 mapped count offset => exact h.pread64_settled hfs mapped count offset

end Right

/-- Runs of calls on a descriptor of the file `n`. -/
def offsetCalls (fd : Int) (n : NodeCache) : System (FileDescriptorTable σ) OffsetCall where
  init := fun s => ∃ f, OnFile s fd f n
  step := fun s call s' => ∃ ret, s.perform fs fd call = some (ret, s')

theorem onFile_of_reachable {s : FileDescriptorTable σ} {fd : Int} {n : NodeCache}
    {content : σ → Inode → List Byte} (hfs : ByteFiles (fs n.fsi) content)
    (h : (offsetCalls fs fd n).Reachable s) : ∃ f, OnFile s fd f n := by
  refine h.invariant (fun s hinit => hinit) ?_
  intro s call s' hon hstep
  obtain ⟨f, hf⟩ := hon
  obtain ⟨ret, hperform⟩ := hstep
  obtain ⟨ret', s'', f', hperform', hf', -⟩ := hf.settled hfs call
  obtain ⟨-, rfl⟩ := Prod.mk.inj (mem_unique hperform' hperform)
  exact ⟨f', hf'⟩

/-- In every run of calls on a descriptor of a regular file, the next call
    returns, and it does to the offset what it is meant to do exactly if the
    answers of `Seek` are right. -/
theorem offset_right_iff {s : FileDescriptorTable σ} {fd : Int} {n : NodeCache}
    {content : σ → Inode → List Byte} (hfs : ByteFiles (fs n.fsi) content)
    (h : (offsetCalls fs fd n).Reachable s) :
    ∃ f, s.fileMap fd = some f ∧ ∀ call, ∃ ret s', s.perform fs fd call = some (ret, s') ∧
      (OffsetRight (content s.vfs.world n.inode) fd f s' ret call ↔
        AnswersRight fs (content s.vfs.world n.inode) s fd f n call) := by
  obtain ⟨f, hf⟩ := onFile_of_reachable fs hfs h
  refine ⟨f, hf.entry, ?_⟩
  intro call
  obtain ⟨ret, s', f', hperform, -, hiff⟩ := hf.settled hfs call
  exact ⟨ret, s', hperform, hiff⟩

/-- A file system of one file, with or without `Seek`. -/
def memory (seek : Option (List Byte → Inode → Int → Int)) : InodeOperations (List Byte) where
  read := some fun w _ size off =>
    if 0 ≤ off then
      (((min size (w.length - off.toNat) : Nat) : Int), readAt w off.toNat size)
    else (-einval, [])
  write := some fun w _ buf off =>
    if 0 ≤ off then (buf.length, writeAt 0 w off.toNat buf) else (-einval, w)
  seek := seek

theorem byteFiles_memory {seek : Option (List Byte → Inode → Int → Int)}
    (hseek : ∀ op, seek = some op → ∀ w i x, -82 < op w i x) :
    ByteFiles (memory seek) (fun w _ => w) where
  read := by
    intro op hop w i size off
    cases hop
    by_cases hoff : 0 ≤ off
    · exact Or.inl ⟨hoff, if_pos hoff⟩
    · refine Or.inr ?_
      simp only [if_neg hoff]
      exact ⟨by decide, by decide⟩
  write := by
    intro op hop w i buf off
    cases hop
    by_cases hoff : 0 ≤ off
    · refine Or.inl ⟨hoff, ?_⟩
      simp only [if_pos hoff]
      exact ⟨trivial, trivial⟩
    · refine Or.inr ?_
      simp only [if_neg hoff]
      exact ⟨by decide, by decide⟩
  seek := hseek

/-- The node of a regular file. -/
def regularNode : NodeCache := ⟨⟨0, 0, sIfreg⟩, 0, false, [], [], []⟩

/-- Descriptor 3 at the beginning of a file of four bytes. -/
def fourByteTable : FileDescriptorTable (List Byte) where
  vfs := ⟨.single regularNode, [1, 2, 3, 4]⟩
  fileMap := fun fd => if fd = 3 then some ⟨0, 0, 0, 0⟩ else none

theorem reachable_fourByteTable (fs : Nat → InodeOperations (List Byte)) :
    (offsetCalls fs 3 regularNode).Reachable fourByteTable :=
  .init ⟨⟨0, 0, 0, 0⟩, rfl, rfl, by decide, rfl⟩

/-- The theorem on a file system that answers every position with itself: a
    read of two bytes moves the offset to 2. -/
theorem offset_right_fourByteTable :
    ∃ ret s', fourByteTable.perform (fun _ => memory (some fun _ _ x => max 0 x)) 3
        (.read true 2) = some (ret, s') ∧
      OffsetRight [1, 2, 3, 4] 3 ⟨0, 0, 0, 0⟩ s' ret (.read true 2) := by
  have hfs : ByteFiles (memory (some fun _ _ x => max 0 x)) (fun w _ => w) :=
    byteFiles_memory (fun op hop w i x => by
      cases hop
      show -82 < max 0 x
      omega)
  obtain ⟨f, hf, hcalls⟩ := offset_right_iff (fun _ => memory (some fun _ _ x => max 0 x)) hfs
    (reachable_fourByteTable _)
  obtain ⟨ret, s', hperform, hiff⟩ := hcalls (.read true 2)
  cases hf
  refine ⟨ret, s', hperform, hiff.mpr ?_⟩
  intro _ r bytes hread _
  cases hread
  decide

/-- Without `Seek`, a read of two bytes moves the offset to `-ENOTSUP`. -/
theorem read_loses_offset :
    ByteFiles (memory none) (fun w _ => w) ∧
      (offsetCalls (fun _ => memory none) 3 regularNode).Reachable fourByteTable ∧
      ∃ s', fourByteTable.perform (fun _ => memory none) 3 (.read true 2) = some (2, s') ∧
        s'.offsetOf 3 = some (-61) ∧
        ¬OffsetRight [1, 2, 3, 4] 3 ⟨0, 0, 0, 0⟩ s' 2 (.read true 2) := by
  refine ⟨byteFiles_memory (fun op hop => by cases hop), reachable_fourByteTable _, _, rfl, rfl, ?_⟩
  show ¬(some (-61 : Int) = some 2)
  decide

end FileDescriptorTable

end Fennix.Fs
