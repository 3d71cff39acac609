import Fennix.Fs.UstarEntries
import Fennix.Fs.Vfs

/-! # Modes in an archive

    `USTAR::Create` and `USTAR::Stat` of `Kernel/fs/ustar.cpp`, `StringToInt` of
    `ustar.hpp`. The mode of a file is kept as text in its header: `Create` has
    to turn the bits into a type flag and octal digits, `Stat` to turn these
    into bits again.

    Both test the permission bits in one chain of `else if`, so one of them at
    most is taken over. `StringToInt` reads the digits as a decimal number,
    which for a single bit has the same highest bit. `Create` tests the file
    types, which share bits, one after the other as well.
-/

namespace Fennix.Fs.Ustar

open Bytes Path
open BitVec (ofNat)

/-! ## Section 1: The bits -/

/-- `S_IFCHR`. -/
def sIfchr : BitVec 32 := 0o020000#32

/-- `S_IFBLK`. -/
def sIfblk : BitVec 32 := 0o060000#32

/-- `S_IFIFO`. -/
def sIfifo : BitVec 32 := 0o010000#32

/-- `enum TypeFlag`. -/
inductive TypeFlag where
  | aregtype
  | regtype
  | lnktype
  | symtype
  | chrtype
  | blktype
  | dirtype
  | fifotype
  | conttype
  deriving DecidableEq, Repr

/-- The character in the header. -/
def TypeFlag.char : TypeFlag → Byte
  | .aregtype => 0
  | .regtype => 48
  | .lnktype => 49
  | .symtype => 50
  | .chrtype => 51
  | .blktype => 52
  | .dirtype => 53
  | .fifotype => 54
  | .conttype => 55

/-- The twelve permission bits, from `S_ISUID` to `S_IXOTH` and from `TSUID` to
    `TOEXEC`, in the order in which they are tested. The two enumerations have
    the same values. -/
def permissionBits : List (BitVec 32) :=
  [0o4000#32, 0o2000#32, 0o1000#32, 0o400#32, 0o200#32, 0o100#32, 0o40#32, 0o20#32, 0o10#32,
    0o4#32, 0o2#32, 0o1#32]

/-- The chain `if (mode & TSUID) … else if (mode & TSGID) …`: the first bit that
    is set, alone. -/
def firstBit (mode : BitVec 32) : BitVec 32 :=
  (permissionBits.find? fun bit => mode &&& bit ≠ 0).getD 0

/-- `switch (header->typeflag[0])` of `Stat` and of the `SetMode` of
    `ReadArchive`. -/
def typeBits (typeflag : Byte) : BitVec 32 :=
  if typeflag = TypeFlag.aregtype.char ∨ typeflag = TypeFlag.regtype.char then sIfreg
  -- "Hard link not implemented"
  else if typeflag = TypeFlag.lnktype.char then sIflnk
  else if typeflag = TypeFlag.symtype.char then sIflnk
  else if typeflag = TypeFlag.chrtype.char then sIfchr
  else if typeflag = TypeFlag.blktype.char then sIfblk
  else if typeflag = TypeFlag.dirtype.char then sIfdir
  else if typeflag = TypeFlag.fifotype.char then sIfifo
  -- `CONTTYPE` falls through to "Unknown type"
  else 0

/-- An `int`, if it is one. -/
def toInt (x : Int) : Option Int := if -2 ^ 31 ≤ x ∧ x < 2 ^ 31 then some x else none

/-- `StringToInt` on the bytes of a string, with `ret` so far; `none` if the
    `int` overflows. -/
def stringToInt : List Byte → Int → Option Int
  | [], ret => some ret
  | c :: string, ret =>
    (toInt (ret * 10)).bind fun ten =>
      (toInt (ten + c.toInt)).bind fun sum =>
        (toInt (sum - 48)).bind (stringToInt string)

/-! ## Section 2: `Stat` -/

/-- Where the fields are. -/
def modeOffset : Nat := 100

def uidOffset : Nat := 108

def gidOffset : Nat := 116

def mtimeOffset : Nat := 136

def typeflagOffset : Nat := 156

def devMajOffset : Nat := 329

def devMinOffset : Nat := 337

/-- What the calls use of `struct USTARInode`: the memory from its header on. -/
structure HeaderNode where
  header : Nat → Byte
  deleted : Bool

/-- `struct kstat`. -/
structure KStat where
  device : BitVec 64 := 0
  index : BitVec 64 := 0
  mode : BitVec 32 := 0
  hardLinks : BitVec 32 := 0
  userID : BitVec 32 := 0
  groupID : BitVec 32 := 0
  rawDevice : BitVec 64 := 0
  size : BitVec 64 := 0
  accessTime : BitVec 64 := 0
  modifyTime : BitVec 64 := 0
  changeTime : BitVec 64 := 0
  blockSize : BitVec 64 := 0
  blocks : BitVec 64 := 0
  attributes : BitVec 32 := 0

/-- `kstat::MakeDevice`. -/
def makeDevice (major minor : BitVec 32) : BitVec 64 :=
  (((major &&& 0xFFF#32) <<< 8) ||| (minor &&& 0xFF#32)).signExtend 64

/-- `GetSize` of the string at an offset of the header. -/
def number (header : Nat → Byte) (offset : Nat) : Option (BitVec 32) :=
  (stringAt header offset).bind fun text => getSize (text ++ [0]) 0

/-- The bits that `Stat` adds to `Mode`. -/
def headerMode (header : Nat → Byte) : Option (BitVec 32) :=
  (stringAt header modeOffset).bind fun text =>
    (stringToInt text 0).map fun hdrMode =>
      firstBit (BitVec.ofInt 32 hdrMode) ||| typeBits (header typeflagOffset)

/-- `USTAR::Stat`: what it returns and the `kstat` afterwards. -/
def stat (files : Nat → Option HeaderNode) (deviceID : BitVec 64) (index : Nat) (st : KStat) :
    Option (Int × KStat) :=
  (files index).bind fun node =>
    if node.deleted then some (-enoent, st)
    else
      (number node.header sizeOffset).bind fun fileSize =>
      (number node.header uidOffset).bind fun uid =>
      (number node.header gidOffset).bind fun gid =>
      (number node.header devMajOffset).bind fun major =>
      (number node.header devMinOffset).bind fun minor =>
      (number node.header mtimeOffset).bind fun mtime =>
      (headerMode node.header).map fun mode =>
        (0, { device := deviceID
              index := ofNat 64 index
              mode := st.mode ||| mode
              hardLinks := 1
              userID := uid
              groupID := gid
              rawDevice := makeDevice major minor
              size := fileSize.setWidth 64
              accessTime := mtime.setWidth 64
              modifyTime := mtime.setWidth 64
              changeTime := mtime.setWidth 64
              blockSize := 512
              blocks := (fileSize.setWidth 64 + 511) / 512
              attributes := 0 })

/-! ## Section 3: `Create` -/

/-- The type flag that `SetMode` of `Create` stores; none is stored if no test
    holds, and the header is zero then. -/
def typeflagOf (mode : BitVec 32) : TypeFlag :=
  if mode &&& sIfreg ≠ 0 then .regtype
  else if mode &&& sIflnk ≠ 0 then .symtype
  else if mode &&& sIfchr ≠ 0 then .chrtype
  else if mode &&& sIfblk ≠ 0 then .blktype
  else if mode &&& sIfdir ≠ 0 then .dirtype
  else if mode &&& sIfifo ≠ 0 then .fifotype
  else .aregtype

/-- The digits of `%07o`, for numbers that have no more than seven. -/
def sevenDigits (n : Nat) : List Nat := (List.range 7).reverse.map fun i => n / 8 ^ i % 8

/-- The text of octal digits. -/
def digitText (digits : List Nat) : List Byte := digits.map fun d => ofNat 8 (48 + d)

/-- Bytes put over a part of memory. -/
def putAt (offset : Nat) (bytes : List Byte) (block : Nat → Byte) : Nat → Byte := fun i =>
  if offset ≤ i ∧ i < offset + bytes.length then (bytes[i - offset]?).getD 0 else block i

/-- The header that `Create` makes: `new FileHeader{}`, the mode, and the
    strings copied to `name`, `signature` and `version`. `beyond` is the memory
    that follows. -/
def createHeader (mode : BitVec 32) (basename : List Byte) (beyond : Nat → Byte) : Nat → Byte :=
  putAt (signatureOffset + 6) [48, 48] <|
  putAt signatureOffset [117, 115, 116, 97, 114, 0] <|
  putAt 0 (basename.take nameSize) <|
  putAt modeOffset (digitText (sevenDigits (firstBit mode).toNat) ++ [0]) <|
  putAt typeflagOffset [(typeflagOf mode).char] fun i => if i < headerSize then 0 else beyond i

/-- What `Create` uses of `class USTAR`, with the children and the parent of a
    node beside `Files`. -/
structure Store where
  deviceID : BitVec 64
  files : Nat → Option HeaderNode
  children : Nat → List Nat
  parent : Nat → Option Nat
  nextInode : Nat

/-- `USTAR::Create`: the inode and the nodes afterwards. `none` if the name has
    no segment (there is no string to copy then) or the inode number is taken,
    which is asserted not to be. -/
def create (store : Store) (parent : Option Nat) (name : List Byte) (mode : BitVec 32)
    (beyond : Nat → Byte) : Option (Inode × Store) :=
  let path : Str := name.map fun b => Char.ofNat b.toNat
  if segments path = [] ∨ (store.files store.nextInode).isSome then none
  else
    let index := store.nextInode
    -- the string that is copied goes on to the end of `Name`
    let header := createHeader mode (name.drop (dirname path).length) beyond
    some (⟨store.deviceID.toNat, index, mode⟩,
      { store with
        files := Function.update store.files index (some ⟨header, false⟩)
        children :=
          match parent with
          | some p => Function.update store.children p (store.children p ++ [index])
          | none => store.children
        parent := Function.update store.parent index parent
        nextInode := index + 1 })

/-! ## Section 4: Reading numbers -/

/-- The number that digits stand for if they are taken for decimal ones. -/
def decimal (digits : List Nat) : Nat := Nat.ofDigits 10 digits.reverse

theorem decimal_cons (d : Nat) (digits : List Nat) :
    decimal (d :: digits) = d * 10 ^ digits.length + decimal digits := by
  rw [decimal, List.reverse_cons, Nat.ofDigits_append, Nat.ofDigits_singleton,
    List.length_reverse, Nat.mul_comm, Nat.add_comm]
  rfl

/-- The octal digits of a number, taken for decimal ones. -/
def misread (n : Nat) : Nat := Nat.ofDigits 10 (Nat.digits 8 n)

variable {digits : List Nat} {header : Nat → Byte} {permissions : BitVec 32}

theorem decimal_eq_misread (h : ∀ d ∈ digits, d < 8) : decimal digits = misread (octal digits) := by
  have hlittle : ∀ l : List Nat, (∀ d ∈ l, d < 8) →
      Nat.ofDigits 10 l = misread (Nat.ofDigits 8 l) := by
    intro l
    induction l with
    | nil => simp [misread]
    | cons d l ih =>
      intro hl
      have hrest := ih fun x hx => hl x (List.mem_cons_of_mem _ hx)
      rw [Nat.ofDigits_cons, Nat.ofDigits_cons]
      by_cases hzero : d = 0 ∧ Nat.ofDigits 8 l = 0
      · rw [hrest, hzero.1, hzero.2]
        simp [misread]
      · rw [misread, Nat.digits_add 8 (by decide) _ _ (hl d List.mem_cons_self) (by omega),
          Nat.ofDigits_cons, hrest, misread]
  exact hlittle digits.reverse fun d hd => h d (List.mem_reverse.mp hd)

theorem toInt_eq {x : Int} (h : 0 ≤ x) (hlt : x < 2 ^ 31) : toInt x = some x :=
  if_pos ⟨by omega, hlt⟩

theorem digit_toInt {d : Nat} (h : d < 8) : (ofNat 8 (48 + d)).toInt = 48 + d := by
  have hall : ∀ d : Fin 8, (ofNat 8 (48 + d)).toInt = 48 + (d : Nat) := by decide
  exact hall ⟨d, h⟩

theorem stringToInt_digits (h : ∀ d ∈ digits, d < 8) (ret : Nat)
    (hret : (ret + 1) * 10 ^ digits.length ≤ 10 ^ 7) :
    stringToInt (digitText digits) ret =
      some ((ret * 10 ^ digits.length + decimal digits : Nat) : Int) := by
  induction digits generalizing ret with
  | nil => simp [digitText, stringToInt, decimal]
  | cons d digits ih =>
    have hd := h d List.mem_cons_self
    have hpow : 1 ≤ 10 ^ digits.length := Nat.one_le_pow _ _ (by decide)
    rw [List.length_cons, Nat.pow_succ, Nat.mul_comm _ 10, ← Nat.mul_assoc] at hret
    have hnext : (ret * 10 + d + 1) * 10 ^ digits.length ≤ 10 ^ 7 :=
      (Nat.mul_le_mul_right _ (by omega)).trans hret
    -- no step of the sum leaves the range of an `int`
    have hsmall : (ret + 1) * 10 ≤ 10 ^ 7 := (Nat.le_mul_of_pos_right _ hpow).trans hret
    rw [digitText, List.map_cons, stringToInt, toInt_eq (by omega) (by omega), Option.bind_some,
      digit_toInt hd, toInt_eq (by omega) (by omega), Option.bind_some,
      toInt_eq (by omega) (by omega), Option.bind_some]
    have hvalue : (ret : Int) * 10 + (48 + d) - 48 = (ret * 10 + d : Nat) := by
      push_cast
      omega
    rw [hvalue]
    refine (ih (fun x hx => h x (List.mem_cons_of_mem _ hx)) _ hnext).trans ?_
    rw [decimal_cons, List.length_cons, Nat.pow_succ]
    congr 2
    ring

theorem cstring_of_zero {memory : Nat → Byte} {n : Nat} :
    ∀ {address fuel : Nat}, memory (address + n) = 0 → n < fuel →
      ∃ text, cstring memory fuel address = some text := by
  induction n with
  | zero =>
    intro address fuel hzero hfuel
    obtain ⟨fuel, rfl⟩ : ∃ m, fuel = m + 1 := ⟨fuel - 1, by omega⟩
    rw [Nat.add_zero] at hzero
    exact ⟨[], by rw [cstring, if_pos hzero]⟩
  | succ n ih =>
    intro address fuel hzero hfuel
    obtain ⟨fuel, rfl⟩ : ∃ m, fuel = m + 1 := ⟨fuel - 1, by omega⟩
    by_cases hend : memory address = 0
    · exact ⟨[], by rw [cstring, if_pos hend]⟩
    · rw [← Nat.add_assoc, Nat.add_right_comm] at hzero
      obtain ⟨text, htext⟩ := ih hzero (Nat.lt_of_succ_lt_succ hfuel)
      exact ⟨memory address :: text, by rw [cstring, if_neg hend, htext]; rfl⟩

theorem getSize_of_terminated (text : List Byte) (ret : BitVec 32) :
    ∃ size, getSize (text ++ [0]) ret = some size := by
  induction text generalizing ret with
  | nil => exact ⟨ret, rfl⟩
  | cons c text ih =>
    rw [List.cons_append, getSize]
    split
    · exact ⟨ret, rfl⟩
    · exact ih _

theorem number_of_zero {offset : Nat} (hzero : header prefixOffset = 0)
    (hle : offset ≤ prefixOffset) : ∃ n, number header offset = some n := by
  have hspace : prefixOffset < 2 ^ 64 := by decide
  obtain ⟨text, htext⟩ : ∃ text, stringAt header offset = some text := by
    rw [← Nat.add_sub_cancel' hle] at hzero
    exact cstring_of_zero hzero (by omega)
  obtain ⟨n, hn⟩ := getSize_of_terminated text 0
  exact ⟨n, by rw [number, htext]; exact hn⟩

/-! ## Section 5: Bits -/

/-- No permission bit is set, or one. -/
def SingleBit (permissions : BitVec 32) : Prop :=
  permissions = 0 ∨ permissions ∈ permissionBits

instance (permissions : BitVec 32) : Decidable (SingleBit permissions) :=
  inferInstanceAs (Decidable (_ ∨ _))

/-- All permission bits. -/
def permissionMask : BitVec 32 := 0o7777#32

theorem singleBit_firstBit (mode : BitVec 32) : SingleBit (firstBit mode) := by
  rw [firstBit]
  cases hfind : permissionBits.find? fun bit => mode &&& bit ≠ 0 with
  | none => exact .inl rfl
  | some bit => exact .inr (List.mem_of_find?_eq_some hfind)

/-- What holds of no bit and of each bit. (A `∀` over bit vectors would be
    decided by going through all of them.) -/
theorem SingleBit.of_all {P : BitVec 32 → Prop} [DecidablePred P] (h : SingleBit permissions)
    (hall : ((0 :: permissionBits).all fun bit => P bit) = true) : P permissions := by
  rw [List.all_eq_true] at hall
  simpa using hall permissions (List.mem_cons.mpr h)

theorem sevenDigits_lt (n : Nat) : ∀ d ∈ sevenDigits n, d < 8 := by
  intro d hd
  obtain ⟨i, -, rfl⟩ := List.mem_map.mp hd
  exact Nat.mod_lt _ (by decide)

theorem octal_sevenDigits (h : SingleBit permissions) :
    octal (sevenDigits permissions.toNat) = permissions.toNat := by
  apply h.of_all (P := fun bit => octal (sevenDigits bit.toNat) = bit.toNat)
  decide +kernel

theorem firstBit_misread (h : SingleBit permissions) :
    firstBit (ofNat 32 (misread permissions.toNat)) = permissions := by
  rw [← octal_sevenDigits h, ← decimal_eq_misread (sevenDigits_lt _)]
  apply h.of_all (P := fun bit =>
    firstBit (ofNat 32 (decimal (sevenDigits bit.toNat))) = bit)
  decide +kernel

theorem firstBit_single (h : SingleBit permissions) : firstBit permissions = permissions := by
  apply h.of_all (P := fun bit => firstBit bit = bit)
  decide +kernel

theorem single_and_mask (h : SingleBit permissions) :
    permissions &&& permissionMask = permissions := by
  apply h.of_all (P := fun bit => bit &&& permissionMask = bit)
  decide +kernel

theorem firstBit_and_mask (mode : BitVec 32) : firstBit (mode &&& permissionMask) = firstBit mode := by
  have hfind : (permissionBits.find? fun bit => mode &&& permissionMask &&& bit ≠ 0) =
      permissionBits.find? fun bit => mode &&& bit ≠ 0 := by
    refine List.find?_congr fun bit hbit => ?_
    rw [BitVec.and_assoc, BitVec.and_comm permissionMask, single_and_mask (.inr hbit)]
  rw [firstBit, firstBit, hfind]

theorem firstBit_eq_iff (mode : BitVec 32) :
    firstBit mode = mode &&& permissionMask ↔ SingleBit (mode &&& permissionMask) := by
  constructor
  · intro h
    rw [← h]
    exact singleBit_firstBit mode
  · intro h
    rw [← firstBit_and_mask, firstBit_single h]

theorem or_eq_or_iff {p p' t t' : BitVec 32} (hp : p &&& permissionMask = p)
    (hp' : p' &&& permissionMask = p') (ht : t &&& permissionMask = 0)
    (ht' : t' &&& permissionMask = 0) : p ||| t = p' ||| t' ↔ p = p' ∧ t = t' := by
  -- each part is what a mask leaves of the whole
  have hlow : ∀ {p t : BitVec 32}, p &&& permissionMask = p → t &&& permissionMask = 0 →
      (p ||| t) &&& permissionMask = p := by
    intro p t hp ht
    rw [BitVec.and_or_distrib_right, hp, ht]
    simp
  have hhigh : ∀ {p t : BitVec 32}, p &&& permissionMask = p → t &&& permissionMask = 0 →
      (p ||| t) &&& ~~~permissionMask = t := by
    intro p t hp ht
    have hpart : t &&& ~~~permissionMask = t := by
      calc t &&& ~~~permissionMask = t &&& permissionMask ||| t &&& ~~~permissionMask := by
            rw [ht]
            simp
        _ = t := by rw [← BitVec.and_or_distrib_left, BitVec.or_not_self, BitVec.and_allOnes]
    rw [BitVec.and_or_distrib_right, hpart, ← hp, BitVec.and_assoc, BitVec.and_not_self]
    simp
  constructor
  · intro h
    have hfirst := congrArg (· &&& permissionMask) h
    have hsecond := congrArg (· &&& ~~~permissionMask) h
    simp only [hlow hp ht, hlow hp' ht', hhigh hp ht, hhigh hp' ht'] at hfirst hsecond
    exact ⟨hfirst, hsecond⟩
  · rintro ⟨rfl, rfl⟩
    rfl

/-- The file type of an entry, as `st_mode` has it. A contiguous file is a
    regular one; a hard link is taken for a symbolic one, as both decoders do. -/
def TypeFlag.fileType : TypeFlag → BitVec 32
  | .aregtype => sIfreg
  | .regtype => sIfreg
  | .lnktype => sIflnk
  | .symtype => sIflnk
  | .chrtype => sIfchr
  | .blktype => sIfblk
  | .dirtype => sIfdir
  | .fifotype => sIfifo
  | .conttype => sIfreg

theorem typeBits_eq_iff (flag : TypeFlag) :
    typeBits flag.char = flag.fileType ↔ flag ≠ .conttype := by
  cases flag <;> decide

theorem typeBits_and_mask (flag : TypeFlag) : typeBits flag.char &&& permissionMask = 0 := by
  cases flag <;> decide

theorem fileType_and_mask (flag : TypeFlag) : flag.fileType &&& permissionMask = 0 := by
  cases flag <;> decide

/-- The sixteen file types. -/
def fileTypes : List (BitVec 32) := (List.range 16).map fun k => ofNat 32 (k * 0o10000)

theorem and_sIfmt_mem (mode : BitVec 32) : mode &&& sIfmt ∈ fileTypes := by
  have hbits : sIfmt = BitVec.twoPow 32 15 ||| BitVec.twoPow 32 14 ||| BitVec.twoPow 32 13 |||
      BitVec.twoPow 32 12 := by decide +kernel
  rw [hbits]
  simp only [BitVec.and_or_distrib_left, BitVec.and_twoPow]
  split_ifs <;> decide +kernel

theorem typeflagOf_and_sIfmt (mode : BitVec 32) : typeflagOf (mode &&& sIfmt) = typeflagOf mode := by
  have hreg : sIfmt &&& sIfreg = sIfreg := by decide
  have hlnk : sIfmt &&& sIflnk = sIflnk := by decide
  have hchr : sIfmt &&& sIfchr = sIfchr := by decide
  have hblk : sIfmt &&& sIfblk = sIfblk := by decide
  have hdir : sIfmt &&& sIfdir = sIfdir := by decide
  have hfifo : sIfmt &&& sIfifo = sIfifo := by decide
  simp only [typeflagOf, BitVec.and_assoc, hreg, hlnk, hchr, hblk, hdir, hfifo]

theorem typeBits_typeflagOf_iff (mode : BitVec 32) :
    typeBits (typeflagOf mode).char = mode &&& sIfmt ↔
      mode &&& sIfmt = sIfreg ∨ mode &&& sIfmt = sIfifo := by
  have hall : (fileTypes.all fun t =>
      typeBits (typeflagOf t).char = t ↔ t = sIfreg ∨ t = sIfifo) = true := by decide +kernel
  rw [List.all_eq_true] at hall
  rw [← typeflagOf_and_sIfmt]
  exact of_decide_eq_true (hall _ (and_sIfmt_mem mode))

/-! ## Section 6: The reported mode -/

theorem stat_eq {files : Nat → Option HeaderNode} {index : Nat} {mode : BitVec 32}
    (hfile : files index = some ⟨header, false⟩) (hzero : header prefixOffset = 0)
    (hmode : headerMode header = some mode) (deviceID : BitVec 64) :
    ∃ st, stat files deviceID index {} = some (0, st) ∧ st.mode = mode := by
  obtain ⟨fileSize, hsize⟩ := number_of_zero hzero (show sizeOffset ≤ prefixOffset by decide)
  obtain ⟨uid, huid⟩ := number_of_zero hzero (show uidOffset ≤ prefixOffset by decide)
  obtain ⟨gid, hgid⟩ := number_of_zero hzero (show gidOffset ≤ prefixOffset by decide)
  obtain ⟨major, hmajor⟩ := number_of_zero hzero (show devMajOffset ≤ prefixOffset by decide)
  obtain ⟨minor, hminor⟩ := number_of_zero hzero (show devMinOffset ≤ prefixOffset by decide)
  obtain ⟨mtime, hmtime⟩ := number_of_zero hzero (show mtimeOffset ≤ prefixOffset by decide)
  simp [stat, hfile, hsize, huid, hgid, hmajor, hminor, hmtime, hmode]

theorem headerMode_digits (hdigit : ∀ d ∈ digits, d < 8) (hlength : digits.length ≤ 7)
    (hfield : LiesAt header modeOffset (digitText digits ++ [0])) :
    headerMode header = some (firstBit (ofNat 32 (misread (octal digits))) |||
      typeBits (header typeflagOffset)) := by
  have hnonzero : (0 : Byte) ∉ digitText digits := by
    intro hmem
    obtain ⟨d, hd, hzero⟩ := List.mem_map.mp hmem
    exact (char_eq (hdigit d hd)).1 hzero
  have hstring : stringAt header modeOffset = some (digitText digits) := by
    refine stringAt_eq hfield hnonzero ?_
    simp only [digitText, List.length_map, modeOffset]
    omega
  have hread := stringToInt_digits hdigit 0 (by
    rw [Nat.zero_add, Nat.one_mul]
    exact Nat.pow_le_pow_right (by decide) hlength)
  rw [Nat.zero_mul, Nat.zero_add, decimal_eq_misread hdigit] at hread
  rw [headerMode, hstring, Option.bind_some]
  refine (congrArg _ hread).trans ?_
  rw [Option.map_some, BitVec.ofInt_natCast]

/-- The header of an entry has this mode and type: octal digits that end with a
    zero byte, of no more than the twelve permission bits. -/
structure ArchiveEntry.HasMode (e : ArchiveEntry) (digits : List Nat) (flag : TypeFlag) :
    Prop where
  digit_lt : ∀ d ∈ digits, d < 8
  digits_length : digits.length ≤ 7
  permissions : octal digits < 2 ^ 12
  mode_field : (e.header.drop modeOffset).take (digits.length + 1) = digitText digits ++ [0]
  typeflag : (e.header.drop typeflagOffset).head? = some flag.char

/-- `Files` of the archive, as `Stat` sees it. -/
def Loaded.headers (loaded : Loaded) : Nat → Option HeaderNode := fun index =>
  (loaded.nodes.find? fun node => node.index = index).map fun node =>
    ⟨fun i => loaded.memory (node.header + i), false⟩

section archive

variable {mapped : Nat → Bool} {memory : Nat → Byte} {address : Nat}
  {entries : List ArchiveEntry} {e : ArchiveEntry} {digits : List Nat} {flag : TypeFlag}

variable {loaded : Loaded} {next k header : Nat}

theorem Decoded.field {part : List Byte} (h : Decoded loaded address next k header e) (offset : Nat)
    (hpart : (e.header.drop (nameSize + offset)).take part.length = part) :
    LiesAt (fun i => loaded.memory (address + header + i)) (nameSize + offset) part := by
  rw [← List.drop_drop] at hpart
  have hslice := h.kept.slice hpart
  intro i hi
  simpa only [Nat.add_assoc] using hslice i hi

theorem Decoded.byte {c : Byte} (h : Decoded loaded address next k header e) (offset : Nat)
    (hhead : (e.header.drop (nameSize + offset)).head? = some c) :
    loaded.memory (address + header + (nameSize + offset)) = c := by
  obtain ⟨rest, hrest⟩ := List.head?_eq_some_iff.mp hhead
  have hpart : (e.header.drop (nameSize + offset)).take [c].length = [c] := by
    rw [hrest]
    rfl
  exact h.field offset hpart 0 Nat.zero_lt_one

theorem headerMode_decoded (h : Decoded loaded address next k header e)
    (hmode : e.HasMode digits flag) :
    headerMode (fun i => loaded.memory (address + header + i)) =
      some (firstBit (ofNat 32 (misread (octal digits))) ||| typeBits flag.char) := by
  have hfield : LiesAt (fun i => loaded.memory (address + header + i)) modeOffset
      (digitText digits ++ [0]) := by
    refine h.field 0 ?_
    rw [List.length_append, digitText, List.length_map]
    exact hmode.mode_field
  have htype : loaded.memory (address + header + typeflagOffset) = flag.char :=
    h.byte 56 hmode.typeflag
  rw [headerMode_digits hmode.digit_lt hmode.digits_length hfield, htype]

theorem headers_of_decoded (hlength : loaded.nodes.length = entries.length)
    (hdecoded : ∀ k e, entries[k]? = some e → Decoded loaded address next k (position entries k) e)
    (hk : entries[k]? = some e) :
    loaded.headers (next + k) =
      some ⟨fun i => loaded.memory (address + position entries k + i), false⟩ := by
  rw [Loaded.headers, find_of_decoded hlength hdecoded hk]
  rfl

theorem reported_iff (hmode : octal digits < 2 ^ 12) (flag : TypeFlag) :
    firstBit (ofNat 32 (misread (octal digits))) ||| typeBits flag.char =
        ofNat 32 (octal digits) ||| flag.fileType ↔
      SingleBit (ofNat 32 (octal digits)) ∧ flag ≠ .conttype := by
  have hmask : ofNat 32 (octal digits) &&& permissionMask = ofNat 32 (octal digits) := by
    apply BitVec.eq_of_toNat_eq
    have hlow := Nat.and_two_pow_sub_one_eq_mod (octal digits) 12
    rw [BitVec.toNat_and, BitVec.toNat_ofNat, Nat.mod_eq_of_lt (by omega)]
    exact hlow.trans (Nat.mod_eq_of_lt hmode)
  rw [or_eq_or_iff (single_and_mask (singleBit_firstBit _)) hmask (typeBits_and_mask flag)
    (fileType_and_mask flag), typeBits_eq_iff]
  refine and_congr_left fun _ => ⟨fun h => h ▸ singleBit_firstBit _, fun h => ?_⟩
  have hbit := firstBit_misread h
  rwa [BitVec.toNat_ofNat, Nat.mod_eq_of_lt (by omega)] at hbit

end archive

/-! ## Section 7: Created files -/

theorem putAt_liesAt (offset : Nat) (bytes : List Byte) (block : Nat → Byte) :
    LiesAt (putAt offset bytes block) offset bytes := by
  intro i hi
  rw [putAt, if_pos ⟨by omega, by omega⟩, Nat.add_sub_cancel_left, List.getElem?_eq_getElem hi]
  rfl

theorem putAt_outside {offset i : Nat} {bytes : List Byte} {block : Nat → Byte}
    (h : i < offset ∨ offset + bytes.length ≤ i) : putAt offset bytes block i = block i :=
  if_neg (by omega)

theorem length_modeText (n : Nat) : (digitText (sevenDigits n) ++ [0]).length = 8 := by
  simp [digitText, sevenDigits]

theorem createHeader_between (mode : BitVec 32) (basename : List Byte) (beyond : Nat → Byte)
    {i : Nat} (hi : nameSize ≤ i) (hlt : i < signatureOffset) :
    createHeader mode basename beyond i =
      putAt modeOffset (digitText (sevenDigits (firstBit mode).toNat) ++ [0])
        (putAt typeflagOffset [(typeflagOf mode).char] fun i =>
          if i < headerSize then 0 else beyond i) i := by
  have hname : (basename.take nameSize).length ≤ nameSize := List.length_take_le _ _
  rw [createHeader, putAt_outside (.inl (by omega)), putAt_outside (.inl hlt),
    putAt_outside (.inr (by omega))]

theorem headerMode_created (mode : BitVec 32) (basename : List Byte) (beyond : Nat → Byte) :
    headerMode (createHeader mode basename beyond) =
      some (firstBit mode ||| typeBits (typeflagOf mode).char) := by
  have hsingle := singleBit_firstBit mode
  have hfield : LiesAt (createHeader mode basename beyond) modeOffset
      (digitText (sevenDigits (firstBit mode).toNat) ++ [0]) := by
    intro i hi
    have hlt : i < 8 := by rwa [length_modeText] at hi
    rw [createHeader_between mode basename beyond (by simp only [nameSize, modeOffset]; omega)
      (by simp only [signatureOffset, modeOffset]; omega)]
    exact putAt_liesAt _ _ _ i hi
  have htype : createHeader mode basename beyond typeflagOffset = (typeflagOf mode).char := by
    rw [createHeader_between mode basename beyond (by decide) (by decide), putAt_outside]
    · exact putAt_liesAt typeflagOffset [(typeflagOf mode).char] _ 0 Nat.zero_lt_one
    · rw [length_modeText]
      exact .inr (by decide)
  rw [headerMode_digits (sevenDigits_lt _) (by simp [sevenDigits]) hfield, htype,
    octal_sevenDigits hsingle, firstBit_misread hsingle]

theorem createHeader_zero (mode : BitVec 32) (basename : List Byte) (beyond : Nat → Byte) :
    createHeader mode basename beyond prefixOffset = 0 := by
  have hname : 0 + (basename.take nameSize).length ≤ prefixOffset := by
    rw [Nat.zero_add]
    exact (List.length_take_le _ _).trans (by decide)
  have hmode : modeOffset + (digitText (sevenDigits (firstBit mode).toNat) ++ [0]).length ≤
      prefixOffset := by
    rw [length_modeText]
    decide
  have htype : typeflagOffset + [(typeflagOf mode).char].length ≤ prefixOffset := by
    rw [List.length_singleton]
    decide
  rw [createHeader, putAt_outside (.inr (by decide)), putAt_outside (.inr (by decide)),
    putAt_outside (.inr hname), putAt_outside (.inr hmode), putAt_outside (.inr htype),
    if_pos (by decide)]

theorem created_iff (mode : BitVec 32) :
    firstBit mode ||| typeBits (typeflagOf mode).char = mode &&& (permissionMask ||| sIfmt) ↔
      SingleBit (mode &&& permissionMask) ∧
        (mode &&& sIfmt = sIfreg ∨ mode &&& sIfmt = sIfifo) := by
  have hlow : mode &&& permissionMask &&& permissionMask = mode &&& permissionMask := by
    rw [BitVec.and_assoc, BitVec.and_self]
  have hhigh : mode &&& sIfmt &&& permissionMask = 0 := by
    rw [BitVec.and_assoc, show sIfmt &&& permissionMask = 0 by decide]
    simp
  rw [BitVec.and_or_distrib_left, or_eq_or_iff (single_and_mask (singleBit_firstBit _)) hlow
    (typeBits_and_mask _) hhigh, firstBit_eq_iff, typeBits_typeflagOf_iff]

theorem create_eq {store : Store} {name : List Byte}
    (hname : segments (name.map fun b => Char.ofNat b.toNat) ≠ [])
    (hfree : store.files store.nextInode = none) (parent : Option Nat) (mode : BitVec 32)
    (beyond : Nat → Byte) :
    ∃ basename store', create store parent name mode beyond =
        some (⟨store.deviceID.toNat, store.nextInode, mode⟩, store') ∧
      store'.files store.nextInode = some ⟨createHeader mode basename beyond, false⟩ := by
  have hnot : ¬ (segments (name.map fun b => Char.ofNat b.toNat) = [] ∨
      (store.files store.nextInode).isSome) := by
    rw [hfree]
    simpa using hname
  rw [create, if_neg hnot]
  exact ⟨_, _, rfl, Function.update_self ..⟩

/-! ## Section 8: Which modes are reported as they are -/

/-- **Modes**: `Stat` succeeds on every entry of an archive and on every created
    file. It reports the type and the permissions of the header if these have no
    more than one bit and the type is not `CONTTYPE`, and those that were given
    to `Create` if the permissions have no more than one bit and the type is
    `S_IFREG` or `S_IFIFO`; and in no other case. -/
theorem stat_mode_iff (mapped : Nat → Bool) (memory : Nat → Byte) (address : Nat)
    (entries : List ArchiveEntry) (fuel next k : Nat) (e : ArchiveEntry) (digits : List Nat)
    (flag : TypeFlag) (deviceID : BitVec 64) (store : Store) (parent : Option Nat)
    (name : List Byte) (mode : BitVec 32) (beyond : Nat → Byte) :
    (InMemory mapped memory address entries → entries.length < fuel → entries[k]? = some e →
      e.HasMode digits flag →
      ∃ loaded st, readEntries mapped fuel memory address next = some loaded ∧
        stat loaded.headers deviceID (next + k) {} = some (0, st) ∧
        (st.mode = ofNat 32 (octal digits) ||| flag.fileType ↔
          SingleBit (ofNat 32 (octal digits)) ∧ flag ≠ .conttype)) ∧
    (segments (name.map fun b => Char.ofNat b.toNat) ≠ [] →
      store.files store.nextInode = none →
      ∃ inode store' st, create store parent name mode beyond = some (inode, store') ∧
        stat store'.files store.deviceID inode.index {} = some (0, st) ∧
        (st.mode = mode &&& (permissionMask ||| sIfmt) ↔
          SingleBit (mode &&& permissionMask) ∧
            (mode &&& sIfmt = sIfreg ∨ mode &&& sIfmt = sIfifo))) := by
  constructor
  · intro hmem hfuel hk hmode
    obtain ⟨loaded, hread, -, hlength, -, hdecoded⟩ := readEntries_spec hmem hfuel next
    have hentry := hdecoded k e hk
    obtain ⟨st, hstat, hst⟩ := stat_eq (headers_of_decoded hlength hdecoded hk)
      (hentry.byte 245 e.unprefixed) (headerMode_decoded hentry hmode) deviceID
    refine ⟨loaded, st, hread, hstat, ?_⟩
    rw [hst]
    exact reported_iff hmode.permissions flag
  · intro hname hfree
    obtain ⟨basename, store', hcreate, hfile⟩ := create_eq hname hfree parent mode beyond
    obtain ⟨st, hstat, hst⟩ := stat_eq hfile (createHeader_zero mode basename beyond)
      (headerMode_created mode basename beyond) store.deviceID
    refine ⟨_, store', st, hcreate, hstat, ?_⟩
    rw [hst]
    exact created_iff mode

/-- No files yet. -/
def emptyStore : Store where
  deviceID := 0
  files := fun _ => none
  children := fun _ => []
  parent := fun _ => none
  nextInode := 0

/-- An archive with a header of zero mode, and a FIFO of mode `0400`. -/
theorem stat_mode_single :
    (∃ loaded st, readEntries (fun _ => true) 2 (twoByteMemory 0x1000) 0x1000 0 = some loaded ∧
      stat loaded.headers 0 0 {} = some (0, st) ∧ st.mode = sIfreg) ∧
    ∃ inode store' st,
      create emptyStore none [102] (sIfifo ||| 0o400#32) (fun _ => 0) = some (inode, store') ∧
        stat store'.files 0 inode.index {} = some (0, st) ∧ st.mode = sIfifo ||| 0o400#32 := by
  have hmode : twoByteEntry.HasMode [] .aregtype :=
    ⟨by decide, by decide, by decide, by decide +kernel, by decide +kernel⟩
  obtain ⟨hentry, hfile⟩ := stat_mode_iff (fun _ => true) (twoByteMemory 0x1000) 0x1000
    [twoByteEntry] 2 0 0 twoByteEntry [] .aregtype 0 emptyStore none [102]
    (sIfifo ||| 0o400#32) (fun _ => 0)
  constructor
  · obtain ⟨loaded, st, hread, hstat, hiff⟩ := hentry inMemory_twoByte (by decide) rfl hmode
    exact ⟨loaded, st, hread, hstat, hiff.mpr ⟨by decide +kernel, by decide⟩⟩
  · obtain ⟨inode, store', st, hcreate, hstat, hiff⟩ := hfile (by decide +kernel) rfl
    exact ⟨inode, store', st, hcreate, hstat, hiff.mpr ⟨by decide +kernel, by decide +kernel⟩⟩

/-- An entry `a` of mode `0644`. -/
def readableEntry : ArchiveEntry where
  header := [97] ++ List.replicate 99 0 ++ [48, 48, 48, 48, 54, 52, 52, 0] ++
    List.replicate 16 0 ++ List.replicate 11 48 ++ [0] ++ List.replicate 20 0 ++ [48] ++
    List.replicate 100 0 ++ [117, 115, 116, 97, 114] ++ List.replicate 250 0
  name := [97]
  digits := List.replicate 11 0
  content := []
  padding := []
  header_length := by decide +kernel
  name_length := by decide
  name_nonzero := by decide
  name_field := by decide
  digit_lt := by decide
  digits_length := by decide
  size_field := by decide +kernel
  signature := by decide +kernel
  unprefixed := by decide +kernel
  content_length := by decide
  size_lt := by decide
  padded := by decide +kernel

/-- `rw-r--r--` in an archive is reported as `S_ISVTX` alone, and of what
    `Create` is given there remains `r--------`; a directory comes out as a
    block device. -/
theorem readable_mode_lost :
    readableEntry.HasMode [0, 0, 0, 0, 6, 4, 4] .regtype ∧
    ((readEntries (fun _ => true) 2 (fun a => (readableEntry.bytes[a]?).getD 0) 0 0).bind
      fun loaded => (stat loaded.headers 0 0 {}).map fun r => (r.1, r.2.mode)) =
        some (0, sIfreg ||| 0o1000#32) ∧
    ((create emptyStore none [102] (sIfreg ||| 0o644#32) fun _ => 0).bind
      fun made => (stat made.2.files 0 made.1.index {}).map fun r => (r.1, r.2.mode)) =
        some (0, sIfreg ||| 0o400#32) ∧
    ((create emptyStore none [102] sIfdir fun _ => 0).bind
      fun made => (stat made.2.files 0 made.1.index {}).map fun r => (r.1, r.2.mode)) =
        some (0, sIfblk) := by
  refine ⟨⟨by decide, by decide, by decide, by decide +kernel, by decide +kernel⟩, ?_, ?_, ?_⟩
  · decide +kernel
  · decide +kernel
  · decide +kernel

end Fennix.Fs.Ustar
