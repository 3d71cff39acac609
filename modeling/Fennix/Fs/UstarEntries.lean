import Fennix.Framework.Layout
import Fennix.Fs.Ustar
import Fennix.Fs.UstarArchive

/-! # The entries of an archive

    The first loop of `USTAR::ReadArchive`. It goes from header to header, with
    nothing but the size that each header announces to find the next one, and
    removes the dot before a leading slash from the names where they are.

    An archive is described entry by entry (`ArchiveEntry`); it lies in memory
    from the address on that `ReadArchive` is given. The loop stays in step with
    it: each entry gets one node, at its own header.
-/

namespace Fennix.Fs.Ustar

open Bytes Layout

/-! ## Section 1: Strings in memory -/

/-- The string at an address, without the zero byte at its end; `none` if there
    is no zero byte in the next `fuel` bytes. -/
def cstring (memory : Nat → Byte) : Nat → Nat → Option (List Byte)
  | 0, _ => none
  | fuel + 1, address =>
    if memory address = 0 then some []
    else (cstring memory fuel (address + 1)).map (memory address :: ·)

/-- The string at an address, up to the end of the address space. -/
def stringAt (memory : Nat → Byte) (address : Nat) : Option (List Byte) :=
  cstring memory (2 ^ 64 - address) address

/-- `memmove`. -/
def memmove (memory : Nat → Byte) (dest src n : Nat) : Nat → Byte := fun a =>
  if dest ≤ a ∧ a < dest + n then memory (src + (a - dest)) else memory a

/-- The bytes are in memory from an address on. -/
def LiesAt (memory : Nat → Byte) (address : Nat) (bytes : List Byte) : Prop :=
  ∀ i (h : i < bytes.length), memory (address + i) = bytes[i]

/-! ## Section 2: The loop -/

/-- `sizeof(FileHeader::name)`. -/
def nameSize : Nat := 100

/-- Where the fields of `struct FileHeader` are. -/
def sizeOffset : Nat := 124

def signatureOffset : Nat := 257

def prefixOffset : Nat := 345

/-- `sizeof(FileHeader)`. -/
def headerSize : Nat := 512

/-- `strncmp(header->signature, TMAGIC, TMAGLEN - 1) == 0`. -/
def isSigned (memory : Nat → Byte) (header : Nat) : Bool :=
  copyFrom memory (header + signatureOffset) 5 = [117, 115, 116, 97, 114]

/-- The dot of a name that starts with `./` is removed. -/
def removeDot (memory : Nat → Byte) (header : Nat) : Option (Nat → Byte) :=
  if memory header = 46 ∧ memory (header + 1) = 47 then
    (stringAt memory header).map fun name => memmove memory header (header + 1) name.length
  else some memory

/-- `GetSize(header->size)`. -/
def announcedSize (memory : Nat → Byte) (header : Nat) : Option (BitVec 32) :=
  (stringAt memory (header + sizeOffset)).bind fun text => getSize (text ++ [0]) 0

/-- Where the next header is. -/
def nextHeader (address size : Nat) : Nat :=
  (address + (size / 512 + 1) * 512 + if size % 512 = 0 then 0 else 512) % 2 ^ 64

/-- What the loop stores in a `USTARInode`: the address of the header, the
    inode number and the `Path`. -/
structure Node where
  header : Nat
  index : Nat
  path : List Byte
  deriving DecidableEq

/-- What the loop leaves: memory, the nodes, and whether it came to a block
    without signature (and not to memory that is not mapped). -/
structure Loaded where
  memory : Nat → Byte
  nodes : List Node
  complete : Bool

/-- The loop, from `Address` and `NextInode` on. `none` if a string does not end
    or more than `fuel` headers are found. -/
def readEntries (mapped : Nat → Bool) : Nat → (Nat → Byte) → Nat → Nat → Option Loaded
  | 0, _, _, _ => none
  | fuel + 1, memory, address, nextInode =>
    if mapped address = false then some ⟨memory, [], false⟩
    else if isSigned memory address = false then some ⟨memory, [], true⟩
    else
      (removeDot memory address).bind fun memory =>
        (stringAt memory address).bind fun path =>
          (announcedSize memory address).bind fun size =>
            (readEntries mapped fuel memory (nextHeader address size.toNat) (nextInode + 1)).map
              fun loaded => { loaded with nodes := ⟨address, nextInode, path⟩ :: loaded.nodes }

/-- The header of a node as `Read` sees it. -/
def headerAt (memory : Nat → Byte) (header : Nat) : FileHeader where
  size := copyFrom memory (header + sizeOffset) 12
  behind := fun i => memory (header + headerSize + i)

/-- `Files`, as the loop fills it. -/
def Loaded.files (loaded : Loaded) : Files := fun index =>
  (loaded.nodes.find? fun node => node.index = index).map fun node =>
    ⟨headerAt loaded.memory node.header, false⟩

/-! ## Section 3: Archives -/

/-- A well-formed entry: header, content and padding. -/
structure ArchiveEntry where
  header : List Byte
  name : List Byte
  digits : List Nat
  content : List Byte
  padding : List Byte
  header_length : header.length = headerSize
  name_length : name.length ≤ 99
  name_nonzero : 0 ∉ name
  name_field : header.take (name.length + 1) = name ++ [0]
  digit_lt : ∀ d ∈ digits, d < 8
  digits_length : digits.length = 11
  size_field : (header.drop sizeOffset).take 12 =
    digits.map (fun d => BitVec.ofNat 8 (48 + d)) ++ [0]
  signature : (header.drop signatureOffset).take 5 = [117, 115, 116, 97, 114]
  unprefixed : (header.drop prefixOffset).head? = some 0
  content_length : content.length = octal digits
  size_lt : octal digits < 2 ^ 32
  padded : (content.length + padding.length) % 512 = 0 ∧ padding.length < 512

/-- The bytes of an entry. -/
def ArchiveEntry.bytes (e : ArchiveEntry) : List Byte := e.header ++ (e.content ++ e.padding)

/-- The bytes of an archive. -/
def archiveBytes (entries : List ArchiveEntry) : List Byte := entries.flatMap ArchiveEntry.bytes

/-- A name without the dot of a leading `./`. -/
def withoutDot : List Byte → List Byte
  | 46 :: 47 :: rest => 47 :: rest
  | name => name

/-- The archive lies in mapped memory, and behind it is a block without
    signature. -/
structure InMemory (mapped : Nat → Bool) (memory : Nat → Byte) (address : Nat)
    (entries : List ArchiveEntry) : Prop where
  liesAt : LiesAt memory address (archiveBytes entries)
  stop : isSigned memory (address + (archiveBytes entries).length) = false
  mapped : ∀ a, address ≤ a → a ≤ address + (archiveBytes entries).length → mapped a = true
  space : address + (archiveBytes entries).length + headerSize ≤ 2 ^ 64

/-! ## Section 4: One entry -/

variable {memory : Nat → Byte} {address : Nat}

theorem LiesAt.copyFrom_eq {n : Nat} {bytes : List Byte} (h : LiesAt memory address bytes)
    (hn : bytes.length = n) : copyFrom memory address n = bytes := by
  subst hn
  apply List.ext_getElem
  · simp
  · intro i hi hi'
    simp [copyFrom, h i hi']

theorem LiesAt.slice {offset : Nat} {bytes part : List Byte} (h : LiesAt memory address bytes)
    (hpart : (bytes.drop offset).take part.length = part) :
    LiesAt memory (address + offset) part := by
  intro i hi
  have hget : (bytes.drop offset)[i]? = some part[i] := by
    rw [← List.getElem?_take_of_lt hi, hpart, List.getElem?_eq_getElem hi]
  rw [List.getElem?_drop] at hget
  obtain ⟨hlt, heq⟩ := List.getElem?_eq_some_iff.mp hget
  rw [Nat.add_assoc, h _ hlt, heq]

theorem cstring_eq {fuel : Nat} {text : List Byte} (h : LiesAt memory address (text ++ [0]))
    (hnonzero : 0 ∉ text) (hfuel : text.length < fuel) :
    cstring memory fuel address = some text := by
  induction text generalizing address fuel with
  | nil =>
    obtain ⟨fuel, rfl⟩ : ∃ n, fuel = n + 1 := ⟨fuel - 1, by omega⟩
    have hzero : memory address = 0 := h 0 (by simp)
    rw [cstring, if_pos hzero]
  | cons c text ih =>
    obtain ⟨fuel, rfl⟩ : ∃ n, fuel = n + 1 := ⟨fuel - 1, by omega⟩
    simp only [List.length_cons] at hfuel
    obtain ⟨hc, hrest⟩ := holds_cons.mp h
    have hne : c ≠ 0 := fun heq => hnonzero (heq ▸ List.mem_cons_self)
    rw [cstring, hc, if_neg hne, ih hrest (fun hmem => hnonzero (List.mem_cons_of_mem _ hmem))
      (by omega)]
    rfl

theorem stringAt_eq {text : List Byte} (h : LiesAt memory address (text ++ [0]))
    (hnonzero : 0 ∉ text) (hspace : address + text.length < 2 ^ 64) :
    stringAt memory address = some text :=
  cstring_eq h hnonzero (by omega)

section entry

variable {memory : Nat → Byte} {address : Nat} {e : ArchiveEntry}

theorem name_liesAt (h : LiesAt memory address e.header) :
    LiesAt memory address (e.name ++ [0]) := by
  rw [← Nat.add_zero address]
  exact h.slice (by simpa using e.name_field)

theorem removeDot_spec (h : LiesAt memory address e.header)
    (hspace : address + headerSize ≤ 2 ^ 64) :
    ∃ memory', removeDot memory address = some memory' ∧
      stringAt memory' address = some (withoutDot e.name) ∧
      ∀ a, a < address ∨ address + e.name.length ≤ a → memory' a = memory a := by
  have hname := name_liesAt h
  have hlength := e.name_length
  have hstring : stringAt memory address = some e.name :=
    stringAt_eq hname e.name_nonzero (by simp only [headerSize] at hspace; omega)
  by_cases hdot : ∃ rest, e.name = 46 :: 47 :: rest
  · obtain ⟨rest, hrest⟩ := hdot
    have hnonzero := e.name_nonzero
    rw [hrest] at hname hnonzero
    obtain ⟨hfirst, htail⟩ := holds_cons.mp hname
    obtain ⟨hsecond, -⟩ := holds_cons.mp htail
    -- the rest of the name and its zero byte move down by one
    have hmoved : LiesAt (memmove memory address (address + 1) e.name.length) address
        ((47 :: rest) ++ [0]) := by
      intro i hi
      have hlt : i < e.name.length := by
        rw [hrest]
        simpa using hi
      rw [memmove, if_pos ⟨by omega, by omega⟩, Nat.add_sub_cancel_left]
      exact htail i hi
    refine ⟨memmove memory address (address + 1) e.name.length, ?_, ?_, ?_⟩
    · rw [removeDot, if_pos ⟨hfirst, hsecond⟩, hstring]
      rfl
    · rw [show withoutDot e.name = 47 :: rest by rw [hrest]; rfl]
      refine stringAt_eq hmoved (fun hmem => hnonzero (List.mem_cons_of_mem _ hmem)) ?_
      rw [hrest] at hlength
      simp only [List.length_cons, headerSize] at hlength hspace ⊢
      omega
    · intro a ha
      rw [memmove, if_neg (by omega)]
  · have hnot : ¬ (memory address = 46 ∧ memory (address + 1) = 47) := by
      rintro ⟨hfirst, hsecond⟩
      cases htext : e.name with
      | nil =>
        rw [htext] at hname
        cases hfirst.symm.trans (holds_cons.mp hname).1
      | cons c text =>
        rw [htext] at hname
        obtain ⟨rfl, htail⟩ := holds_cons.mp hname
        cases text with
        | nil => cases hsecond.symm.trans (holds_cons.mp htail).1
        | cons c' text =>
          exact hdot ⟨text, by rw [htext, hfirst, ← (holds_cons.mp htail).1, hsecond]⟩
    have hkeep : withoutDot e.name = e.name := by
      unfold withoutDot
      split
      · rename_i rest heq
        exact absurd ⟨rest, heq⟩ hdot
      · rfl
    exact ⟨memory, if_neg hnot, by rw [hkeep, hstring], fun a _ => rfl⟩

theorem header_behind_name (h : LiesAt memory address e.header) :
    LiesAt memory (address + nameSize) (e.header.drop nameSize) := by
  intro i hi
  rw [List.length_drop] at hi
  rw [Nat.add_assoc, h (nameSize + i) (by omega), List.getElem_drop]

/-- The field `size` of an entry. -/
def ArchiveEntry.sizeField (e : ArchiveEntry) : List Byte :=
  e.digits.map (fun d => BitVec.ofNat 8 (48 + d)) ++ [0]

theorem length_sizeField (e : ArchiveEntry) : e.sizeField.length = 12 := by
  simp [ArchiveEntry.sizeField, e.digits_length]

theorem size_liesAt (h : LiesAt memory (address + nameSize) (e.header.drop nameSize)) :
    LiesAt memory (address + sizeOffset) e.sizeField := by
  have hoffset : address + sizeOffset = address + nameSize + 24 := by
    simp only [sizeOffset, nameSize]
  rw [hoffset]
  refine h.slice ?_
  rw [List.drop_drop, length_sizeField]
  exact e.size_field

theorem announcedSize_eq (h : LiesAt memory (address + sizeOffset) e.sizeField)
    (hspace : address + headerSize ≤ 2 ^ 64) :
    ∃ size, announcedSize memory address = some size ∧ size.toNat = e.content.length := by
  have hnonzero : (0 : Byte) ∉ e.digits.map fun d => BitVec.ofNat 8 (48 + d) := by
    intro hmem
    obtain ⟨d, hd, hzero⟩ := List.mem_map.mp hmem
    exact (char_eq (e.digit_lt d hd)).1 hzero
  have hstring := stringAt_eq h hnonzero (by
    simp only [List.length_map, e.digits_length, sizeOffset, headerSize] at hspace ⊢
    omega)
  have hdigits := getSize_digits e.digit_lt [] 0
  rw [Nat.zero_mul, Nat.zero_add] at hdigits
  refine ⟨BitVec.ofNat 32 (octal e.digits), ?_, ?_⟩
  · rw [announcedSize, hstring]
    exact hdigits
  · rw [BitVec.toNat_ofNat, Nat.mod_eq_of_lt e.size_lt, e.content_length]

theorem isSigned_eq (h : LiesAt memory address e.header) : isSigned memory address = true := by
  have hslice : LiesAt memory (address + signatureOffset) [117, 115, 116, 97, 114] :=
    h.slice e.signature
  exact decide_eq_true (hslice.copyFrom_eq rfl)

theorem length_bytes (e : ArchiveEntry) :
    e.bytes.length = 512 + (e.content.length + e.padding.length) := by
  rw [ArchiveEntry.bytes, List.length_append, List.length_append, e.header_length, headerSize]

theorem nextHeader_eq (e : ArchiveEntry) (hspace : address + e.bytes.length < 2 ^ 64) :
    nextHeader address e.content.length = address + e.bytes.length := by
  obtain ⟨hmod, hlt⟩ := e.padded
  have hend : address + (e.content.length / 512 + 1) * 512 +
      (if e.content.length % 512 = 0 then 0 else 512) = address + e.bytes.length := by
    rw [length_bytes]
    split <;> omega
  rw [nextHeader, hend, Nat.mod_eq_of_lt hspace]

end entry

/-! ## Section 5: All entries -/

theorem isSigned_congr {memory' : Nat → Byte} {header : Nat}
    (h : ∀ a, header ≤ a → memory' a = memory a) :
    isSigned memory' header = isSigned memory header := by
  have hcopy : copyFrom memory' (header + signatureOffset) 5 =
      copyFrom memory (header + signatureOffset) 5 := by
    unfold copyFrom
    exact List.map_congr_left fun i _ => h _ (by omega)
  rw [isSigned, isSigned, hcopy]

section archive

variable {mapped : Nat → Bool} {memory : Nat → Byte} {address : Nat} {e : ArchiveEntry}
  {entries : List ArchiveEntry}

theorem archiveBytes_cons (e : ArchiveEntry) (entries : List ArchiveEntry) :
    archiveBytes (e :: entries) = e.bytes ++ archiveBytes entries := rfl

theorem length_archiveBytes_cons (e : ArchiveEntry) (entries : List ArchiveEntry) :
    (archiveBytes (e :: entries)).length = e.bytes.length + (archiveBytes entries).length := by
  rw [archiveBytes_cons, List.length_append]

theorem headerSize_le (e : ArchiveEntry) : headerSize ≤ e.bytes.length := by
  rw [length_bytes]
  exact Nat.le_add_right _ _

/-- One round of the loop: the entry gets its node, and the loop comes to the
    rest of the archive, which is as it was. -/
theorem readEntries_cons (h : InMemory mapped memory address (e :: entries)) (fuel next : Nat) :
    ∃ memory', (∀ a, a < address ∨ address + nameSize ≤ a → memory' a = memory a) ∧
      InMemory mapped memory' (address + e.bytes.length) entries ∧
      readEntries mapped (fuel + 1) memory address next =
        (readEntries mapped fuel memory' (address + e.bytes.length) (next + 1)).map fun loaded =>
          { loaded with nodes := ⟨address, next, withoutDot e.name⟩ :: loaded.nodes } := by
  have hsize := headerSize_le e
  have hname := e.name_length
  have hspace := h.space
  have hstop := h.stop
  rw [length_archiveBytes_cons] at hspace hstop
  obtain ⟨hentry, hrest⟩ := holds_append.mp h.liesAt
  have hheader : LiesAt memory address e.header := (holds_append.mp hentry).1
  obtain ⟨memory', hdot, hpath, hsame⟩ := removeDot_spec hheader (by omega)
  have hsame' : ∀ a, a < address ∨ address + nameSize ≤ a → memory' a = memory a := by
    intro a ha
    refine hsame a (ha.imp_right fun ha => ?_)
    simp only [nameSize] at ha
    omega
  have hkept : LiesAt memory' (address + nameSize) (e.header.drop nameSize) :=
    Holds.congr (header_behind_name hheader) fun a ha _ => hsame' a (.inr ha)
  obtain ⟨size, hannounced, hlength⟩ := announcedSize_eq (size_liesAt hkept) (by omega)
  refine ⟨memory', hsame', ?_, ?_⟩
  · refine ⟨hrest.congr fun a ha _ => hsame' a (.inr ?_), ?_, ?_, ?_⟩
    · simp only [headerSize, nameSize] at hsize ⊢
      omega
    · rw [← hstop, Nat.add_assoc]
      refine isSigned_congr fun a ha => hsame' a (.inr ?_)
      simp only [headerSize, nameSize] at hsize ⊢
      omega
    · intro a ha hle
      refine h.mapped a (by omega) ?_
      rw [length_archiveBytes_cons]
      omega
    · omega
  · have hmapped : mapped address = true := h.mapped address (Nat.le_refl _) (by omega)
    rw [readEntries, hmapped, isSigned_eq hheader]
    simp only [Bool.true_eq_false, if_false, hdot, Option.bind_some, hpath, hannounced, hlength]
    rw [nextHeader_eq e (by simp only [headerSize] at hspace; omega)]

/-- How far behind the start of the archive an entry is. -/
def position (entries : List ArchiveEntry) (k : Nat) : Nat :=
  (archiveBytes (entries.take k)).length

/-- What the loop makes of an entry: a node at its header, which is as it was
    behind the name, and behind it the content of the announced size. -/
structure Decoded (loaded : Loaded) (address next k : Nat) (header : Nat) (e : ArchiveEntry) :
    Prop where
  node : loaded.nodes[k]? = some ⟨address + header, next + k, withoutDot e.name⟩
  kept : LiesAt loaded.memory (address + header + nameSize) (e.header.drop nameSize)
  announces : Announces (headerAt loaded.memory (address + header)) e.digits
  content : (headerAt loaded.memory (address + header)).content (octal e.digits) = e.content

variable {loaded : Loaded} {next : Nat}

theorem decoded_of_liesAt {nodes : List Node}
    (hnodes : loaded.nodes = ⟨address, next, withoutDot e.name⟩ :: nodes)
    (hkept : LiesAt loaded.memory (address + nameSize) (e.header.drop nameSize))
    (hcontent : LiesAt loaded.memory (address + headerSize) e.content) :
    Decoded loaded address next 0 0 e where
  node := by rw [hnodes]; rfl
  kept := hkept
  announces :=
    { digit := e.digit_lt
      room := Nat.le_of_eq e.digits_length
      field := ⟨[], (size_liesAt hkept).copyFrom_eq (length_sizeField e)⟩ }
  content := by
    rw [FileHeader.content, ← e.content_length]
    apply List.ext_getElem
    · simp
    · intro i hi hi'
      simp only [copyFrom, headerAt, List.getElem_map, List.getElem_range, Nat.zero_add,
        Nat.add_zero]
      exact hcontent i hi'

theorem readEntries_spec (h : InMemory mapped memory address entries) {fuel : Nat}
    (hfuel : entries.length < fuel) (next : Nat) :
    ∃ loaded, readEntries mapped fuel memory address next = some loaded ∧
      loaded.complete = true ∧ loaded.nodes.length = entries.length ∧
      (∀ a < address, loaded.memory a = memory a) ∧
      ∀ k e, entries[k]? = some e → Decoded loaded address next k (position entries k) e := by
  induction entries generalizing memory address fuel next with
  | nil =>
    obtain ⟨fuel, rfl⟩ : ∃ n, fuel = n + 1 := ⟨fuel - 1, by omega⟩
    have hmapped : mapped address = true := h.mapped address (Nat.le_refl _) (Nat.le_add_right _ _)
    have hstop : isSigned memory address = false := h.stop
    refine ⟨⟨memory, [], true⟩, ?_, rfl, rfl, fun a _ => rfl, fun k e hk => by simp at hk⟩
    rw [readEntries, hmapped, hstop]
    rfl
  | cons e entries ih =>
    obtain ⟨fuel, rfl⟩ : ∃ n, fuel = n + 1 := ⟨fuel - 1, by omega⟩
    obtain ⟨memory', hsame, hrest, heq⟩ := readEntries_cons h fuel next
    obtain ⟨loaded, hread, hcomplete, hlength, hbefore, hdecoded⟩ :=
      ih hrest (by simpa using hfuel) (next + 1)
    have hsize := headerSize_le e
    simp only [headerSize] at hsize
    -- neither its own round nor the later ones change the entry behind its name
    have hkept : ∀ a, address + nameSize ≤ a → a < address + e.bytes.length →
        loaded.memory a = memory a := by
      intro a ha hlt
      rw [hbefore a hlt, hsame a (.inr ha)]
    refine ⟨{ loaded with nodes := ⟨address, next, withoutDot e.name⟩ :: loaded.nodes }, ?_,
      hcomplete, by simp [hlength], ?_, ?_⟩
    · rw [heq, hread]
      rfl
    · intro a ha
      rw [hbefore a (by omega), hsame a (.inl ha)]
    · intro k e' hk
      cases k with
      | zero =>
        cases hk
        obtain ⟨hheader, hbody⟩ := holds_append.mp (holds_append.mp h.liesAt).1
        have hbytes := length_bytes e
        rw [e.header_length] at hbody
        refine decoded_of_liesAt rfl ?_ ?_
        · refine Holds.congr (header_behind_name hheader) fun a ha hlt => hkept a ha ?_
          rw [List.length_drop, e.header_length] at hlt
          simp only [headerSize, nameSize] at hlt
          omega
        · refine (holds_append.mp hbody).1.congr fun a ha hlt => hkept a ?_ ?_
          · simp only [headerSize, nameSize] at ha ⊢
            omega
          · simp only [headerSize] at hlt
            omega
      | succ k =>
        have hentry := hdecoded k e' hk
        have hposition : position (e :: entries) (k + 1) = e.bytes.length + position entries k := by
          rw [position, List.take_succ_cons, length_archiveBytes_cons]
          rfl
        rw [hposition]
        have haddress := Nat.add_assoc address e.bytes.length (position entries k)
        refine ⟨?_, haddress ▸ hentry.kept, haddress ▸ hentry.announces, haddress ▸ hentry.content⟩
        rw [List.getElem?_cons_succ, ← haddress, Nat.add_comm k, ← Nat.add_assoc next]
        exact hentry.node

theorem find_of_decoded (hlength : loaded.nodes.length = entries.length)
    (hdecoded : ∀ k e, entries[k]? = some e → Decoded loaded address next k (position entries k) e)
    {k : Nat} (hk : entries[k]? = some e) :
    loaded.nodes.find? (fun node => node.index = next + k) =
      some ⟨address + position entries k, next + k, withoutDot e.name⟩ := by
  obtain ⟨hlt, hget⟩ := List.getElem?_eq_some_iff.mp (hdecoded k e hk).node
  refine List.find?_eq_some_iff_getElem.mpr ⟨by simp, k, hlt, hget, ?_⟩
  -- the nodes before it have smaller numbers
  intro j hj
  have hjlt : j < entries.length := by omega
  have hother := (hdecoded j _ (List.getElem?_eq_getElem hjlt)).node
  obtain ⟨hjlt', hother⟩ := List.getElem?_eq_some_iff.mp hother
  have hne : j ≠ k := by omega
  simp [hother, hne]

theorem files_of_decoded (hlength : loaded.nodes.length = entries.length)
    (hdecoded : ∀ k e, entries[k]? = some e → Decoded loaded address next k (position entries k) e)
    {k : Nat} (hk : entries[k]? = some e) :
    loaded.files (next + k) =
      some ⟨headerAt loaded.memory (address + position entries k), false⟩ := by
  rw [Loaded.files, find_of_decoded hlength hdecoded hk]
  rfl

end archive

/-- An entry `./a` with two bytes. -/
def twoByteEntry : ArchiveEntry where
  header := [46, 47, 97] ++ List.replicate 121 0 ++ List.replicate 10 48 ++ [50, 0] ++
    List.replicate 121 0 ++ [117, 115, 116, 97, 114] ++ List.replicate 250 0
  name := [46, 47, 97]
  digits := [0, 0, 0, 0, 0, 0, 0, 0, 0, 0, 2]
  content := [104, 105]
  padding := List.replicate 510 0
  header_length := by decide +kernel
  name_length := by decide
  name_nonzero := by decide
  name_field := by decide
  digit_lt := by decide
  digits_length := by decide
  size_field := by decide +kernel
  signature := by decide +kernel
  unprefixed := by decide +kernel
  content_length := by decide
  size_lt := by decide
  padded := by decide +kernel

/-- Memory with that entry at the given address, and zero bytes around it. -/
def twoByteMemory (address : Nat) : Nat → Byte := fun a =>
  if a < address then 0 else ((archiveBytes [twoByteEntry])[a - address]?).getD 0

theorem inMemory_twoByte :
    InMemory (fun _ => true) (twoByteMemory 0x1000) 0x1000 [twoByteEntry] where
  liesAt := by
    intro i hi
    rw [twoByteMemory, if_neg (by omega), Nat.add_sub_cancel_left, List.getElem?_eq_getElem hi]
    rfl
  stop := by decide +kernel
  mapped := fun _ _ _ => rfl
  space := by decide +kernel

end Fennix.Fs.Ustar
