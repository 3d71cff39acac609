import Fennix.Network.Receive

/-! # DHCP options

    `DHCP::CreatePacket` and `DHCP::GetOption` of `Kernel/network/dhcp.cpp`, over the 64
    bytes of the field `Options`.

    - `request_options_found`: what is written by the one is found by the other.
    - `parsing_right_iff`: in a field from the network, `GetOption` walks until it meets a
      byte `0xFF`, and takes a PAD for an option with a length.
-/

namespace Fennix.Network.Dhcp

open Fennix.Network

/-! ## Section 1: GetOption -/

/-- How `GetOption` ends: with a read outside of the field, with `nullptr`, or with a
    pointer, here with the length byte in front of it. -/
inductive Outcome where
  | outside
  | notFound
  | found (position length : Nat)
  deriving DecidableEq

/-- The loop of `GetOption` at a position and the bytes from there on: the options it steps
    over, each with the number of bytes that it moves on, and how it ends. -/
def walk (type : Byte) (position : Nat) : List Byte → List (Byte × Nat) × Outcome
  | [] => ([], .outside)
  | current :: rest =>
    if current = 0xFF then ([], .notFound)
    else match rest with
      | [] => ([], .outside)
      | optionLength :: values =>
        if current = type then ([], .found (position + 2) optionLength.toNat)
        else
          let r := walk type (position + 2 + optionLength.toNat) (values.drop optionLength.toNat)
          ((current, 2 + optionLength.toNat) :: r.1, r.2)
termination_by bytes => bytes.length
decreasing_by
  simp only [List.length_drop, List.length_cons]
  omega

/-- `DHCP::GetOption` -/
def getOption (options : List Byte) (type : Byte) : List (Byte × Nat) × Outcome :=
  walk type 4 (options.drop 4)

/-- An option: its code, the length of its value and the value. -/
def encode (option : Byte × List Byte) : List Byte :=
  option.1 :: BitVec.ofNat 8 option.2.length :: option.2

/-- An option that `GetOption` steps over on its way to a type. -/
def Skipped (type : Byte) (option : Byte × List Byte) : Prop :=
  option.1 ≠ 0xFF ∧ option.1 ≠ type ∧ option.2.length < 256

variable {type : Byte} {before : List (Byte × List Byte)}

theorem walk_end (type : Byte) (position : Nat) (rest : List Byte) :
    walk type position (0xFF :: rest) = ([], .notFound) := by
  unfold walk
  rfl

theorem walk_hit (position : Nat) {value : List Byte} (htype : type ≠ 0xFF)
    (hvalue : value.length < 256) (rest : List Byte) :
    walk type position (encode (type, value) ++ rest) =
      ([], .found (position + 2) value.length) := by
  simp only [encode, List.cons_append]
  rw [walk, if_neg htype]
  simp [Nat.mod_eq_of_lt hvalue]

theorem walk_skip {option : Byte × List Byte} (h : Skipped type option) (position : Nat)
    (rest : List Byte) : walk type position (encode option ++ rest) =
      ((option.1, 2 + option.2.length) :: (walk type (position + (encode option).length) rest).1,
        (walk type (position + (encode option).length) rest).2) := by
  obtain ⟨hend, htype, hlength⟩ := h
  have hbyte : (BitVec.ofNat 8 option.2.length).toNat = option.2.length := by
    simp [Nat.mod_eq_of_lt hlength]
  have hposition : position + (encode option).length = position + 2 + option.2.length := by
    simp only [encode, List.length_cons]
    omega
  rw [hposition, encode, List.cons_append, List.cons_append, walk, if_neg hend]
  simp only [if_neg htype, hbyte, List.drop_left]

/-- A list of options that are stepped over. -/
theorem walk_before (h : ∀ o ∈ before, Skipped type o) (rest : List Byte) : ∀ position,
    walk type position (before.flatMap encode ++ rest) =
      (before.map (fun o => (o.1, 2 + o.2.length)) ++
          (walk type (position + (before.flatMap encode).length) rest).1,
        (walk type (position + (before.flatMap encode).length) rest).2) := by
  induction before with
  | nil => intro position; rfl
  | cons o before ih =>
    intro position
    rw [List.forall_mem_cons] at h
    rw [List.flatMap_cons, List.append_assoc, walk_skip h.1, ih h.2, List.length_append,
      Nat.add_assoc]
    rfl

/-! ## Section 2: CreatePacket -/

/-- The field `Options`, up to `Ptr` and from there on. -/
structure Writer where
  written : List Byte
  ahead : List Byte

/-- `memcpy(Ptr, bytes)`, and `Ptr += n` -/
def Writer.put (w : Writer) (bytes : List Byte) : Writer :=
  { w with ahead := bytes ++ w.ahead.drop bytes.length }

def Writer.advance (w : Writer) (n : Nat) : Writer :=
  { written := w.written ++ w.ahead.take n, ahead := w.ahead.drop n }

/-- `*(Ptr++) = byte`, for each one of a list -/
def Writer.emit (w : Writer) (bytes : List Byte) : Writer :=
  bytes.foldl (fun w b => (w.put [b]).advance 1) w

/-- `KERNEL_NAME` -/
def hostName : List Byte := [0x46, 0x65, 0x6E, 0x6E, 0x69, 0x78]

/-- `DHCP::CreatePacket`, on the field `Options`. The MAC is copied as 8 bytes. -/
def createPacket (options : List Byte) (mac : List Byte) (messageType : Byte)
    (requestIP : Address) : List Byte :=
  let w : Writer := ⟨[], options⟩
  let w := (w.put [0x63, 0x82, 0x53, 0x63]).advance 4
  let w := w.emit [53, 1, messageType]
  let w := ((w.emit [61, 7, 1]).put (mac ++ [0, 0])).advance 6
  let w := (((w.emit [50, 4]).put [0x0A, 0x00, 0x02, 0x0E]).put requestIP).advance 4
  let w := (w.emit [12, BitVec.ofNat 8 (1 + hostName.length)]).put hostName
  let w := w.advance hostName.length
  let w := w.emit [0]
  let w := w.emit [55, 8, 1, 3, 6, 15, 44, 46, 47, 57]
  let w := w.emit [255]
  w.written ++ w.ahead

/-- The options of a request, the host name with the zero at its end. -/
def requestOptions (mac : List Byte) (messageType : Byte) (requestIP : Address) :
    List (Byte × List Byte) :=
  [(53, [messageType]), (61, 1 :: mac), (50, requestIP), (12, hostName ++ [0]),
    (55, [1, 3, 6, 15, 44, 46, 47, 57])]

/-- What is written: the cookie, the options and the end, and nothing outside of the field. -/
theorem createPacket_eq (options : Vector Byte 64) (mac : Vector Byte 6) (messageType : Byte)
    (requestIP : Vector Byte 4) :
    createPacket options.toList mac.toList messageType requestIP.toList =
      [0x63, 0x82, 0x53, 0x63] ++
        ((requestOptions mac.toList messageType requestIP.toList).flatMap encode ++
          0xFF :: options.toList.drop 42) := by
  have hmac : mac.toList.length = 6 := mac.length_toList
  have hip : requestIP.toList.length = 4 := requestIP.length_toList
  simp [createPacket, requestOptions, encode, hostName, Writer.put, Writer.advance, Writer.emit,
    hmac, hip]

/-- The value of an option is found. -/
def Finds (options : List Byte) (option : Byte × List Byte) : Prop :=
  ∃ position, (getOption options option.1).2 = .found position option.2.length ∧
    (options.drop position).take option.2.length = option.2

/-- Every option of a list with different codes is found after a header of four bytes. -/
theorem finds_of_mem {header rest : List Byte} {options : List (Byte × List Byte)}
    (hheader : header.length = 4) (hok : ∀ o ∈ options, o.1 ≠ 0xFF ∧ o.2.length < 256)
    (hnodup : (options.map Prod.fst).Nodup) {option : Byte × List Byte} (hmem : option ∈ options) :
    Finds (header ++ (options.flatMap encode ++ rest)) option := by
  obtain ⟨before, after, rfl⟩ := List.append_of_mem hmem
  obtain ⟨hend, hlength⟩ := hok option hmem
  have hskipped : ∀ o ∈ before, Skipped option.1 o := by
    intro o ho
    rw [List.map_append, List.nodup_append] at hnodup
    have hne := hnodup.2.2 o.1 (List.mem_map_of_mem ho) option.1 (by simp)
    exact ⟨(hok o (by simp [ho])).1, hne, (hok o (by simp [ho])).2⟩
  refine ⟨4 + (before.flatMap encode).length + 2, ?_, ?_⟩
  · rw [getOption, List.drop_left' hheader, List.flatMap_append, List.append_assoc,
      walk_before hskipped, List.flatMap_cons, List.append_assoc, walk_hit _ hend hlength]
  · rw [Nat.add_assoc, ← hheader, List.drop_length_add_append, List.flatMap_append,
      List.append_assoc, List.drop_length_add_append]
    simp [encode]

/-- For every field, MAC, type of message and requested address: the field keeps its size,
    the five options are found with their values, and no other one is. -/
theorem request_options_found (options : Vector Byte 64) (mac : Vector Byte 6)
    (messageType : Byte) (requestIP : Vector Byte 4) :
    (createPacket options.toList mac.toList messageType requestIP.toList).length = 64 ∧
    (∀ option ∈ requestOptions mac.toList messageType requestIP.toList,
      Finds (createPacket options.toList mac.toList messageType requestIP.toList) option) ∧
    ∀ type : Byte, type ∉ [53, 61, 50, 12, 55] →
      (getOption (createPacket options.toList mac.toList messageType requestIP.toList) type).2 =
        .notFound := by
  have hmac : mac.toList.length = 6 := mac.length_toList
  have hip : requestIP.toList.length = 4 := requestIP.length_toList
  have hoptions : options.toList.length = 64 := options.length_toList
  rw [createPacket_eq]
  generalize mac.toList = m, requestIP.toList = ip, options.toList = field at *
  have hok : ∀ o ∈ requestOptions m messageType ip, o.1 ≠ 0xFF ∧ o.2.length < 256 := by
    simp [requestOptions, hmac, hip, hostName]
  refine ⟨?_, fun option hoption => ?_, fun type htype => ?_⟩
  · simp [requestOptions, encode, hmac, hip, hostName, hoptions]
  · exact finds_of_mem rfl hok (by simp [requestOptions]) hoption
  · have hskipped : ∀ o ∈ requestOptions m messageType ip, Skipped type o := by
      intro o ho
      refine ⟨(hok o ho).1, ?_, (hok o ho).2⟩
      rintro rfl
      apply htype
      have hcodes : (requestOptions m messageType ip).map Prod.fst = [53, 61, 50, 12, 55] := rfl
      exact hcodes ▸ List.mem_map_of_mem ho
    rw [getOption, List.drop_left' (by rfl), walk_before hskipped, walk_end]

/-! ## Section 3: Options of others -/

/-- `GetOption` stays inside of the field, what it returns is inside and no PAD, and it steps
    over a PAD as one byte. -/
def ParsingRight (type : Byte) (size : Nat) (r : List (Byte × Nat) × Outcome) : Prop :=
  r.2 ≠ .outside ∧ (∀ position length, r.2 = .found position length →
    type ≠ 0 ∧ position + length ≤ size) ∧ ∀ step ∈ r.1, step.1 = 0 → step.2 = 1

/-- Options of other types, none of them a PAD, and then the end or an option of the type. -/
def Proper (type : Byte) (bytes : List Byte) : Prop :=
  ∃ (before : List (Byte × List Byte)) (tail : List Byte), bytes = before.flatMap encode ++ tail ∧
    (∀ o ∈ before, Skipped type o ∧ o.1 ≠ 0) ∧
    ((∃ rest, tail = 0xFF :: rest) ∨ type ≠ 0 ∧ type ≠ 0xFF ∧
      ∃ value rest, value.length < 256 ∧ tail = encode (type, value) ++ rest)

/-- A length byte and the bytes after it are an option if there are enough of them. -/
theorem encode_take (code optionLength : Byte) {values : List Byte}
    (h : optionLength.toNat ≤ values.length) :
    code :: optionLength :: values = encode (code, values.take optionLength.toNat) ++
      values.drop optionLength.toNat ∧ (values.take optionLength.toNat).length < 256 := by
  simp [encode, Nat.min_eq_left h, optionLength.isLt]

theorem proper_of_right (position : Nat) (bytes : List Byte)
    (h : ParsingRight type (position + bytes.length) (walk type position bytes)) :
    Proper type bytes := by
  -- the induction follows the walk: each option it steps over goes to the front of the list
  fun_induction walk type position bytes with
  | case1 => exact absurd rfl h.1
  | case2 position rest => exact ⟨[], _, rfl, by simp, .inl ⟨rest, rfl⟩⟩
  | case3 => exact absurd rfl h.1
  | case4 position optionLength values hend =>
    obtain ⟨hpad, hinside⟩ := h.2.1 _ _ rfl
    simp only [List.length_cons] at hinside
    obtain ⟨heq, hlength⟩ := @encode_take type optionLength values (by omega)
    exact ⟨[], _, rfl, by simp, .inr ⟨hpad, hend, _, _, hlength, heq⟩⟩
  | case5 position current hend optionLength values htype r ih =>
    obtain ⟨hinside, hfound, hsteps⟩ := h
    rw [List.forall_mem_cons] at hsteps
    have hle : optionLength.toNat ≤ values.length := by
      by_contra hlt
      refine hinside ?_
      simp only [r]
      rw [List.drop_eq_nil_of_le (by omega), walk]
    have hpad : current ≠ 0 := fun e => by
      have := hsteps.1 e
      simp only at this
      omega
    obtain ⟨before, tail, heq, hbefore, htail⟩ := ih ⟨hinside, fun p n hp => by
      have := hfound p n hp
      simp only [List.length_cons, List.length_drop] at this ⊢
      exact ⟨this.1, by omega⟩, hsteps.2⟩
    obtain ⟨hencode, hlength⟩ := encode_take current optionLength hle
    refine ⟨(current, values.take optionLength.toNat) :: before, tail, ?_, ?_, htail⟩
    · rw [hencode, heq, List.flatMap_cons, List.append_assoc]
    · rw [List.forall_mem_cons]
      exact ⟨⟨⟨hend, htype, hlength⟩, hpad⟩, hbefore⟩

theorem right_of_proper (position : Nat) {bytes : List Byte} (h : Proper type bytes) :
    ParsingRight type (position + bytes.length) (walk type position bytes) := by
  obtain ⟨before, tail, rfl, hbefore, htail⟩ := h
  rw [walk_before fun o ho => (hbefore o ho).1]
  have hsteps : ∀ step ∈ before.map (fun o => (o.1, 2 + o.2.length)), step.1 = 0 → step.2 = 1 := by
    intro step hstep hpad
    obtain ⟨o, ho, rfl⟩ := List.mem_map.mp hstep
    exact absurd hpad (hbefore o ho).2
  rcases htail with ⟨rest, rfl⟩ | ⟨hpad, hend, value, rest, hlength, rfl⟩
  · rw [walk_end]
    exact ⟨by simp, by simp, by simpa using hsteps⟩
  · rw [walk_hit _ hend hlength]
    refine ⟨by simp, ?_, by simpa using hsteps⟩
    rintro p n ⟨⟩
    simp only [List.length_append, encode, List.length_cons]
    exact ⟨hpad, by omega⟩

/-- For every content of the field and every type: `GetOption` reads and returns what is inside
    of the field and steps over a PAD as one byte exactly if the field has, behind the cookie,
    options with their whole value, none of them a PAD, up to the end or an option of the
    type. -/
theorem parsing_right_iff (options : Vector Byte 64) (type : Byte) :
    ParsingRight type 64 (getOption options.toList type) ↔ Proper type (options.toList.drop 4) := by
  have hsize : options.toList.length = 64 := options.length_toList
  generalize options.toList = field at hsize
  rw [getOption, show 64 = 4 + (field.drop 4).length by rw [List.length_drop, hsize]]
  exact ⟨proper_of_right 4 _, right_of_proper 4⟩

/-- A field of zeros has no end: the walk takes them for options without a value and leaves
    the field. -/
theorem parsing_leaves_field :
    (getOption (List.replicate 64 0) 53).2 = .outside := by
  simp [getOption, walk]

end Fennix.Network.Dhcp
