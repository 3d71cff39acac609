import Fennix.Libc.Stdio
import Mathlib.Data.List.GetD

/-! # Reading from streams

    `fgetc`, `fgets`, `fread` and `fseek` of `Userspace/libc/src/std/stdio.c`, against a
    plain position in the file.

    The initial `stdin` claims a buffer of 4096 bytes that nothing was read into. `fseek`
    sets `buffer_size` to 0, and `fread` asks for `buffer_size` bytes: after `fseek` it
    gets none and reports the end of the file. The position that `Seek` returns is cut to
    an `int`, and taken for an error if that is negative.

    - `call_right`: what one call delivers, compared with the position.
    - `reading_right_iff`: which runs deliver the bytes of the file.
-/

namespace Fennix.Libc.Stdio

/-! ## Section 1: The functions -/

/-- A stream, the offset of its descriptor and the number of calls of `Read` so far. -/
structure Reader where
  file : File
  offset : Nat
  reads : Nat

section functions

variable (content : List Byte) (sysRead : Nat → Nat → Nat → Int)

/-- `Read` of at most `n` bytes into the buffer; `sysRead` says what the call returns,
    given how many have been made, `n` and the number of bytes up to the end. -/
def Reader.read (r : Reader) (n : Nat) : Reader × Int :=
  let res := sysRead r.reads n (content.length - r.offset)
  ({ file := { r.file with
       buffer := fun k => if k < res.toNat then content.getD (r.offset + k) 0
         else r.file.buffer k }
     offset := r.offset + res.toNat
     reads := r.reads + 1 }, res)

/-- The buffer is filled again if nothing is left in it; false if that fails. -/
def Reader.fill (r : Reader) (n : Nat) : Reader × Bool :=
  if r.file.bufferSize ≤ r.file.bufferPos then
    let res := (r.read content sysRead n).2
    let r := (r.read content sysRead n).1
    if res ≤ 0 then
      if res = 0 then ({ r with file := { r.file with eof := true } }, false)
      else ({ r with file := { r.file with error := true } }, false)
    else ({ r with file := { r.file with bufferPos := 0, bufferSize := res.toNat } }, true)
  else (r, true)

/-- `n` bytes of the buffer have been used. -/
def Reader.advance (r : Reader) (n : Nat) : Reader :=
  { r with file := { r.file with bufferPos := (r.file.bufferPos + n) % 2 ^ 64 } }

def fgetc (r : Reader) : Reader × Int :=
  if r.file.flags &&& I_READ = 0 then (r, EOF)
  else
    let filled := r.fill content sysRead 4096
    let r := filled.1
    if filled.2 then (r.advance 1, (r.file.buffer r.file.bufferPos).toNat) else (r, EOF)

/-- The loop of `fgets`, with room for so many characters. -/
def fgetsLoop : Nat → List Byte → Reader → Reader × Option (List Byte)
  | 0, s, r => (r, some s)
  | room + 1, s, r =>
    let c := (fgetc content sysRead r).2
    let r := (fgetc content sysRead r).1
    if c = EOF then (r, if s = [] then none else some s)
    else
      let s := s ++ [BitVec.ofInt 8 c]
      if c = 10 then (r, some s) else fgetsLoop room s r

/-- `fgets`: the string that is stored, or `NULL`. -/
def fgets (n : Int) (r : Reader) : Reader × Option (List Byte) :=
  if n ≤ 0 then (r, none) else fgetsLoop content sysRead (n - 1).toNat [] r

/-- The loop of `fread`, with so many bytes left to copy; `none` if it has not ended
    after so many rounds. -/
def freadLoop : Nat → Nat → List Byte → Reader → Option (Reader × List Byte)
  | 0, left, bytes, r => if left = 0 then some (r, bytes) else none
  | rounds + 1, left, bytes, r =>
    if left = 0 then some (r, bytes)
    else
      let filled := r.fill content sysRead r.file.bufferSize
      let r := filled.1
      if filled.2 then
        let available := (2 ^ 64 + r.file.bufferSize - r.file.bufferPos) % 2 ^ 64
        let n := min left available
        let copied := (List.range n).map fun k : Nat => r.file.buffer (r.file.bufferPos + k)
        freadLoop rounds (left - n) (bytes ++ copied) (r.advance n)
      else some (r, bytes)

/-- `fread`: the bytes that are copied, and what is returned; `none` if it divides by 0. -/
def fread (size nitems : Nat) (r : Reader) : Option (Reader × List Byte × Nat) :=
  let total := size * nitems % 2 ^ 64
  (freadLoop content sysRead total total [] r).bind fun done =>
    if size = 0 then none else some (done.1, done.2, done.2.length / size)

def EINVAL : Int := 28

/-- `fseek` with `SEEK_SET`. `Seek` moves the offset unless it is negative. -/
def fseek (offset : Int) (r : Reader) : Reader × Int :=
  let position := if offset < 0 then -EINVAL else offset
  let r := if offset < 0 then r else { r with offset := offset.toNat }
  let res := (BitVec.ofInt 32 position).toInt
  if res < 0 then ({ r with file := { r.file with error := true } }, EOF)
  else ({ r with file := { r.file with bufferPos := 0, bufferSize := 0 } }, 0)

/-- A call on the stream. -/
inductive ReadCall where
  | fgetc
  | fgets (n : Int)
  | fread (size nitems : Nat)
  | fseek (offset : Int)

/-- What a call delivers. -/
inductive Delivered where
  | char (c : Int)
  | line (s : Option (List Byte))
  | block (bytes : List Byte) (n : Nat)
  | sought (res : Int)
  deriving DecidableEq

def Reader.call (r : Reader) : ReadCall → Option (Reader × Delivered)
  | .fgetc =>
    let done := fgetc content sysRead r
    some (done.1, .char done.2)
  | .fgets n =>
    let done := fgets content sysRead n r
    some (done.1, .line done.2)
  | .fread size nitems =>
    (fread content sysRead size nitems r).map fun done => (done.1, .block done.2.1 done.2.2)
  | .fseek offset =>
    let done := fseek offset r
    some (done.1, .sought done.2)

def Reader.run : List ReadCall → Reader → Option (List Delivered)
  | [], _ => some []
  | c :: calls, r => (r.call content sysRead c).bind fun done =>
    (Reader.run calls done.1).map fun rest => done.2 :: rest

end functions

/-! ## Section 2: A plain position -/

section plain

variable (content : List Byte)

/-- At most `room` bytes, up to the end of the line. -/
def takeLine : Nat → List Byte → List Byte
  | 0, _ => []
  | _ + 1, [] => []
  | room + 1, c :: rest => if c = 10 then [c] else c :: takeLine room rest

/-- What a call should deliver at position `p`, and the position behind that. -/
def plainCall (p : Nat) : ReadCall → Nat × Delivered
  | .fgetc => if p < content.length then (p + 1, .char (content.getD p 0).toNat) else (p, .char EOF)
  | .fgets n =>
    if n ≤ 0 then (p, .line none)
    else
      let line := takeLine (n - 1).toNat (content.drop p)
      (p + line.length, .line (if line = [] ∧ 1 < n then none else some line))
  | .fread size nitems =>
    let bytes := (content.drop p).take (size * nitems % 2 ^ 64)
    (p + bytes.length, .block bytes (bytes.length / size))
  | .fseek offset => if offset < 0 then (p, .sought EOF) else (offset.toNat, .sought 0)

def plainRun : List ReadCall → Nat → List Delivered
  | [], _ => []
  | c :: calls, p => (plainCall content p c).2 :: plainRun calls (plainCall content p c).1

end plain

/-! ## Section 3: What one call does -/

/-- `Read` may return fewer bytes than asked for, but none only at the end of the file or
    if it is asked for none. -/
def MayReadShort (sysRead : Nat → Nat → Nat → Int) : Prop :=
  ∀ k n rest, 0 ≤ sysRead k n rest ∧ sysRead k n rest ≤ n ∧ sysRead k n rest ≤ rest ∧
    (0 < n → 0 < rest → 0 < sysRead k n rest)

/-- The stream is at position `p`: the bytes from there on are those left in the buffer
    and then those from the offset on. -/
structure At (content : List Byte) (r : Reader) (p : Nat) : Prop where
  readable : r.file.flags &&& I_READ ≠ 0
  small : r.file.bufferSize ≤ 4096
  empty : r.file.bufferSize ≤ r.file.bufferPos → r.offset = p
  buffered : r.file.bufferPos < r.file.bufferSize →
    r.offset = p + (r.file.bufferSize - r.file.bufferPos) ∧ r.offset ≤ content.length ∧
    ∀ k, k < r.file.bufferSize - r.file.bufferPos →
      r.file.buffer (r.file.bufferPos + k) = content.getD (p + k) 0

section step

variable {content : List Byte} {sysRead : Nat → Nat → Nat → Int} {r : Reader} {p n : Nat}

theorem drop_eq_getD_cons (hp : p < content.length) :
    content.drop p = content.getD p 0 :: content.drop (p + 1) := by
  rw [List.drop_eq_getElem_cons hp, List.getD_eq_getElem _ _ hp]

theorem fread_of_empty (hread : MayReadShort sysRead) {size nitems : Nat}
    (hempty : r.file.bufferSize = 0) (htotal : size * nitems % 2 ^ 64 ≠ 0) (hsize : size ≠ 0) :
    ∃ r', fread content sysRead size nitems r = some (r', [], 0) := by
  obtain ⟨hnonneg, hle, -⟩ := hread r.reads 0 (content.length - r.offset)
  have hzero : sysRead r.reads 0 (content.length - r.offset) = 0 := by omega
  obtain ⟨rounds, hrounds⟩ : ∃ k, size * nitems % 2 ^ 64 = k + 1 :=
    ⟨size * nitems % 2 ^ 64 - 1, by omega⟩
  simp only [fread, hrounds]
  simp [freadLoop, Reader.fill, Reader.read, hempty, hzero, hsize]

theorem fseek_of_negative {offset : Int} (hoffset : 0 ≤ offset) (hlow : ¬ offset % 2 ^ 32 < 2 ^ 31) :
    (Stdio.fseek offset r).2 = EOF := by
  have hres : (BitVec.ofInt 32 offset).toInt < 0 := by
    rw [BitVec.toInt_ofInt, Int.bmod_def]
    split_ifs <;> omega
  simp only [Stdio.fseek, if_neg (Int.not_lt.mpr hoffset), if_pos hres]

variable (hread : MayReadShort sysRead) (h : At content r p)

include h

theorem At.lt_length (hbuffer : r.file.bufferPos < r.file.bufferSize) : p < content.length := by
  obtain ⟨hoffset, hle, -⟩ := h.buffered hbuffer
  omega

theorem At.advance (hn : r.file.bufferPos + n ≤ r.file.bufferSize)
    (hpos : r.file.bufferPos < r.file.bufferSize) : At content (r.advance n) (p + n) := by
  have hsmall := h.small
  obtain ⟨hoffset, hle, hbytes⟩ := h.buffered hpos
  have hmod : (r.file.bufferPos + n) % 2 ^ 64 = r.file.bufferPos + n := Nat.mod_eq_of_lt (by omega)
  refine ⟨h.readable, h.small, ?_, ?_⟩
  · intro hempty
    change r.file.bufferSize ≤ (r.file.bufferPos + n) % 2 ^ 64 at hempty
    change r.offset = p + n
    omega
  · intro hbuffer
    change (r.file.bufferPos + n) % 2 ^ 64 < r.file.bufferSize at hbuffer
    change r.offset = p + n + (r.file.bufferSize - (r.file.bufferPos + n) % 2 ^ 64) ∧
      r.offset ≤ content.length ∧ ∀ k, k < r.file.bufferSize - (r.file.bufferPos + n) % 2 ^ 64 →
        r.file.buffer ((r.file.bufferPos + n) % 2 ^ 64 + k) = content.getD (p + n + k) 0
    rw [hmod] at hbuffer ⊢
    refine ⟨by omega, hle, fun k hk => ?_⟩
    rw [Nat.add_assoc, Nat.add_assoc]
    exact hbytes (n + k) (by omega)

theorem At.copied (hpos : r.file.bufferPos < r.file.bufferSize)
    (hn : n ≤ r.file.bufferSize - r.file.bufferPos) :
    (List.range n).map (fun k : Nat => r.file.buffer (r.file.bufferPos + k)) =
      (content.drop p).take n := by
  obtain ⟨hoffset, hle, hbytes⟩ := h.buffered hpos
  apply List.ext_getElem
  · simp
    omega
  · intro k hk hk'
    rw [List.length_map, List.length_range] at hk
    rw [List.getElem_map, List.getElem_range, hbytes k (by omega), List.getElem_take,
      List.getElem_drop, List.getD_eq_getElem]

theorem At.fseek {offset : Int} (hoffset : offset < 0 ∨ offset % 2 ^ 32 < 2 ^ 31) :
    ∃ r', Stdio.fseek offset r = (r', if offset < 0 then EOF else 0) ∧
      At content r' (if offset < 0 then p else offset.toNat) := by
  unfold Stdio.fseek
  by_cases hneg : offset < 0
  · have hres : (BitVec.ofInt 32 (-EINVAL)).toInt < 0 := by decide
    simp only [if_pos hneg, if_pos hres]
    exact ⟨_, rfl, h.readable, h.small, h.empty, h.buffered⟩
  · have hres : ¬ (BitVec.ofInt 32 offset).toInt < 0 := by
      rw [BitVec.toInt_ofInt, Int.bmod_def]
      split_ifs <;> omega
    simp only [if_neg hneg, if_neg hres]
    refine ⟨_, rfl, h.readable, Nat.zero_le _, fun _ => rfl, fun hlt => ?_⟩
    exact absurd hlt (Nat.lt_irrefl 0)

include hread

theorem At.fill (hn : n ≤ 4096) (hn0 : n ≠ 0 ∨ r.file.bufferPos < r.file.bufferSize)
    (hp : p < content.length) :
    ∃ r', r.fill content sysRead n = (r', true) ∧ At content r' p ∧
      r'.file.bufferPos < r'.file.bufferSize := by
  unfold Reader.fill Reader.read
  by_cases hempty : r.file.bufferSize ≤ r.file.bufferPos
  · have hoffset := h.empty hempty
    obtain ⟨hnonneg, hlen, hrest, hpos⟩ := hread r.reads n (content.length - r.offset)
    have hpos := hpos (by omega) (by omega)
    generalize sysRead r.reads n (content.length - r.offset) = res at hnonneg hlen hrest hpos
    simp only [if_pos hempty, if_neg (Int.not_le.mpr hpos)]
    refine ⟨_, rfl, ⟨h.readable, ?_, ?_, ?_⟩, ?_⟩
    · change res.toNat ≤ 4096
      omega
    · intro hle
      change res.toNat ≤ 0 at hle
      omega
    · intro _
      change r.offset + res.toNat = p + (res.toNat - 0) ∧ r.offset + res.toNat ≤ content.length ∧
        ∀ k, k < res.toNat - 0 → (if 0 + k < res.toNat then content.getD (r.offset + (0 + k)) 0
          else r.file.buffer (0 + k)) = content.getD (p + k) 0
      refine ⟨by omega, by omega, fun k hk => ?_⟩
      rw [if_pos (by omega), hoffset, Nat.zero_add]
    · change 0 < res.toNat
      omega
  · rw [if_neg hempty]
    exact ⟨r, rfl, h, by omega⟩

theorem At.fill_end (n : Nat) (hp : content.length ≤ p) :
    ∃ r', r.fill content sysRead n = (r', false) ∧ At content r' p := by
  have hempty : r.file.bufferSize ≤ r.file.bufferPos := by
    by_contra hbuffer
    have := h.lt_length (Nat.lt_of_not_le hbuffer)
    omega
  have hoffset := h.empty hempty
  obtain ⟨hnonneg, -, hrest, -⟩ := hread r.reads n (content.length - r.offset)
  have hzero : sysRead r.reads n (content.length - r.offset) = 0 := by omega
  unfold Reader.fill Reader.read
  simp only [if_pos hempty, hzero]
  exact ⟨_, rfl, h.readable, h.small, h.empty, fun hbuffer => absurd hbuffer (by
    change ¬ r.file.bufferPos < r.file.bufferSize
    omega)⟩

theorem At.fgetc (hp : p < content.length) :
    ∃ r', fgetc content sysRead r = (r', ((content.getD p 0).toNat : Int)) ∧
      At content r' (p + 1) := by
  obtain ⟨r', hfill, hat, hbuffer⟩ := h.fill hread (Nat.le_refl 4096) (.inl (by decide)) hp
  have hbyte := (hat.buffered hbuffer).2.2 0 (by omega)
  refine ⟨r'.advance 1, ?_, hat.advance (by omega) hbuffer⟩
  rw [Nat.add_zero, Nat.add_zero] at hbyte
  unfold Stdio.fgetc
  simp only [if_neg h.readable, hfill, if_true, hbyte]

theorem At.fgetc_end (hp : content.length ≤ p) :
    ∃ r', Stdio.fgetc content sysRead r = (r', EOF) ∧ At content r' p := by
  obtain ⟨r', hfill, hat⟩ := h.fill_end hread 4096 hp
  refine ⟨r', ?_, hat⟩
  unfold Stdio.fgetc
  simp only [if_neg h.readable, hfill]
  rfl

theorem At.fgetsLoop (room : Nat) (s : List Byte) :
    let line := takeLine room (content.drop p)
    ∃ r', Stdio.fgetsLoop content sysRead room s r =
        (r', if s ++ line = [] ∧ room ≠ 0 then none else some (s ++ line)) ∧
      At content r' (p + line.length) := by
  induction room generalizing s r p with
  | zero => exact ⟨r, by simp [Stdio.fgetsLoop, takeLine], h⟩
  | succ room ih =>
    unfold Stdio.fgetsLoop
    by_cases hp : p < content.length
    · obtain ⟨r', hgetc, hat⟩ := h.fgetc hread hp
      rw [drop_eq_getD_cons hp, takeLine]
      generalize content.getD p 0 = c at hgetc
      have hchar : BitVec.ofInt 8 (c.toNat : Int) = c := by simp
      have heof : (c.toNat : Int) ≠ EOF := by
        unfold EOF
        omega
      have hnewline : (c.toNat : Int) = 10 ↔ c = 10 := by
        rw [← BitVec.toNat_inj]
        exact Int.ofNat_inj
      simp only [hgetc, if_neg heof, hchar, hnewline]
      by_cases hc : c = 10
      · simp only [if_pos hc]
        exact ⟨r', by simp, hat⟩
      · simp only [if_neg hc]
        obtain ⟨r'', hloop, hat'⟩ := ih hat (s ++ [c])
        refine ⟨r'', ?_, ?_⟩
        · rw [hloop]
          simp
        · rw [List.length_cons]
          convert hat' using 1
          omega
    · obtain ⟨r', hgetc, hat⟩ := h.fgetc_end hread (Nat.le_of_not_lt hp)
      rw [List.drop_eq_nil_of_le (Nat.le_of_not_lt hp)]
      simp only [hgetc, takeLine, if_true]
      exact ⟨r', by simp, hat⟩

theorem At.freadLoop {rounds left : Nat} (bytes : List Byte) (hrounds : left ≤ rounds)
    (hsize : left = 0 ∨ r.file.bufferSize ≠ 0 ∨ content.length ≤ p) :
    ∃ r', Stdio.freadLoop content sysRead rounds left bytes r =
        some (r', bytes ++ (content.drop p).take left) ∧
      At content r' (p + ((content.drop p).take left).length) := by
  induction rounds generalizing left bytes r p with
  | zero =>
    obtain rfl : left = 0 := by omega
    exact ⟨r, by simp [Stdio.freadLoop], by simpa using h⟩
  | succ rounds ih =>
    unfold Stdio.freadLoop
    by_cases hleft : left = 0
    · subst hleft
      exact ⟨r, by simp, by simpa using h⟩
    · by_cases hp : p < content.length
      · obtain ⟨r', hfill, hat, hbuffer⟩ := h.fill hread h.small (.inl (by omega)) hp
        have hsmall := hat.small
        have havailable : (2 ^ 64 + r'.file.bufferSize - r'.file.bufferPos) % 2 ^ 64 =
            r'.file.bufferSize - r'.file.bufferPos := by omega
        simp only [if_neg hleft, hfill, if_true, havailable]
        generalize hn : min left (r'.file.bufferSize - r'.file.bufferPos) = n
        have hnext := hat.advance (n := n) (by omega) hbuffer
        obtain ⟨r'', hloop, hat'⟩ := ih hnext (bytes ++ (content.drop p).take n)
          (show left - n ≤ rounds by omega) (.inr (.inl (by
            change r'.file.bufferSize ≠ 0
            omega)))
        have hsplit : (content.drop p).take left =
            (content.drop p).take n ++ (content.drop (p + n)).take (left - n) := by
          rw [← List.drop_drop, ← List.take_add, Nat.add_sub_cancel' (by omega)]
        refine ⟨r'', ?_, ?_⟩
        · rw [hat.copied hbuffer (by omega), hloop, hsplit, List.append_assoc]
        · rw [hsplit, List.length_append]
          convert hat' using 1
          have hlength : ((content.drop p).take n).length = n := by
            obtain ⟨hoffset, hle, -⟩ := hat.buffered hbuffer
            simp
            omega
          omega
      · obtain ⟨r', hfill, hat⟩ := h.fill_end hread r.file.bufferSize (Nat.le_of_not_lt hp)
        rw [List.drop_eq_nil_of_le (Nat.le_of_not_lt hp)]
        simp only [if_neg hleft, hfill]
        exact ⟨r', by simp, by simpa using hat⟩

/-- A call that keeps clear of the defects: `fread` of no items of size 0, and of bytes
    only if `fseek` has not just emptied the buffer before the end of the file; `fseek` to
    a position that is not negative as an `int`. -/
def Permitted (content : List Byte) (r : Reader) : ReadCall → Prop
  | .fgetc => True
  | .fgets _ => True
  | .fread size nitems => size ≠ 0 ∧
    (size * nitems % 2 ^ 64 = 0 ∨ r.file.bufferSize ≠ 0 ∨ content.length ≤ r.offset)
  | .fseek offset => offset < 0 ∨ offset % 2 ^ 32 < 2 ^ 31

theorem call_right {c : ReadCall} (hc : Permitted content r c) :
    ∃ r', r.call content sysRead c = some (r', (plainCall content p c).2) ∧
      At content r' (plainCall content p c).1 := by
  cases c with
  | fgetc =>
    by_cases hp : p < content.length
    · obtain ⟨r', hgetc, hat⟩ := h.fgetc hread hp
      refine ⟨r', ?_, ?_⟩
      · simp only [Reader.call, plainCall, if_pos hp, hgetc]
      · simpa only [plainCall, if_pos hp] using hat
    · obtain ⟨r', hgetc, hat⟩ := h.fgetc_end hread (Nat.le_of_not_lt hp)
      refine ⟨r', ?_, ?_⟩
      · simp only [Reader.call, plainCall, if_neg hp, hgetc]
      · simpa only [plainCall, if_neg hp] using hat
  | fgets n =>
    by_cases hn : n ≤ 0
    · refine ⟨r, ?_, ?_⟩
      · simp only [Reader.call, plainCall, fgets, if_pos hn]
      · simpa only [plainCall, if_pos hn] using h
    · obtain ⟨r', hloop, hat⟩ := h.fgetsLoop hread (n - 1).toNat []
      have hroom : (n - 1).toNat ≠ 0 ↔ 1 < n := by omega
      refine ⟨r', ?_, ?_⟩
      · simp only [Reader.call, plainCall, fgets, if_neg hn, hloop, List.nil_append, hroom]
      · simpa only [plainCall, if_neg hn] using hat
  | fread size nitems =>
    obtain ⟨hsize, hbytes⟩ := hc
    have hready : size * nitems % 2 ^ 64 = 0 ∨ r.file.bufferSize ≠ 0 ∨ content.length ≤ p := by
      obtain hzero | hbuffer | hend := hbytes
      · exact .inl hzero
      · exact .inr (.inl hbuffer)
      · by_cases hempty : r.file.bufferSize = 0
        · rw [h.empty (by omega)] at hend
          exact .inr (.inr hend)
        · exact .inr (.inl hempty)
    obtain ⟨r', hloop, hat⟩ := h.freadLoop hread [] (Nat.le_refl _) hready
    refine ⟨r', ?_, hat⟩
    simp only [Reader.call, plainCall, fread, hloop, Option.bind_some, if_neg hsize,
      Option.map_some, List.nil_append]
  | fseek offset =>
    obtain ⟨r', hseek, hat⟩ := h.fseek hc
    refine ⟨r', ?_, ?_⟩
    · simp only [Reader.call, hseek, plainCall]
      split_ifs <;> rfl
    · convert hat using 1
      simp only [plainCall]
      split_ifs <;> rfl

theorem call_permitted {c : ReadCall} {r' : Reader}
    (hcall : r.call content sysRead c = some (r', (plainCall content p c).2)) :
    Permitted content r c := by
  cases c with
  | fgetc => trivial
  | fgets n => trivial
  | fread size nitems =>
    obtain ⟨done, hfread, hdone⟩ := Option.map_eq_some_iff.mp hcall
    have hsize : size ≠ 0 := by
      rintro rfl
      obtain ⟨_, -, hdivide⟩ := Option.bind_eq_some_iff.mp hfread
      cases hdivide
    refine ⟨hsize, ?_⟩
    by_contra hnot
    obtain ⟨htotal, hrest⟩ := not_or.mp hnot
    obtain ⟨hbuffer, hoffset⟩ := not_or.mp hrest
    have hbuffer : r.file.bufferSize = 0 := not_not.mp hbuffer
    rw [h.empty (by omega)] at hoffset
    obtain ⟨r'', hempty⟩ := fread_of_empty hread hbuffer htotal hsize
    rw [hempty] at hfread
    cases hfread
    have hbytes : [] = (content.drop p).take (size * nitems % 2 ^ 64) :=
      (Delivered.block.inj (congrArg Prod.snd hdone)).1
    have hlength := congrArg List.length hbytes
    rw [List.length_nil, List.length_take, List.length_drop] at hlength
    omega
  | fseek offset =>
    by_contra hnot
    obtain ⟨hoffset, hlow⟩ := not_or.mp hnot
    have hres := congrArg Prod.snd (Option.some.inj hcall)
    simp only [plainCall, if_neg hoffset, fseek_of_negative (Int.not_lt.mp hoffset) hlow] at hres
    cases hres

end step

/-! ## Section 4: Runs -/

/-- Every call of a run is permitted in the state in which it is made. -/
def Meets (content : List Byte) (sysRead : Nat → Nat → Nat → Int) : List ReadCall → Reader → Prop
  | [], _ => True
  | c :: calls, r => Permitted content r c ∧
    ∀ r' delivered, r.call content sysRead c = some (r', delivered) → Meets content sysRead calls r'

section runs

variable {content : List Byte} {sysRead : Nat → Nat → Nat → Int} {r : Reader} {p : Nat}

theorem run_right_iff (hread : MayReadShort sysRead) {calls : List ReadCall}
    (h : At content r p) :
    Reader.run content sysRead calls r = some (plainRun content calls p) ↔
      Meets content sysRead calls r := by
  induction calls generalizing r p with
  | nil => exact iff_of_true rfl trivial
  | cons c calls ih =>
    constructor
    · intro hrun
      obtain ⟨⟨r', delivered⟩, hcall, hrest⟩ := Option.bind_eq_some_iff.mp hrun
      obtain ⟨rest, hrest, hcons⟩ := Option.map_eq_some_iff.mp hrest
      obtain ⟨rfl, rfl⟩ := List.cons.inj hcons
      have hc := call_permitted hread h hcall
      obtain ⟨r'', hcall', hat⟩ := call_right hread h hc
      obtain rfl : r' = r'' := congrArg Prod.fst (Option.mem_unique hcall hcall')
      refine ⟨hc, fun r₁ delivered₁ hcall₁ => ?_⟩
      obtain rfl : r' = r₁ := congrArg Prod.fst (Option.mem_unique hcall hcall₁)
      exact (ih hat).mp hrest
    · intro ⟨hc, hrest⟩
      obtain ⟨r', hcall, hat⟩ := call_right hread h hc
      rw [Reader.run, hcall, Option.bind_some, (ih hat).mpr (hrest r' _ hcall)]
      rfl

theorem at_opened (content : List Byte) (memory : Nat → Byte) (fd : Int) {flags : BitVec 32}
    (hflags : flags &&& I_READ ≠ 0) : At content ⟨opened memory fd flags, 0, 0⟩ 0 where
  readable := hflags
  small := Nat.le_refl 4096
  empty _ := rfl
  buffered hlt := absurd hlt (by
    change ¬ 2 ^ 64 - 1 < 4096
    decide)

theorem at_moved (content : List Byte) (hflags : r.file.flags &&& I_READ ≠ 0)
    {offset : Int} (hoffset : 0 ≤ offset) (hlow : offset % 2 ^ 32 < 2 ^ 31) :
    ∃ r', fseek offset r = (r', 0) ∧ At content r' offset.toNat := by
  have hres : ¬ (BitVec.ofInt 32 offset).toInt < 0 := by
    rw [BitVec.toInt_ofInt, Int.bmod_def]
    split_ifs <;> omega
  simp only [fseek, if_neg (Int.not_lt.mpr hoffset), if_neg hres]
  refine ⟨_, rfl, hflags, Nat.zero_le _, fun _ => rfl, fun hlt => ?_⟩
  exact absurd hlt (Nat.lt_irrefl 0)

theorem run_moved_iff (hread : MayReadShort sysRead) (hflags : r.file.flags &&& I_READ ≠ 0)
    {offset : Int} (hoffset : 0 ≤ offset) (calls : List ReadCall) :
    Reader.run content sysRead (.fseek offset :: calls) r =
        some (plainRun content (.fseek offset :: calls) 0) ↔
      Meets content sysRead (.fseek offset :: calls) r := by
  have hplain : plainRun content (.fseek offset :: calls) 0 =
      .sought 0 :: plainRun content calls offset.toNat := by
    rw [plainRun, plainCall, if_neg (Int.not_lt.mpr hoffset)]
  rw [hplain]
  by_cases hlow : offset % 2 ^ 32 < 2 ^ 31
  · obtain ⟨r', hseek, hat⟩ := at_moved content hflags hoffset hlow
    have hcall : r.call content sysRead (.fseek offset) = some (r', .sought 0) := by
      simp only [Reader.call, hseek]
    have hiff : Reader.run content sysRead calls r' = some (plainRun content calls offset.toNat) ↔
      Meets content sysRead calls r' := run_right_iff hread hat
    rw [Reader.run, hcall, Option.bind_some]
    constructor
    · intro hrun
      obtain ⟨rest, hrest, hcons⟩ := Option.map_eq_some_iff.mp hrun
      obtain rfl := (List.cons.inj hcons).2
      refine ⟨.inr hlow, fun r'' delivered hcall' => ?_⟩
      obtain rfl : r' = r'' := congrArg Prod.fst (Option.mem_unique hcall hcall')
      exact hiff.mp hrest
    · intro ⟨_, hrest⟩
      rw [hiff.mpr (hrest r' _ hcall)]
      rfl
  · refine iff_of_false ?_ fun hmeets => ?_
    · intro hrun
      obtain ⟨done, hcall, hrest⟩ := Option.bind_eq_some_iff.mp hrun
      obtain ⟨rest, -, hcons⟩ := Option.map_eq_some_iff.mp hrest
      have hres := (List.cons.inj hcons).1
      rw [← Option.some.inj hcall] at hres
      have hzero := Delivered.sought.inj hres
      rw [fseek_of_negative hoffset hlow] at hzero
      exact absurd hzero (by decide)
    · exact hlow (hmeets.1.resolve_left (Int.not_lt.mpr hoffset))

/-- The state in which a run starts: a stream that `fopen` has opened for reading, or
    `stdin`, and then the run starts with `fseek`. -/
def Starts (r : Reader) (calls : List ReadCall) : Prop :=
  (∃ memory fd mode file, fopen memory fd mode = some file ∧ file.flags &&& I_READ ≠ 0 ∧
    r = ⟨file, 0, 0⟩) ∨
  ∃ memory offset rest, r = ⟨stdin memory, 0, 0⟩ ∧ 0 ≤ offset ∧ calls = .fseek offset :: rest

/-- A run delivers the bytes of the file from the current position on, in order, and
    reports the end of the file only there, exactly if all its calls are permitted. -/
theorem reading_right_iff (hread : MayReadShort sysRead) {calls : List ReadCall}
    (hstart : Starts r calls) :
    Reader.run content sysRead calls r = some (plainRun content calls 0) ↔
      Meets content sysRead calls r := by
  obtain ⟨memory, fd, mode, file, hopen, hflags, rfl⟩ | ⟨memory, offset, rest, rfl, hoffset, rfl⟩ :=
    hstart
  · rw [fopen_eq_some hopen]
    exact run_right_iff hread (at_opened content memory fd hflags)
  · exact run_moved_iff hread (show I_READ &&& I_READ ≠ 0 by decide) hoffset rest

end runs

/-- `Read` that returns one byte at a time. -/
def readOne : Nat → Nat → Nat → Int := fun _ n rest => (min n (min 1 rest) : Nat)

theorem mayReadShort_readOne : MayReadShort readOne := by
  intro k n rest
  unfold readOne
  omega

/-- A run of `fgetc` and `fseek` on a file opened for reading. -/
theorem reading_right_iff_opened :
    Reader.run [65, 66] readOne [.fgetc, .fseek 1, .fgetc, .fgetc]
        ⟨opened (fun _ => 0) 3 O_RDONLY, 0, 0⟩ =
      some [.char 65, .sought 0, .char 66, .char EOF] := by
  have hstart : Starts ⟨opened (fun _ => 0) 3 O_RDONLY, 0, 0⟩ [.fgetc, .fseek 1, .fgetc, .fgetc] :=
    .inl ⟨fun _ => 0, 3, "r", _, rfl, by decide, rfl⟩
  exact (reading_right_iff mayReadShort_readOne hstart).mpr
    ⟨trivial, fun _ _ _ => ⟨.inr (by decide), fun _ _ _ => ⟨trivial, fun _ _ _ =>
      ⟨trivial, fun _ _ _ => trivial⟩⟩⟩⟩

/-- After `fseek` to the start `fread` reports the end of a file of two bytes; and the
    initial `stdin` delivers what its buffer happens to hold. -/
theorem reading_wrong :
    (Reader.run [65, 66] readOne [.fseek 0, .fread 1 2] ⟨opened (fun _ => 0) 3 O_RDONLY, 0, 0⟩ =
        some [.sought 0, .block [] 0] ∧
      plainRun [65, 66] [.fseek 0, .fread 1 2] 0 = [.sought 0, .block [65, 66] 2]) ∧
    (Reader.run [65, 66] readOne [.fgetc] ⟨stdin (fun _ => 88), 0, 0⟩ = some [.char 88] ∧
      plainRun [65, 66] [.fgetc] 0 = [.char 65]) := by
  decide +kernel

end Fennix.Libc.Stdio
