import Fennix.Libc.Stdio
import Mathlib.Data.List.GetD

/-! # Writing to streams

    `fputc`, `fputs`, `fwrite`, `fprintf`, `fflush` and `fclose` of
    `Userspace/libc/src/std/stdio.c`, with a `Write` that accepts everything.

    A stream from `fopen` starts with a `buffer_pos` of -1: the first byte is stored before
    the buffer, and `fflush` writes 2^64 - 1 bytes. `fclose` does not write what is still in
    the buffer. `fprintf` prints its text to `stdout` and then puts the format, as it is,
    into the stream.

    - `Buffered`: the bytes written and those in the buffer are those passed so far.
    - `writing_right_iff`: which sequences of calls write exactly what they were passed.
-/

namespace Fennix.Libc.Stdio

/-! ## Section 1: The functions -/

/-- A stream, the bytes handed to `Write` for it, whether something was stored outside of
    its buffer, and the characters put into `stdout` if that is another stream. -/
structure Writer where
  file : File
  written : List Byte
  outside : Bool
  elsewhere : List Byte

/-- Bytes stored one after the other. -/
def memcpy (memory : Nat → Byte) (start : Nat) : List Byte → Nat → Byte
  | [] => memory
  | b :: data => memcpy (fun k => if k = start % 2 ^ 64 then b else memory k) (start + 1) data

namespace Writer

/-- Bytes stored at `buffer_pos`, which is moved behind them. -/
def store (w : Writer) (data : List Byte) : Writer where
  file := { w.file with
    buffer := memcpy w.file.buffer w.file.bufferPos data
    bufferPos := (w.file.bufferPos + data.length) % 2 ^ 64 }
  written := w.written
  outside := w.outside ||
    (List.range data.length).any fun i => 4096 ≤ (w.file.bufferPos + i) % 2 ^ 64
  elsewhere := w.elsewhere

/-- The first `n` bytes from the start of the buffer on. -/
def front (w : Writer) (n : Nat) : List Byte := (List.range n).map w.file.buffer

/-- `Write` of `n` bytes of the buffer, and the `int` that it returns. -/
def write (w : Writer) (n : Nat) : Writer × Int :=
  ({ w with written := w.written ++ w.front n }, (BitVec.ofNat 32 n).toInt)

def setError (w : Writer) : Writer := { w with file := { w.file with error := true } }

def setPos (w : Writer) (pos : Nat) : Writer := { w with file := { w.file with bufferPos := pos } }

end Writer

def fflush (w : Writer) : Writer × Int :=
  if w.file.flags &&& I_WRITE ≠ 0 then
    if 0 < w.file.bufferPos then
      let done := w.write w.file.bufferPos
      if done.2 < 0 then (done.1.setError, EOF) else (done.1.setPos 0, 0)
    else (w, 0)
  else if w.file.flags &&& I_READ ≠ 0 then
    ({ w with file := { w.file with bufferPos := 0, bufferSize := 0 } }, 0)
  else (w, 0)

def fputc (c : Int) (w : Writer) : Writer × Int :=
  if w.file.flags &&& I_WRITE = 0 then (w, EOF)
  else
    let w := w.store [BitVec.ofInt 8 c]
    if w.file.bufferSize ≤ w.file.bufferPos then
      let done := fflush w
      if done.2 = EOF then (done.1, EOF) else (done.1, c % 256)
    else (w, c % 256)

/-- The loop of `fputs`, which is also that of `vfprintf`. -/
def putAll : List Byte → Writer → Writer × Int
  | [], w => (w, 0)
  | c :: s, w =>
    let done := fputc c.toInt w
    if done.2 = EOF then (done.1, EOF) else putAll s done.1

def fputs (s : List Byte) (w : Writer) : Writer × Int :=
  if w.file.flags &&& I_WRITE = 0 then (w, EOF) else putAll s w

/-- The loop of `fwrite`, with these bytes left; `none` if it has not ended after so many
    rounds. -/
def fwriteLoop : Nat → List Byte → Writer → Option Writer
  | 0, data, w => if data = [] then some w else none
  | rounds + 1, data, w =>
    if data = [] then some w
    else
      let space := (2 ^ 64 + w.file.bufferSize - w.file.bufferPos) % 2 ^ 64
      let n := min data.length space
      let w := w.store (data.take n)
      if w.file.bufferPos = w.file.bufferSize then
        let done := w.write w.file.bufferSize
        if done.2 ≠ w.file.bufferSize then some done.1.setError
        else fwriteLoop rounds (data.drop n) (done.1.setPos 0)
      else fwriteLoop rounds (data.drop n) w

/-- `fwrite` of the memory at `ptr`; `none` if it divides by 0. -/
def fwrite (ptr : Nat → Byte) (size nitems : Nat) (w : Writer) : Option Writer :=
  let total := size * nitems % 2 ^ 64
  (fwriteLoop total ((List.range total).map ptr) w).bind fun w =>
    if size = 0 then none else some w

/-- `vfprintf`, given the text that `vprintf_` makes of the format and its arguments and
    puts into `stdout`. -/
def vfprintf (isStdout : Bool) (format text : List Byte) (w : Writer) : Writer × Int :=
  if w.file.flags &&& I_WRITE = 0 then (w, EOF)
  else
    let w := if isStdout then (putAll text w).1 else { w with elsewhere := w.elsewhere ++ text }
    let done := putAll format w
    if done.2 = EOF then (done.1.setError, EOF) else (done.1, text.length)

/-- A call on the stream. -/
inductive WriteCall where
  | fputc (c : Int)
  | fputs (s : List Byte)
  | fwrite (ptr : Nat → Byte) (size nitems : Nat)
  | fprintf (format text : List Byte)
  | fflush

/-- The bytes passed to a call. -/
def WriteCall.bytes : WriteCall → List Byte
  | .fputc c => [BitVec.ofInt 8 c]
  | .fputs s => s
  | .fwrite ptr size nitems => (List.range (size * nitems)).map ptr
  | .fprintf _ text => text
  | .fflush => []

def Writer.call (isStdout : Bool) (w : Writer) : WriteCall → Option Writer
  | .fputc c => some (Stdio.fputc c w).1
  | .fputs s => some (Stdio.fputs s w).1
  | .fwrite ptr size nitems => Stdio.fwrite ptr size nitems w
  | .fprintf format text => some (vfprintf isStdout format text w).1
  | .fflush => some (Stdio.fflush w).1

/-- `fclose` frees the buffer and closes the descriptor; nothing is written. -/
def fclose (w : Writer) : Writer := w

/-- A sequence of calls, followed by `fclose`. -/
def Writer.run (isStdout : Bool) (calls : List WriteCall) (w : Writer) : Option Writer :=
  (calls.foldlM (Writer.call isStdout) w).map fclose

/-! ## Section 2: A buffer in order -/

/-- The bytes handed to `Write` and those in the buffer are `done`. -/
structure Buffered (w : Writer) (done : List Byte) : Prop where
  writable : w.file.flags &&& I_WRITE ≠ 0
  size : w.file.bufferSize = 4096
  pos : w.file.bufferPos ≤ 4096
  bytes : w.written ++ w.front w.file.bufferPos = done
  inside : w.outside = false
  here : w.elsewhere = []

section buffered

variable {w : Writer} {done : List Byte}

variable {data : List Byte}

theorem memcpy_of_lt (memory : Nat → Byte) {start k : Nat} (hfit : start + data.length ≤ 4096)
    (hk : k < start) : memcpy memory start data k = memory k := by
  induction data generalizing memory start with
  | nil => rfl
  | cons b data ih =>
    rw [List.length_cons] at hfit
    rw [memcpy, ih _ (by omega) (by omega), if_neg (by omega)]

theorem memcpy_add (memory : Nat → Byte) {start i : Nat} (hfit : start + data.length ≤ 4096)
    (hi : i < data.length) : memcpy memory start data (start + i) = data[i] := by
  induction data generalizing memory start i with
  | nil => cases hi
  | cons b data ih =>
    rw [List.length_cons] at hfit hi
    cases i with
    | zero =>
      rw [memcpy, memcpy_of_lt _ (by omega) (by omega), if_pos (by omega)]
      rfl
    | succ i =>
      have hindex : start + (i + 1) = start + 1 + i := by omega
      rw [memcpy, List.getElem_cons_succ, hindex]
      exact ih _ (by omega) (by omega)

theorem store_front (hfit : w.file.bufferPos + data.length ≤ 4096) :
    (w.store data).front (w.file.bufferPos + data.length) = w.front w.file.bufferPos ++ data := by
  unfold Writer.front
  rw [List.range_add, List.map_append, List.map_map]
  congr 1
  · apply List.map_congr_left
    intro k hk
    exact memcpy_of_lt _ hfit (List.mem_range.mp hk)
  · apply List.ext_getElem
    · simp
    · intro i hi hi'
      rw [List.getElem_map, List.getElem_range]
      exact memcpy_add _ hfit hi'

theorem store_bufferPos (w : Writer) (data : List Byte) :
    (w.store data).file.bufferPos = (w.file.bufferPos + data.length) % 2 ^ 64 := rfl

theorem store_outside (w : Writer) (data : List Byte) :
    (w.store data).outside = (w.outside ||
      (List.range data.length).any fun i => 4096 ≤ (w.file.bufferPos + i) % 2 ^ 64) := rfl

theorem Buffered.store (h : Buffered w done) (data : List Byte)
    (hfit : w.file.bufferPos + data.length ≤ 4096) :
    Buffered (w.store data) (done ++ data) ∧
      (w.store data).file.bufferPos = w.file.bufferPos + data.length := by
  have hpos : (w.store data).file.bufferPos = w.file.bufferPos + data.length := by
    rw [store_bufferPos]
    exact Nat.mod_eq_of_lt (by omega)
  have hinside : ((List.range data.length).any fun i =>
      4096 ≤ (w.file.bufferPos + i) % 2 ^ 64) = false := by
    rw [List.any_eq_false]
    intro i hi
    have hi : i < data.length := List.mem_range.mp hi
    have hindex : (w.file.bufferPos + i) % 2 ^ 64 = w.file.bufferPos + i :=
      Nat.mod_eq_of_lt (by omega)
    rw [decide_eq_true_iff, hindex]
    omega
  refine ⟨⟨h.writable, h.size, by omega, ?_, ?_, h.here⟩, hpos⟩
  · rw [hpos, store_front hfit, ← List.append_assoc]
    exact congrArg (· ++ data) h.bytes
  · rw [store_outside, h.inside, hinside]
    rfl

theorem Buffered.write (h : Buffered w done) :
    Buffered ((w.write w.file.bufferPos).1.setPos 0) done where
  writable := h.writable
  size := h.size
  pos := Nat.zero_le _
  bytes := (List.append_nil _).trans h.bytes
  inside := h.inside
  here := h.here

theorem write_result {n : Nat} (hn : n ≤ 4096) : (w.write n).2 = n := by
  change (BitVec.ofNat 32 n).toInt = n
  rw [BitVec.toInt_eq_toNat_bmod, BitVec.toNat_ofNat, Int.bmod_def]
  split_ifs <;> omega

theorem Buffered.fflush (h : Buffered w done) :
    Buffered (fflush w).1 done ∧ (fflush w).1.file.bufferPos = 0 ∧ (Stdio.fflush w).2 = 0 := by
  unfold Stdio.fflush
  rw [if_pos h.writable]
  by_cases hpos : 0 < w.file.bufferPos
  · have hresult : ¬ (w.write w.file.bufferPos).2 < 0 := by
      rw [write_result h.pos]
      omega
    rw [if_pos hpos]
    dsimp only
    rw [if_neg hresult]
    exact ⟨h.write, rfl, rfl⟩
  · rw [if_neg hpos]
    exact ⟨h, Nat.eq_zero_of_not_pos hpos, rfl⟩

theorem Buffered.fputc (h : Buffered w done) (hroom : w.file.bufferPos < 4096) (c : Int) :
    Buffered (Stdio.fputc c w).1 (done ++ [BitVec.ofInt 8 c]) ∧
      (Stdio.fputc c w).1.file.bufferPos = (w.file.bufferPos + 1) % 4096 ∧
      (Stdio.fputc c w).2 ≠ EOF := by
  obtain ⟨hstore, hpos⟩ := h.store [BitVec.ofInt 8 c] hroom
  have hchar : c % 256 ≠ EOF := by
    unfold EOF
    omega
  unfold Stdio.fputc
  rw [if_neg h.writable]
  simp only [hstore.size]
  by_cases hfull : 4096 ≤ (w.store [BitVec.ofInt 8 c]).file.bufferPos
  · obtain ⟨hflush, hzero, hresult⟩ := hstore.fflush
    have hresult : (Stdio.fflush (w.store [BitVec.ofInt 8 c])).2 ≠ EOF := by
      rw [hresult]
      decide
    simp only [if_pos hfull, if_neg hresult]
    refine ⟨hflush, ?_, hchar⟩
    rw [hzero]
    rw [hpos, List.length_singleton] at hfull
    omega
  · simp only [if_neg hfull]
    refine ⟨hstore, ?_, hchar⟩
    rw [hpos, List.length_singleton] at hfull ⊢
    omega

theorem Buffered.putAll (s : List Byte) (h : Buffered w done) (hroom : w.file.bufferPos < 4096) :
    Buffered (Stdio.putAll s w).1 (done ++ s) ∧
      (Stdio.putAll s w).1.file.bufferPos = (w.file.bufferPos + s.length) % 4096 := by
  induction s generalizing w done with
  | nil =>
    rw [List.append_nil]
    exact ⟨h, (Nat.mod_eq_of_lt hroom).symm⟩
  | cons c s ih =>
    obtain ⟨hput, hpos, hresult⟩ := h.fputc hroom c.toInt
    rw [BitVec.ofInt_toInt] at hput
    obtain ⟨hall, hpos'⟩ := ih hput (by omega)
    simp only [Stdio.putAll, if_neg hresult]
    rw [List.append_assoc] at hall
    refine ⟨hall, ?_⟩
    rw [hpos', hpos, List.length_cons]
    omega

theorem Buffered.fwriteLoop {rounds : Nat} (h : Buffered w done) (hroom : w.file.bufferPos < 4096)
    (hrounds : data.length ≤ rounds) :
    ∃ w', Stdio.fwriteLoop rounds data w = some w' ∧ Buffered w' (done ++ data) ∧
      w'.file.bufferPos = (w.file.bufferPos + data.length) % 4096 := by
  induction rounds generalizing w done data with
  | zero =>
    obtain rfl : data = [] := List.length_eq_zero_iff.mp (by omega)
    refine ⟨w, rfl, by rwa [List.append_nil], (Nat.mod_eq_of_lt hroom).symm⟩
  | succ rounds ih =>
    unfold Stdio.fwriteLoop
    by_cases hdata : data = []
    · subst hdata
      rw [List.append_nil]
      exact ⟨w, rfl, h, (Nat.mod_eq_of_lt hroom).symm⟩
    · have hlength : 0 < data.length := List.length_pos_iff.mpr hdata
      have hspace : (2 ^ 64 + w.file.bufferSize - w.file.bufferPos) % 2 ^ 64 =
          4096 - w.file.bufferPos := by
        rw [h.size]
        omega
      simp only [if_neg hdata, hspace]
      generalize hn : min data.length (4096 - w.file.bufferPos) = n
      have htake : (data.take n).length = n := by
        rw [List.length_take]
        omega
      obtain ⟨hstore, hpos⟩ := h.store (data.take n) (by omega)
      rw [htake] at hpos
      have hparts : done ++ data.take n ++ data.drop n = done ++ data := by
        rw [List.append_assoc, List.take_append_drop]
      have hrest : (data.drop n).length = data.length - n := List.length_drop
      simp only [hstore.size]
      by_cases hfull : (w.store (data.take n)).file.bufferPos = 4096
      · have hresult : ¬ ((w.store (data.take n)).write 4096).2 ≠ (4096 : Nat) :=
          not_not.mpr (write_result (Nat.le_refl 4096))
        simp only [if_pos hfull, if_neg hresult]
        have hwrite := hstore.write
        rw [hfull] at hwrite
        obtain ⟨w', hloop, hdone, hpos'⟩ := ih hwrite (show 0 < 4096 by decide)
          (show (data.drop n).length ≤ rounds by omega)
        rw [hparts] at hdone
        refine ⟨w', hloop, hdone, hpos'.trans ?_⟩
        change (0 + (data.drop n).length) % 4096 = _
        omega
      · simp only [if_neg hfull]
        obtain ⟨w', hloop, hdone, hpos'⟩ := ih hstore (by omega)
          (show (data.drop n).length ≤ rounds by omega)
        rw [hparts] at hdone
        refine ⟨w', hloop, hdone, hpos'.trans ?_⟩
        rw [hpos, hrest]
        omega

theorem vfprintf_nil (isStdout : Bool) (hflags : w.file.flags &&& I_WRITE ≠ 0) :
    vfprintf isStdout [] [] w = (w, 0) := by
  have hsame : (if isStdout then (putAll [] w).1
      else { w with elsewhere := w.elsewhere ++ [] }) = w := by
    cases isStdout with
    | false => simp
    | true => rfl
  unfold vfprintf
  rw [if_neg hflags]
  dsimp only
  rw [hsame]
  exact if_neg (show (0 : Int) ≠ EOF by decide)

/-- A call that is passed something it can handle: `fwrite` of items with a size, and of
    `fprintf` only empty formats. -/
def Regular : WriteCall → Prop
  | .fputc _ => True
  | .fputs _ => True
  | .fwrite _ size nitems => size ≠ 0 ∧ size * nitems < 2 ^ 64
  | .fprintf format text => format = [] ∧ text = []
  | .fflush => True

/-- The number of bytes passed since the last `fflush`. -/
def sinceFlush (n : Nat) : WriteCall → Nat
  | .fflush => 0
  | .fputc _ => n + 1
  | .fputs s => n + s.length
  | .fwrite _ size nitems => n + size * nitems
  | .fprintf _ text => n + text.length

theorem Buffered.call (isStdout : Bool) (h : Buffered w done) (hroom : w.file.bufferPos < 4096)
    {c : WriteCall} (hc : Regular c) :
    ∃ w', w.call isStdout c = some w' ∧ Buffered w' (done ++ c.bytes) ∧
      w'.file.bufferPos = sinceFlush w.file.bufferPos c % 4096 := by
  cases c with
  | fputc c =>
    obtain ⟨hput, hpos, -⟩ := h.fputc hroom c
    exact ⟨_, rfl, hput, hpos⟩
  | fputs s =>
    obtain ⟨hput, hpos⟩ := h.putAll s hroom
    refine ⟨(Stdio.putAll s w).1, ?_, hput, hpos⟩
    rw [Writer.call, fputs, if_neg h.writable]
  | fwrite ptr size nitems =>
    obtain ⟨hsize, htotal⟩ := hc
    have hmod : size * nitems % 2 ^ 64 = size * nitems := Nat.mod_eq_of_lt htotal
    have hlength : ((List.range (size * nitems)).map ptr).length = size * nitems := by simp
    obtain ⟨w', hloop, hdone, hpos⟩ := h.fwriteLoop hroom hlength.le
    refine ⟨w', ?_, hdone, ?_⟩
    · simp only [Writer.call, Stdio.fwrite, hmod, hloop, Option.bind_some, if_neg hsize]
    · rw [hpos, hlength]
      rfl
  | fprintf format text =>
    obtain ⟨rfl, rfl⟩ := hc
    refine ⟨w, ?_, by rwa [WriteCall.bytes, List.append_nil], ?_⟩
    · rw [Writer.call, vfprintf_nil isStdout h.writable]
    · exact (Nat.mod_eq_of_lt hroom).symm
  | fflush =>
    obtain ⟨hflush, hpos, -⟩ := h.fflush
    refine ⟨_, rfl, by rwa [WriteCall.bytes, List.append_nil], ?_⟩
    rw [hpos]
    rfl

theorem Buffered.run (isStdout : Bool) {calls : List WriteCall} {n : Nat} (h : Buffered w done)
    (hpos : w.file.bufferPos = n % 4096) (hcalls : ∀ c ∈ calls, Regular c) :
    ∃ w', calls.foldlM (Writer.call isStdout) w = some w' ∧
      Buffered w' (done ++ calls.flatMap WriteCall.bytes) ∧
      w'.file.bufferPos = calls.foldl sinceFlush n % 4096 := by
  induction calls generalizing w done n with
  | nil => exact ⟨w, rfl, by rwa [List.flatMap_nil, List.append_nil], hpos⟩
  | cons c calls ih =>
    obtain ⟨hc, hcalls⟩ := List.forall_mem_cons.mp hcalls
    obtain ⟨w₁, hcall, hbuffered, hpos₁⟩ := h.call isStdout (by omega) hc
    have hnext : w₁.file.bufferPos = sinceFlush n c % 4096 := by
      rw [hpos₁, hpos]
      cases c <;> simp [sinceFlush]
    obtain ⟨w', hrun, hdone, hpos'⟩ := ih hbuffered hnext hcalls
    refine ⟨w', ?_, ?_, hpos'⟩
    · rw [List.foldlM_cons, hcall]
      exact hrun
    · rwa [List.append_assoc, ← List.flatMap_cons] at hdone

end buffered

/-! ## Section 3: Streams from `fopen` -/

section fresh

variable {w w' : Writer}

/-- The position is the one that `fopen` sets. -/
structure Fresh (w : Writer) : Prop where
  writable : w.file.flags &&& I_WRITE ≠ 0
  size : w.file.bufferSize = 4096
  pos : w.file.bufferPos = 2 ^ 64 - 1

theorem outside_store (data : List Byte) (h : w.outside = true) : (w.store data).outside = true := by
  rw [store_outside, h, Bool.true_or]

theorem outside_write (n : Nat) (h : w.outside = true) :
    ((w.write n).1.setPos 0).outside = true := h

theorem outside_fflush (h : w.outside = true) : (fflush w).1.outside = true := by
  unfold fflush
  split_ifs <;> try exact h
  dsimp only
  split_ifs <;> exact h

theorem outside_fputc (c : Int) (h : w.outside = true) : (fputc c w).1.outside = true := by
  unfold fputc
  split_ifs
  · exact h
  · dsimp only
    split_ifs
    · exact outside_fflush (outside_store _ h)
    · exact outside_fflush (outside_store _ h)
    · exact outside_store _ h

theorem outside_putAll (s : List Byte) (h : w.outside = true) : (putAll s w).1.outside = true := by
  induction s generalizing w with
  | nil => exact h
  | cons c s ih =>
    unfold putAll
    dsimp only
    split_ifs
    · exact outside_fputc _ h
    · exact ih (outside_fputc _ h)

variable {data : List Byte} {c : WriteCall} {calls : List WriteCall}

theorem outside_fwriteLoop {rounds : Nat} (h : w.outside = true)
    (hloop : fwriteLoop rounds data w = some w') : w'.outside = true := by
  induction rounds generalizing w data with
  | zero =>
    unfold fwriteLoop at hloop
    split_ifs at hloop
    cases hloop
    exact h
  | succ rounds ih =>
    unfold fwriteLoop at hloop
    dsimp only at hloop
    split_ifs at hloop
    · cases hloop
      exact h
    · cases hloop
      exact outside_store _ h
    · exact ih (outside_write _ (outside_store _ h)) hloop
    · exact ih (outside_store _ h) hloop

theorem outside_call (isStdout : Bool) (h : w.outside = true) (hcall : w.call isStdout c = some w') :
    w'.outside = true := by
  cases c with
  | fputc c =>
    cases hcall
    exact outside_fputc c h
  | fputs s =>
    cases hcall
    unfold fputs
    split_ifs
    · exact h
    · exact outside_putAll s h
  | fwrite ptr size nitems =>
    obtain ⟨w₁, hloop, hdivide⟩ := Option.bind_eq_some_iff.mp hcall
    split_ifs at hdivide
    cases hdivide
    exact outside_fwriteLoop h hloop
  | fprintf format text =>
    cases hcall
    have hfirst : (if isStdout then (putAll text w).1
        else { w with elsewhere := w.elsewhere ++ text }).outside = true := by
      cases isStdout with
      | false => exact h
      | true => exact outside_putAll text h
    unfold vfprintf
    by_cases hflags : w.file.flags &&& I_WRITE = 0
    · rw [if_pos hflags]
      exact h
    · rw [if_neg hflags]
      dsimp only
      generalize (if isStdout then (putAll text w).1
        else { w with elsewhere := w.elsewhere ++ text }) = w₁ at hfirst ⊢
      split_ifs
      · exact outside_putAll format hfirst
      · exact outside_putAll format hfirst
  | fflush =>
    cases hcall
    exact outside_fflush h

theorem outside_run (isStdout : Bool) (h : w.outside = true)
    (hrun : calls.foldlM (Writer.call isStdout) w = some w') : w'.outside = true := by
  induction calls generalizing w with
  | nil =>
    cases hrun
    exact h
  | cons c calls ih =>
    obtain ⟨w₁, hcall, hrest⟩ := Option.bind_eq_some_iff.mp hrun
    exact ih (outside_call isStdout h hcall) hrest

theorem Fresh.store (h : Fresh w) (hdata : data ≠ []) : (w.store data).outside = true := by
  have hlength : 0 < data.length := List.length_pos_iff.mpr hdata
  rw [store_outside, Bool.or_eq_true]
  right
  rw [List.any_eq_true]
  refine ⟨0, List.mem_range.mpr hlength, ?_⟩
  rw [decide_eq_true_iff, h.pos]
  decide

theorem Fresh.fputc (h : Fresh w) (c : Int) : (Stdio.fputc c w).1.outside = true := by
  have hstore := h.store (List.cons_ne_nil (BitVec.ofInt 8 c) [])
  unfold Stdio.fputc
  rw [if_neg h.writable]
  dsimp only
  split_ifs
  · exact outside_fflush hstore
  · exact outside_fflush hstore
  · exact hstore

theorem Fresh.fwriteLoop (h : Fresh w) {rounds : Nat} (hdata : data ≠ [])
    (hloop : Stdio.fwriteLoop rounds data w = some w') : w'.outside = true := by
  cases rounds with
  | zero =>
    rw [Stdio.fwriteLoop, if_neg hdata] at hloop
    cases hloop
  | succ rounds =>
    have hlength : 0 < data.length := List.length_pos_iff.mpr hdata
    have hspace : (2 ^ 64 + w.file.bufferSize - w.file.bufferPos) % 2 ^ 64 = 4097 := by
      rw [h.size, h.pos]
      decide
    have htake : data.take (min data.length 4097) ≠ [] := by
      rw [← List.length_pos_iff, List.length_take]
      omega
    have hstore := h.store htake
    unfold Stdio.fwriteLoop at hloop
    simp only [if_neg hdata, hspace] at hloop
    split_ifs at hloop
    · cases hloop
      exact hstore
    · exact outside_fwriteLoop (outside_write _ hstore) hloop
    · exact outside_fwriteLoop hstore hloop

theorem Fresh.fflush (h : Fresh w) :
    Fresh (Stdio.fflush w).1 ∧ (Stdio.fflush w).1.outside = w.outside ∧
      (Stdio.fflush w).1.written.length = w.written.length + (2 ^ 64 - 1) := by
  have hresult : (w.write w.file.bufferPos).2 < 0 := by
    change (BitVec.ofNat 32 w.file.bufferPos).toInt < 0
    rw [h.pos]
    decide
  have hlength : (w.front w.file.bufferPos).length = 2 ^ 64 - 1 := by
    rw [Writer.front, List.length_map, List.length_range, h.pos]
  unfold Stdio.fflush
  rw [if_pos h.writable, if_pos (by rw [h.pos]; decide)]
  dsimp only
  rw [if_pos hresult]
  refine ⟨⟨h.writable, h.size, h.pos⟩, rfl, ?_⟩
  exact (List.length_append).trans (congrArg (w.written.length + ·) hlength)

theorem Fresh.call_nil (isStdout : Bool) (h : Fresh w) (hc : Regular c) (hbytes : c.bytes = [])
    (hflush : c ≠ .fflush) : w.call isStdout c = some w := by
  cases c with
  | fputc c => cases hbytes
  | fputs s =>
    obtain rfl : s = [] := hbytes
    rw [Writer.call, fputs, if_neg h.writable]
    rfl
  | fwrite ptr size nitems =>
    have htotal : size * nitems = 0 := by
      have hlength := congrArg List.length hbytes
      simpa [WriteCall.bytes] using hlength
    simp only [Writer.call, fwrite, htotal, Nat.zero_mod, List.range_zero, List.map_nil,
      Stdio.fwriteLoop, if_true, Option.bind_some, if_neg hc.1]
  | fprintf format text =>
    obtain ⟨rfl, rfl⟩ := hc
    rw [Writer.call, vfprintf_nil isStdout h.writable]
  | fflush => exact absurd rfl hflush

theorem Fresh.call_bytes (isStdout : Bool) (h : Fresh w) (hc : Regular c) (hbytes : c.bytes ≠ [])
    (hcall : w.call isStdout c = some w') : w'.outside = true := by
  cases c with
  | fputc c =>
    cases hcall
    exact h.fputc c
  | fputs s =>
    cases hcall
    cases s with
    | nil => exact absurd rfl hbytes
    | cons b s =>
      rw [fputs, if_neg h.writable, putAll]
      split_ifs
      · exact h.fputc _
      · exact outside_putAll s (h.fputc _)
  | fwrite ptr size nitems =>
    obtain ⟨w₁, hloop, hdivide⟩ := Option.bind_eq_some_iff.mp hcall
    split_ifs at hdivide
    cases hdivide
    rw [Nat.mod_eq_of_lt hc.2] at hloop
    exact h.fwriteLoop hbytes hloop
  | fprintf format text => exact absurd hc.2 hbytes
  | fflush => exact absurd rfl hbytes

theorem Fresh.run_inside (isStdout : Bool) (h : Fresh w) (hcalls : ∀ c ∈ calls, Regular c)
    (hrun : calls.foldlM (Writer.call isStdout) w = some w') (hinside : w'.outside = false) :
    w.written.length ≤ w'.written.length ∧
      ∀ c ∈ calls, c.bytes = [] ∧ (c = .fflush → w.written.length < w'.written.length) := by
  induction calls generalizing w with
  | nil =>
    cases hrun
    exact ⟨Nat.le_refl _, fun c hc => (List.not_mem_nil hc).elim⟩
  | cons c calls ih =>
    obtain ⟨hc, hregular⟩ := List.forall_mem_cons.mp hcalls
    obtain ⟨w₁, hcall, hrest⟩ := Option.bind_eq_some_iff.mp hrun
    have hbytes : c.bytes = [] := by
      by_contra hne
      have houtside := outside_run isStdout (h.call_bytes isStdout hc hne hcall) hrest
      rw [hinside] at houtside
      cases houtside
    by_cases hflush : c = .fflush
    · subst hflush
      obtain ⟨hfresh, -, hlength⟩ := h.fflush
      cases hcall
      obtain ⟨hle, hall⟩ := ih hfresh hregular hrest
      refine ⟨by omega, List.forall_mem_cons.mpr ⟨⟨hbytes, fun _ => by omega⟩, fun c hc => ?_⟩⟩
      exact ⟨(hall c hc).1, fun _ => by omega⟩
    · rw [h.call_nil isStdout hc hbytes hflush] at hcall
      cases hcall
      obtain ⟨hle, hall⟩ := ih h hregular hrest
      exact ⟨hle, List.forall_mem_cons.mpr ⟨⟨hbytes, fun heq => absurd heq hflush⟩, hall⟩⟩

theorem Fresh.run_nil (isStdout : Bool) (h : Fresh w) (hcalls : ∀ c ∈ calls, Regular c)
    (hnone : ∀ c ∈ calls, c.bytes = [] ∧ c ≠ .fflush) :
    calls.foldlM (Writer.call isStdout) w = some w := by
  induction calls with
  | nil => rfl
  | cons c calls ih =>
    obtain ⟨hc, hcalls⟩ := List.forall_mem_cons.mp hcalls
    obtain ⟨⟨hbytes, hflush⟩, hnone⟩ := List.forall_mem_cons.mp hnone
    rw [List.foldlM_cons, h.call_nil isStdout hc hbytes hflush]
    exact ih hcalls hnone

end fresh

/-! ## Section 4: Sequences of calls -/

/-- A stream before the first call. -/
def untouched (file : File) : Writer := ⟨file, [], false, []⟩

/-- After the calls and `fclose` the bytes handed to `Write` are those passed to the calls,
    and nothing was stored outside of the buffer. -/
def WritesRight (isStdout : Bool) (calls : List WriteCall) (file : File) : Prop :=
  ∃ w, Writer.run isStdout calls (untouched file) = some w ∧
    w.written = calls.flatMap WriteCall.bytes ∧ w.outside = false ∧ w.elsewhere = []

variable {calls : List WriteCall}

theorem writesRight_opened_iff (isStdout : Bool) (hcalls : ∀ c ∈ calls, Regular c)
    (memory : Nat → Byte) (fd : Int) {flags : BitVec 32} (hflags : flags &&& I_WRITE ≠ 0) :
    WritesRight isStdout calls (opened memory fd flags) ↔
      ∀ c ∈ calls, c.bytes = [] ∧ c ≠ .fflush := by
  have hfresh : Fresh (untouched (opened memory fd flags)) := ⟨hflags, rfl, rfl⟩
  constructor
  · intro ⟨w, hrun, hwritten, hinside, _⟩
    obtain ⟨w', hcalled, rfl⟩ := Option.map_eq_some_iff.mp hrun
    obtain ⟨-, hall⟩ := hfresh.run_inside isStdout hcalls hcalled hinside
    have hnone : calls.flatMap WriteCall.bytes = [] :=
      List.flatMap_eq_nil_iff.mpr fun c hc => (hall c hc).1
    intro c hc
    refine ⟨(hall c hc).1, fun hflush => ?_⟩
    have hlt := (hall c hc).2 hflush
    change _ < (fclose w').written.length at hlt
    rw [hwritten, hnone] at hlt
    exact absurd hlt (Nat.not_lt_zero _)
  · intro hnone
    refine ⟨untouched (opened memory fd flags), ?_, ?_, rfl, rfl⟩
    · rw [Writer.run, hfresh.run_nil isStdout hcalls hnone]
      rfl
    · exact (List.flatMap_eq_nil_iff.mpr fun c hc => (hnone c hc).1).symm

theorem writesRight_initial_iff (isStdout : Bool) (hcalls : ∀ c ∈ calls, Regular c)
    (memory : Nat → Byte) (fd : Int) {flags : BitVec 32} (hflags : flags &&& I_WRITE ≠ 0) :
    WritesRight isStdout calls (initial memory fd flags) ↔ calls.foldl sinceFlush 0 % 4096 = 0 := by
  have hbuffered : Buffered (untouched (initial memory fd flags)) [] :=
    ⟨hflags, rfl, Nat.zero_le _, rfl, rfl, rfl⟩
  obtain ⟨w', hrun, hdone, hpos⟩ := hbuffered.run (n := 0) isStdout rfl hcalls
  have hlength : (w'.front w'.file.bufferPos).length = w'.file.bufferPos := by
    rw [Writer.front, List.length_map, List.length_range]
  rw [← hpos]
  constructor
  · intro ⟨w, hrun', hwritten, _, _⟩
    rw [Writer.run, hrun, Option.map_some] at hrun'
    cases hrun'
    have hbytes := congrArg List.length hdone.bytes
    change w'.written = _ at hwritten
    rw [hwritten, List.length_append, hlength, List.nil_append] at hbytes
    omega
  · intro hzero
    refine ⟨w', by rw [Writer.run, hrun]; rfl, ?_, hdone.inside, hdone.here⟩
    have hbytes := hdone.bytes
    rw [List.eq_nil_of_length_eq_zero (hlength.trans hzero), List.append_nil] at hbytes
    exact hbytes

/-- For every sequence of calls with empty formats only: on a stream that `fopen` has
    opened for writing the output is right exactly if nothing is passed and nothing
    flushed; on a stream of `__init_stdio`, exactly if the number of bytes passed since the
    last `fflush` is a multiple of the size of the buffer. -/
theorem writing_right_iff (isStdout : Bool) {calls : List WriteCall}
    (hcalls : ∀ c ∈ calls, Regular c) :
    (∀ memory fd mode file, fopen memory fd mode = some file → file.flags &&& I_WRITE ≠ 0 →
      (WritesRight isStdout calls file ↔ ∀ c ∈ calls, c.bytes = [] ∧ c ≠ .fflush)) ∧
    ∀ memory fd,
      (WritesRight isStdout calls (initial memory fd I_WRITE) ↔
        calls.foldl sinceFlush 0 % 4096 = 0) := by
  constructor
  · intro memory fd mode file hopen hflags
    rw [fopen_eq_some hopen]
    exact writesRight_opened_iff isStdout hcalls memory fd hflags
  · intro memory fd
    exact writesRight_initial_iff isStdout hcalls memory fd (by decide)

/-- Two characters that are flushed, on the initial `stdout`. -/
theorem writing_right_flushed :
    WritesRight true [.fputc 65, .fputs [66, 67], .fflush] (stdout fun _ => 0) := by
  have hcalls : ∀ c ∈ [WriteCall.fputc 65, .fputs [66, 67], .fflush], Regular c := by
    simp [Regular]
  exact ((writing_right_iff true hcalls).2 (fun _ => 0) 1).mpr rfl

theorem not_writesRight {isStdout : Bool} {file : File} (written : List Byte)
    (hrun : (Writer.run isStdout calls (untouched file)).map Writer.written = some written)
    (hne : written ≠ calls.flatMap WriteCall.bytes) : ¬ WritesRight isStdout calls file := by
  intro ⟨w, hrun', hwritten, _⟩
  rw [hrun', Option.map_some] at hrun
  exact hne ((Option.some.inj hrun).symm.trans hwritten)

/-- The first character on a stream from `fopen` is stored before the buffer and lost;
    `fclose` loses what was not flushed; and `fprintf` puts the format into the stream and
    the text into `stdout`. -/
theorem writing_wrong :
    (((Writer.run false [.fputc 65, .fflush] (untouched (opened (fun _ => 0) 3 O_WRONLY))).map
        fun w => (w.written, w.outside)) = some ([], true) ∧
      ¬ WritesRight false [.fputc 65, .fflush] (opened (fun _ => 0) 3 O_WRONLY)) ∧
    (((Writer.run true [.fputc 65] (untouched (stdout fun _ => 0))).map Writer.written) = some [] ∧
      ¬ WritesRight true [.fputc 65] (stdout fun _ => 0)) ∧
    (((Writer.run false [.fprintf [37, 100] [55], .fflush] (untouched (stderr fun _ => 0))).map
        fun w => (w.written, w.elsewhere)) = some ([37, 100], [55]) ∧
      ¬ WritesRight false [.fprintf [37, 100] [55], .fflush] (stderr fun _ => 0)) := by
  refine ⟨⟨by decide +kernel, ?_⟩, ⟨by decide +kernel, ?_⟩, by decide +kernel, ?_⟩
  · exact not_writesRight [] (by decide +kernel) (by decide)
  · exact not_writesRight [] (by decide +kernel) (by decide)
  · exact not_writesRight [37, 100] (by decide +kernel) (by decide)

end Fennix.Libc.Stdio
