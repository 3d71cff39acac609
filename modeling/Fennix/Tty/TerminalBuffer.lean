import Fennix.Framework.Ring
import Mathlib.Data.BitVec

/-! # Terminal buffers

    `TerminalBuffer` of `Kernel/include/tty.hpp`: a ring of bytes with an index to read
    from and one to write to. `Write` does not look at the read index, so a write that
    does not fit overtakes it, and what was stored is lost.

    `calls_right_iff_fit`: the calls of a sequence do what they should exactly if no write
    stores more than `AvailableToWrite`.
-/

namespace Fennix.Tty

open Function (update)

abbrev Byte := BitVec 8

/-! ## Section 1: The calls -/

structure TerminalBuffer where
  buffer : Nat → Byte
  /-- `Buffer.size()` -/
  size : Nat
  readIndex : Nat
  writeIndex : Nat

namespace TerminalBuffer

/-- `TerminalBuffer(Size)` -/
def new (size : Nat) : TerminalBuffer := ⟨fun _ => 0, size, 0, 0⟩

/-- `Read`: the number of bytes, and the bytes. -/
def read (b : TerminalBuffer) : Nat → Nat × List Byte × TerminalBuffer
  | 0 => (0, [], b)
  | size + 1 =>
    if b.readIndex ≠ b.writeIndex then
      let r := read { b with readIndex := (b.readIndex + 1) % b.size } size
      (r.1 + 1, b.buffer b.readIndex :: r.2.1, r.2.2)
    else (0, [], b)

/-- `Write`. There is no byte to store to in a buffer without bytes. -/
def write (b : TerminalBuffer) : List Byte → Option (Nat × TerminalBuffer)
  | [] => some (0, b)
  | c :: input =>
    if b.writeIndex < b.size then
      (write { b with
        buffer := update b.buffer b.writeIndex c
        writeIndex := (b.writeIndex + 1) % b.size } input).map fun r => (r.1 + 1, r.2)
    else none

/-- `DrainOutput` -/
def drainOutput (b : TerminalBuffer) : TerminalBuffer := { b with readIndex := b.writeIndex }

/-- `AvailableToRead` -/
def availableToRead (b : TerminalBuffer) : Nat := (b.writeIndex + b.size - b.readIndex) % b.size

/-- What is left to read. -/
def pending (b : TerminalBuffer) : List Byte :=
  (List.range b.availableToRead).map fun i => b.buffer ((b.readIndex + i) % b.size)

/-- A call -/
inductive Call where
  | write (input : List Byte)
  | read (size : Nat)
  | drain

/-- The calls of a sequence do what they should, if `queue` has been stored and not
    delivered: a write stores as many bytes as it returns behind it, a read delivers its
    first bytes, and what is left to read is always what was stored and not delivered. -/
def CallsRight : TerminalBuffer → List Byte → List Call → Prop
  | _, _, [] => True
  | b, queue, .write input :: calls => ∃ n b', b.write input = some (n, b') ∧ n ≤ input.length ∧
      b'.pending = queue ++ input.take n ∧ CallsRight b' (queue ++ input.take n) calls
  | b, queue, .read size :: calls => ∃ b', b.read size = (min size queue.length, queue.take size, b') ∧
      b'.pending = queue.drop size ∧ CallsRight b' (queue.drop size) calls
  | b, _, .drain :: calls => b.drainOutput.pending = [] ∧ CallsRight b.drainOutput [] calls

/-- No write has more bytes than there is room for, with `fill` bytes in the buffer. One
    byte of the buffer is never used. -/
def WritesFit (size : Nat) : Nat → List Call → Prop
  | _, [] => True
  | fill, .write input :: calls =>
    fill + input.length ≤ size - 1 ∧ WritesFit size (fill + input.length) calls
  | fill, .read n :: calls => WritesFit size (fill - n) calls
  | _, .drain :: calls => WritesFit size 0 calls

/-! ## Section 2: What the buffer holds -/

/-- The bytes are in the buffer from the read index to the write index. -/
structure Holds (b : TerminalBuffer) (queue : List Byte) : Prop where
  room : queue.length ≤ b.size - 1
  readIndex : b.readIndex ≤ b.size - 1
  writeIndex : b.writeIndex = (b.readIndex + queue.length) % b.size
  bytes : ∀ i (h : i < queue.length), b.buffer ((b.readIndex + i) % b.size) = queue[i]

variable {b : TerminalBuffer} {queue : List Byte}

theorem holds_new (size : Nat) : Holds (new size) [] := by
  refine ⟨Nat.zero_le _, Nat.zero_le _, ?_, ?_⟩
  · simp [new]
  · intro i h
    cases h

theorem Holds.availableToRead (h : Holds b queue) : b.availableToRead = queue.length := by
  obtain ⟨hroom, hread, hwrite, -⟩ := h
  unfold TerminalBuffer.availableToRead
  by_cases hsize : b.size = 0
  · simp only [hsize, Nat.mod_zero] at *
    omega
  · by_cases hwrap : b.readIndex + queue.length < b.size
    · rw [Nat.mod_eq_of_lt hwrap] at hwrite
      rw [show b.writeIndex + b.size - b.readIndex = queue.length + b.size by omega,
        Nat.add_mod_right, Nat.mod_eq_of_lt (by omega)]
    · rw [Nat.mod_eq_sub_mod (by omega), Nat.mod_eq_of_lt (by omega)] at hwrite
      rw [show b.writeIndex + b.size - b.readIndex = queue.length by omega,
        Nat.mod_eq_of_lt (by omega)]

theorem Holds.pending (h : Holds b queue) : b.pending = queue := by
  rw [TerminalBuffer.pending, h.availableToRead]
  refine List.ext_getElem (by simp) fun i h₁ h₂ => ?_
  simpa using h.bytes i h₂

theorem Holds.push (h : Holds b queue) (c : Byte) (hroom : queue.length + 1 ≤ b.size - 1) :
    Holds { b with
      buffer := update b.buffer b.writeIndex c
      writeIndex := (b.writeIndex + 1) % b.size } (queue ++ [c]) := by
  obtain ⟨-, hread, hwrite, hbytes⟩ := h
  refine ⟨by simpa using hroom, hread, ?_, ?_⟩
  · simp only [hwrite, List.length_append, List.length_singleton, Nat.mod_add_mod]
    rw [Nat.add_assoc]
  · dsimp only
    rw [hwrite]
    exact Ring.Holds.push hbytes (by omega) c

theorem Holds.pop {c : Byte} (h : Holds b (c :: queue)) :
    b.readIndex ≠ b.writeIndex ∧ b.buffer b.readIndex = c ∧
      Holds { b with readIndex := (b.readIndex + 1) % b.size } queue := by
  obtain ⟨hroom, hread, hwrite, hbytes⟩ := h
  simp only [List.length_cons] at hroom hwrite
  have hlt : b.readIndex % b.size = b.readIndex := Nat.mod_eq_of_lt (by omega)
  obtain ⟨hfirst, hrest⟩ := Ring.Holds.pop hbytes
  refine ⟨?_, hlt ▸ hfirst, by dsimp only; omega, ?_, ?_, hrest⟩
  · intro heq
    have hzero := Ring.add_mod_inj (a := b.readIndex) (i := 0) (j := queue.length + 1) (n := b.size)
      (by omega) (by omega) (by rw [Nat.add_zero, hlt, ← hwrite, heq])
    cases hzero
  · exact Nat.le_sub_one_of_lt (Nat.mod_lt _ (by omega))
  · dsimp only
    rw [hwrite, Nat.mod_add_mod]
    congr 1
    omega

/-! ## Section 3: One call -/

theorem Holds.write (input : List Byte) : ∀ {b : TerminalBuffer} {queue : List Byte},
    Holds b queue → queue.length + input.length ≤ b.size - 1 →
    ∃ b', b.write input = some (input.length, b') ∧ b'.size = b.size ∧
      Holds b' (queue ++ input) := by
  induction input with
  | nil =>
    intro b queue h _
    exact ⟨b, rfl, rfl, by simpa using h⟩
  | cons c input ih =>
    intro b queue h hroom
    simp only [List.length_cons] at hroom
    have hwrite : b.writeIndex < b.size := by
      rw [h.writeIndex]
      exact Nat.mod_lt _ (by omega)
    obtain ⟨b', hrest, hsize, hholds⟩ := ih (h.push c (by omega)) (by simp; omega)
    refine ⟨b', ?_, hsize, by simpa using hholds⟩
    rw [TerminalBuffer.write, if_pos hwrite, hrest]
    rfl

/-- Whatever is written, less than the size of the buffer is left to read. -/
theorem pending_of_write (input : List Byte) : ∀ {b b' : TerminalBuffer} {n : Nat},
    b.write input = some (n, b') →
    n = input.length ∧ (b.size = 0 → input = []) ∧ (0 < b.size → b'.pending.length < b.size) := by
  induction input with
  | nil =>
    intro b b' n h
    cases h
    refine ⟨rfl, fun _ => rfl, fun hpos => ?_⟩
    simpa [pending, availableToRead] using Nat.mod_lt _ hpos
  | cons c input ih =>
    intro b b' n h
    unfold TerminalBuffer.write at h
    split at h
    · next hwrite =>
      obtain ⟨⟨m, b₁⟩, hrest, heq⟩ := Option.map_eq_some_iff.mp h
      cases heq
      obtain ⟨rfl, -, hpending⟩ := ih hrest
      exact ⟨rfl, fun hzero => by omega, hpending⟩
    · cases h

theorem Holds.read (size : Nat) : ∀ {b : TerminalBuffer} {queue : List Byte}, Holds b queue →
    ∃ b', b.read size = (min size queue.length, queue.take size, b') ∧ b'.size = b.size ∧
      Holds b' (queue.drop size) := by
  induction size with
  | zero =>
    intro b queue h
    exact ⟨b, by simp [TerminalBuffer.read], rfl, h⟩
  | succ size ih =>
    intro b queue h
    cases queue with
    | nil =>
      have hempty : b.readIndex = b.writeIndex := by
        have hread := h.readIndex
        rw [h.writeIndex]
        by_cases hsize : b.size = 0
        · simp [hsize]
        · exact (Nat.mod_eq_of_lt (by omega)).symm
      exact ⟨b, by simp [TerminalBuffer.read, hempty], rfl, h⟩
    | cons c queue =>
      obtain ⟨hne, hc, hrest⟩ := h.pop
      obtain ⟨b', hread, hsize, hholds⟩ := ih hrest
      refine ⟨b', ?_, hsize, by simpa using hholds⟩
      rw [TerminalBuffer.read, if_pos hne, hread, hc]
      simp

theorem Holds.drainOutput (h : Holds b queue) : Holds b.drainOutput [] := by
  have hle : b.writeIndex ≤ b.size - 1 := by
    have hread := h.readIndex
    have hroom := h.room
    rw [h.writeIndex]
    by_cases hsize : b.size = 0
    · simp only [hsize, Nat.mod_zero] at *
      omega
    · exact Nat.le_sub_one_of_lt (Nat.mod_lt _ (by omega))
  refine ⟨Nat.zero_le _, hle, ?_, ?_⟩
  · dsimp only [TerminalBuffer.drainOutput]
    by_cases hsize : b.size = 0
    · simp [hsize]
    · exact (Nat.mod_eq_of_lt (by omega)).symm
  · intro i hi
    cases hi

/-! ## Section 4: Sequences of calls -/

theorem Holds.callsRight_iff (calls : List Call) : ∀ {b : TerminalBuffer} {queue : List Byte},
    Holds b queue → (CallsRight b queue calls ↔ WritesFit b.size queue.length calls) := by
  induction calls with
  | nil => exact fun _ => Iff.rfl
  | cons call calls ih =>
    intro b queue h
    cases call with
    | write input =>
      rw [CallsRight, WritesFit]
      constructor
      · rintro ⟨n, b', hwrite, -, hpending, hcalls⟩
        obtain ⟨rfl, hempty, hless⟩ := pending_of_write input hwrite
        -- what was written is left to read, so there was room for it
        have hroom : queue.length + input.length ≤ b.size - 1 := by
          by_cases hsize : b.size = 0
          · simpa [hempty hsize] using h.room
          · have := hless (Nat.pos_of_ne_zero hsize)
            rw [hpending, List.take_length, List.length_append] at this
            omega
        obtain ⟨b'', hwrite', hsize, hholds⟩ := h.write input hroom
        obtain rfl : b' = b'' := by simpa [hwrite] using hwrite'
        rw [List.take_length] at hcalls
        exact ⟨hroom, by simpa [hsize] using (ih hholds).mp hcalls⟩
      · rintro ⟨hroom, hcalls⟩
        obtain ⟨b', hwrite, hsize, hholds⟩ := h.write input hroom
        refine ⟨input.length, b', hwrite, Nat.le_refl _, ?_, ?_⟩
        · simpa using hholds.pending
        · rw [List.take_length]
          exact (ih hholds).mpr (by simpa [hsize] using hcalls)
    | read size =>
      obtain ⟨b', hread, hsize, hholds⟩ := h.read size
      rw [CallsRight, WritesFit, ← List.length_drop, ← hsize, ← ih hholds]
      constructor
      · rintro ⟨b'', hread', -, hcalls⟩
        obtain rfl : b' = b'' := by simpa [hread] using hread'
        exact hcalls
      · intro hcalls
        exact ⟨b', hread, hholds.pending, hcalls⟩
    | drain =>
      rw [CallsRight, WritesFit, and_iff_right h.drainOutput.pending]
      exact ih h.drainOutput

/-- For every buffer size, the calls of a sequence do what they should exactly if each write
    fits into the buffer. -/
theorem calls_right_iff_fit (size : Nat) (calls : List Call) :
    CallsRight (new size) [] calls ↔ WritesFit size 0 calls :=
  (holds_new size).callsRight_iff calls

/-- Four bytes are written to a buffer of four bytes: the write returns 4, and a read finds
    none of them. -/
theorem full_buffer_empty :
    ∃ b, (new 4).write [97, 98, 99, 100] = some (4, b) ∧ (b.read 4).1 = 0 ∧
      ¬ CallsRight (new 4) [] [.write [97, 98, 99, 100], .read 4] := by
  refine ⟨_, rfl, rfl, fun hright => ?_⟩
  have hfit := ((holds_new 4).callsRight_iff _).mp hright
  exact absurd hfit.1 (by decide)

end TerminalBuffer

end Fennix.Tty
