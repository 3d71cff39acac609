import Mathlib.Data.BitVec
import Mathlib.Data.List.Basic

/-! # Streams of the C library

    `struct _IO_FILE`, `fopen` and `__init_stdio` of `Userspace/libc/src/std/stdio.c`.

    A buffer is memory: `buffer k` is the byte at `k` bytes behind its start, modulo 2^64,
    so that the byte before it has the greatest index. The first 4096 bytes are what was
    allocated; what they hold at first is arbitrary. `fopen` starts with a `buffer_pos` of
    -1, which as `size_t` is the greatest one.
-/

namespace Fennix.Libc.Stdio

/-- A `char`. -/
abbrev Byte := BitVec 8

/-- `struct _IO_FILE`. -/
structure File where
  fd : Int
  buffer : Nat → Byte
  bufferSize : Nat
  bufferPos : Nat
  flags : BitVec 32
  error : Bool
  eof : Bool

def I_READ : BitVec 32 := 1
def I_WRITE : BitVec 32 := 2

def O_RDONLY : BitVec 32 := 0x1
def O_WRONLY : BitVec 32 := 0x2
def O_RDWR : BitVec 32 := 0x3
def O_APPEND : BitVec 32 := 0x4
def O_CREAT : BitVec 32 := 0x8
def O_TRUNC : BitVec 32 := 0x400

def EOF : Int := -1

/-- The flags that a mode stands for. -/
def openFlags (mode : String) : Option (BitVec 32) :=
  if mode = "r" then some O_RDONLY
  else if mode = "r+" then some O_RDWR
  else if mode = "w" then some (O_WRONLY ||| O_CREAT ||| O_TRUNC)
  else if mode = "w+" then some (O_RDWR ||| O_CREAT ||| O_TRUNC)
  else if mode = "a" then some (O_WRONLY ||| O_CREAT ||| O_APPEND)
  else if mode = "a+" then some (O_RDWR ||| O_CREAT ||| O_APPEND)
  else none

/-- A stream as `fopen` makes it. -/
def opened (memory : Nat → Byte) (fd : Int) (flags : BitVec 32) : File where
  fd := fd
  buffer := memory
  bufferSize := 4096
  bufferPos := 2 ^ 64 - 1
  flags := flags
  error := false
  eof := false

/-- `fopen`, given what `Open` returns and what the allocated buffer holds. -/
def fopen (memory : Nat → Byte) (fd : Int) (mode : String) : Option File :=
  (openFlags mode).bind fun flags => if fd < 0 then none else some (opened memory fd flags)

/-- A stream as `__init_stdio` makes it. -/
def initial (memory : Nat → Byte) (fd : Int) (flags : BitVec 32) : File where
  fd := fd
  buffer := memory
  bufferSize := 4096
  bufferPos := 0
  flags := flags
  error := false
  eof := false

def stdin (memory : Nat → Byte) : File := initial memory 0 I_READ

def stdout (memory : Nat → Byte) : File := initial memory 1 I_WRITE

def stderr (memory : Nat → Byte) : File := initial memory 2 I_WRITE

theorem fopen_eq_some {memory : Nat → Byte} {fd : Int} {mode : String} {file : File}
    (h : fopen memory fd mode = some file) : file = opened memory fd file.flags := by
  obtain ⟨flags, -, h⟩ := Option.bind_eq_some_iff.mp h
  by_cases hfd : fd < 0
  · rw [if_pos hfd] at h
    cases h
  · rw [if_neg hfd] at h
    cases h
    rfl

end Fennix.Libc.Stdio
