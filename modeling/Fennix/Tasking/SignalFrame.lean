import Fennix.Memory.Virtual
import Fennix.Tasking.Signal

/-! # The frame of a signal handler

    `HandleSignal` and `RestoreHandleSignal` of
    `Kernel/arch/amd64/tasking/signal.cpp`. What the handler interrupts is saved on
    the stack of the thread, 800 bytes below its aligned stack pointer, which may be
    on two pages. `HandleSignal` translates the stack pointer and writes the frame
    at physical addresses below the one it gets; `RestoreHandleSignal` translates
    the lower end of the frame and reads at physical addresses above.

    Memory is taken by 64-bit words, since all addresses used here are aligned. The
    last bytes of `StackInfo`, which a debug build fills, are zero. Between the two
    calls runs the trampoline, which ends with the stack pointer it began with.
-/

namespace Fennix.Tasking

open Function (update)

open Memory (Word Tables Virtual)

/-! ## Section 1: The frames -/

/-- `CPU::x64::SchedulerFrame`. -/
structure SchedulerFrame where
  ppt : Word
  opt : Word
  r15 : Word
  r14 : Word
  r13 : Word
  r12 : Word
  r11 : Word
  r10 : Word
  r9 : Word
  r8 : Word
  rbp : Word
  rdi : Word
  rsi : Word
  rdx : Word
  rcx : Word
  rbx : Word
  rax : Word
  interruptNumber : Word
  errorCode : Word
  rip : Word
  cs : Word
  rflags : Word
  rsp : Word
  ss : Word

/-- `SyscallsFrame`. -/
structure SyscallsFrame where
  r15 : Word
  r14 : Word
  r13 : Word
  r12 : Word
  r11 : Word
  r10 : Word
  r9 : Word
  r8 : Word
  bp : Word
  di : Word
  si : Word
  dx : Word
  cx : Word
  bx : Word
  ax : Word
  returnAddress : Word
  codeSegment : Word
  flags : Word
  stackPointer : Word
  stackSegment : Word

/-- `FXState`, 416 bytes. -/
abbrev FXState := Fin 52 → Word

/-- `StackInfo`. -/
structure StackInfo where
  fx : FXState
  tf : SchedulerFrame
  gsBase : Word
  fsBase : Word
  shadowGSBase : Word
  signalMask : Word
  compatibility : Word

/-- The words of a `StackInfo` in memory, 82 of them. -/
def StackInfo.word (si : StackInfo) (i : Nat) : Word :=
  if h : i < 52 then si.fx ⟨i, h⟩
  else
    match i - 52 with
    | 0 => si.tf.ppt
    | 1 => si.tf.opt
    | 2 => si.tf.r15
    | 3 => si.tf.r14
    | 4 => si.tf.r13
    | 5 => si.tf.r12
    | 6 => si.tf.r11
    | 7 => si.tf.r10
    | 8 => si.tf.r9
    | 9 => si.tf.r8
    | 10 => si.tf.rbp
    | 11 => si.tf.rdi
    | 12 => si.tf.rsi
    | 13 => si.tf.rdx
    | 14 => si.tf.rcx
    | 15 => si.tf.rbx
    | 16 => si.tf.rax
    | 17 => si.tf.interruptNumber
    | 18 => si.tf.errorCode
    | 19 => si.tf.rip
    | 20 => si.tf.cs
    | 21 => si.tf.rflags
    | 22 => si.tf.rsp
    | 23 => si.tf.ss
    | 24 => si.gsBase
    | 25 => si.fsBase
    | 26 => si.shadowGSBase
    | 27 => si.signalMask
    | 28 => si.compatibility
    | _ => 0

/-- The `StackInfo` with these words. -/
def StackInfo.ofWords (w : Nat → Word) : StackInfo where
  fx := fun i => w i
  tf :=
    { ppt := w 52, opt := w 53, r15 := w 54, r14 := w 55, r13 := w 56, r12 := w 57, r11 := w 58
      r10 := w 59, r9 := w 60, r8 := w 61, rbp := w 62, rdi := w 63, rsi := w 64, rdx := w 65
      rcx := w 66, rbx := w 67, rax := w 68, interruptNumber := w 69, errorCode := w 70
      rip := w 71, cs := w 72, rflags := w 73, rsp := w 74, ss := w 75 }
  gsBase := w 76
  fsBase := w 77
  shadowGSBase := w 78
  signalMask := w 79
  compatibility := w 80

theorem StackInfo.ofWords_congr {w w' : Nat → Word} (h : ∀ i, i < 82 → w i = w' i) :
    ofWords w = ofWords w' := by
  unfold ofWords
  congr 1
  · funext i
    exact h i (by omega)
  all_goals simp [h]

theorem StackInfo.ofWords_word (si : StackInfo) : ofWords si.word = si := by
  have hfx : (fun i : Fin 52 => si.word i) = si.fx := by
    funext i
    rw [word, dif_pos i.isLt]
  unfold ofWords
  rw [hfx]
  rfl

/-! ## Section 2: The calls -/

/-- What a CPU and the memory hold; `tempStack` is the one of the `gsTCB`. -/
structure Cpu where
  memory : Word → Word
  tables : Tables
  pageTable : Process → Virtual
  trampAddr : Process → Word
  fx : FXState
  gsBase : Word
  fsBase : Word
  shadowGSBase : Word
  tempStack : Word

/-- `PageTable::Get`. -/
def pageTableGet (vmm : Virtual) (m : Tables) (address : Word) : Option Word :=
  (vmm.getPhysical m address).map fun physAddr =>
    if physAddr = 0 then 0 else physAddr + (address &&& 0xFFF#64)

/-- The first `n` words are copied to `address`. -/
def memcpy (memory : Word → Word) (address : Word) (word : Nat → Word) : Nat → Word → Word
  | 0 => memory
  | n + 1 => update (memcpy memory address word n) (address + BitVec.ofNat 64 (8 * n)) (word n)

/-- `GDT_USER_CODE`. -/
def gdtUserCode : Word := 0x23

/-- `sizeof(StackInfo)`. -/
def stackInfoSize : Word := 656

/-- `address & ~0xF`. -/
def align (address : Word) : Word := address &&& 0xFFFFFFFFFFFFFFF0#64

/-- The number of a `TaskCompatibility`. -/
def TaskCompatibility.number : TaskCompatibility → Word
  | .unknownPlatform => 0
  | .native => 1
  | .linux => 2
  | .windows => 3

/-- The stack pointer of the handler. -/
def handlerRsp (rsp : Word) : Word := align rsp - 128 - stackInfoSize - 8 - 8

/-- What is saved of an interrupted thread. -/
def Cpu.stackInfo (c : Cpu) (tf : SchedulerFrame) (mask : Word) (compatibility : TaskCompatibility) :
    StackInfo where
  fx := c.fx
  tf := tf
  gsBase := c.gsBase
  fsBase := c.fsBase
  shadowGSBase := c.shadowGSBase
  signalMask := mask
  compatibility := compatibility.number

/-- The stack info and the address of the handler are written; `none` if the assertions on the
    virtual and the physical address fail. -/
def Cpu.pushFrame (c : Cpu) (vmm : Virtual) (rsp : Word) (si : StackInfo) (handler : Word) :
    Option Cpu :=
  (pageTableGet vmm c.tables rsp).bind fun get =>
    let paRsp := align get - 128
    let pRsp := paRsp - stackInfoSize
    let memory := memcpy c.memory pRsp si.word 82
    let pRsp := pRsp - 8 - 8
    if handlerRsp rsp &&& 0xF#64 = 0 ∧ pRsp &&& 0xF#64 = 0 then
      some { c with memory := update memory pRsp handler }
    else none

/-- The frame with which the handler is entered. -/
def SchedulerFrame.enter (tf : SchedulerFrame) (rsp rip : Word) (sig : Nat) : SchedulerFrame :=
  { tf with
    rsp := rsp, rip := rip, rdi := BitVec.ofNat 64 sig
    -- with and without `SA_SIGINFO`
    rsi := 0, rdx := 0, rcx := 0, r8 := 0, r9 := 0 }

/-- The number that the handler is given. -/
def Kernel.signalArgument (k : Kernel) (p : Process) (sig : Signo) : Nat :=
  if k.compatibility p = .linux then convertSignalToLinux sig else sig.number

/-- `HandleSignal`: whether a signal is delivered, and what has changed. -/
def Kernel.handleSignalFrame (k : Kernel) (c : Cpu) (p : Process) (t : Thread)
    (reread : Option SignalInfo) (tf : SchedulerFrame) :
    Option (Bool × Kernel × Cpu × SchedulerFrame) :=
  if tf.cs ≠ gdtUserCode then some (false, k, c, tf)
  else if (k.signals p).queue = [] then some (false, k, c, tf)
  else
    (k.getAvailableSignal p t reread).bind fun (sigI, k) =>
      match sigI with
      | none => some (false, k, c, tf)
      | some info =>
        let act := (k.signals p).sa info.sig
        let si := c.stackInfo tf (k.mask t) (k.compatibility p)
        (c.pushFrame (c.pageTable p) tf.rsp si act.handler).bind fun c =>
          if (k.signals p).trampoline then
            some (true, k.setMask t act.mask, c,
              tf.enter (handlerRsp tf.rsp) (c.trampAddr p) (k.signalArgument p info.sig))
          else none

/-- The frame with what was saved. -/
def SyscallsFrame.restore (sf : SyscallsFrame) (tf : SchedulerFrame) : SyscallsFrame :=
  { sf with
    r15 := tf.r15, r14 := tf.r14, r13 := tf.r13, r12 := tf.r12, r11 := tf.r11, r10 := tf.r10
    r9 := tf.r9, r8 := tf.r8, bp := tf.rbp, di := tf.rdi, si := tf.rsi, dx := tf.rdx
    cx := tf.rcx, bx := tf.rbx, ax := tf.rax, flags := tf.rflags, returnAddress := tf.rip }

/-- The stack info at a physical address. -/
def Cpu.savedAt (c : Cpu) (sp : Word) : StackInfo :=
  StackInfo.ofWords fun i => c.memory (sp + BitVec.ofNat 64 (8 * i))

/-- What `RestoreHandleSignal` sets besides the frame and the mask. `swapgs` follows. -/
def Cpu.restore (c : Cpu) (si : StackInfo) : Cpu :=
  { c with
    tempStack := si.tf.rsp, fx := si.fx, gsBase := si.shadowGSBase, fsBase := si.fsBase
    shadowGSBase := si.gsBase }

/-- `RestoreHandleSignal`; `none` if an assertion fails. -/
def Kernel.restoreHandleSignal (k : Kernel) (c : Cpu) (p : Process) (t : Thread)
    (sf : SyscallsFrame) : Option (Kernel × Cpu × SyscallsFrame) :=
  (pageTableGet (c.pageTable p) c.tables c.tempStack).bind fun get =>
    let sp := get + 8 + 8
    if sp &&& 0xF#64 = 0 ∧ sp ≠ 0 then
      let si := c.savedAt sp
      some (k.setMask t si.signalMask, c.restore si, sf.restore si.tf)
    else none

end Fennix.Tasking
