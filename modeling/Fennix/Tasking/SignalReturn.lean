import Fennix.Memory.PageTree
import Fennix.Tasking.SignalDelivery
import Fennix.Tasking.SignalFrame

/-! # Returning from a signal handler

    A delivery and the return from it are compared with what the CPU finds on the
    stack of the thread (`FrameRight`). The kernel translates one address of the frame
    and takes the others to be beside it in physical memory, which they are if the
    frame is on one page, or on two pages that are next to each other there as well.

    `signal_frame_iff` says for which page tables and stack pointers this is right.
-/

namespace Fennix.Tasking

open Function (update)
open BitVec (ofNat toNat_add toNat_ofNat eq_of_toNat_eq getLsbD_and)

open Memory (Word Tables Virtual pageBase Canonical toNat_and_low)

/-! ## Section 1: What the frame is for -/

/-- The physical page that the CPU finds for the page of an address. With large pages, the
    higher bits of the page come from the address. -/
def frameOf (vmm : Virtual) (m : Tables) (v : Word) : Option Word :=
  (Memory.mapping vmm m v).map fun (levels, entry) =>
    let low : Word := 1#64 <<< (12 + 9 * levels) - 1
    Memory.Entry.pointer entry &&& ~~~low ||| pageBase v &&& low

/-- The physical address that the CPU finds. -/
def physical (vmm : Virtual) (m : Tables) (v : Word) : Option Word :=
  (frameOf vmm m v).map (· + (v &&& 0xFFF#64))

/-- If the words of the stack info are where they were on the stack of the handler, and the
    stack pointer is that of the handler, the registers of the interrupted thread, its stack
    pointer and its mask are given back. -/
def GivesBack (k : Kernel) (c : Cpu) (p : Process) (t : Thread) (tf : SchedulerFrame)
    (c' : Cpu) (tf' : SchedulerFrame) : Prop :=
  ∀ (k₁ : Kernel) (c₁ : Cpu) (sf : SyscallsFrame), c₁.tables = c.tables →
    c₁.pageTable = c.pageTable → c₁.tempStack = tf'.rsp →
    (∀ i, i < 82 → ∀ x,
      physical (c.pageTable p) c.tables (tf'.rsp + 16 + ofNat 64 (8 * i)) = some x →
      c₁.memory x = c'.memory x) →
    ∃ k₂ c₂, k₁.restoreHandleSignal c₁ p t sf = some (k₂, c₂, sf.restore tf) ∧
      c₂.tempStack = tf.rsp ∧ k₂.mask t = k.mask t

/-- Only memory of the stack is written, at most 816 bytes below the stack pointer. -/
def Confined (c : Cpu) (p : Process) (tf : SchedulerFrame) (c' : Cpu) : Prop :=
  ∀ x, c'.memory x ≠ c.memory x → ∃ d : Nat, 0 < d ∧ d ≤ 816 ∧
    physical (c.pageTable p) c.tables (tf.rsp - ofNat 64 d) = some x

/-- With this page table and stack pointer every delivery is right. -/
def FrameRight (vmm : Virtual) (m : Tables) (rsp : Word) : Prop :=
  ∀ (k : Kernel) (c : Cpu) (p : Process) (t : Thread) (reread : Option SignalInfo)
    (tf : SchedulerFrame) (k' : Kernel) (c' : Cpu) (tf' : SchedulerFrame),
    c.tables = m → c.pageTable p = vmm → tf.rsp = rsp →
    k.handleSignalFrame c p t reread tf = some (true, k', c', tf') →
    GivesBack k c p t tf c' tf' ∧ Confined c p tf c'

/-- The offset of the aligned stack pointer in its page. -/
def frameOffset (rsp : Word) : Nat := rsp.toNat % 4096 / 16 * 16

/-- The kernel finds the page of the lower end of the frame as the CPU does. If the frame is
    not on the page of the stack pointer alone, the physical page after that one is the page
    of the stack pointer, for the kernel and, if the frame gets there, for the CPU. -/
def Fits (vmm : Virtual) (m : Tables) (rsp : Word) : Prop :=
  ∃ f, f ≠ 0 ∧ vmm.getPhysical m (handlerRsp rsp) = some f ∧ frameOf vmm m (handlerRsp rsp) = some f ∧
    (frameOffset rsp < 800 → vmm.getPhysical m rsp = some (f + 0x1000) ∧
      (128 < frameOffset rsp → frameOf vmm m rsp = some (f + 0x1000)))

/-! ## Section 2: Addresses -/

theorem and_eq_zero_iff (a : Word) : a &&& 0xF#64 = 0 ↔ a.toNat % 16 = 0 := by
  have hand : (a &&& 0xF#64).toNat = a.toNat % 16 := by
    rw [BitVec.toNat_and]
    exact Nat.and_two_pow_sub_one_eq_mod a.toNat 4
  rw [← hand]
  exact ⟨fun h => by rw [h]; rfl, fun h => eq_of_toNat_eq h⟩

theorem toNat_align (a : Word) : (align a).toNat = a.toNat / 16 * 16 :=
  Memory.toNat_and_mask (n := 4) (by decide) a

theorem toNat_handlerRsp (rsp : Word) :
    (handlerRsp rsp).toNat = (rsp.toNat / 16 * 16 + (2 ^ 64 - 800)) % 2 ^ 64 := by
  have halign := toNat_align rsp
  unfold handlerRsp stackInfoSize
  bv_omega

theorem pageBase_congr {v w : Word} (h : v.toNat / 4096 = w.toNat / 4096) :
    pageBase v = pageBase w := by
  apply eq_of_toNat_eq
  rw [Memory.pageBase_toNat, Memory.pageBase_toNat, h]

theorem toNat_mod_of_bits {x : Word} (h : ∀ i, i < 12 → x.getLsbD i = false) :
    x.toNat % 4096 = 0 := by
  have hlow : x.setWidth 12 = 0#12 := by
    apply BitVec.eq_of_getLsbD_eq
    intro i hi
    rw [BitVec.getLsbD_setWidth, h i hi, Bool.and_false, BitVec.getLsbD_zero]
  have hmod := congrArg BitVec.toNat hlow
  rwa [BitVec.toNat_setWidth] at hmod

/-- The address of a page that an entry can point to. -/
structure PageAddress (f : Word) : Prop where
  aligned : f.toNat % 4096 = 0
  bound : f.toNat < 2 ^ 52

theorem PageAddress.ite {a b : Word} {q : Prop} [Decidable q] (ha : PageAddress a)
    (hb : PageAddress b) : PageAddress (if q then a else b) := by
  split
  · exact ha
  · exact hb

theorem pageAddress_zero : PageAddress 0 := ⟨rfl, by decide⟩

theorem pageAddress_pointer (entry : Word) : PageAddress (Memory.Entry.pointer entry) where
  aligned := by
    apply toNat_mod_of_bits
    intro i hi
    rw [Memory.Entry.pointer_eq, getLsbD_and, Memory.Entry.getLsbD_addressMask]
    simp [show ¬ 12 ≤ i from by omega]
  bound := Memory.Entry.pointer_lt entry

section Translation

variable {vmm : Virtual} {m : Tables} {v w f : Word}

theorem pageAddress_getPhysical (h : vmm.getPhysical m v = some f) : PageAddress f := by
  obtain ⟨index, -, rfl⟩ := Option.map_eq_some_iff.mp h
  dsimp only
  -- every branch gives the address of an entry or null
  repeat' apply PageAddress.ite
  all_goals first
    | with_reducible exact pageAddress_pointer _
    | with_reducible exact pageAddress_zero

theorem getPhysical_congr (h : pageBase v = pageBase w) :
    vmm.getPhysical m v = vmm.getPhysical m w := by
  rw [Virtual.getPhysical, Virtual.getPhysical, h]

theorem frameOf_congr (h : pageBase v = pageBase w) : frameOf vmm m v = frameOf vmm m w := by
  have hmapping : Memory.mapping vmm m v = Memory.mapping vmm m w := by
    rw [Memory.mapping, Memory.mapping, ← Memory.PageMapIndexer.ofAddress_pageBase v, h,
      Memory.PageMapIndexer.ofAddress_pageBase w]
  rw [frameOf, frameOf, hmapping, h]

theorem frameOf_aligned (h : frameOf vmm m v = some f) : f.toNat % 4096 = 0 := by
  obtain ⟨⟨levels, entry⟩, -, rfl⟩ := Option.map_eq_some_iff.mp h
  apply toNat_mod_of_bits
  intro i hi
  have hpage : (pageBase v).getLsbD i = false := by
    rw [pageBase, getLsbD_and]
    have hmask : ∀ i : Fin 12, (0xFFFFFFFFFFFFF000#64).getLsbD i.val = false := by decide
    rw [hmask ⟨i, hi⟩, Bool.and_false]
  have hpointer : (Memory.Entry.pointer entry).getLsbD i = false := by
    rw [Memory.Entry.pointer_eq, getLsbD_and, Memory.Entry.getLsbD_addressMask]
    simp [show ¬ 12 ≤ i from by omega]
  simp only [BitVec.getLsbD_or, getLsbD_and, hpage, hpointer, Bool.false_and, Bool.or_false]

theorem pageTableGet_of_canonical (h : Canonical v) : ∃ g, pageTableGet vmm m v = some g := by
  rw [pageTableGet, Virtual.getPhysical, Memory.pageMapIndexer_of_canonical h.pageBase]
  exact ⟨_, rfl⟩

theorem pageTableGet_of_getPhysical (h : vmm.getPhysical m v = some f) :
    pageTableGet vmm m v = some (if f = 0 then 0 else f + (v &&& 0xFFF#64)) := by
  rw [pageTableGet, h]
  rfl

end Translation

/-! ## Section 3: What is written -/

section Write

variable {memory : Word → Word} {a x : Word} {word : Nat → Word} {n i : Nat}

theorem memcpy_of_ne (h : ∀ i, i < n → x ≠ a + ofNat 64 (8 * i)) :
    memcpy memory a word n x = memory x := by
  induction n with
  | zero => rfl
  | succ n ih =>
    rw [memcpy, Function.update_of_ne (h n (Nat.lt_succ_self n))]
    exact ih fun i hi => h i (Nat.lt_succ_of_lt hi)

theorem memcpy_apply (hn : n ≤ 2 ^ 60) (hi : i < n) :
    memcpy memory a word n (a + ofNat 64 (8 * i)) = word i := by
  induction n with
  | zero => omega
  | succ n ih =>
    rw [memcpy]
    by_cases heq : i = n
    · rw [heq, Function.update_self]
    · have hne : a + ofNat 64 (8 * i) ≠ a + ofNat 64 (8 * n) := by
        intro h
        have := congrArg BitVec.toNat (add_left_cancel h)
        rw [toNat_ofNat, toNat_ofNat] at this
        omega
      rw [Function.update_of_ne hne]
      exact ih (by omega) (by omega)

/-- The memory with a frame whose lower end is at `a`. -/
def framed (memory : Word → Word) (a : Word) (si : StackInfo) (handler : Word) : Word → Word :=
  update (memcpy memory (a + 16) si.word 82) a handler

/-- The CPU with a frame below the address `g`. -/
def Cpu.framed (c : Cpu) (g : Word) (si : StackInfo) (handler : Word) : Cpu :=
  { c with memory := Tasking.framed c.memory (handlerRsp g) si handler }

theorem Cpu.framed_memory (c : Cpu) (g : Word) (si : StackInfo) (handler : Word) :
    (c.framed g si handler).memory = Tasking.framed c.memory (handlerRsp g) si handler := rfl

variable {si : StackInfo} {handler : Word}

theorem framed_of_ne (h : ∀ j, j < 84 → j ≠ 1 → x ≠ a + ofNat 64 (8 * j)) :
    framed memory a si handler x = memory x := by
  have hbase : x ≠ a := by
    have := h 0 (by decide) (by decide)
    rwa [Nat.mul_zero, BitVec.add_zero] at this
  rw [framed, Function.update_of_ne hbase]
  apply memcpy_of_ne
  intro i hi
  have := h (i + 2) (by omega) (by omega)
  intro heq
  apply this
  rw [heq]
  bv_omega

theorem framed_word (hi : i < 82) :
    framed memory a si handler (a + 16 + ofNat 64 (8 * i)) = si.word i := by
  have hne : a + 16 + ofNat 64 (8 * i) ≠ a := by
    intro h
    have := congrArg BitVec.toNat h
    bv_omega
  rw [framed, Function.update_of_ne hne]
  exact memcpy_apply (by decide) hi

theorem framed_congr {memory' : Word → Word} {j : Nat} (hj : j < 84) (hne : j ≠ 1) :
    framed memory a si handler (a + ofNat 64 (8 * j)) =
      framed memory' a si handler (a + ofNat 64 (8 * j)) := by
  obtain rfl | ⟨i, rfl⟩ : j = 0 ∨ ∃ i, j = i + 2 := by
    match j with
    | 0 => exact .inl rfl
    | 1 => exact absurd rfl hne
    | i + 2 => exact .inr ⟨i, rfl⟩
  · simp [framed]
  · have hshift : a + ofNat 64 (8 * (i + 2)) = a + 16 + ofNat 64 (8 * i) := by
      bv_omega
    rw [hshift, framed_word (by omega), framed_word (by omega)]

end Write

section Push

variable {c : Cpu} {vmm : Virtual} {rsp : Word} {si : StackInfo} {handler : Word}

/-- The assertions hold, and the frame is as far below the translated stack pointer as the
    stack pointer of the handler is below the stack pointer. -/
theorem pushFrame_eq :
    c.pushFrame vmm rsp si handler =
      (pageTableGet vmm c.tables rsp).map fun g => c.framed g si handler := by
  have haligned : ∀ a, handlerRsp a &&& 0xF#64 = 0 := by
    intro a
    rw [and_eq_zero_iff, toNat_handlerRsp]
    omega
  cases hget : pageTableGet vmm c.tables rsp with
  | none => rw [Cpu.pushFrame, hget, Option.bind_none, Option.map_none]
  | some g =>
    have hbase : align g - 128 - stackInfoSize = handlerRsp g + 16 := by
      unfold handlerRsp
      bv_omega
    rw [Cpu.pushFrame, hget, Option.bind_some, Option.map_some]
    refine (if_pos ⟨haligned rsp, haligned g⟩).trans ?_
    rw [hbase, show handlerRsp g + 16 - 8 - 8 = handlerRsp g from by bv_omega]
    rfl

end Push

theorem handleSignalFrame_cases {k k' : Kernel} {c c' : Cpu} {p : Process} {t : Thread}
    {reread : Option SignalInfo} {tf tf' : SchedulerFrame}
    (h : k.handleSignalFrame c p t reread tf = some (true, k', c', tf')) :
    tf'.rsp = handlerRsp tf.rsp ∧ ∃ g handler,
      pageTableGet (c.pageTable p) c.tables tf.rsp = some g ∧
      c' = c.framed g (c.stackInfo tf (k.mask t) (k.compatibility p)) handler := by
  unfold Kernel.handleSignalFrame at h
  split at h
  · cases h
  · split at h
    · cases h
    · obtain ⟨⟨sigI, k₁⟩, hget, h⟩ := Option.bind_eq_some_iff.mp h
      have hsame : k₁.mask = k.mask ∧ k₁.compatibility = k.compatibility := by
        unfold Kernel.getAvailableSignal at hget
        split at hget
        · cases hget
          exact ⟨rfl, rfl⟩
        · split at hget
          · cases hget
            exact ⟨rfl, rfl⟩
          · cases hget
      dsimp only at h
      split at h
      · cases h
      · obtain ⟨c₁, hpush, h⟩ := Option.bind_eq_some_iff.mp h
        rw [hsame.1, hsame.2, pushFrame_eq] at hpush
        obtain ⟨g, hg, rfl⟩ := Option.map_eq_some_iff.mp hpush
        split at h
        · obtain ⟨-, hrest⟩ := Prod.mk.inj (Option.some.inj h)
          obtain ⟨-, hrest⟩ := Prod.mk.inj hrest
          obtain ⟨hc, htf⟩ := Prod.mk.inj hrest
          exact ⟨by rw [← htf]; rfl, g, _, hg, hc.symm⟩
        · cases h

/-! ## Section 4: When the frame is right -/

/-- The frame is written where the CPU finds it, and read from there. -/
def Straight (vmm : Virtual) (m : Tables) (rsp : Word) : Prop :=
  ∃ g, pageTableGet vmm m rsp = some g ∧
    pageTableGet vmm m (handlerRsp rsp) = some (handlerRsp g) ∧
    ∀ j, j < 84 → j ≠ 1 → physical vmm m (handlerRsp rsp + ofNat 64 (8 * j)) =
      some (handlerRsp g + ofNat 64 (8 * j))

section Right

variable {vmm : Virtual} {m : Tables} {rsp : Word}

variable {v g f f' : Word} {j : Nat}

/-- What the kernel finds for an address is null or an address on a page. -/
theorem pageTableGet_cases (h : pageTableGet vmm m v = some g) :
    ∃ f, vmm.getPhysical m v = some f ∧ PageAddress f ∧
      (f.toNat = 0 ∧ g.toNat = 0 ∨ f.toNat ≠ 0 ∧ g.toNat = f.toNat + v.toNat % 4096) := by
  obtain ⟨f, hf, rfl⟩ := Option.map_eq_some_iff.mp h
  have hpage := pageAddress_getPhysical hf
  refine ⟨f, hf, hpage, ?_⟩
  split
  · next hzero => exact .inl ⟨by rw [hzero]; rfl, rfl⟩
  · next hne =>
    have hbound := hpage.bound
    rw [toNat_add, toNat_and_low]
    exact .inr ⟨fun hz => hne (eq_of_toNat_eq hz), by omega⟩

theorem handlerRsp_add {a : Word} (hj : j < 84) :
    handlerRsp a + ofNat 64 (8 * j) =
      a - ofNat 64 (a.toNat % 16 + 800 - 8 * j) := by
  have hbase := toNat_handlerRsp a
  apply eq_of_toNat_eq
  rw [toNat_add, BitVec.toNat_sub, toNat_ofNat, toNat_ofNat, hbase]
  omega

theorem givesBack_of_straight {k : Kernel} {c : Cpu} {p : Process} {t : Thread}
    {tf tf' : SchedulerFrame} {handler : Word}
    (hget : pageTableGet (c.pageTable p) c.tables (handlerRsp tf.rsp) = some (handlerRsp g))
    (hphysical : ∀ j, j < 84 → j ≠ 1 →
      physical (c.pageTable p) c.tables (handlerRsp tf.rsp + ofNat 64 (8 * j)) =
        some (handlerRsp g + ofNat 64 (8 * j))) (hrsp : tf'.rsp = handlerRsp tf.rsp) :
    GivesBack k c p t tf
      (c.framed g (c.stackInfo tf (k.mask t) (k.compatibility p)) handler) tf' := by
  intro k₁ c₁ sf htables htable htemp huntouched
  obtain ⟨f, -, ⟨-, hbound⟩, hfound⟩ := pageTableGet_cases hget
  have hmod := toNat_handlerRsp g
  have hassert : (handlerRsp g + 8 + 8) &&& 0xF#64 = 0 ∧ handlerRsp g + 8 + 8 ≠ 0 := by
    rw [and_eq_zero_iff]
    constructor
    · bv_omega
    · intro hzero
      have := congrArg BitVec.toNat hzero
      bv_omega
  have hsaved : c₁.savedAt (handlerRsp g + 8 + 8) =
      c.stackInfo tf (k.mask t) (k.compatibility p) := by
    rw [← StackInfo.ofWords_word (c.stackInfo tf (k.mask t) (k.compatibility p))]
    apply StackInfo.ofWords_congr
    intro i hi
    have haddress : ∀ a : Word,
        a + 16 + ofNat 64 (8 * i) = a + ofNat 64 (8 * (i + 2)) := by
      intro a
      bv_omega
    have hfound : physical (c.pageTable p) c.tables (tf'.rsp + 16 + ofNat 64 (8 * i)) =
        some (handlerRsp g + 16 + ofNat 64 (8 * i)) := by
      rw [hrsp, haddress, haddress]
      exact hphysical (i + 2) (by omega) (by omega)
    rw [show handlerRsp g + 8 + 8 = handlerRsp g + 16 from by bv_omega,
      huntouched i hi _ hfound]
    exact framed_word hi
  have hrestore : k₁.restoreHandleSignal c₁ p t sf =
      some (k₁.setMask t (k.mask t),
        c₁.restore (c.stackInfo tf (k.mask t) (k.compatibility p)), sf.restore tf) := by
    rw [Kernel.restoreHandleSignal, htables, htable, htemp, hrsp, hget, Option.bind_some]
    refine (if_pos hassert).trans ?_
    rw [hsaved]
    rfl
  exact ⟨_, _, hrestore, rfl, Function.update_self _ _ _⟩

theorem frameRight_of_straight (h : Straight vmm m rsp) : FrameRight vmm m rsp := by
  obtain ⟨g, hg, hget, hphysical⟩ := h
  rintro k c p t reread tf k' c' tf' rfl rfl rfl hdelivered
  obtain ⟨hrsp, g', handler, hg', rfl⟩ := handleSignalFrame_cases hdelivered
  obtain rfl := Option.mem_unique hg hg'
  refine ⟨givesBack_of_straight hget hphysical hrsp, ?_⟩
  -- what has changed is a word of the frame
  intro x hchanged
  by_contra hnot
  apply hchanged
  apply framed_of_ne
  rintro j hj hne rfl
  refine hnot ⟨tf.rsp.toNat % 16 + 800 - 8 * j, by omega, by omega, ?_⟩
  rw [← handlerRsp_add hj]
  exact hphysical j hj hne

theorem handlerRsp_apart {r : Word} (hg : pageTableGet vmm m rsp = some g)
    (hr : pageTableGet vmm m (handlerRsp rsp) = some r) (hne : r ≠ handlerRsp g) {i : Nat}
    (hi : i < 84) (hj : j < 84) :
    r + ofNat 64 (8 * i) ≠ handlerRsp g + ofNat 64 (8 * j) := by
  obtain ⟨f, -, ⟨haligned, hbound⟩, hfound⟩ := pageTableGet_cases hg
  obtain ⟨f', -, ⟨haligned', hbound'⟩, hfound'⟩ := pageTableGet_cases hr
  have hwnat := toNat_handlerRsp g
  have hlow := toNat_handlerRsp rsp
  have hnat : r.toNat ≠ (handlerRsp g).toNat := fun h => hne (eq_of_toNat_eq h)
  intro heq
  have heq := congrArg BitVec.toNat heq
  rw [toNat_add, toNat_add, toNat_ofNat, toNat_ofNat] at heq
  obtain ⟨-, hgnat⟩ | ⟨hf, hgnat⟩ := hfound
  · obtain ⟨-, hrnat⟩ | ⟨-, hrnat⟩ := hfound' <;> omega
  · obtain ⟨-, hrnat⟩ | ⟨-, hrnat⟩ := hfound' <;> omega

theorem handlerRsp_get (hg : pageTableGet vmm m rsp = some g)
    (hr : pageTableGet vmm m (handlerRsp rsp) = some (handlerRsp g)) :
    ∃ f, vmm.getPhysical m (handlerRsp rsp) = some f ∧ PageAddress f ∧ f.toNat ≠ 0 ∧
      (handlerRsp g).toNat = f.toNat + (handlerRsp rsp).toNat % 4096 := by
  obtain ⟨f, -, ⟨haligned, hbound⟩, hfound⟩ := pageTableGet_cases hg
  obtain ⟨f', hf', hpage, hfound'⟩ := pageTableGet_cases hr
  have hwnat := toNat_handlerRsp g
  exact ⟨f', hf', hpage, by omega, by omega⟩

/-- Process 1 has a handler for `SIGUSR1`, which is queued. -/
def exampleQueued : Kernel :=
  { Kernel.examplePair with
    signals := fun _ =>
      { lastSignal := none
        trampoline := true
        queue := [⟨.usr1, 0, -1⟩]
        sa := fun _ => ⟨0x1000, 0, 0, 0⟩
        watchers := []
        disposition := getDefaultSignalDisposition } }

/-- A CPU with this page table and memory. -/
def exampleCpu (vmm : Virtual) (m : Tables) (memory : Word → Word) : Cpu where
  memory := memory
  tables := m
  pageTable := fun _ => vmm
  trampAddr := fun _ => 0x7000
  fx := fun _ => 0
  gsBase := 0
  fsBase := 0
  shadowGSBase := 0
  tempStack := 0

/-- A thread in user mode with this stack pointer. -/
def exampleFrame (rsp : Word) : SchedulerFrame :=
  ⟨0, 0, 0, 0, 0, 0, 0, 0, 0, 0, 0, 0, 0, 0, 0, 0, 0, 0, 0, 0x4000, gdtUserCode, 0x202, rsp, 0x1B⟩

/-- What is saved of this thread. -/
def exampleInfo (rsp : Word) : StackInfo :=
  ⟨fun _ => 0, exampleFrame rsp, 0, 0, 0, 0, TaskCompatibility.linux.number⟩

theorem exampleQueued_delivers (memory : Word → Word) (hg : pageTableGet vmm m rsp = some g) :
    ∃ k' tf', tf'.rsp = handlerRsp rsp ∧
      exampleQueued.handleSignalFrame (exampleCpu vmm m memory) 1 1 (some ⟨.usr1, 0, -1⟩)
        (exampleFrame rsp) =
        some (true, k', (exampleCpu vmm m memory).framed g (exampleInfo rsp) 0x1000, tf') := by
  have hpush : (exampleCpu vmm m memory).pushFrame vmm rsp (exampleInfo rsp) 0x1000 =
      some ((exampleCpu vmm m memory).framed g (exampleInfo rsp) 0x1000) := by
    rw [pushFrame_eq]
    exact congrArg (Option.map _) hg
  have hget : exampleQueued.getAvailableSignal 1 1 (some ⟨.usr1, 0, -1⟩) =
      some (some ⟨.usr1, 0, -1⟩, exampleQueued.modifySignal 1 fun s =>
        { s with queue := s.queue.eraseP (exampleQueued.available 1) }) := rfl
  have hqueue : (exampleQueued.signals 1).queue ≠ [] := by
    intro h
    cases h
  refine ⟨(exampleQueued.modifySignal 1 fun s =>
    { s with queue := s.queue.eraseP (exampleQueued.available 1) }).setMask 1 0,
    (exampleFrame rsp).enter (handlerRsp rsp) 0x7000 10, rfl, ?_⟩
  have hcs : ¬ (exampleFrame rsp).cs ≠ gdtUserCode := not_not_intro rfl
  rw [Kernel.handleSignalFrame, if_neg hcs, if_neg hqueue, hget, Option.bind_some]
  refine (congrArg (Option.bind · _) hpush).trans ?_
  rfl

theorem eq_handlerRsp_add {d : Nat} (hd : 0 < d) (hd' : d ≤ 816) (hj : j < 84)
    (h : (rsp - ofNat 64 d).toNat % 4096 =
      (handlerRsp rsp + ofNat 64 (8 * j)).toNat % 4096) :
    rsp - ofNat 64 d = handlerRsp rsp + ofNat 64 (8 * j) := by
  rw [handlerRsp_add hj] at h ⊢
  have hrsp := rsp.isLt
  rw [BitVec.toNat_sub, BitVec.toNat_sub, toNat_ofNat, toNat_ofNat] at h
  have hd : d = rsp.toNat % 16 + 800 - 8 * j := by omega
  rw [hd]

theorem physical_eq_some_iff {x : Word} : physical vmm m v = some x ↔
    ∃ f, frameOf vmm m v = some f ∧ f.toNat % 4096 = 0 ∧ x.toNat = f.toNat + v.toNat % 4096 := by
  have hsum : ∀ f, frameOf vmm m v = some f →
      f.toNat % 4096 = 0 ∧ (f + (v &&& 0xFFF#64)).toNat = f.toNat + v.toNat % 4096 := by
    intro f hf
    have haligned := frameOf_aligned hf
    rw [toNat_add, toNat_and_low]
    omega
  rw [physical, Option.map_eq_some_iff]
  constructor
  · rintro ⟨f, hf, rfl⟩
    exact ⟨f, hf, hsum f hf⟩
  · rintro ⟨f, hf, -, hx⟩
    exact ⟨f, hf, eq_of_toNat_eq ((hsum f hf).2.trans hx.symm)⟩

theorem toNat_physical {x : Word} (h : physical vmm m v = some x) :
    x.toNat % 4096 = v.toNat % 4096 := by
  obtain ⟨f, -, haligned, hnat⟩ := physical_eq_some_iff.mp h
  omega

theorem frameOf_of_physical {x : Word} (hx : physical vmm m v = some x) (hf : f.toNat % 4096 = 0)
    (hnat : x.toNat = f.toNat + v.toNat % 4096) : frameOf vmm m v = some f := by
  obtain ⟨f', hf', haligned, hnat'⟩ := physical_eq_some_iff.mp hx
  have : f' = f := eq_of_toNat_eq (by omega)
  rw [hf', this]

theorem mask_restoreHandleSignal {k k₂ : Kernel} {c c₂ : Cpu} {p : Process} {t : Thread}
    {sf sf' : SyscallsFrame} {r : Word}
    (hr : pageTableGet (c.pageTable p) c.tables c.tempStack = some r)
    (h : k.restoreHandleSignal c p t sf = some (k₂, c₂, sf')) :
    k₂.mask t = c.memory (r + ofNat 64 (8 * 81)) := by
  rw [Kernel.restoreHandleSignal, hr, Option.bind_some] at h
  dsimp only at h
  split at h
  · cases h
    refine (Function.update_self _ _ _).trans ?_
    have haddress : r + 8 + 8 + ofNat 64 (8 * 79) = r + ofNat 64 (8 * 81) := by
      bv_omega
    exact congrArg c.memory haddress
  · cases h

theorem straight_of_frameRight (hrsp : Canonical rsp) (hlow : Canonical (handlerRsp rsp))
    (h : FrameRight vmm m rsp) : Straight vmm m rsp := by
  obtain ⟨g, hg⟩ := pageTableGet_of_canonical hrsp
  obtain ⟨r, hr⟩ := pageTableGet_of_canonical hlow
  have hread : r = handlerRsp g := by
    -- else the mask is read from memory that was not written
    by_contra hne
    obtain ⟨k', tf', hrsp', hdelivered⟩ := exampleQueued_delivers (fun _ => 1) hg
    obtain ⟨k₂, c₂, hrestore, -, hmask⟩ :=
      (h _ _ _ _ _ _ _ _ _ rfl rfl rfl hdelivered).1 exampleQueued
        { (exampleCpu vmm m fun _ => 1).framed g (exampleInfo rsp) 0x1000 with
          tempStack := tf'.rsp }
        ⟨0, 0, 0, 0, 0, 0, 0, 0, 0, 0, 0, 0, 0, 0, 0, 0, 0, 0, 0, 0⟩ rfl rfl rfl fun _ _ _ _ => rfl
    have hword := mask_restoreHandleSignal (r := r) (by rw [hrsp']; exact hr) hrestore
    dsimp only at hword
    rw [hmask, Cpu.framed_memory,
      framed_of_ne fun j hj _ => handlerRsp_apart hg hr hne (by decide) hj] at hword
    have hone : exampleQueued.mask 1 = (1 : BitVec 64) := hword
    revert hone
    decide
  subst hread
  refine ⟨g, hg, hr, fun j hj hne => ?_⟩
  -- a memory in which every word of the frame changes
  let written := framed (fun _ => 0) (handlerRsp g) (exampleInfo rsp) 0x1000
  obtain ⟨k', tf', hrsp', hdelivered⟩ := exampleQueued_delivers (fun x => written x + 1) hg
  have hchanged : framed (fun x => written x + 1) (handlerRsp g) (exampleInfo rsp) 0x1000
      (handlerRsp g + ofNat 64 (8 * j)) ≠
      written (handlerRsp g + ofNat 64 (8 * j)) + 1 := by
    rw [framed_congr hj hne]
    show written _ ≠ written _ + 1
    bv_omega
  obtain ⟨d, hd, hd', hphysical⟩ := (h _ _ _ _ _ _ _ _ _ rfl rfl rfl hdelivered).2 _ hchanged
  have hoffset : (rsp - ofNat 64 d).toNat % 4096 =
      (handlerRsp rsp + ofNat 64 (8 * j)).toNat % 4096 := by
    obtain ⟨f', -, ⟨haligned', -⟩, -, hwnat⟩ := handlerRsp_get hg hr
    refine (toNat_physical hphysical).symm.trans ?_
    rw [toNat_add, toNat_add, toNat_ofNat, hwnat]
    omega
  rw [← eq_handlerRsp_add hd hd' hj hoffset]
  exact hphysical

theorem fits_of_straight (h : Straight vmm m rsp) : Fits vmm m rsp := by
  obtain ⟨g, hg, hr, hphysical⟩ := h
  obtain ⟨f, hf, ⟨haligned, hbound⟩, hfound⟩ := pageTableGet_cases hg
  obtain ⟨f', hf', ⟨haligned', hbound'⟩, hne, hwnat⟩ := handlerRsp_get hg hr
  have hlow : frameOf vmm m (handlerRsp rsp) = some f' := by
    have hx := hphysical 0 (by decide) (by decide)
    rw [Nat.mul_zero, BitVec.add_zero, BitVec.add_zero] at hx
    exact frameOf_of_physical hx haligned' hwnat
  refine ⟨f', fun hzero => hne (by rw [hzero]; rfl), hf', hlow, fun hoffset => ?_⟩
  have hbase := toNat_handlerRsp g
  have hlownat := toNat_handlerRsp rsp
  unfold frameOffset at hoffset
  have hadjacent : f = f' + 0x1000 := by
    apply eq_of_toNat_eq
    rw [toNat_add, show (0x1000 : Word).toNat = 4096 from rfl]
    omega
  refine ⟨by rw [hf, hadjacent], fun hreaches => ?_⟩
  -- the highest word of the frame is on the page of the stack pointer
  have hx := hphysical 83 (by decide) (by decide)
  have htop : (handlerRsp rsp + ofNat 64 (8 * 83)).toNat / 4096 = rsp.toNat / 4096 := by
    rw [toNat_add, toNat_ofNat]
    unfold frameOffset at hreaches
    omega
  rw [← frameOf_congr (pageBase_congr htop), ← hadjacent]
  apply frameOf_of_physical hx haligned
  rw [toNat_add, toNat_add, toNat_ofNat]
  unfold frameOffset at hreaches
  omega

theorem Fits.getPhysical_rsp (hf' : vmm.getPhysical m (handlerRsp rsp) = some f')
    (hpage : frameOffset rsp < 800 → vmm.getPhysical m rsp = some (f' + 0x1000)) :
    ∃ f, vmm.getPhysical m rsp = some f ∧
      f.toNat = f'.toNat + if frameOffset rsp < 800 then 4096 else 0 := by
  have hbound := (pageAddress_getPhysical hf').bound
  split
  · next hoffset =>
    refine ⟨_, hpage hoffset, ?_⟩
    rw [toNat_add, show (0x1000 : Word).toNat = 4096 from rfl]
    omega
  · next hoffset =>
    refine ⟨f', ?_, rfl⟩
    have hlow := toNat_handlerRsp rsp
    rw [← hf']
    apply getPhysical_congr
    apply pageBase_congr
    unfold frameOffset at hoffset
    have := rsp.isLt
    omega

theorem straight_of_fits (h : Fits vmm m rsp) : Straight vmm m rsp := by
  obtain ⟨f', hne, hf', hlow, hpage⟩ := h
  obtain ⟨f, hf, hfnat⟩ := Fits.getPhysical_rsp hf' fun hoffset => (hpage hoffset).1
  obtain ⟨haligned', hbound'⟩ := pageAddress_getPhysical hf'
  have hnat' : f'.toNat ≠ 0 := fun hz => hne (eq_of_toNat_eq hz)
  have hlownat := toNat_handlerRsp rsp
  obtain ⟨g, hg⟩ : ∃ g, pageTableGet vmm m rsp = some g := ⟨_, pageTableGet_of_getPhysical hf⟩
  have hgnat : g.toNat = f.toNat + rsp.toNat % 4096 := by
    obtain ⟨q, hq, -, hfound⟩ := pageTableGet_cases hg
    obtain rfl := Option.mem_unique hf hq
    omega
  have hbase := toNat_handlerRsp g
  have hwnat : (handlerRsp g).toNat = f'.toNat + (handlerRsp rsp).toNat % 4096 := by
    unfold frameOffset at hfnat
    have := rsp.isLt
    split at hfnat <;> omega
  refine ⟨g, hg, ?_, fun j hj hj1 => ?_⟩
  · rw [pageTableGet_of_getPhysical hf', if_neg hne]
    congr 1
    apply eq_of_toNat_eq
    rw [toNat_add, toNat_and_low, hwnat]
    omega
  · -- a word of the frame is on the page of its lower end or on that of the stack pointer
    have haddress : (handlerRsp rsp + ofNat 64 (8 * j)).toNat =
        ((handlerRsp rsp).toNat + 8 * j) % 2 ^ 64 := by
      rw [toNat_add, toNat_ofNat]
      omega
    obtain ⟨q, hq, hqnat⟩ : ∃ q, frameOf vmm m (handlerRsp rsp + ofNat 64 (8 * j)) = some q ∧
        q.toNat + (handlerRsp rsp + ofNat 64 (8 * j)).toNat % 4096 =
          f'.toNat + (handlerRsp rsp).toNat % 4096 + 8 * j := by
      by_cases hsame : (handlerRsp rsp).toNat % 4096 + 8 * j < 4096
      · refine ⟨f', ?_, by omega⟩
        rw [← hlow]
        exact frameOf_congr (pageBase_congr (by omega))
      · have hoffset : frameOffset rsp < 800 ∧ 128 < frameOffset rsp := by
          unfold frameOffset
          omega
        refine ⟨f' + 0x1000, ?_, ?_⟩
        · rw [← (hpage hoffset.1).2 hoffset.2]
          exact frameOf_congr (pageBase_congr (by have := rsp.isLt; omega))
        · rw [toNat_add, show (0x1000 : Word).toNat = 4096 from rfl]
          omega
    refine physical_eq_some_iff.mpr ⟨q, hq, frameOf_aligned hq, ?_⟩
    rw [toNat_add, toNat_ofNat, hwnat]
    omega

/-- **The frame of a handler.** With a page table and a stack pointer every delivery saves
    what it interrupts on the stack and every return gives it back exactly if the frame is on
    one page or on two that are next to each other in physical memory. -/
theorem signal_frame_iff (hrsp : Canonical rsp) (hlow : Canonical (handlerRsp rsp)) :
    FrameRight vmm m rsp ↔ Fits vmm m rsp :=
  ⟨fun h => fits_of_straight (straight_of_frameRight hrsp hlow h),
    fun h => frameRight_of_straight (straight_of_fits h)⟩

/-- Pages 5 and 6 are at `0x9000` and `0x20000`. -/
def exampleStack : Tables := fun table index =>
  if table = 0x1000 ∧ index = 0 then 0x2003
  else if table = 0x2000 ∧ index = 0 then 0x3003
  else if table = 0x3000 ∧ index = 0 then 0x4003
  else if table = 0x4000 ∧ index = 5 then 0x9003
  else if table = 0x4000 ∧ index = 6 then 0x20003
  else 0

theorem signal_frame_iff_page :
    Canonical 0x6F00 ∧ Canonical (handlerRsp 0x6F00) ∧ FrameRight ⟨0x1000⟩ exampleStack 0x6F00 := by
  have hrsp : Canonical 0x6F00 := by decide
  have hlow : Canonical (handlerRsp 0x6F00) := by decide
  have hfits : Fits ⟨0x1000⟩ exampleStack 0x6F00 :=
    ⟨0x20000, by decide, by decide, by decide, fun h => absurd h (by decide)⟩
  exact ⟨hrsp, hlow, (signal_frame_iff hrsp hlow).mpr hfits⟩

/-- With the stack pointer `0x6100` the frame is on both pages, which are mapped, and it is
    written to the page before `0x20000`. -/
theorem signal_frame_torn :
    frameOf ⟨0x1000⟩ exampleStack (handlerRsp 0x6100) = some 0x9000 ∧
      frameOf ⟨0x1000⟩ exampleStack 0x6100 = some 0x20000 ∧
      ¬ FrameRight ⟨0x1000⟩ exampleStack 0x6100 := by
  refine ⟨by decide, by decide, fun hright => ?_⟩
  obtain ⟨g, hg, hr, -⟩ := straight_of_frameRight (by decide) (by decide) hright
  have hg' : pageTableGet ⟨0x1000⟩ exampleStack 0x6100 = some 0x20100 := by decide
  have hr' : pageTableGet ⟨0x1000⟩ exampleStack (handlerRsp 0x6100) = some 0x9DE0 := by decide
  obtain rfl := Option.mem_unique hg hg'
  have hwritten : (0x9DE0 : Word) = handlerRsp 0x20100 := Option.mem_unique hr' hr
  revert hwritten
  decide

end Right

end Fennix.Tasking
