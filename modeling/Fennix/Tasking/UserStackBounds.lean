import Fennix.Tasking.UserStack

/-! # How far down the first stack reaches

    `TCB::SetupUserStack_x86_64` of `Kernel/tasking/thread.cpp` once more, with
    pointers of 64 bits and each store by itself. Nothing in the function looks at
    the size of the stack, so for long arguments the pointers leave it, and may
    wrap around.

    - `Tracks`: how far below its top the stack is in use, and that this decides
      whether all stores so far are inside.
    - `stores_inside_iff`, `rsp_aligned_iff`: the size of the image decides both.
-/

namespace Fennix.Tasking.UserStack

open Layout Memory.StackGuard

/-! ## Section 1: The stores -/

/-- A pointer lowered by some bytes. -/
def lower (p n : Nat) : Nat := (p + (2 ^ 64 - n % 2 ^ 64)) % 2 ^ 64

/-- A store: where, and the bytes. -/
abbrev Store := Nat × List Byte

/-- The stores so far, and the stack pointer. -/
structure Log where
  stores : List Store
  pointer : Nat

/-- The pointer is lowered by the length of the bytes, and these are stored
    there. -/
def Log.push (s : Log) (bytes : List Byte) : Log :=
  let p := lower s.pointer bytes.length
  ⟨s.stores ++ [(p, bytes)], p⟩

/-- The stores of the loop over the addresses of strings. -/
def wordStores (a : Nat) : List Nat → List Store
  | [] => []
  | v :: rest => (a, word v) :: wordStores ((a + 8) % 2 ^ 64) rest

/-- `Stack64 -= n`, and the loop over the addresses of the strings. -/
def Log.pushWords (s : Log) (values : List Nat) : Log :=
  let p := lower s.pointer (8 * values.length)
  ⟨s.stores ++ wordStores p values, p⟩

/-- The loops over `argv` and over `envp`. -/
def Log.pushStrings (s : Log) (strings : List CString) : Log :=
  strings.foldl (fun s string => s.push (string.1 ++ [0])) s

/-- The loop over the auxiliary vector. -/
def Log.pushAuxv (s : Log) (auxv : List (Nat × Nat)) : Log :=
  auxv.foldl (fun s av => s.push (word av.1 ++ word av.2)) s

/-- The virtual addresses of the strings, and `stackStrVirtual` behind them. -/
def virtualStrings (v : Nat) : List CString → List Nat × Nat
  | [] => ([], v)
  | string :: rest =>
    let v := lower v (string.1.length + 1)
    let r := virtualStrings v rest
    (v :: r.1, r.2)

/-- The pointer after the strings: aligned, once more if their number is odd. -/
def Log.align (s : Log) (strings : Nat) : Log :=
  let stackStr := s.pointer - s.pointer % 16
  let pStack := lower stackStr (strings % 2)
  { s with pointer := pStack - pStack % 16 }

/-- `TCB::SetupUserStack_x86_64`: all stores, and the last `Stack64`. -/
def setupLog (stack : Stack) (argv envp : List CString) (auxv : List (Nat × Nat)) : Log :=
  let argvStrings := virtualStrings stack.stackTop argv
  let envpStrings := virtualStrings argvStrings.2 envp
  let s : Log := ⟨[], stack.stackPhysicalTop⟩
  let s := (s.pushStrings argv).pushStrings envp
  let s := (s.align (argv.length + envp.length)).push (word 0)
  let s := s.pushAuxv (if auxv.length = 0 then [(0, 0)] else auxv)
  let s := (s.push (word 0)).pushWords envpStrings.1
  let s := (s.push (word 0)).pushWords argvStrings.1
  s.push (word argv.length)

/-- The `rsp` that it sets. -/
def setupRsp (stack : Stack) (argv envp : List CString) (auxv : List (Nat × Nat)) : Nat :=
  lower stack.stackTop (lower stack.stackPhysicalTop (setupLog stack argv envp auxv).pointer)

/-- Every byte of the stores is between two addresses. -/
def Inside (low high : Nat) (stores : List Store) : Prop :=
  ∀ w ∈ stores, ∀ i < w.2.length, low ≤ (w.1 + i) % 2 ^ 64 ∧ (w.1 + i) % 2 ^ 64 < high

instance (low high : Nat) (stores : List Store) : Decidable (Inside low high stores) :=
  inferInstanceAs (Decidable (∀ w ∈ stores, ∀ i < w.2.length, _))

/-! ## Section 2: One store -/

theorem lower_lt (p n : Nat) : lower p n < 2 ^ 64 := Nat.mod_lt _ (by decide)

variable {p top used size : Nat}

theorem lower_of_le {n : Nat} (hn : n ≤ p) (hp : p < 2 ^ 64) : lower p n = p - n := by
  unfold lower
  omega

/-- The pointer is so far below the top. -/
def Below (top used p : Nat) : Prop := p < 2 ^ 64 ∧ (p + used) % 2 ^ 64 = top

theorem Below.lower (h : Below top used p) (n : Nat) : Below top (used + n) (lower p n) := by
  obtain ⟨hp, hused⟩ := h
  refine ⟨lower_lt p n, ?_⟩
  unfold UserStack.lower
  omega

theorem inside_append {low high : Nat} {ws ws' : List Store} :
    Inside low high (ws ++ ws') ↔ Inside low high ws ∧ Inside low high ws' :=
  List.forall_mem_append

/-- A stack of `size` bytes below `top`, with room for a store below its bottom. -/
structure Area (top size : Nat) : Prop where
  fits : size ≤ top
  top_lt : top < 2 ^ 64
  size_lt : size + 32 < 2 ^ 64

/-- Some bytes that end where the stack is in use are inside the stack if it has
    room for them. The stack may be in use a little below its bottom. -/
theorem inside_bytes_iff {n : Nat} (harea : Area top size) (h : Below top (used + n) p)
    (hpos : 0 < n) (hused : used ≤ size + 31) :
    (∀ i < n, top - size ≤ (p + i) % 2 ^ 64 ∧ (p + i) % 2 ^ 64 < top) ↔ used + n ≤ size := by
  obtain ⟨hp, heq⟩ := h
  obtain ⟨hfits, htop, hsize⟩ := harea
  constructor
  · intro hall
    by_contra hover
    -- a byte just below the bottom, or just below what is in use
    obtain ⟨d, hd⟩ : ∃ d, d = max (used + 1) (size + 1) := ⟨_, rfl⟩
    have hbyte := hall (used + n - d) (by omega)
    omega
  · intro hle i hi
    omega

theorem inside_singleton {bytes : List Byte} (harea : Area top size)
    (h : Below top (used + bytes.length) p) (hpos : 0 < bytes.length) (hused : used ≤ size + 31) :
    Inside (top - size) top [(p, bytes)] ↔ used + bytes.length ≤ size := by
  rw [← inside_bytes_iff harea h hpos hused]
  exact List.forall_mem_singleton

theorem inside_wordStores (low high : Nat) (values : List Nat) (a : Nat) :
    Inside low high (wordStores a values) ↔
      ∀ i < 8 * values.length, low ≤ (a + i) % 2 ^ 64 ∧ (a + i) % 2 ^ 64 < high := by
  induction values generalizing a with
  | nil => simp [Inside, wordStores]
  | cons v rest ih =>
    have hstep : ∀ i, ((a + 8) % 2 ^ 64 + i) % 2 ^ 64 = (a + (8 + i)) % 2 ^ 64 := by
      intro i
      omega
    rw [wordStores, ← List.singleton_append, inside_append, ih, List.length_cons]
    constructor
    · rintro ⟨hfirst, hrest⟩ i hi
      by_cases hlt : i < 8
      · exact hfirst _ (List.mem_singleton_self _) i (by simpa using hlt)
      · have h := hrest (i - 8) (by omega)
        rwa [hstep, show 8 + (i - 8) = i by omega] at h
    · intro hall
      refine ⟨?_, fun i hi => ?_⟩
      · rintro w hw i hi
        obtain rfl := List.mem_singleton.mp hw
        simp only [length_littleEndian] at hi
        exact hall i (by omega)
      · rw [hstep]
        exact hall (8 + i) (by omega)

/-! ## Section 3: All stores -/

/-- The stack is in use to `used` bytes below its top, and all stores are inside
    exactly if these bytes fit. -/
structure Tracks (top size used : Nat) (s : Log) : Prop where
  below : Below top used s.pointer
  inside : Inside (top - size) top s.stores ↔ used ≤ size

section tracks

variable {top size used : Nat} {s : Log}

/-- A store below a stack that is `used'` full, which nothing was stored to on the way. -/
theorem Tracks.inside_push (harea : Area top size) (h : Tracks top size used s) {used' p : Nat}
    {bytes : List Byte} (hlow : used ≤ used' ∧ used' ≤ used + 31)
    (hbelow : Below top (used' + bytes.length) p) (hpos : 0 < bytes.length) :
    Inside (top - size) top (s.stores ++ [(p, bytes)]) ↔ used' + bytes.length ≤ size := by
  rw [inside_append, h.inside]
  constructor
  · rintro ⟨hused, hstore⟩
    exact (inside_singleton harea hbelow hpos (by omega)).mp hstore
  · intro hle
    exact ⟨by omega, (inside_singleton harea hbelow hpos (by omega)).mpr hle⟩

theorem Tracks.push (harea : Area top size) (h : Tracks top size used s) {bytes : List Byte}
    (hpos : 0 < bytes.length) : Tracks top size (used + bytes.length) (s.push bytes) := by
  have hbelow := h.below.lower bytes.length
  exact ⟨hbelow, h.inside_push harea ⟨Nat.le_refl _, by omega⟩ hbelow hpos⟩

theorem Tracks.pushWords (harea : Area top size) (h : Tracks top size used s)
    (values : List Nat) : Tracks top size (used + 8 * values.length) (s.pushWords values) := by
  have hbelow := h.below.lower (8 * values.length)
  refine ⟨hbelow, ?_⟩
  rw [Log.pushWords, inside_append, h.inside, inside_wordStores]
  rcases Nat.eq_zero_or_pos (8 * values.length) with hzero | hpos
  · -- nothing is stored
    simp [hzero]
  constructor
  · rintro ⟨hused, hstores⟩
    exact (inside_bytes_iff harea hbelow hpos (by omega)).mp hstores
  · intro hle
    exact ⟨by omega, (inside_bytes_iff harea hbelow hpos (by omega)).mpr hle⟩

theorem Tracks.pushStrings (harea : Area top size) (strings : List CString) :
    ∀ {used : Nat} {s : Log}, Tracks top size used s →
      Tracks top size (used + stringBytes strings) (s.pushStrings strings) := by
  induction strings with
  | nil => intro used s h; exact h
  | cons string rest ih =>
    intro used s h
    have hlength : (string.1 ++ [0]).length = string.1.length + 1 := by simp
    have hsum : used + stringBytes (string :: rest) =
        used + (string.1 ++ [0]).length + stringBytes rest := by
      simp only [stringBytes, List.map_cons, List.sum_cons, hlength]
      omega
    rw [hsum]
    exact ih (h.push harea (by omega))

theorem Tracks.pushAuxv (harea : Area top size) (auxv : List (Nat × Nat)) :
    ∀ {used : Nat} {s : Log}, Tracks top size used s →
      Tracks top size (used + 16 * auxv.length) (s.pushAuxv auxv) := by
  induction auxv with
  | nil => intro used s h; exact h
  | cons av rest ih =>
    intro used s h
    have hlength : (word av.1 ++ word av.2).length = 16 := by simp
    have hsum : used + 16 * (av :: rest).length =
        used + (word av.1 ++ word av.2).length + 16 * rest.length := by
      rw [List.length_cons, hlength]
      omega
    rw [hsum]
    exact ih (h.push harea (by omega))

/-- How far down the stack is in use after it is aligned. -/
def alignedUse (used strings : Nat) : Nat := (used + 15) / 16 * 16 + 16 * (strings % 2)

theorem Below.floor {p : Nat} (h : Below top used p) (htop : top % 16 = 0) :
    Below top ((used + 15) / 16 * 16) (p - p % 16) := by
  obtain ⟨hp, hused⟩ := h
  refine ⟨by omega, ?_⟩
  omega

theorem below_align (h : Below top used s.pointer) (htop : top % 16 = 0) (strings : Nat) :
    Below top (alignedUse used strings) (s.align strings).pointer := by
  have hsum : alignedUse used strings = ((used + 15) / 16 * 16 + strings % 2 + 15) / 16 * 16 := by
    unfold alignedUse
    omega
  rw [hsum]
  exact ((h.floor htop).lower (strings % 2)).floor htop

/-- The first word below the strings. The pointer is aligned before, which may
    take it out of the stack without a store. -/
theorem Tracks.alignPush (harea : Area top size) (h : Tracks top size used s)
    (htop : top % 16 = 0) (strings : Nat) {bytes : List Byte} (hpos : 0 < bytes.length) :
    Tracks top size (alignedUse used strings + bytes.length)
      ((s.align strings).push bytes) := by
  have hbelow := (below_align h.below htop strings).lower bytes.length
  have hlow : used ≤ alignedUse used strings ∧ alignedUse used strings ≤ used + 31 := by
    unfold alignedUse
    omega
  exact ⟨hbelow, h.inside_push harea hlow hbelow hpos⟩

end tracks

theorem length_virtualStrings (v : Nat) (strings : List CString) :
    (virtualStrings v strings).1.length = strings.length := by
  induction strings generalizing v with
  | nil => rfl
  | cons string rest ih => exact congrArg (· + 1) (ih _)

theorem setupLog_tracks {stack : Stack} (harea : Area stack.stackPhysicalTop size)
    (htop : stack.stackPhysicalTop % 16 = 0) (argv envp : List CString) (auxv : List (Nat × Nat)) :
    Tracks stack.stackPhysicalTop size (imageSize argv envp auxv)
      (setupLog stack argv envp auxv) := by
  have haux := length_auxvOrNull auxv
  have hstart : Tracks stack.stackPhysicalTop size 0 ⟨[], stack.stackPhysicalTop⟩ := by
    refine ⟨⟨harea.top_lt, Nat.mod_eq_of_lt harea.top_lt⟩, ?_⟩
    simp [Inside]
  have hword : ∀ v, 0 < (word v).length := fun v => by simp
  have hstrings := (hstart.pushStrings harea argv).pushStrings harea envp
  have hnull := hstrings.alignPush harea htop (argv.length + envp.length) (hword 0)
  have hauxv := hnull.pushAuxv harea (if auxv.length = 0 then [(0, 0)] else auxv)
  have henvp := (hauxv.push harea (hword 0)).pushWords harea
    (virtualStrings (virtualStrings stack.stackTop argv).2 envp).1
  have hargv := (henvp.push harea (hword 0)).pushWords harea
    (virtualStrings stack.stackTop argv).1
  have hargc := hargv.push harea (hword argv.length)
  have hsize : imageSize argv envp auxv = alignedUse (0 + stringBytes argv + stringBytes envp)
      (argv.length + envp.length) + (word 0).length +
      16 * (if auxv.length = 0 then [(0, 0)] else auxv).length + (word 0).length +
      8 * (virtualStrings (virtualStrings stack.stackTop argv).2 envp).1.length +
      (word 0).length + 8 * (virtualStrings stack.stackTop argv).1.length +
      (word argv.length).length := by
    rw [haux]
    simp only [imageSize, alignedUse, length_virtualStrings, length_littleEndian, Nat.zero_add]
    omega
  rw [hsize]
  exact hargc

/-! ## Section 4: The stack pointer -/

/-- **Alignment**: the stack pointer of a new thread is a multiple of 16 exactly if
    the number of its arguments and environment strings is even. -/
theorem rsp_aligned_iff {stack : Stack} (hphysical : stack.stackPhysicalTop < 2 ^ 64)
    (haligned : stack.stackPhysicalTop % 16 = 0) (htop : stack.stackTop % 16 = 0)
    (argv envp : List CString) (auxv : List (Nat × Nat)) :
    setupRsp stack argv envp auxv % 16 = 0 ↔ (argv.length + envp.length) % 2 = 0 := by
  have harea : Area stack.stackPhysicalTop 0 := ⟨Nat.zero_le _, hphysical, by decide⟩
  obtain ⟨hp, hpointer⟩ := (setupLog_tracks harea haligned argv envp auxv).below
  have hwords : imageSize argv envp auxv % 16 = 8 * (argv.length + envp.length) % 16 := by
    unfold imageSize
    omega
  unfold setupRsp lower
  omega

theorem rsp_aligned_iff_pair :
    setupRsp (create noneReserved emptyTable 0x100000) [lsString] [lsString] [] % 16 = 0 :=
  (rsp_aligned_iff (by decide) (by decide) (by decide) [lsString] [lsString] []).mpr rfl

/-- One argument and no environment. -/
theorem rsp_misaligned :
    imageSize [lsString] [] [] ≤ userStackSize ∧
      (create noneReserved emptyTable 0x100000).stackPhysicalTop % 16 = 0 ∧
      (create noneReserved emptyTable 0x100000).stackTop % 16 = 0 ∧
      setupRsp (create noneReserved emptyTable 0x100000) [lsString] [] [] % 16 = 8 := by
  decide +kernel

/-- **Bounds**: every byte that is stored for a new thread is in the pages of its
    stack exactly if the image fits into them. -/
theorem stores_inside_iff {pPage : Nat} (hpages : Pages pPage (toPages userStackSize))
    (kRsv : Nat → Bool) (t : Table) (argv envp : List CString) (auxv : List (Nat × Nat)) :
    Inside pPage (pPage + userStackSize) (setupLog (create kRsv t pPage) argv envp auxv).stores ↔
      imageSize argv envp auxv ≤ userStackSize := by
  have hsize : userStackSize = 0x2000 := rfl
  have hcount : toPages userStackSize = 2 := by decide
  obtain ⟨haligned, hlimit⟩ := hpages
  rw [hcount] at hlimit
  have htop : (create kRsv t pPage).stackPhysicalTop = pPage + userStackSize := rfl
  have harea : Area (create kRsv t pPage).stackPhysicalTop userStackSize := by
    rw [htop]
    exact ⟨Nat.le_add_left _ _, by omega, by decide⟩
  have htracks := setupLog_tracks harea (by rw [htop]; omega) argv envp auxv
  have hinside := htracks.inside
  rwa [htop, Nat.add_sub_cancel] at hinside

theorem stores_inside_iff_ls :
    Inside 0x100000 (0x100000 + userStackSize)
      (setupLog (create noneReserved emptyTable 0x100000) [lsString] [] [(6, 4096)]).stores :=
  (stores_inside_iff ⟨by decide, by decide⟩ noneReserved emptyTable [lsString] []
    [(6, 4096)]).mpr (by decide)

/-- A string of 8192 letters. -/
def longString : CString :=
  ⟨List.replicate 0x2000 97, fun h => absurd (List.eq_of_mem_replicate h) (by decide)⟩

/-- Its first letter is stored right below the pages of the stack. -/
theorem long_argument_outside :
    (0xFFFFF, longString.1 ++ [0]) ∈
        (setupLog (create noneReserved emptyTable 0x100000) [longString] [] []).stores ∧
      ¬ Inside 0x100000 (0x100000 + userStackSize)
        (setupLog (create noneReserved emptyTable 0x100000) [longString] [] []).stores := by
  have hlength : (longString.1 ++ [0]).length = 0x2001 := by
    rw [List.length_append, longString, List.length_replicate]
    rfl
  have hmem : (0xFFFFF, longString.1 ++ [0]) ∈
      (setupLog (create noneReserved emptyTable 0x100000) [longString] [] []).stores := by
    have hplace : lower 0x102000 (longString.1 ++ [0]).length = 0xFFFFF := by
      rw [hlength]
      rfl
    rw [← hplace]
    simp [setupLog, Log.pushStrings, Log.push, Log.pushWords, Log.align, Log.pushAuxv, create,
      userStackSize]
  refine ⟨hmem, fun hinside => ?_⟩
  have hbyte := hinside _ hmem 0 (by rw [hlength]; decide)
  exact absurd hbyte.1 (by decide)

end Fennix.Tasking.UserStack
