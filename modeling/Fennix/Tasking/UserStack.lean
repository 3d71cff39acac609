import Fennix.Framework.Layout
import Fennix.Memory.StackGuard
import Mathlib.Algebra.GroupWithZero.Nat

/-! # The first stack of a user thread

    `TCB::SetupUserStack_x86_64` of `Kernel/tasking/thread.cpp`. The kernel writes the
    arguments, the environment and the auxiliary vector through the physical address of
    the stack, and keeps the virtual addresses of the strings beside it.

    - `copyStrings_spec`: where the strings are.
    - `setup_words`: what is at the stack pointer.
    - `setupUserStack_right`: what the process reads from its stack pointer on.
-/

namespace Fennix.Tasking.UserStack

open Layout Memory.StackGuard

/-! ## Section 1: The stack image -/

/-- A byte. -/
abbrev Byte := BitVec 8

/-- Physical memory. -/
abbrev Memory := Nat → Byte

/-- A C string, without the zero at its end. -/
abbrev CString := { bytes : List Byte // 0 ∉ bytes }

/-- A `uintptr_t` in memory. -/
abbrev word (v : Nat) : List Byte := littleEndian 8 v

/-- What the loops over the strings leave: memory, the two pointers and the virtual
    addresses of the strings. -/
structure Strings where
  memory : Memory
  stackStr : Nat
  stackStrVirtual : Nat
  strings : List Nat

/-- The loops over `argv` and over `envp`. -/
def copyStrings (m : Memory) (stackStr stackStrVirtual : Nat) : List CString → Strings
  | [] => ⟨m, stackStr, stackStrVirtual, []⟩
  | s :: rest =>
    let stackStr := stackStr - (s.1.length + 1)
    let stackStrVirtual := stackStrVirtual - (s.1.length + 1)
    let r := copyStrings (store m stackStr (s.1 ++ [0])) stackStr stackStrVirtual rest
    { r with strings := stackStrVirtual :: r.strings }

/-- The loop over the auxiliary vector. -/
def pushAuxv (s : Memory × Nat) : List (Nat × Nat) → Memory × Nat
  | [] => s
  | av :: rest => pushAuxv (push s (word av.1 ++ word av.2)) rest

/-- The loop that stores the addresses of the strings, from a place on. -/
def storeWords (m : Memory) (a : Nat) : List Nat → Memory
  | [] => m
  | v :: rest => storeWords (store m a (word v)) (a + 8) rest

/-- `Stack64 -= n`, and the loop that stores the addresses of the strings. -/
def pushWords (s : Memory × Nat) (values : List Nat) : Memory × Nat :=
  (storeWords s.1 (s.2 - 8 * values.length) values, s.2 - 8 * values.length)

/-- `pStack`, after the strings: aligned, once more if the number of strings is odd. -/
def alignedStack (stackStr strings : Nat) : Nat :=
  let stackStr := stackStr - stackStr % 16
  let pStack := stackStr - strings % 2
  pStack - pStack % 16

/-- `TCB::SetupUserStack_x86_64`: memory and `rsp`. -/
def setupUserStack (stack : Stack) (m : Memory) (argv envp : List CString)
    (auxv : List (Nat × Nat)) : Memory × Nat :=
  let argvStrings := copyStrings m stack.stackPhysicalTop stack.stackTop argv
  let envpStrings := copyStrings argvStrings.memory argvStrings.stackStr
    argvStrings.stackStrVirtual envp
  let pStack := alignedStack envpStrings.stackStr (argv.length + envp.length)
  let s := push (envpStrings.memory, pStack) (word 0)
  let s := pushAuxv s (if auxv.length = 0 then [(0, 0)] else auxv)
  let s := push s (word 0)
  let s := pushWords s envpStrings.strings
  let s := push s (word 0)
  let s := pushWords s argvStrings.strings
  let s := push s (word argv.length)
  (s.1, stack.stackTop - (stack.stackPhysicalTop - s.2))

/-! ## Section 2: What the process reads -/

/-- What the process reads at a virtual address. -/
def userByte (t : Table) (m : Memory) (v : Nat) : Option Byte :=
  (t (v / 4096)).map fun q => m (4096 * q + v % 4096)

/-- A `uintptr_t`. -/
def readWord (user : Nat → Option Byte) (a : Nat) : Option Nat := readNumber user 8 a

/-- The auxiliary vector, up to the entry of type `AT_NULL`. -/
def readAuxv (user : Nat → Option Byte) : Nat → Nat → Option (List (Nat × Nat))
  | 0, _ => none
  | n + 1, a => (readWord user a).bind fun type =>
    if type = 0 then some []
    else (readWord user (a + 8)).bind fun value =>
      (readAuxv user n (a + 16)).map ((type, value) :: ·)

/-- The `k`-th word from an address on is the address of the `k`-th string. -/
def ReadsStrings (user : Nat → Option Byte) (a : Nat) (strings : List CString) : Prop :=
  ∀ k (h : k < strings.length), ∃ pointer, readWord user (a + 8 * k) = some pointer ∧
    readText user (strings[k].1.length + 1) pointer = some strings[k].1

/-- What the process should read from its stack pointer on. -/
structure Reads (user : Nat → Option Byte) (rsp : Nat) (argv envp : List CString)
    (auxv : List (Nat × Nat)) : Prop where
  argc : readWord user rsp = some argv.length
  arguments : ReadsStrings user (rsp + 8) argv
  argumentsEnd : readWord user (rsp + 8 + 8 * argv.length) = some 0
  environment : ReadsStrings user (rsp + 16 + 8 * argv.length) envp
  environmentEnd : readWord user (rsp + 16 + 8 * argv.length + 8 * envp.length) = some 0
  auxiliary : readAuxv user (auxv.length + 1) (rsp + 24 + 8 * argv.length + 8 * envp.length) =
    some auxv.reverse

/-- The bytes that strings take. -/
def stringBytes (strings : List CString) : Nat := (strings.map fun s => s.1.length + 1).sum

/-- The bytes that the image takes, with what is left out to align it. -/
def imageSize (argv envp : List CString) (auxv : List (Nat × Nat)) : Nat :=
  (stringBytes argv + stringBytes envp + 15) / 16 * 16 + 16 * ((argv.length + envp.length) % 2) +
    (8 + 16 * max 1 auxv.length + 8 + 8 * envp.length + 8 + 8 * argv.length + 8)

/-! ## Section 3: The loops -/

/-- What the loop over some strings leaves, if there is room for them: `d` is the distance
    of the virtual from the physical address. -/
theorem copyStrings_spec {d : Nat} (strings : List CString) : ∀ (m : Memory) (p : Nat),
    stringBytes strings ≤ p →
      let r := copyStrings m p (p + d) strings
      r.stackStr = p - stringBytes strings ∧ r.stackStrVirtual = p - stringBytes strings + d ∧
        (∀ x, p ≤ x → r.memory x = m x) ∧ r.strings.length = strings.length ∧
        ∀ k (h : k < strings.length), ∃ a, r.strings[k]? = some (a + d) ∧
          p - stringBytes strings ≤ a ∧ a < p ∧ a + strings[k].1.length + 1 ≤ p ∧
          Holds r.memory a (strings[k].1 ++ [0]) := by
  induction strings with
  | nil =>
    intro m p _
    refine ⟨rfl, rfl, fun x _ => rfl, rfl, fun k h => by cases h⟩
  | cons s rest ih =>
    intro m p hroom
    have hsum : stringBytes (s :: rest) = s.1.length + 1 + stringBytes rest := by
      simp [stringBytes]
    rw [hsum] at hroom ⊢
    have hvirtual : p + d - (s.1.length + 1) = p - (s.1.length + 1) + d := by omega
    obtain ⟨h1, h2, h3, h4, h5⟩ := ih (store m (p - (s.1.length + 1)) (s.1 ++ [0]))
      (p - (s.1.length + 1)) (by omega)
    simp only [copyStrings, hvirtual]
    refine ⟨by omega, by omega, fun x hx => ?_, congrArg (· + 1) h4, fun k hk => ?_⟩
    · rw [h3 x (by omega), store_of_le (by simp; omega)]
    · cases k with
      | zero =>
        -- The string itself is not touched by those after it, which are below it.
        refine ⟨p - (s.1.length + 1), rfl, by omega, by omega, by simp; omega, ?_⟩
        exact (holds_store _ _ _).congr fun x hx _ => h3 x hx
      | succ k =>
        obtain ⟨a, ha, hlow, hlt, hhigh, hholds⟩ := h5 k (by simpa using hk)
        exact ⟨a, by simpa using ha, by omega, by omega, by simp at hhigh ⊢; omega, hholds⟩

theorem storeWords_spec (values : List Nat) : ∀ (m : Memory) (a : Nat),
    Holds (storeWords m a values) a (values.flatMap word) ∧
      ∀ x, x < a ∨ a + 8 * values.length ≤ x → storeWords m a values x = m x := by
  induction values with
  | nil => intro m a; exact ⟨fun i h => by simp at h, fun x _ => rfl⟩
  | cons v rest ih =>
    intro m a
    obtain ⟨hholds, hframe⟩ := ih (store m a (word v)) (a + 8)
    simp only [storeWords, List.flatMap_cons, List.length_cons]
    refine ⟨holds_append.mpr ⟨?_, by simpa using hholds⟩, fun x hx => ?_⟩
    · exact (holds_store m a (word v)).congr fun x hx hlt => hframe x (by simp at hlt; omega)
    · rw [hframe x (by omega)]
      obtain hx | hx := hx
      · exact store_of_lt hx
      · exact store_of_le (by simp; omega)

/-- The state after some lists were pushed below what was there: `ys` is at the pointer, and
    nothing from `top` on has changed. -/
structure Pushed (m : Memory) (top : Nat) (s : Memory × Nat) (ys : List Byte) : Prop where
  holds : Holds s.1 s.2 ys
  pointer : s.2 + ys.length = top
  frame : ∀ x, top ≤ x → s.1 x = m x

section pushed

variable {m : Memory} {top : Nat} {s : Memory × Nat} {ys : List Byte}

theorem room_of_append {xs : List Byte} (hroom : (xs ++ ys).length ≤ top) : ys.length ≤ top :=
  (List.suffix_append xs ys).length_le.trans hroom

theorem Pushed.push (h : Pushed m top s ys) (xs : List Byte) (hroom : (xs ++ ys).length ≤ top) :
    Pushed m top (push s xs) (xs ++ ys) := by
  rw [List.length_append] at hroom
  have hpointer := h.pointer
  constructor
  case holds => exact h.holds.push (by omega)
  case pointer =>
    simp only [Layout.push, List.length_append]
    omega
  case frame =>
    intro x hx
    rw [push_of_le (by omega) (by omega), h.frame x hx]

theorem length_words (values : List Nat) : (values.flatMap word).length = 8 * values.length := by
  induction values with
  | nil => rfl
  | cons v rest ih =>
    simp only [List.flatMap_cons, List.length_append, length_littleEndian, List.length_cons, ih]
    omega

theorem Pushed.pushWords (h : Pushed m top s ys) (values : List Nat)
    (hroom : (values.flatMap word ++ ys).length ≤ top) :
    Pushed m top (pushWords s values) (values.flatMap word ++ ys) := by
  obtain ⟨hholds, hframe⟩ := storeWords_spec values s.1 (s.2 - 8 * values.length)
  have hlength := length_words values
  rw [List.length_append, hlength] at hroom
  have hpointer := h.pointer
  constructor
  case holds =>
    refine holds_append.mpr ⟨hholds, ?_⟩
    have hend : (UserStack.pushWords s values).2 + (values.flatMap word).length = s.2 := by
      rw [hlength]
      exact Nat.sub_add_cancel (by omega)
    rw [hend]
    exact h.holds.congr fun x hx _ => hframe x (by omega)
  case pointer =>
    simp only [UserStack.pushWords, List.length_append, hlength]
    omega
  case frame =>
    intro x hx
    exact (hframe x (by omega)).trans (h.frame x hx)

/-- The entries of an auxiliary vector, in memory. -/
def auxvBytes (auxv : List (Nat × Nat)) : List Byte :=
  auxv.flatMap fun av => word av.1 ++ word av.2

theorem length_auxvBytes (auxv : List (Nat × Nat)) : (auxvBytes auxv).length = 16 * auxv.length := by
  induction auxv with
  | nil => rfl
  | cons av rest ih =>
    simp only [auxvBytes, List.flatMap_cons, List.length_append, length_littleEndian,
      List.length_cons] at ih ⊢
    omega

theorem Pushed.pushAuxv (auxv : List (Nat × Nat)) : ∀ {s : Memory × Nat} {ys : List Byte},
    Pushed m top s ys → (auxvBytes auxv.reverse ++ ys).length ≤ top →
      Pushed m top (pushAuxv s auxv) (auxvBytes auxv.reverse ++ ys) := by
  induction auxv with
  | nil => intro s ys h _; exact h
  | cons av rest ih =>
    intro s ys h hroom
    have horder : auxvBytes (av :: rest).reverse ++ ys =
        auxvBytes rest.reverse ++ (word av.1 ++ word av.2 ++ ys) := by
      simp only [auxvBytes, List.reverse_cons, List.flatMap_append, List.flatMap_cons,
        List.flatMap_nil, List.append_nil, List.append_assoc]
    rw [horder] at hroom ⊢
    exact ih (h.push _ (room_of_append hroom)) hroom

end pushed

/-! ## Section 4: The image -/

/-- The words that are stored below the strings. -/
def imageWords (argvStrings envpStrings : List Nat) (auxv : List (Nat × Nat)) : List Byte :=
  word argvStrings.length ++ (argvStrings.flatMap word ++ (word 0 ++ (envpStrings.flatMap word ++
    (word 0 ++ (auxvBytes (if auxv.length = 0 then [(0, 0)] else auxv).reverse ++ word 0)))))

section image

variable {m : Memory} {pStack : Nat} {argvStrings envpStrings : List Nat} {auxv : List (Nat × Nat)}

/-- Without an auxiliary vector there is one pair of zeros. -/
theorem length_auxvOrNull (auxv : List (Nat × Nat)) :
    (if auxv.length = 0 then [(0, 0)] else auxv).length = max 1 auxv.length := by
  split
  case isTrue h => simp [h]
  case isFalse h => omega

theorem length_imageWords : (imageWords argvStrings envpStrings auxv).length =
    8 + 16 * max 1 auxv.length + 8 + 8 * envpStrings.length + 8 + 8 * argvStrings.length + 8 := by
  have haux := length_auxvOrNull auxv
  simp only [imageWords, List.length_append, length_words, length_littleEndian, length_auxvBytes,
    List.length_reverse, haux]
  omega

/-- The pushes, from `AT_NULL` to `argc`. -/
def pushImage (m : Memory) (pStack : Nat) (argvStrings envpStrings : List Nat)
    (auxv : List (Nat × Nat)) : Memory × Nat :=
  push (pushWords (push (pushWords (push (pushAuxv (push (m, pStack) (word 0))
    (if auxv.length = 0 then [(0, 0)] else auxv)) (word 0)) envpStrings) (word 0)) argvStrings)
    (word argvStrings.length)

theorem setup_words (hroom : (imageWords argvStrings envpStrings auxv).length ≤ pStack) :
    Pushed m pStack (pushImage m pStack argvStrings envpStrings auxv)
      (imageWords argvStrings envpStrings auxv) := by
  have hargv := room_of_append hroom
  have hargvEnd := room_of_append hargv
  have henvp := room_of_append hargvEnd
  have henvpEnd := room_of_append henvp
  have hauxv := room_of_append henvpEnd
  have hstart : Pushed m pStack (m, pStack) [] :=
    ⟨fun i h => (by cases h), rfl, fun x _ => rfl⟩
  have hnull := hstart.push (word 0) (by simpa using room_of_append hauxv)
  rw [List.append_nil] at hnull
  have hauxvPushed := (hnull.pushAuxv _ hauxv).push (word 0) henvpEnd
  have hargvPushed := ((hauxvPushed.pushWords envpStrings henvp).push (word 0) hargvEnd).pushWords
    argvStrings hargv
  exact hargvPushed.push (word argvStrings.length) hroom

end image

/-! ## Section 5: Reading the image -/

section reading

variable {user : Nat → Option Byte} {a : Nat}

theorem readWord_of_holds {v : Nat} (h : Holds user a ((word v).map some)) (hv : v < 2 ^ 64) :
    readWord user a = some v :=
  readNumber_of_holds 8 h (by omega)

theorem holds_word_of_holds : ∀ {values : List Nat} {a : Nat},
    Holds user a ((values.flatMap word).map some) → ∀ {k v : Nat}, values[k]? = some v →
      Holds user (a + 8 * k) ((word v).map some) := by
  intro values
  induction values with
  | nil => intro a _ k v hk; simp at hk
  | cons w rest ih =>
    intro a h k v hk
    rw [List.flatMap_cons, List.map_append, holds_append] at h
    cases k with
    | zero =>
      cases hk
      exact h.1
    | succ k =>
      have hrest := h.2
      simp only [List.length_map, length_littleEndian] at hrest
      have := ih hrest (k := k) (v := v) (by simpa using hk)
      rw [show a + 8 * (k + 1) = a + 8 + 8 * k by omega]
      exact this

theorem readAuxv_of_holds (auxv : List (Nat × Nat)) : ∀ {a : Nat},
    (∀ av ∈ auxv, av.1 ≠ 0 ∧ av.1 < 2 ^ 64 ∧ av.2 < 2 ^ 64) →
    Holds user a ((auxvBytes auxv ++ word 0).map some) →
      readAuxv user (auxv.length + 1) a = some auxv := by
  induction auxv with
  | nil =>
    intro a _ h
    rw [List.length_nil, readAuxv, readWord_of_holds (v := 0) h (by omega)]
    rfl
  | cons av rest ih =>
    intro a hfits h
    obtain ⟨htype, hlt, hvalue⟩ := hfits av List.mem_cons_self
    simp only [auxvBytes, List.flatMap_cons, List.append_assoc, List.map_append, holds_append,
      List.length_map, length_littleEndian] at h
    obtain ⟨h1, h2, h3, h4⟩ := h
    have hrest : Holds user (a + 16) ((auxvBytes rest ++ word 0).map some) := by
      rw [List.map_append, holds_append, List.length_map]
      exact ⟨h3, h4⟩
    rw [List.length_cons, readAuxv, readWord_of_holds h1 hlt, Option.bind_some, if_neg htype,
      readWord_of_holds h2 hvalue, Option.bind_some,
      ih (fun av hav => hfits av (List.mem_cons_of_mem _ hav)) hrest, Option.map_some]

end reading

/-! ## Section 6: The stack -/

section stack

variable {kRsv : Nat → Bool} {t : Table} {pPage : Nat}

/-- The VMA maps both pages of a new stack. -/
def Mapped (kRsv : Nat → Bool) (pPage : Nat) : Prop :=
  ∀ i < 2, ¬ Refused kRsv (userStackBase / 4096 + i) (pPage / 4096 + i)

theorem create_table (hpages : Pages pPage (toPages userStackSize)) (hmapped : Mapped kRsv pPage)
    {i : Nat} (hi : i < 2) :
    (create kRsv t pPage).table (userStackBase / 4096 + i) = some (pPage / 4096 + i) := by
  have hcount : toPages userStackSize = 2 := by decide
  have haligned := hpages.1
  have h0 := hmapped 0 (by omega)
  have h1 := hmapped 1 (by omega)
  have hv0 : (userStackBase + 0 * 4096) / 4096 = userStackBase / 4096 + 0 := by decide
  have hv1 : (userStackBase + 1 * 4096) / 4096 = userStackBase / 4096 + 1 := by decide
  have hp0 : (pPage + 0 * 4096) / 4096 = pPage / 4096 + 0 := by omega
  have hp1 : (pPage + 1 * 4096) / 4096 = pPage / 4096 + 1 := by omega
  simp only [create, hcount, mapInitial, vmaMap, hv0, hv1, hp0, hp1, if_neg h0, if_neg h1]
  obtain rfl | rfl : i = 0 ∨ i = 1 := by omega
  · rw [Function.update_of_ne (by omega), Function.update_self]
  · rw [Function.update_self]

theorem userByte_stack (hpages : Pages pPage (toPages userStackSize)) (hmapped : Mapped kRsv pPage)
    (m : Memory) {x : Nat} (hlow : pPage ≤ x) (hhigh : x < pPage + userStackSize) :
    userByte (create kRsv t pPage).table m (x + (userStackBase - pPage)) = some (m x) := by
  have haligned := hpages.1
  have hlimit := hpages.2
  have hsize : userStackSize = 0x2000 := rfl
  have hbase : userStackBase = 0xFFFFEFFFFFFF0000 := rfl
  have hpage : (x + (userStackBase - pPage)) / 4096 = userStackBase / 4096 + (x - pPage) / 4096 := by
    omega
  have hplace : 4096 * (pPage / 4096 + (x - pPage) / 4096) + (x + (userStackBase - pPage)) % 4096 = x := by
    omega
  rw [userByte, hpage, create_table hpages hmapped (by omega), Option.map_some, hplace]

theorem holds_user (hpages : Pages pPage (toPages userStackSize)) (hmapped : Mapped kRsv pPage)
    {m : Memory} {a : Nat} {bytes : List Byte} (h : Holds m a bytes) (hlow : pPage ≤ a)
    (hhigh : a + bytes.length ≤ pPage + userStackSize) :
    Holds (userByte (create kRsv t pPage).table m) (a + (userStackBase - pPage)) (bytes.map some) := by
  intro i hi
  rw [List.length_map] at hi
  rw [show a + (userStackBase - pPage) + i = a + i + (userStackBase - pPage) by omega,
    userByte_stack hpages hmapped m (by omega) (by omega), h i hi, List.getElem_map]

theorem readsStrings {user : Nat → Option Byte} {a d : Nat} {strings : List CString}
    {addresses : List Nat} (hwords : Holds user a ((addresses.flatMap word).map some))
    (hstrings : ∀ k (h : k < strings.length), ∃ x, addresses[k]? = some (x + d) ∧ x + d < 2 ^ 64 ∧
      Holds user (x + d) ((strings[k].1 ++ [0]).map some)) :
    ReadsStrings user a strings := by
  intro k hk
  obtain ⟨x, haddress, hlt, hholds⟩ := hstrings k hk
  exact ⟨x + d, readWord_of_holds (holds_word_of_holds hwords haddress) hlt,
    readText_of_holds _ strings[k].2 hholds⟩

/-- After the stack of a new thread is set up, the process reads from its stack pointer on the
    number of its arguments, their addresses, those of the environment, each list with a zero
    behind it, and the auxiliary vector in reverse order. -/
theorem setupUserStack_right (hpages : Pages pPage (toPages userStackSize))
    (hmapped : Mapped kRsv pPage) (m : Memory) {argv envp : List CString} {auxv : List (Nat × Nat)}
    (hauxv : ∀ av ∈ auxv, av.1 ≠ 0 ∧ av.1 < 2 ^ 64 ∧ av.2 < 2 ^ 64)
    (hfits : imageSize argv envp auxv ≤ userStackSize) :
    Reads (userByte (create kRsv t pPage).table
        (setupUserStack (create kRsv t pPage) m argv envp auxv).1)
      (setupUserStack (create kRsv t pPage) m argv envp auxv).2 argv envp auxv := by
  have haligned := hpages.1
  have hlimit := hpages.2
  have hsize : userStackSize = 0x2000 := rfl
  have hbase : userStackBase = 0xFFFFEFFFFFFF0000 := rfl
  obtain ⟨d, hd⟩ : ∃ d, d = userStackBase - pPage := ⟨_, rfl⟩
  have htop : userStackBase + userStackSize = pPage + userStackSize + d := by omega
  unfold imageSize at hfits
  -- Where the strings are.
  have hA := copyStrings_spec (d := d) argv m (pPage + userStackSize) (by omega)
  simp only at hA
  generalize hargs : copyStrings m (pPage + userStackSize) (pPage + userStackSize + d) argv = A at hA
  obtain ⟨hAstr, hAvirtual, -, hAlength, hAstrings⟩ := hA
  have hE := copyStrings_spec (d := d) envp A.memory (pPage + userStackSize - stringBytes argv)
    (by omega)
  simp only at hE
  rw [← hAvirtual, ← hAstr] at hE
  generalize henvs : copyStrings A.memory A.stackStr A.stackStrVirtual envp = E at hE
  obtain ⟨hEstr, -, hEframe, hElength, hEstrings⟩ := hE
  -- Where the words are.
  obtain ⟨pStack, hpStack⟩ : ∃ p, p = alignedStack E.stackStr (argv.length + envp.length) := ⟨_, rfl⟩
  have hstart : pStack = pPage + userStackSize -
      (stringBytes argv + stringBytes envp + 15) / 16 * 16 -
        16 * ((argv.length + envp.length) % 2) := by
    rw [hpStack, alignedStack]
    omega
  have hlength : (imageWords A.strings E.strings auxv).length =
      8 + 16 * max 1 auxv.length + 8 + 8 * envp.length + 8 + 8 * argv.length + 8 := by
    rw [length_imageWords, hAlength, hElength]
  have hpushed : Pushed E.memory pStack (pushImage E.memory pStack A.strings E.strings auxv) _ :=
    setup_words (by omega)
  have hsetup : setupUserStack (create kRsv t pPage) m argv envp auxv =
      ((pushImage E.memory pStack A.strings E.strings auxv).1,
        (pushImage E.memory pStack A.strings E.strings auxv).2 + d) := by
    have hpointer := hpushed.pointer
    have hrsp : pPage + userStackSize + d - (pPage + userStackSize -
        (pushImage E.memory pStack A.strings E.strings auxv).2) =
          (pushImage E.memory pStack A.strings E.strings auxv).2 + d := by omega
    rw [← hrsp, pushImage, hAlength, hpStack, ← henvs, ← hargs, ← htop]
    rfl
  rw [hsetup]
  generalize pushImage E.memory pStack A.strings E.strings auxv = s at hpushed
  change Reads (userByte (create kRsv t pPage).table s.1) (s.2 + d) argv envp auxv
  obtain ⟨hwords, hpointer, hframe⟩ := hpushed
  have huser := holds_user (t := t) hpages hmapped hwords (by omega) (by omega)
  rw [← hd] at huser
  simp only [imageWords, List.map_append, holds_append, List.length_map, length_littleEndian,
    length_words, hAlength, hElength] at huser
  obtain ⟨hargc, hargv, hargvEnd, henvp, henvpEnd, haux, hnull⟩ := huser
  -- The strings are above all words, so they are still there.
  have hstring : ∀ {x : Nat} {bytes : List Byte}, Holds E.memory x bytes →
      pPage + userStackSize - (stringBytes argv + stringBytes envp) ≤ x →
      x + bytes.length ≤ pPage + userStackSize →
        Holds (userByte (create kRsv t pPage).table s.1) (x + d) (bytes.map some) := by
    intro x bytes hholds hlow hhigh
    rw [hd]
    exact holds_user hpages hmapped (hholds.congr fun y hy _ => hframe y (by omega)) (by omega) hhigh
  constructor
  case argc => exact readWord_of_holds hargc (by omega)
  case arguments =>
    refine readsStrings (d := d) hargv fun k hk => ?_
    obtain ⟨x, haddress, hlow, hlt, hhigh, hholds⟩ := hAstrings k hk
    refine ⟨x, haddress, by omega, hstring (hholds.congr fun y hy _ => ?_) (by omega) (by simp; omega)⟩
    exact hEframe y (by omega)
  case argumentsEnd => exact readWord_of_holds hargvEnd (by omega)
  case environment =>
    rw [show s.2 + d + 16 + 8 * argv.length = s.2 + d + 8 + 8 * argv.length + 8 by omega]
    refine readsStrings (d := d) henvp fun k hk => ?_
    obtain ⟨x, haddress, hlow, hlt, hhigh, hholds⟩ := hEstrings k hk
    exact ⟨x, haddress, by omega, hstring hholds (by omega) (by simp; omega)⟩
  case environmentEnd =>
    rw [show s.2 + d + 16 + 8 * argv.length + 8 * envp.length =
      s.2 + d + 8 + 8 * argv.length + 8 + 8 * envp.length by omega]
    exact readWord_of_holds henvpEnd (by omega)
  case auxiliary =>
    rw [show s.2 + d + 24 + 8 * argv.length + 8 * envp.length =
      s.2 + d + 8 + 8 * argv.length + 8 + 8 * envp.length + 8 by omega]
    by_cases hempty : auxv.length = 0
    · -- An entry of type `AT_NULL` was added.
      obtain rfl := List.length_eq_zero_iff.mp hempty
      simp only [List.length_nil, if_true, List.reverse_singleton, auxvBytes, List.flatMap_cons,
        List.flatMap_nil, List.append_nil, List.map_append, holds_append] at haux
      exact readAuxv_of_holds [] (by simp) (by simpa [auxvBytes] using haux.1)
    · rw [if_neg hempty] at haux hnull
      rw [length_auxvBytes, List.length_reverse] at hnull
      have hall : Holds (userByte (create kRsv t pPage).table s.1)
          (s.2 + d + 8 + 8 * argv.length + 8 + 8 * envp.length + 8)
          ((auxvBytes auxv.reverse ++ word 0).map some) := by
        rw [List.map_append, holds_append, List.length_map, length_auxvBytes, List.length_reverse]
        exact ⟨haux, hnull⟩
      have := readAuxv_of_holds auxv.reverse (fun av hav => hauxv av (List.mem_reverse.mp hav)) hall
      rw [List.length_reverse] at this
      exact this

end stack

/-- The string `ls`. -/
def lsString : CString := ⟨[108, 115], by decide⟩

theorem setupUserStack_right_ls :
    Reads (userByte (create noneReserved emptyTable 0x100000).table
        (setupUserStack (create noneReserved emptyTable 0x100000) 0 [lsString] [] [(6, 4096)]).1)
      (setupUserStack (create noneReserved emptyTable 0x100000) 0 [lsString] [] [(6, 4096)]).2
      [lsString] [] [(6, 4096)] := by
  refine setupUserStack_right ⟨by decide, by decide⟩ (fun i _ => ?_) 0 (by decide) (by decide)
  exact not_or.mpr ⟨Bool.false_ne_true, Bool.false_ne_true⟩

end Fennix.Tasking.UserStack
