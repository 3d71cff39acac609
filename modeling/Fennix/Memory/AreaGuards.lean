import Fennix.Memory.FlagCheck
import Fennix.Memory.SoftwareWalk
import Fennix.Memory.Vma

/-! # The guards of `VirtualMemoryArea`

    `Map`, `Unmap` and `__UserCheckAndGetAddress` of
    `Kernel/core/memory/vma.cpp` go over the pages of a range and ask
    `Virtual::Check` about them, before they touch the page table or hand out
    a pointer.

    - `Map` and `Unmap` ask about the first page in every round.
    - `__UserCheckAndGetAddress` rounds the start of the range down and leaves
      its length alone, so the range that it goes over can end a page early.
-/

namespace Fennix.Memory

open Entry Radix
open PageMapIndexer (ofAddress ofAddress_pageBase)

/-! ## Section 1: The loops -/

/-- `for (uintptr_t va = start; va < stop; va += PAGE_SIZE)`, which is left
    with `true` at the first page that `test` holds for. `none` when a test
    fails an assertion or the rounds run out. -/
def anyPage (test : Word → Option Bool) (stop : Word) : Nat → Word → Option Bool
  | 0, _ => none
  | n + 1, va =>
    if va < stop then
      (test va).bind fun found =>
        if found then some true else anyPage test stop n (va + 0x1000#64)
    else some false

/-- `EPERM`. -/
def EPERM : Int := 67

namespace VirtualMemoryArea

variable {σ : Type} (S : Supplier σ) (vmm : Virtual)

/-- The first loop of `Map` and `Unmap`, and the second of `Map`. The address
    that is checked is the first one of the range, whatever `va` is. -/
def reserved (rounds : Nat) (m : Tables) (address length : Word) : Option Bool :=
  anyPage (fun _ => vmm.check m address PTFlag.kRsv.mask) (address + length) rounds address

/-- `VirtualMemoryArea::Map`. -/
def map (rounds : Nat) (st : Machine σ) (virtualAddress physicalAddress length flags : Word) :
    Option (Int × Machine σ) :=
  (reserved vmm rounds st.tables virtualAddress length).bind fun found =>
    if found then some (-EPERM, st)
    else
      -- the physical address is looked up in the page table like a virtual one
      (reserved vmm rounds st.tables physicalAddress length).bind fun found =>
        if found then some (-EPERM, st)
        else
          (vmm.mapRange S st virtualAddress physicalAddress length.toNat flags .fourKiB).map
            fun st' => (0, st')

/-- `VirtualMemoryArea::Unmap`. -/
def unmap (rounds : Nat) (m : Tables) (virtualAddress length : Word) : Option (Int × Tables) :=
  (reserved vmm rounds m virtualAddress length).bind fun found =>
    if found then some (-EPERM, m)
    else (vmm.unmapRange m virtualAddress length.toNat .fourKiB).map fun m' => (0, m')

/-- `VirtualMemoryArea::__UserCheckAndGetAddress`; the null pointer is `some 0`. -/
def userCheckAndGetAddress (rounds : Nat) (m : Tables) (address length : Word) : Option Word :=
  (PageTable.get vmm m address).bind fun pAddress =>
    if pAddress = 0 then some 0
    else
      -- `ALIGN_DOWN` of the start only
      (anyPage (fun va => (vmm.check m va PTFlag.us.mask).map fun user => !user)
          (pageBase address + length) rounds (pageBase address)).map
        fun failed => if failed then 0 else pAddress

end VirtualMemoryArea

/-! ## Section 2: What the loops find -/

section loops

variable {test : Word → Option Bool} {stop va : Word}

theorem anyPage_const {t : Option Bool} :
    (∃ n, anyPage (fun _ => t) stop n va = some true) ↔ va < stop ∧ t = some true := by
  constructor
  · rintro ⟨n, hn⟩
    induction n generalizing va with
    | zero => simp [anyPage] at hn
    | succ n ih =>
      simp only [anyPage] at hn
      split at hn
      · rename_i hlt
        refine ⟨hlt, ?_⟩
        rcases t with _ | _ | _
        · simp at hn
        · exact (ih (by simpa using hn)).2
        · rfl
      · simp at hn
  · rintro ⟨hlt, rfl⟩
    exact ⟨1, by simp [anyPage, hlt]⟩

theorem toNat_stepAddress {size i : Nat} (h : va.toNat + i * size < 2 ^ 64) :
    (stepAddress va size i).toNat = va.toNat + i * size := by
  rw [stepAddress, BitVec.toNat_add, BitVec.toNat_ofNat, Nat.mod_eq_of_lt (a := i * size) (by omega),
    Nat.mod_eq_of_lt h]

theorem stepAddress_zero (va : Word) (size : Nat) : stepAddress va size 0 = va := by
  simp [stepAddress]

theorem stepAddress_succ (va : Word) (i : Nat) :
    stepAddress (va + 0x1000#64) 0x1000 i = stepAddress va 0x1000 (i + 1) := by
  have h : (i + 1) * 0x1000 = 0x1000 + i * 0x1000 := by omega
  rw [stepAddress, stepAddress, h, BitVec.ofNat_add, BitVec.add_assoc]

theorem test_of_anyPage {n : Nat} (h : anyPage test stop n va = some false) {i : Nat}
    (hi : va.toNat + i * 0x1000 < stop.toNat) :
    test (stepAddress va 0x1000 i) = some false := by
  induction n generalizing va i with
  | zero => simp [anyPage] at h
  | succ n ih =>
    have hlt : va < stop := BitVec.lt_def.mpr (by omega)
    have hstop := stop.isLt
    simp only [anyPage, hlt, if_true] at h
    obtain ⟨found, htest, h⟩ := Option.bind_eq_some_iff.mp h
    cases found with
    | true => simp at h
    | false =>
      cases i with
      | zero => rw [stepAddress_zero, htest]
      | succ i =>
        -- the next page does not wrap, since a later one is below `stop`
        rw [← stepAddress_succ]
        apply ih (by simpa using h)
        rw [BitVec.toNat_add, Nat.mod_eq_of_lt (by simp; omega)]
        simp only [BitVec.toNat_ofNat]
        omega

/-- If no page passes the test, and the bound is not past the last page, the
    loop ends without a finding. -/
theorem anyPage_of_tests (hstop : stop.toNat ≤ 2 ^ 64 - 0x1000)
    (h : ∀ i, va.toNat + i * 0x1000 < stop.toNat → test (stepAddress va 0x1000 i) = some false) :
    ∃ n, anyPage test stop n va = some false := by
  -- on the bytes that are left
  induction hleft : stop.toNat - va.toNat using Nat.strong_induction_on generalizing va with
  | _ left ih =>
    by_cases hlt : va < stop
    · have hlt' := BitVec.lt_def.mp hlt
      have hnext : (va + 0x1000#64).toNat = va.toNat + 0x1000 := by
        rw [BitVec.toNat_add, Nat.mod_eq_of_lt (by simp; omega)]
        rfl
      have hrest : ∀ i, (va + 0x1000#64).toNat + i * 0x1000 < stop.toNat →
          test (stepAddress (va + 0x1000#64) 0x1000 i) = some false := by
        intro i hi
        rw [stepAddress_succ]
        apply h
        omega
      obtain ⟨n, hn⟩ := ih (stop.toNat - (va.toNat + 0x1000)) (by omega) hrest (by rw [hnext])
      have hfirst := h 0 (by omega)
      rw [stepAddress_zero] at hfirst
      exact ⟨n + 1, by simp [anyPage, hlt, hfirst, hn]⟩
    · exact ⟨1, by simp [anyPage, hlt]⟩

/-- A bound past the start of the last page is above every page, and the loop
    goes on until a test ends it. -/
theorem anyPage_ne_false {n : Nat} (hstop : 2 ^ 64 - 0x1000 < stop.toNat)
    (hva : va.toNat % 0x1000 = 0) : anyPage test stop n va ≠ some false := by
  induction n generalizing va with
  | zero => simp [anyPage]
  | succ n ih =>
    have hisLt := va.isLt
    have hlt : va < stop := BitVec.lt_def.mpr (by omega)
    have hnext : (va + 0x1000#64).toNat % 0x1000 = 0 := by
      rw [BitVec.toNat_add]
      simp only [BitVec.toNat_ofNat]
      omega
    intro h
    simp only [anyPage, hlt, if_true] at h
    obtain ⟨found, -, h⟩ := Option.bind_eq_some_iff.mp h
    cases found with
    | true => simp at h
    | false => exact ih hnext (by simpa using h)

end loops

/-! ## Section 3: Reserved pages -/

/-- A page of `[address, address + length)`. -/
def PageOf (address length page : Word) : Prop :=
  page.toNat % 0x1000 = 0 ∧ address.toNat ≤ page.toNat ∧
    page.toNat < address.toNat + length.toNat

/-- The entry that maps a page carries `KRsv`. -/
def KernelReserved (vmm : Virtual) (m : Tables) (page : Word) : Prop :=
  ∃ e, leaf vmm m page = some e ∧ e &&& PTFlag.kRsv.mask ≠ 0

namespace VirtualMemoryArea

section reserved

variable {σ : Type} (S : Supplier σ) (vmm : Virtual) (st : Machine σ)
  (virtualAddress physicalAddress length flags : Word)

/-- A range with a reserved page is refused, and nothing changes. -/
def Protected : Prop :=
  (∃ page, PageOf virtualAddress length page ∧ KernelReserved vmm st.tables page) →
    (∃ rounds, map S vmm rounds st virtualAddress physicalAddress length flags =
      some (-EPERM, st)) ∧
    ∃ rounds, unmap vmm rounds st.tables virtualAddress length = some (-EPERM, st.tables)

variable {vmm st virtualAddress physicalAddress length}

theorem lt_add_iff {address length : Word} (hpos : 0 < length.toNat) :
    address < address + length ↔ address.toNat + length.toNat < 2 ^ 64 := by
  have haddress := address.isLt
  have hlength := length.isLt
  rw [BitVec.lt_def, BitVec.toNat_add]
  omega

theorem reserved_iff {m : Tables} {address : Word} (hpos : 0 < length.toNat) :
    (∃ rounds, reserved vmm rounds m address length = some true) ↔
      vmm.check m address PTFlag.kRsv.mask = some true ∧
        address.toNat + length.toNat < 2 ^ 64 := by
  simp only [reserved]
  rw [anyPage_const, lt_add_iff hpos, and_comm]

theorem unmap_eq_eperm_iff {m : Tables} {rounds : Nat} :
    unmap vmm rounds m virtualAddress length = some (-EPERM, m) ↔
      reserved vmm rounds m virtualAddress length = some true := by
  constructor
  · intro h
    obtain ⟨found, hfound, h⟩ := Option.bind_eq_some_iff.mp h
    cases found with
    | true => exact hfound
    | false =>
      -- any other return value is zero
      obtain ⟨m', -, hval⟩ : ∃ m', vmm.unmapRange m virtualAddress length.toNat .fourKiB =
          some m' ∧ ((0 : Int), m') = (-EPERM, m) := Option.map_eq_some_iff.mp h
      exact absurd (congrArg Prod.fst hval) (show (0 : Int) ≠ -EPERM by decide)
  · intro h
    simp [unmap, h]

/-- **Reserved pages**: a range with a reserved page is refused if and only if
    it has none, or `Check` finds its first page reserved and its end does not
    wrap. -/
theorem protected_iff :
    Protected S vmm st virtualAddress physicalAddress length flags ↔
      (∀ page, PageOf virtualAddress length page → ¬ KernelReserved vmm st.tables page) ∨
      (vmm.check st.tables virtualAddress PTFlag.kRsv.mask = some true ∧
        virtualAddress.toNat + length.toNat < 2 ^ 64) := by
  constructor
  · intro hprotected
    by_cases hnone : ∀ page, PageOf virtualAddress length page →
        ¬ KernelReserved vmm st.tables page
    · exact .inl hnone
    · push Not at hnone
      obtain ⟨page, hpage, hreserved⟩ := hnone
      have hpos : 0 < length.toNat := by
        have := hpage.2
        omega
      obtain ⟨-, rounds, hunmap⟩ := hprotected ⟨page, hpage, hreserved⟩
      exact .inr ((reserved_iff hpos).mp ⟨rounds, unmap_eq_eperm_iff.mp hunmap⟩)
  · rintro (hnone | hfirst) ⟨page, hpage, hreserved⟩
    · exact absurd hreserved (hnone page hpage)
    · have hpos : 0 < length.toNat := by
        have := hpage.2
        omega
      obtain ⟨rounds, hfound⟩ := (reserved_iff hpos).mpr hfirst
      exact ⟨⟨rounds, by simp [map, hfound]⟩, rounds, unmap_eq_eperm_iff.mpr hfound⟩

end reserved

/-- The second page of a range of two is reserved: `Map` replaces its mapping
    and `Unmap` removes it, and both return 0. -/
theorem reserved_page_replaced :
    ∃ st, (Virtual.mk 0x1000).map bump blankMachine 0x401000 0x7000 PTFlag.kRsv.mask .fourKiB =
        some st ∧
      PageOf 0x400000 0x2000 0x401000 ∧ KernelReserved ⟨0x1000⟩ st.tables 0x401000 ∧
      (∃ st', map bump ⟨0x1000⟩ 3 st 0x400000 0x9000 0x2000 PTFlag.us.mask = some (0, st') ∧
        (Virtual.mk 0x1000).getPhysical st'.tables 0x401000 = some 0xA000) ∧
      (∃ m', unmap ⟨0x1000⟩ 3 st.tables 0x400000 0x2000 = some (0, m') ∧
        (Virtual.mk 0x1000).getPhysical m' 0x401000 = some 0) ∧
      ¬ Protected bump ⟨0x1000⟩ st 0x400000 0x9000 0x2000 PTFlag.us.mask := by
  obtain ⟨st, hst, hleaf, hcheck, hmap, hunmap⟩ : ∃ st, (Virtual.mk 0x1000).map bump blankMachine
      0x401000 0x7000 PTFlag.kRsv.mask .fourKiB = some st ∧
      leaf ⟨0x1000⟩ st.tables 0x401000 = some 0x7401 ∧
      (Virtual.mk 0x1000).check st.tables 0x400000 PTFlag.kRsv.mask = some false ∧
      (∃ st', map bump ⟨0x1000⟩ 3 st 0x400000 0x9000 0x2000 PTFlag.us.mask = some (0, st') ∧
        (Virtual.mk 0x1000).getPhysical st'.tables 0x401000 = some 0xA000) ∧
      ∃ m', unmap ⟨0x1000⟩ 3 st.tables 0x400000 0x2000 = some (0, m') ∧
        (Virtual.mk 0x1000).getPhysical m' 0x401000 = some 0 := by
    decide +kernel
  have hpage : PageOf 0x400000 0x2000 0x401000 := by
    unfold PageOf
    decide
  have hreserved : KernelReserved ⟨0x1000⟩ st.tables 0x401000 := ⟨_, hleaf, by decide⟩
  refine ⟨st, hst, hpage, hreserved, hmap, hunmap, ?_⟩
  intro hprotected
  -- the call would have found the first page reserved
  obtain ⟨-, rounds, hrefused⟩ := hprotected ⟨_, hpage, hreserved⟩
  obtain ⟨hfirst, -⟩ := (reserved_iff (by decide)).mp ⟨rounds, unmap_eq_eperm_iff.mp hrefused⟩
  rw [hcheck] at hfirst
  cases hfirst

end VirtualMemoryArea

/-! ## Section 4: Pages that user code may access -/

theorem getLsbD_of_and_mask {raw : Word} {flag : PTFlag} (h : raw &&& flag.mask ≠ 0) :
    raw.getLsbD flag.bit = true := by
  by_contra hbit
  apply h
  apply BitVec.eq_of_getLsbD_eq
  intro i hi
  by_cases heq : i = flag.bit
  · subst heq
    simp [hbit]
  · simp [PTFlag.mask, hi]
    omega

section user

variable {vmm : Virtual} {m : Tables}

/-- An address that translates was found through present entries, and `Check`
    reads the last of them. -/
theorem leaf_of_getPhysical {v q mask : Word} (hq : vmm.getPhysical m v = some q) (hne : q ≠ 0)
    (hcheck : vmm.check m v mask = some true) :
    ∃ e, leaf vmm m v = some e ∧ e &&& mask ≠ 0 := by
  obtain ⟨index, pdpt, hpath, hindex, hpdpt, hp3, hne3, hcases⟩ := check_cases hcheck
  simp only [Virtual.getPhysical, hindex, Option.map_some, Option.some.injEq, hp3, hpdpt, hne3,
    if_true, ne_eq, not_false_eq_true] at hq
  simp only [leaf, hpath, PageMapIndexer.path, lookup, List.length_cons, List.length_nil, decode,
    hp3, hpdpt, if_true, if_false, Nat.lt_irrefl, and_false]
  -- what is absent would translate to null
  split at hq
  case isFalse => exact absurd hq.symm hne
  rename_i hp2
  obtain ⟨hl2, hflag⟩ | ⟨pd, hpd, hl2, hne2, hcases⟩ := hcases
  · exact ⟨_, by simp [hp2, hl2], hflag⟩
  simp only [hp2, hl2, hpd, hne2, Bool.false_eq_true, false_and, if_true, if_false,
    not_false_eq_true] at hq ⊢
  split at hq
  case isFalse => exact absurd hq.symm hne
  rename_i hp1
  obtain ⟨hl1, hflag⟩ | ⟨pt, hpt, hl1, hne1, hflag⟩ := hcases
  · exact ⟨_, by simp [hp1, hl1], hflag⟩
  simp only [hp1, hl1, hpt, hne1, Bool.false_eq_true, false_and, if_true, if_false,
    not_false_eq_true] at hq ⊢
  split at hq
  case isFalse => exact absurd hq.symm hne
  rename_i hp0
  exact ⟨_, by simp [hp0], hflag⟩

theorem userAccessible_of_leaf {v e : Word} (hleaf : leaf vmm m v = some e)
    (hflag : e &&& PTFlag.us.mask ≠ 0) : userAccessible vmm m v = true := by
  rw [userAccessible, hleaf]
  exact getLsbD_of_and_mask hflag

theorem userAccessible_congr {v w : Word} (h : pageBase v = pageBase w) :
    userAccessible vmm m v = userAccessible vmm m w := by
  simp only [userAccessible, leaf]
  rw [← ofAddress_pageBase v, h, ofAddress_pageBase]

end user

namespace VirtualMemoryArea

/-- A pointer is handed out only if every byte of the range lies on a page that
    is mapped and that user code may access. -/
def UserChecked (vmm : Virtual) (m : Tables) (address length : Word) : Prop :=
  ∀ rounds pointer, userCheckAndGetAddress vmm rounds m address length = some pointer →
    pointer ≠ 0 → ∀ x : Word, address.toNat ≤ x.toNat → x.toNat < address.toNat + length.toNat →
      userAccessible vmm m x = true

/-- The loop over the range cannot end by itself: an address of it makes
    `PageMapIndexer` fail its assertion, or its bound is above every page. -/
def Endless (address length : Word) : Prop :=
  2 ^ 64 - 0x1000 < (pageBase address).toNat + length.toNat ∨
  ∃ i, i * 0x1000 < length.toNat ∧
    pageMapIndexer (stepAddress (pageBase address) 0x1000 i) = none

section spec

variable {vmm : Virtual} {m : Tables} {address length : Word} {rounds : Nat} {pointer : Word}

theorem pageBase_le (address : Word) : (pageBase address).toNat ≤ address.toNat := by
  rw [pageBase_toNat]
  omega

/-- A pointer that is not null: the address translates and the loop has found
    every one of its pages accessible. -/
theorem pages_of_userCheck
    (h : userCheckAndGetAddress vmm rounds m address length = some pointer) (hne : pointer ≠ 0) :
    (∃ q, vmm.getPhysical m address = some q ∧ q ≠ 0) ∧
    anyPage (fun va => (vmm.check m va PTFlag.us.mask).map fun user => !user)
      (pageBase address + length) rounds (pageBase address) = some false := by
  obtain ⟨pAddress, hget, h⟩ := Option.bind_eq_some_iff.mp h
  obtain ⟨q, hq, rfl⟩ := Option.map_eq_some_iff.mp hget
  by_cases hzero : (if q = 0 then 0 else q + (address &&& 0xFFF#64)) = 0
  · rw [if_pos hzero, Option.some.injEq] at h
    exact absurd h.symm hne
  · rw [if_neg hzero] at h
    obtain ⟨failed, hloop, hval⟩ := Option.map_eq_some_iff.mp h
    cases failed with
    | true => exact absurd (by simpa using hval.symm) hne
    | false =>
      refine ⟨⟨q, hq, ?_⟩, hloop⟩
      rintro rfl
      simp at hzero

theorem pageBase_eq_stepAddress {x : Word} (hle : address.toNat ≤ x.toNat) :
    pageBase x = pageBase (stepAddress (pageBase address) 0x1000
      ((x.toNat - (pageBase address).toNat) / 0x1000)) := by
  have hx := x.isLt
  have hbase := pageBase_toNat address
  have hstep : (stepAddress (pageBase address) 0x1000
      ((x.toNat - (pageBase address).toNat) / 0x1000)).toNat =
      (pageBase address).toNat + (x.toNat - (pageBase address).toNat) / 0x1000 * 0x1000 :=
    toNat_stepAddress (by omega)
  apply BitVec.eq_of_toNat_eq
  rw [pageBase_toNat, pageBase_toNat, hstep]
  omega

variable (hsum : address.toNat + length.toNat < 2 ^ 64)

include hsum

theorem toNat_stop :
    (pageBase address + length).toNat = (pageBase address).toNat + length.toNat := by
  have := pageBase_le address
  rw [BitVec.toNat_add, Nat.mod_eq_of_lt (by omega)]

theorem check_of_userCheck (h : userCheckAndGetAddress vmm rounds m address length = some pointer)
    (hne : pointer ≠ 0) {i : Nat} (hi : i * 0x1000 < length.toNat) :
    vmm.check m (stepAddress (pageBase address) 0x1000 i) PTFlag.us.mask = some true := by
  obtain ⟨-, hloop⟩ := pages_of_userCheck h hne
  have htest := test_of_anyPage hloop (i := i) (by rw [toNat_stop hsum]; omega)
  obtain ⟨user, hcheck, huser⟩ := Option.map_eq_some_iff.mp htest
  have huser : user = true := by simpa using huser
  rw [hcheck, huser]

theorem userChecked_of_checkSound (hsound : CheckSound vmm m)
    (hpages : address.toNat % 0x1000 + (length.toNat - 1) % 0x1000 < 0x1000) :
    UserChecked vmm m address length := by
  intro rounds pointer h hne x hle hlt
  have hbase := pageBase_toNat address
  have hcheck := check_of_userCheck hsum h hne
    (i := (x.toNat - (pageBase address).toNat) / 0x1000) (by omega)
  obtain ⟨-, e, hleaf, hflag⟩ := hsound _ .us hcheck
  rw [userAccessible_congr (pageBase_eq_stepAddress hle)]
  exact userAccessible_of_leaf hleaf hflag

theorem userChecked_of_onePage (hpos : 0 < length.toNat)
    (hpage : address.toNat % 0x1000 + length.toNat ≤ 0x1000) :
    UserChecked vmm m address length := by
  intro rounds pointer h hne x hle hlt
  obtain ⟨⟨q, hq, hq0⟩, -⟩ := pages_of_userCheck h hne
  have hcheck := check_of_userCheck hsum h hne (i := 0) (by rw [Nat.zero_mul]; exact hpos)
  have hbase : pageBase (pageBase address) = pageBase address := by
    apply BitVec.eq_of_toNat_eq
    simp only [pageBase_toNat]
    omega
  -- the loop checks the page of the address itself
  have haddress : vmm.check m address PTFlag.us.mask = some true := by
    rw [stepAddress_zero] at hcheck
    simpa only [Virtual.check, hbase] using hcheck
  obtain ⟨e, hleaf, hflag⟩ := leaf_of_getPhysical hq hq0 haddress
  have hsame : pageBase x = pageBase address := by
    apply BitVec.eq_of_toNat_eq
    simp only [pageBase_toNat]
    omega
  rw [userAccessible_congr hsame]
  exact userAccessible_of_leaf hleaf hflag

theorem userChecked_of_endless (hendless : Endless address length) :
    UserChecked vmm m address length := by
  intro rounds pointer h hne
  rcases hendless with hbound | ⟨i, hi, hnone⟩
  · obtain ⟨-, hloop⟩ := pages_of_userCheck h hne
    refine absurd hloop (anyPage_ne_false ?_ ?_)
    · rw [toNat_stop hsum]
      exact hbound
    · rw [pageBase_toNat]
      omega
  · have hcheck := check_of_userCheck hsum h hne hi
    have hstep : pageBase (stepAddress (pageBase address) 0x1000 i) =
        stepAddress (pageBase address) 0x1000 i := by
      have hbase := pageBase_toNat address
      have hle := pageBase_le address
      apply BitVec.eq_of_toNat_eq
      rw [pageBase_toNat, toNat_stepAddress (by omega)]
      omega
    simp [Virtual.check, hstep, hnone] at hcheck

end spec

/-! ## Section 5: Entries that `Check` takes for mapped -/

/-- One table on each level, at 0x1000, 0x2000, 0x3000 and 0x4000. In the last
    one entry `pte` is a page of the user, and the others are what `Unmap`
    leaves of such a page. -/
def staleTables (pte : TableIndex) : Tables := fun table index =>
  if table = 0x1000 then 0x2007
  else if table = 0x2000 then 0x3007
  else if table = 0x3000 then 0x4007
  else if index = pte then 0x5007
  else 0x5006

section stale

variable (pte : TableIndex)

theorem staleTables_directories (index : TableIndex) :
    staleTables pte 0x1000 index = 0x2007 ∧ staleTables pte 0x2000 index = 0x3007 ∧
      staleTables pte 0x3000 index = 0x4007 := by
  simp [staleTables]

theorem staleTables_page (index : TableIndex) :
    staleTables pte 0x4000 index = if index = pte then 0x5007 else 0x5006 := by
  simp [staleTables]

theorem pointer_directories :
    pointer 0x2007 = 0x2000 ∧ pointer 0x3007 = 0x3000 ∧ pointer 0x4007 = 0x4000 ∧
      present 0x2007 = true ∧ present 0x3007 = true ∧ present 0x4007 = true ∧
      isPageSize 0x3007 = false ∧ isPageSize 0x4007 = false := by
  decide

theorem staleTables_check {v : Word} (h : pageMapIndexer (pageBase v) ≠ none) :
    (Virtual.mk 0x1000).check (staleTables pte) v PTFlag.us.mask = some true := by
  obtain ⟨index, hindex⟩ := Option.ne_none_iff_exists'.mp h
  have hentry : staleTables pte 0x4000 index.pteIndex &&& PTFlag.us.mask ≠ 0 := by
    rw [staleTables_page]
    split <;> decide
  simp only [Virtual.check, hindex, Option.map_some, staleTables_directories, pointer_directories]
  simpa using hentry

theorem staleTables_leaf (v : Word) :
    leaf ⟨0x1000⟩ (staleTables pte) v =
      if (ofAddress v).pteIndex = pte then some 0x5007 else none := by
  have hd : decode 3 0x2007 = .table 0x2000 ∧ decode 2 0x3007 = .table 0x3000 ∧
      decode 1 0x4007 = .table 0x4000 ∧ decode 0 0x5007 = .leaf ∧ decode 0 0x5006 = .absent := by
    decide
  simp only [leaf, PageMapIndexer.path, lookup, List.length_cons, List.length_nil, Nat.reduceAdd,
    staleTables_directories, hd, staleTables_page]
  by_cases hpte : (ofAddress v).pteIndex = pte
  · simp only [hpte, if_true, hd]
  · simp only [hpte, if_false, hd]

theorem staleTables_get {v : Word} (h : pageMapIndexer (pageBase v) ≠ none) :
    ∃ p, PageTable.get ⟨0x1000⟩ (staleTables (ofAddress v).pteIndex) v = some p ∧
      p ≠ 0 := by
  obtain ⟨index, hindex⟩ := Option.ne_none_iff_exists'.mp h
  have hpath := pageMapIndexer_eq hindex
  rw [ofAddress_pageBase] at hpath
  refine ⟨0x5000 + (v &&& 0xFFF#64), ?_, ?_⟩
  · simp only [PageTable.get, Virtual.getPhysical, hindex, Option.map_some, hpath,
      staleTables_directories, pointer_directories, staleTables_page]
    simp [show present 0x5007#64 = true from by decide,
      show pointer 0x5007#64 = 0x5000#64 from by decide]
  · intro hzero
    have hlow : (v &&& 0xFFF#64).toNat ≤ 0xFFF := by
      rw [BitVec.toNat_and]
      exact Nat.and_le_right
    have hsum := congrArg BitVec.toNat hzero
    rw [BitVec.toNat_add, Nat.mod_eq_of_lt] at hsum
    · simp at hsum
    · show 0x5000 + (v &&& 0xFFF#64).toNat < 2 ^ 64
      omega

end stale

theorem pteIndex_next {address : Word} (hlt : (pageBase address).toNat + 0x1000 < 2 ^ 64) :
    (ofAddress (stepAddress (pageBase address) 0x1000 1)).pteIndex ≠
      (ofAddress address).pteIndex := by
  have hstep : (stepAddress (pageBase address) 0x1000 1).toNat =
      (pageBase address).toNat + 1 * 0x1000 := toNat_stepAddress (by omega)
  rw [← ofAddress_pageBase address]
  intro heq
  have hbase := pageBase_toNat address
  have heq := congrArg BitVec.toNat heq
  simp only [ofAddress, BitVec.toNat_setWidth, BitVec.toNat_ushiftRight,
    Nat.shiftRight_eq_div_pow, hstep] at heq
  omega

/-- In any range of more than one page that the loop gets through, the second
    page may be one that was unmapped. -/
theorem not_userChecked {address length : Word} (hsum : address.toNat + length.toNat < 2 ^ 64)
    (hpages : 0x1000 < address.toNat % 0x1000 + length.toNat)
    (hends : ¬ Endless address length) :
    ¬ UserChecked ⟨0x1000⟩ (staleTables (ofAddress address).pteIndex)
      address length := by
  simp only [Endless, not_or, not_exists, not_and] at hends
  obtain ⟨hbound, hindex⟩ := hends
  have hbase := pageBase_toNat address
  have hpos : 0 < length.toNat := by omega
  have halign : ∀ i, i * 0x1000 < length.toNat →
      pageBase (stepAddress (pageBase address) 0x1000 i) =
        stepAddress (pageBase address) 0x1000 i := by
    intro i hi
    apply BitVec.eq_of_toNat_eq
    rw [pageBase_toNat, toNat_stepAddress (by omega)]
    omega
  -- all pages of the loop pass
  have htests : ∀ i, (pageBase address).toNat + i * 0x1000 < (pageBase address + length).toNat →
      ((Virtual.mk 0x1000).check (staleTables (ofAddress address).pteIndex)
        (stepAddress (pageBase address) 0x1000 i) PTFlag.us.mask).map (fun user => !user) =
        some false := by
    intro i hi
    rw [toNat_stop hsum] at hi
    have hi' : i * 0x1000 < length.toNat := by omega
    rw [staleTables_check _ (by rw [halign i hi']; exact hindex i hi')]
    rfl
  obtain ⟨rounds, hloop⟩ : ∃ n, anyPage (fun va => ((Virtual.mk 0x1000).check
      (staleTables (ofAddress address).pteIndex) va PTFlag.us.mask).map
        fun user => !user) (pageBase address + length) n (pageBase address) = some false :=
    anyPage_of_tests (by rw [toNat_stop hsum]; omega) htests
  have hfirst := hindex 0 (by omega)
  rw [stepAddress_zero] at hfirst
  obtain ⟨p, hget, hp⟩ := staleTables_get hfirst
  intro hchecked
  -- and the second page is not mapped
  have hx : (stepAddress (pageBase address) 0x1000 1).toNat =
      (pageBase address).toNat + 1 * 0x1000 := toNat_stepAddress (by omega)
  have haccess := hchecked rounds p
    (by rw [userCheckAndGetAddress, hget, Option.bind_some, if_neg hp, hloop]; rfl) hp
    (stepAddress (pageBase address) 0x1000 1) (by omega) (by omega)
  rw [userAccessible, staleTables_leaf, if_neg (pteIndex_next (by omega))] at haccess
  cases haccess

/-- **User pointers**: a range is checked in every table if and only if it lies
    on one page (or the loop cannot end by itself, and no pointer is handed
    out); and where `Check` is sound, a range is checked if it has no more
    pages than its length alone takes. -/
theorem userChecked_iff {address length : Word} (hpos : 0 < length.toNat)
    (hsum : address.toNat + length.toNat < 2 ^ 64) :
    ((∀ vmm m, UserChecked vmm m address length) ↔
      address.toNat % 0x1000 + length.toNat ≤ 0x1000 ∨ Endless address length) ∧
    ∀ vmm m, CheckSound vmm m →
      address.toNat % 0x1000 + (length.toNat - 1) % 0x1000 < 0x1000 →
      UserChecked vmm m address length := by
  refine ⟨⟨?_, ?_⟩, fun vmm m hsound => userChecked_of_checkSound hsum hsound⟩
  · intro hall
    by_contra hnot
    simp only [not_or, Nat.not_le] at hnot
    exact not_userChecked hsum hnot.1 hnot.2 (hall _ _)
  · rintro (hpage | hendless) vmm m
    · exact userChecked_of_onePage hsum hpos hpage
    · exact userChecked_of_endless hsum hendless

/-- Eight bytes at the end of a page. -/
theorem userChecked_onePage :
    0 < (0x8 : Word).toNat ∧ (0x400FF8 : Word).toNat + (0x8 : Word).toNat < 2 ^ 64 ∧
      ∀ vmm m, UserChecked vmm m 0x400FF8 0x8 :=
  ⟨by decide, by decide, (userChecked_iff (by decide) (by decide)).1.mpr (.inl (by decide))⟩

/-- A pointer is handed out for two bytes across the end of the only page that
    is mapped; and for two pages of which the second was unmapped. -/
theorem user_range_past_page :
    (∃ st, (Virtual.mk 0x1000).map bump blankMachine 0x400000 0x7000 PTFlag.us.mask .fourKiB =
        some st ∧
      userCheckAndGetAddress ⟨0x1000⟩ 2 st.tables 0x400FFF 0x2 = some 0x7FFF ∧
      userAccessible ⟨0x1000⟩ st.tables 0x401000 = false ∧
      ¬ UserChecked ⟨0x1000⟩ st.tables 0x400FFF 0x2) ∧
    ∃ st m, ((Virtual.mk 0x1000).mapRange bump blankMachine 0x400000 0x7000 0x2000 PTFlag.us.mask
        .fourKiB) = some st ∧
      (Virtual.mk 0x1000).unmap st.tables 0x401000 .fourKiB = some m ∧
      userCheckAndGetAddress ⟨0x1000⟩ 3 m 0x400000 0x2000 = some 0x7000 ∧
      userAccessible ⟨0x1000⟩ m 0x401000 = false ∧
      ¬ UserChecked ⟨0x1000⟩ m 0x400000 0x2000 := by
  obtain ⟨st, hst, hcheck, hoff⟩ : ∃ st, (Virtual.mk 0x1000).map bump blankMachine 0x400000 0x7000
      PTFlag.us.mask .fourKiB = some st ∧
      userCheckAndGetAddress ⟨0x1000⟩ 2 st.tables 0x400FFF 0x2 = some 0x7FFF ∧
      userAccessible ⟨0x1000⟩ st.tables 0x401000 = false := by decide +kernel
  obtain ⟨st', hst', m, hm, hcheck', hoff'⟩ : ∃ st, (Virtual.mk 0x1000).mapRange bump blankMachine
      0x400000 0x7000 0x2000 PTFlag.us.mask .fourKiB = some st ∧
      ∃ m, (Virtual.mk 0x1000).unmap st.tables 0x401000 .fourKiB = some m ∧
        userCheckAndGetAddress ⟨0x1000⟩ 3 m 0x400000 0x2000 = some 0x7000 ∧
        userAccessible ⟨0x1000⟩ m 0x401000 = false := by decide +kernel
  refine ⟨⟨st, hst, hcheck, hoff, ?_⟩, st', m, hst', hm, hcheck', hoff', ?_⟩
  · intro hchecked
    have haccess := hchecked 2 _ hcheck (by decide) 0x401000 (by decide) (by decide)
    rw [hoff] at haccess
    cases haccess
  · intro hchecked
    have haccess := hchecked 3 _ hcheck' (by decide) 0x401000 (by decide) (by decide)
    rw [hoff'] at haccess
    cases haccess

end VirtualMemoryArea

end Fennix.Memory
