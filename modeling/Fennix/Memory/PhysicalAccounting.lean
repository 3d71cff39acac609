import Fennix.Framework.System
import Fennix.Memory.PhysicalSearch
import Fennix.Memory.BootInfo
import Mathlib.Data.Finset.Card
import Mathlib.Data.Finset.Image
import Mathlib.Data.Finset.Lattice.Lemmas

/-! # The counters of the physical allocator

    `FreeMemory`, `UsedMemory` and `ReservedMemory` are kept beside the bitmap
    and updated page by page. The bitmap has more bits than the memory has
    pages: its size is rounded up to a whole byte plus one, and `Init` rounds
    the memory size up to pages before it reserves them. Marking such a surplus
    page takes `PAGE_SIZE` bytes out of `FreeMemory` that were never put in.

    The counters are right as long as the marked pages do not outnumber the
    pages that `TotalMemory` pays for (`InBudget`).
-/

namespace Fennix.Memory.Physical

/-! ## Section 1: Runs with the accounts on record -/

/-- The pages of a range, as the loops number them. -/
def pagesOf (address n : Nat) : Finset Nat := (Finset.range n).image (pageAt address)

/-- The pages whose bit is set. -/
def inUse (s : Physical) : Finset Nat :=
  (Finset.range (s.pageBitmap.bits + 1)).filter fun p => s.pageBitmap.get p = true

/-- The pages of `pages` whose bit a call would newly set. -/
def fresh (s : Physical) (pages : Finset Nat) : Finset Nat :=
  pages.filter fun p => p ≤ s.pageBitmap.bits ∧ s.pageBitmap.get p = false

/-- Which pages are locked or requested, and which are reserved. -/
abbrev Accounts := Account → Finset Nat

/-- `pages` are added to an account. -/
def Accounts.add (held : Accounts) (a : Account) (pages : Finset Nat) : Accounts :=
  Function.update held a (held a ∪ pages)

/-- `pages` are taken from an account. -/
def Accounts.remove (held : Accounts) (a : Account) (pages : Finset Nat) : Accounts :=
  Function.update held a (held a \ pages)

/-- The number of pages on the two accounts. -/
def Accounts.taken (held : Accounts) : Nat := (held .used).card + (held .reserved).card

/-- The allocator with its accounts. -/
structure Books where
  phys : Physical
  held : Accounts

inductive BookCall where
  | lockPages (address pageCount : Nat)
  | reservePage (address : Nat)
  | reservePages (address pageCount : Nat)
  | unreservePages (address pageCount : Nat)
  | requestPage
  | requestPages (count : Nat)
  | freePage (address : Nat)
  | freePages (address count : Nat)

/-- The books after a call that sets the bits of `pages`. -/
def Books.mark (b : Books) (a : Account) (pages : Finset Nat) (s' : Physical) : Books :=
  ⟨s', b.held.add a (b.phys.fresh pages)⟩

/-- The books after a call that clears bits. -/
def Books.clear (b : Books) (a : Account) (s' : Physical) : Books :=
  ⟨s', b.held.remove a (b.phys.inUse \ s'.inUse)⟩

/-- The books after a request for `count` pages. All the pages that were handed
    out count as requested, whether or not their bits could be set. -/
def Books.request (b : Books) (count : Nat) : Outcome × Physical → Books → Prop
  | (.returned address, s'), b' => b' = ⟨s', b.held.add .used (pagesOf address count)⟩
  | (.outOfMemory, s'), b' => b' = ⟨s', b.held⟩
  | (.diverges, _), _ => False

/-- Runs from the allocator that `Init` hands to `ReserveEssentials`. Frees
    are applied to locked or requested pages only, and none of these is
    unreserved. -/
def books : System Books BookCall where
  init := fun b => ∃ memorySize after, b = ⟨Physical.blank memorySize after, fun _ => ∅⟩
  step := fun b call b' =>
    match call with
    | .lockPages address n =>
        b' = b.mark .used (pagesOf address n) (b.phys.lockPages address n)
    | .reservePage address =>
        b' = b.mark .reserved {address / pageSize} (b.phys.reservePage address)
    | .reservePages address n =>
        b' = b.mark .reserved (pagesOf address n) (b.phys.reservePages address n)
    | .unreservePages address n =>
        Disjoint (pagesOf address n) (b.held .used) ∧
        b' = b.clear .reserved (b.phys.unreservePages address n)
    | .requestPage => b.request 1 b.phys.requestPage b'
    | .requestPages count => b.request count (b.phys.requestPages count) b'
    | .freePage address =>
        address / pageSize ∈ b.held .used ∧
        b' = b.clear .used (b.phys.freePage address)
    | .freePages address n =>
        pagesOf address n ⊆ b.held .used ∧
        b' = b.clear .used (b.phys.freePages address n)

/-- The counter of an account. -/
def counter (s : Physical) : Account → Nat
  | .used => s.usedMemory
  | .reserved => s.reservedMemory

/-- The counters add up, as integers, to the whole memory, and each account's
    counter is the size of its pages. No counter can have wrapped: a wrapped
    one exceeds `totalMemory`. -/
def Accounted (b : Books) : Prop :=
  b.phys.freeMemory + b.phys.usedMemory + b.phys.reservedMemory = b.phys.totalMemory ∧
  ∀ a, b.phys.counter a = pageSize * (b.held a).card

/-- The memory pays for `n` more pages. -/
def Books.Affordable (b : Books) (n : Nat) : Prop :=
  (b.held.taken + n) * pageSize ≤ b.phys.totalMemory

/-- The guard on runs. The pages that a call marks are paid for, `RequestPages`
    does not come to a start that fits only because it reaches past the end of
    the bitmap, and the marked pages that are unreserved had been reserved
    (the bit next to the bitmap may be set from the start). -/
def InBudget (b : Books) : BookCall → Prop
  | .lockPages address n => b.Affordable (b.phys.fresh (pagesOf address n)).card
  | .reservePage address => b.Affordable (b.phys.fresh {address / pageSize}).card
  | .reservePages address n => b.Affordable (b.phys.fresh (pagesOf address n)).card
  | .unreservePages address n =>
      ∀ p ∈ pagesOf address n, b.phys.pageBitmap.get p = true → p ∈ b.held .reserved
  | .requestPage =>
      nextFree b.phys.pageBitmap b.phys.pageBitmapIndex < b.phys.pageBitmap.bits →
        b.Affordable 1
  | .requestPages count =>
      ∀ c, Tried b.phys.pageBitmap count b.phys.pageBitmapIndex c →
        Fits b.phys.pageBitmap count c →
        c + count ≤ b.phys.pageBitmap.bits ∧ b.Affordable count
  | .freePage _ => True
  | .freePages _ _ => True

/-! ## Section 2: Sets of pages -/

variable {s : Physical} {p : Nat} {b b' : Books}

theorem mem_inUse : p ∈ s.inUse ↔ s.pageBitmap.get p = true := by
  simp only [inUse, Finset.mem_filter, Finset.mem_range]
  constructor
  · exact And.right
  · intro h
    have := Bitmap.le_of_get h
    exact ⟨by omega, h⟩

theorem mem_fresh {pages : Finset Nat} :
    p ∈ s.fresh pages ↔ p ∈ pages ∧ p ≤ s.pageBitmap.bits ∧ s.pageBitmap.get p = false := by
  simp [fresh]

theorem mem_pagesOf {address n : Nat} : p ∈ pagesOf address n ↔ ∃ t < n, pageAt address t = p := by
  simp [pagesOf]

theorem pagesOf_succ (address n : Nat) :
    pagesOf address (n + 1) = pagesOf address n ∪ {pageAt address n} := by
  ext p
  simp only [mem_pagesOf, Finset.mem_union, Finset.mem_singleton]
  constructor
  · intro hex
    obtain ⟨t, ht, rfl⟩ := hex
    rcases Nat.lt_succ_iff_lt_or_eq.mp ht with hlt | rfl
    · exact Or.inl ⟨t, hlt, rfl⟩
    · exact Or.inr rfl
  · intro hor
    rcases hor with ⟨t, ht, rfl⟩ | rfl
    · exact ⟨t, by omega, rfl⟩
    · exact ⟨n, by omega, rfl⟩

theorem inUse_release (s : Physical) (a : Account) (i : Nat) :
    (s.release a i).inUse = s.inUse \ {i} := by
  ext p
  simp only [mem_inUse, release_get, Finset.mem_sdiff, Finset.mem_singleton]

theorem fresh_pagesOf_succ (s : Physical) (a : Account) (address n : Nat) :
    s.fresh (pagesOf address (n + 1)) =
      s.fresh (pagesOf address n) ∪
        (s.chargePages a address n).fresh {pageAt address n} := by
  ext p
  have hget : (s.chargePages a address n).pageBitmap.get p = false ↔
      s.pageBitmap.get p = false ∧ (p ≤ s.pageBitmap.bits → p ∉ pagesOf address n) := by
    rw [← Bool.not_eq_true, chargePages_get, mem_pagesOf, ← Bool.not_eq_true, not_or, not_and]
  simp only [mem_fresh, pagesOf_succ, Finset.mem_union, Finset.mem_singleton, hget,
    chargePages_bits]
  tauto

theorem disjoint_fresh (s : Physical) (a : Account) (address n : Nat) (pages : Finset Nat) :
    Disjoint (s.fresh (pagesOf address n)) ((s.chargePages a address n).fresh pages) := by
  rw [Finset.disjoint_left]
  intro p hp hp'
  rw [mem_fresh] at hp hp'
  have : (s.chargePages a address n).pageBitmap.get p = true :=
    (chargePages_get s a address n p).mpr (Or.inr ⟨hp.2.1, mem_pagesOf.mp hp.1⟩)
  rw [hp'.2.2] at this
  cases this

/-! ## Section 3: Balanced books -/

/-- The invariant: the accounts are disjoint sets of marked pages, and the
    counters are the sizes of the accounts and of what is left. -/
structure Balanced (s : Physical) (held : Accounts) : Prop where
  marked : ∀ a, held a ⊆ s.inUse
  disjoint : ∀ a a', a ≠ a' → Disjoint (held a) (held a')
  counter : ∀ a, s.counter a = pageSize * (held a).card
  free : s.freeMemory + pageSize * held.taken = s.totalMemory
  total_lt : s.totalMemory < 2 ^ 64

theorem Balanced.accounted {held : Accounts} (h : Balanced s held) : Accounted ⟨s, held⟩ := by
  refine ⟨?_, h.counter⟩
  have hused := h.counter .used
  have hreserved := h.counter .reserved
  have hfree := h.free
  simp only [Physical.counter, Accounts.taken, Nat.mul_add] at hused hreserved hfree
  show s.freeMemory + s.usedMemory + s.reservedMemory = s.totalMemory
  omega

theorem Balanced.setIndex {held : Accounts} (h : Balanced s held) (i : Nat) :
    Balanced { s with pageBitmapIndex := i } held :=
  ⟨h.marked, h.disjoint, fun a => by rw [← h.counter a]; cases a <;> rfl, h.free, h.total_lt⟩

section Accounts

variable (held : Accounts) (a : Account) (pages : Finset Nat)

theorem Accounts.add_self : held.add a pages a = held a ∪ pages := by
  simp [Accounts.add]

theorem Accounts.add_of_ne {a' : Account} (h : a' ≠ a) : held.add a pages a' = held a' := by
  simp [Accounts.add, h]

theorem Accounts.add_empty : held.add a ∅ = held := by
  simp [Accounts.add]

theorem Accounts.add_add (pages' : Finset Nat) :
    (held.add a pages).add a pages' = held.add a (pages ∪ pages') := by
  simp [Accounts.add, Finset.union_assoc]

theorem Accounts.remove_self : held.remove a pages a = held a \ pages := by
  simp [Accounts.remove]

theorem Accounts.remove_of_ne {a' : Account} (h : a' ≠ a) :
    held.remove a pages a' = held a' := by
  simp [Accounts.remove, h]

theorem Accounts.remove_subset (a' : Account) : held.remove a pages a' ⊆ held a' := by
  by_cases h : a' = a
  · subst h
    rw [Accounts.remove_self]
    exact Finset.sdiff_subset
  · rw [Accounts.remove_of_ne _ _ _ h]

theorem Accounts.taken_add (h : Disjoint (held a) pages) :
    (held.add a pages).taken = held.taken + pages.card := by
  have hcard := Finset.card_union_of_disjoint h
  cases a <;> simp [Accounts.taken, Accounts.add, hcard] <;> omega

theorem Accounts.taken_remove (h : pages ⊆ held a) :
    (held.remove a pages).taken + pages.card = held.taken := by
  have hcard := Finset.card_sdiff_add_card_eq_card h
  cases a <;> simp [Accounts.taken, Accounts.remove] <;> omega

theorem Accounts.disjoint_add (h : ∀ a₁ a₂, a₁ ≠ a₂ → Disjoint (held a₁) (held a₂))
    (hnew : ∀ a', Disjoint (held a') pages) {a₁ a₂ : Account} (hne : a₁ ≠ a₂) :
    Disjoint (held.add a pages a₁) (held.add a pages a₂) := by
  by_cases h1 : a₁ = a
  · subst h1
    rw [Accounts.add_self, Accounts.add_of_ne _ _ _ (Ne.symm hne), Finset.disjoint_union_left]
    exact ⟨h a₁ a₂ hne, (hnew a₂).symm⟩
  · rw [Accounts.add_of_ne _ _ _ h1]
    by_cases h2 : a₂ = a
    · subst h2
      rw [Accounts.add_self, Finset.disjoint_union_right]
      exact ⟨h a₁ a₂ hne, hnew a₁⟩
    · rw [Accounts.add_of_ne _ _ _ h2]
      exact h a₁ a₂ hne

end Accounts

/-! ## Section 4: One page -/

section onePage

variable {s : Physical} {held : Accounts} {a : Account} {i : Nat}

theorem charge_of_not_fresh (h : s.fresh {i} = ∅) : s.charge a i = s := by
  have hi : ¬ (i ≤ s.pageBitmap.bits ∧ s.pageBitmap.get i = false) := by
    intro hi
    have : i ∈ s.fresh {i} := mem_fresh.mpr ⟨Finset.mem_singleton_self i, hi⟩
    rw [h] at this
    exact absurd this (Finset.notMem_empty i)
  unfold charge
  split
  · rfl
  · rename_i hget
    rw [if_neg]
    intro hset
    exact hi ⟨by simpa using hset, by simpa using hget⟩

theorem charge_counters (hle : i ≤ s.pageBitmap.bits) (hget : s.pageBitmap.get i = false) :
    (s.charge a i).totalMemory = s.totalMemory ∧
    (s.charge a i).freeMemory = fetchSub s.freeMemory pageSize ∧
    ∀ a', (s.charge a i).counter a' =
      if a' = a then fetchAdd (s.counter a) pageSize else s.counter a' := by
  unfold charge
  rw [if_neg (by simp [hget]), if_pos (by simpa using hle)]
  refine ⟨rfl, rfl, fun a' => ?_⟩
  cases a <;> cases a' <;> simp [Physical.counter]

theorem release_counters (hget : s.pageBitmap.get i = true) :
    (s.release a i).totalMemory = s.totalMemory ∧
    (s.release a i).freeMemory = fetchAdd s.freeMemory pageSize ∧
    ∀ a', (s.release a i).counter a' =
      if a' = a then fetchSub (s.counter a) pageSize else s.counter a' := by
  unfold release
  rw [if_neg (by simp [hget]), if_pos (by simpa using Bitmap.le_of_get hget)]
  refine ⟨rfl, rfl, fun a' => ?_⟩
  cases a <;> cases a' <;> simp [Physical.counter]

theorem Balanced.counter_le (h : Balanced s held) (a : Account) :
    s.counter a + s.freeMemory ≤ s.totalMemory := by
  have hfree := h.free
  rw [h.counter a]
  simp only [Accounts.taken, Nat.mul_add] at hfree
  cases a <;> omega

theorem fetchSub_of_le {c d : Nat} (hc : c < 2 ^ 64) (hd : d ≤ c) : fetchSub c d = c - d := by
  unfold fetchSub
  omega

theorem fetchAdd_of_lt {c d : Nat} (h : c + d < 2 ^ 64) : fetchAdd c d = c + d :=
  Nat.mod_eq_of_lt h

theorem Balanced.notMem_of_free (h : Balanced s held) (hget : s.pageBitmap.get i = false)
    (a : Account) : i ∉ held a := by
  intro hmem
  have hset := mem_inUse.mp (h.marked a hmem)
  rw [hget] at hset
  cases hset

theorem Balanced.charge (h : Balanced s held)
    (hpay : (held.taken + (s.fresh {i}).card) * pageSize ≤ s.totalMemory) :
    Balanced (s.charge a i) (held.add a (s.fresh {i})) := by
  rcases Finset.eq_empty_or_nonempty (s.fresh {i}) with hempty | ⟨p, hp⟩
  · rw [hempty, Accounts.add_empty, charge_of_not_fresh hempty]
    exact h
  · obtain ⟨hpi, hle, hget⟩ := mem_fresh.mp hp
    obtain rfl := Finset.mem_singleton.mp hpi
    have hfresh : s.fresh {p} = {p} := by
      rw [fresh, Finset.filter_singleton, if_pos ⟨hle, hget⟩]
    rw [hfresh] at hpay ⊢
    have hnot : ∀ a', Disjoint (held a') {p} := by
      intro a'
      rw [Finset.disjoint_singleton_right]
      exact h.notMem_of_free hget a'
    obtain ⟨htotal, hfree, hcounter⟩ := charge_counters hle hget (a := a)
    have hbalance := h.free
    have hlt := h.total_lt
    rw [Finset.card_singleton] at hpay
    -- a page that is paid for is paid from `FreeMemory`
    have hroom : pageSize ≤ s.freeMemory := by
      simp only [pageSize] at *
      omega
    refine ⟨fun a' q hq => ?_, fun a₁ a₂ hne => Accounts.disjoint_add _ _ _ h.disjoint hnot hne,
      fun a' => ?_, ?_, by rw [htotal]; exact hlt⟩
    · rw [mem_inUse, charge_get]
      by_cases ha : a' = a
      · subst ha
        rw [Accounts.add_self, Finset.mem_union, Finset.mem_singleton] at hq
        rcases hq with hq | rfl
        · exact Or.inl (mem_inUse.mp (h.marked a' hq))
        · exact Or.inr ⟨rfl, hle⟩
      · rw [Accounts.add_of_ne _ _ _ ha] at hq
        exact Or.inl (mem_inUse.mp (h.marked a' hq))
    · rw [hcounter]
      by_cases ha : a' = a
      · subst ha
        have hle' := h.counter_le a'
        rw [if_pos rfl, fetchAdd_of_lt (by omega), h.counter, Accounts.add_self,
          Finset.card_union_of_disjoint (hnot a'), Finset.card_singleton, Nat.mul_add,
          Nat.mul_one]
      · rw [if_neg ha, Accounts.add_of_ne _ _ _ ha]
        exact h.counter a'
    · rw [hfree, htotal, fetchSub_of_le (by omega) hroom, Accounts.taken_add _ _ _ (hnot a),
        Finset.card_singleton, Nat.mul_add]
      omega

theorem Balanced.release (h : Balanced s held)
    (hheld : s.pageBitmap.get i = true → i ∈ held a) :
    Balanced (s.release a i) (held.remove a {i}) := by
  cases hget : s.pageBitmap.get i with
  | false =>
    have hsame : s.release a i = s := by simp [Physical.release, hget]
    have hheld' : held.remove a {i} = held := by
      rw [Accounts.remove, Finset.sdiff_singleton_eq_erase,
        Finset.erase_eq_of_notMem (h.notMem_of_free hget a), Function.update_eq_self]
    rw [hsame, hheld']
    exact h
  | true =>
    have hmem := hheld hget
    obtain ⟨htotal, hfree, hcounter⟩ := release_counters hget (a := a)
    have htaken := Accounts.taken_remove held a {i} (Finset.singleton_subset_iff.mpr hmem)
    have hcard := Finset.card_sdiff_add_card_eq_card (Finset.singleton_subset_iff.mpr hmem)
    rw [Finset.card_singleton] at htaken hcard
    have hbalance := h.free
    have hlt := h.total_lt
    refine ⟨fun a' q hq => ?_, fun a₁ a₂ hne => ?_, fun a' => ?_, ?_, by rw [htotal]; exact hlt⟩
    · rw [inUse_release, Finset.mem_sdiff, Finset.mem_singleton]
      by_cases ha : a' = a
      · subst ha
        rw [Accounts.remove_self, Finset.mem_sdiff, Finset.mem_singleton] at hq
        exact ⟨h.marked a' hq.1, hq.2⟩
      · rw [Accounts.remove_of_ne _ _ _ ha] at hq
        refine ⟨h.marked a' hq, ?_⟩
        intro heq
        subst heq
        exact Finset.disjoint_left.mp (h.disjoint a' a ha) hq hmem
    · refine (h.disjoint a₁ a₂ hne).mono ?_ ?_
      · exact Accounts.remove_subset held a {i} a₁
      · exact Accounts.remove_subset held a {i} a₂
    · rw [hcounter]
      by_cases ha : a' = a
      · subst ha
        have hle := h.counter_le a'
        have hcount := h.counter a'
        rw [if_pos rfl, Accounts.remove_self, fetchSub_of_le (by omega) (by
          rw [hcount, ← hcard]; simp only [pageSize]; omega), hcount, ← hcard]
        simp only [pageSize]
        omega
      · rw [if_neg ha, Accounts.remove_of_ne _ _ _ ha]
        exact h.counter a'
    · rw [hfree, htotal, fetchAdd_of_lt (by simp only [pageSize] at *; omega)]
      simp only [pageSize] at *
      omega

end onePage

/-! ## Section 5: Ranges -/

@[simp] theorem charge_totalMemory (s : Physical) (a : Account) (i : Nat) :
    (s.charge a i).totalMemory = s.totalMemory := by
  unfold charge
  split
  · rfl
  · split <;> rfl

@[simp] theorem chargePages_totalMemory (s : Physical) (a : Account) (address n : Nat) :
    (s.chargePages a address n).totalMemory = s.totalMemory :=
  chargePages_induct (P := fun s' => s'.totalMemory = s.totalMemory) rfl
    fun _ _ _ h => by rw [charge_totalMemory, h]

section ranges

variable {s : Physical} {held : Accounts} {a : Account} {address : Nat}

variable {n : Nat}

theorem Balanced.chargePages (h : Balanced s held)
    (hpay : (held.taken + (s.fresh (pagesOf address n)).card) * pageSize ≤ s.totalMemory) :
    Balanced (s.chargePages a address n) (held.add a (s.fresh (pagesOf address n))) := by
  induction n with
  | zero => simpa [pagesOf, fresh, Physical.chargePages, Accounts.add_empty] using h
  | succ n ih =>
    rw [fresh_pagesOf_succ s a] at hpay ⊢
    rw [Finset.card_union_of_disjoint (disjoint_fresh s a address n _)] at hpay
    have hdisj : Disjoint (held a) (s.fresh (pagesOf address n)) := by
      rw [Finset.disjoint_left]
      intro p hp hp'
      have := mem_inUse.mp (h.marked a hp)
      rw [(mem_fresh.mp hp').2.2] at this
      cases this
    rw [← Accounts.add_add]
    refine (ih (Nat.le_trans (Nat.mul_le_mul_right _ ?_) hpay)).charge ?_
    · omega
    · rw [Accounts.taken_add _ _ _ hdisj, chargePages_totalMemory, Nat.add_assoc]
      exact hpay

/-- Where a loop that clears pages of an account stands: it started in `s`
    and has come to `s₁`. -/
structure Clearing (s : Physical) (held : Accounts) (a : Account) (s₁ : Physical) : Prop where
  inUse_subset : s₁.inUse ⊆ s.inUse
  balanced : Balanced s₁ (held.remove a (s.inUse \ s₁.inUse))

theorem Balanced.clearing (h : Balanced s held) : Clearing s held a s := by
  refine ⟨Finset.Subset.refl _, ?_⟩
  have hsame : held.remove a (s.inUse \ s.inUse) = held := by simp [Accounts.remove]
  rw [hsame]
  exact h

theorem Clearing.release {s₁ : Physical} {i : Nat} (h : Clearing s held a s₁)
    (hmarked : held a ⊆ s.inUse) (hi : i ∈ s.inUse → i ∈ held a) :
    Clearing s held a (s₁.release a i) := by
  -- clearing one page more takes one page more off the account
  have hremove : held.remove a (s.inUse \ (s₁.inUse \ {i})) =
      (held.remove a (s.inUse \ s₁.inUse)).remove a {i} := by
    simp only [Accounts.remove, Function.update_self, Function.update_idem]
    congr 1
    ext p
    have := @hmarked p
    simp only [Finset.mem_sdiff, Finset.mem_singleton]
    tauto
  constructor
  · rw [inUse_release]
    exact Finset.sdiff_subset.trans h.inUse_subset
  · rw [inUse_release, hremove]
    refine h.balanced.release fun hget => ?_
    have hmem := mem_inUse.mpr hget
    rw [Accounts.remove_self, Finset.mem_sdiff, Finset.mem_sdiff]
    exact ⟨hi (h.inUse_subset hmem), fun hnot => hnot.2 hmem⟩

theorem Clearing.freePage {s₁ : Physical} {i : Nat} (h : Clearing s held .used s₁)
    (hmarked : held .used ⊆ s.inUse) (hi : i / pageSize ∈ held .used) :
    Clearing s held .used (s₁.freePage i) := by
  unfold Physical.freePage
  split
  · exact h
  · exact h.release hmarked fun _ => hi

theorem Balanced.freePages (h : Balanced s held) (hsub : pagesOf address n ⊆ held .used) :
    Clearing s held .used (s.freePages address n) := by
  unfold Physical.freePages
  split
  · exact h.clearing
  · refine freeLoop_induct h.clearing fun s₁ t ht h₁ => ?_
    exact h₁.freePage (h.marked .used) (hsub (mem_pagesOf.mpr ⟨t, ht, rfl⟩))

theorem Balanced.unreservePages (h : Balanced s held)
    (hres : ∀ p ∈ pagesOf address n, s.pageBitmap.get p = true → p ∈ held .reserved) :
    Clearing s held .reserved (s.unreservePages address n) := by
  refine unreserveFrom_induct h.clearing fun s₁ t _ ht h₁ => ?_
  refine h₁.release (h.marked .reserved) fun hmem => ?_
  exact hres _ (mem_pagesOf.mpr ⟨t, by omega, rfl⟩) (mem_inUse.mp hmem)

end ranges

/-! ## Section 6: Runs -/

theorem Balanced.requestPage (h : Balanced b.phys b.held) (hguard : InBudget b .requestPage)
    (hstep : books.step b .requestPage b') : Balanced b'.phys b'.held := by
  simp only [books] at hstep
  rcases requestPage_cases b.phys with ⟨hlt, heq⟩ | ⟨_, heq⟩
  · rw [heq] at hstep
    simp only [Books.request] at hstep
    subst hstep
    have hbits := b.phys.pageBitmap.bits_le
    generalize hi : nextFree b.phys.pageBitmap b.phys.pageBitmapIndex = i at *
    have hget : b.phys.pageBitmap.get i = false := by
      rw [← hi] at hlt ⊢
      exact get_nextFree hlt
    have hpages : pagesOf (i * pageSize) 1 = {i} := by
      rw [pagesOf, Finset.range_one, Finset.image_singleton, pageAt_of_lt (by omega), Nat.add_zero]
    -- the page was free, so it is new to the account
    have hfresh : b.phys.fresh {i} = {i} := by
      rw [fresh, Finset.filter_singleton, if_pos ⟨by omega, hget⟩]
    have hcharged := (h.setIndex i).charge (a := .used) (i := i)
    have hfresh' : fresh { b.phys with pageBitmapIndex := i } {i} = {i} := hfresh
    rw [hfresh', Finset.card_singleton] at hcharged
    rw [hpages]
    exact hcharged (hguard (by rw [hi]; exact hlt))
  · rw [heq] at hstep
    simp only [Books.request] at hstep
    subst hstep
    exact h.setIndex _

theorem Balanced.requestPages {count : Nat} (h : Balanced b.phys b.held)
    (hguard : InBudget b (.requestPages count)) (hstep : books.step b (.requestPages count) b') :
    Balanced b'.phys b'.held := by
  simp only [books] at hstep
  cases hreq : b.phys.requestPages count with
  | mk outcome s' =>
    rw [hreq] at hstep
    cases outcome with
    | returned A =>
      simp only [Books.request] at hstep
      subst hstep
      obtain ⟨start, c, h1, h2, h3, h4, hv, hfit, rfl, rfl⟩ := requestPages_returned hreq
      obtain ⟨hin, hpay⟩ := hguard c ⟨start, h1, h2, h3, h4, hv⟩ hfit
      have hbits := b.phys.pageBitmap.bits_le
      -- all pages of the range are free and inside the bitmap
      have hfresh : b.phys.fresh (pagesOf (c * pageSize) count) = pagesOf (c * pageSize) count := by
        rw [fresh, Finset.filter_eq_self]
        intro p hp
        obtain ⟨t, ht, rfl⟩ := mem_pagesOf.mp hp
        have hclear := clearRun_iff.mp hfit.2.2 t ht
        rw [Nat.mod_eq_of_lt (by omega)] at hclear
        rw [pageAt_of_lt (by omega)]
        exact ⟨by omega, hclear⟩
      have hcard : (pagesOf (c * pageSize) count).card ≤ count := by
        have := Finset.card_image_le (s := Finset.range count) (f := pageAt (c * pageSize))
        rwa [Finset.card_range] at this
      have hfresh' : fresh { b.phys with pageBitmapIndex := start }
          (pagesOf (c * pageSize) count) = pagesOf (c * pageSize) count := hfresh
      rw [← hfresh'] at hcard ⊢
      refine (h.setIndex start).chargePages (Nat.le_trans (Nat.mul_le_mul_right _ ?_) hpay)
      exact Nat.add_le_add_left hcard _
    | outOfMemory =>
      simp only [Books.request] at hstep
      subst hstep
      rw [(requestPages_outOfMemory hreq).2]
      exact h.setIndex _
    | diverges => exact absurd hstep id

theorem Balanced.step {call : BookCall} (h : Balanced b.phys b.held)
    (hstep : (books.restrict InBudget).step b call b') : Balanced b'.phys b'.held := by
  obtain ⟨hguard, hstep⟩ := hstep
  match call with
  | .lockPages _ _ | .reservePages _ _ =>
    simp only [books] at hstep
    subst hstep
    exact h.chargePages hguard
  | .reservePage address =>
    simp only [books] at hstep
    subst hstep
    -- the source tests for null, with the same index in the end
    have hindex : (if address = 0 then 0 else address / pageSize) = address / pageSize := by
      split
      · rename_i h0
        rw [h0, Nat.zero_div]
      · rfl
    simp only [Books.mark, Physical.reservePage, hindex]
    exact h.charge hguard
  | .unreservePages address n =>
    obtain ⟨_, rfl⟩ := hstep
    exact (h.unreservePages hguard).balanced
  | .requestPage => exact h.requestPage hguard hstep
  | .requestPages count => exact h.requestPages hguard hstep
  | .freePage address =>
    obtain ⟨hmem, rfl⟩ := hstep
    exact (h.clearing.freePage (h.marked .used) hmem).balanced
  | .freePages address n =>
    obtain ⟨hsub, rfl⟩ := hstep
    exact (h.freePages hsub).balanced

theorem balanced_blank (memorySize : Word) (after : Nat → BitVec 8) :
    Balanced (Physical.blank memorySize after) fun _ => ∅ := by
  refine ⟨fun _ => Finset.empty_subset _, fun _ _ _ => Finset.disjoint_empty_left _, ?_, ?_, ?_⟩
  · intro a
    cases a <;> rfl
  · simp [Accounts.taken, Physical.blank]
  · exact memorySize.isLt

/-- In every run whose calls are all paid for, the counters add up and stand
    for the pages on their accounts. -/
theorem accounted_of_inBudget {b : Books} (h : (books.restrict InBudget).Reachable b) :
    Accounted b := by
  have hbalanced : Balanced b.phys b.held := by
    refine @System.Reachable.invariant _ _ _ (fun b => Balanced b.phys b.held) ?_ ?_ _ h
    · intro b hex
      obtain ⟨memorySize, after, rfl⟩ := hex
      exact balanced_blank memorySize after
    · intro _ _ _ hi hs
      exact hi.step hs
  exact hbalanced.accounted

/-- A machine of four pages: one is reserved, two are locked and one of
    these is freed. -/
theorem accounted_fourPages :
    ∃ b, b.phys.totalMemory = 0x4000 ∧ b.held .used = {2} ∧ b.held .reserved = {0} ∧
      Accounted b := by
  let b₀ : Books := ⟨Physical.blank 0x4000 fun _ => 0, fun _ => ∅⟩
  let b₁ : Books := b₀.mark .reserved (pagesOf 0 1) (b₀.phys.reservePages 0 1)
  let b₂ : Books := b₁.mark .used (pagesOf 0x1000 2) (b₁.phys.lockPages 0x1000 2)
  let b₃ : Books := b₂.clear .used (b₂.phys.freePage 0x1000)
  have h₀ : (books.restrict InBudget).Reachable b₀ := .init ⟨0x4000, fun _ => 0, rfl⟩
  have h₁ : (books.restrict InBudget).Reachable b₁ :=
    h₀.step (l := BookCall.reservePages 0 1) ⟨show _ ≤ _ by decide +kernel, rfl⟩
  have h₂ : (books.restrict InBudget).Reachable b₂ :=
    h₁.step (l := BookCall.lockPages 0x1000 2) ⟨show _ ≤ _ by decide +kernel, rfl⟩
  have h₃ : (books.restrict InBudget).Reachable b₃ :=
    h₂.step (l := BookCall.freePage 0x1000) ⟨trivial, by decide +kernel, rfl⟩
  exact ⟨b₃, by decide +kernel, by decide +kernel, by decide +kernel, accounted_of_inBudget h₃⟩

/-! ## Section 7: `Init` is such a run, and a run that wraps -/

theorem books_reservations (calls : List Reservation) (h : books.Reachable b)
    (hnone : b.held .used = ∅) :
    ∃ held, books.Reachable ⟨calls.foldl Reservation.run b.phys, held⟩ ∧ held .used = ∅ := by
  induction calls generalizing b with
  | nil => exact ⟨b.held, h, hnone⟩
  | cons call rest ih =>
    cases call with
    | reservePages address n =>
      exact ih (h.step (l := BookCall.reservePages address.toNat n) rfl)
        (by simpa [Books.mark, Accounts.add] using hnone)
    | reservePage address =>
      exact ih (h.step (l := BookCall.reservePage address.toNat) rfl)
        (by simpa [Books.mark, Accounts.add] using hnone)
    | unreservePages address n =>
      have hapart : Disjoint (pagesOf address.toNat n) (b.held .used) := by
        rw [hnone]
        exact Finset.disjoint_empty_right _
      exact ih (h.step (l := BookCall.unreservePages address.toNat n) ⟨hapart, rfl⟩)
        (by simpa [Books.clear, Accounts.remove] using hnone)

theorem books_init {bInfo : BootInfo} {env : BootEnv} (h : Physical.init bInfo env = some s) :
    ∃ held, books.Reachable ⟨s, held⟩ ∧ held .used = ∅ := by
  unfold Physical.init at h
  simp only at h
  split at h
  · cases h
  · simp only [Option.some.injEq] at h
    rw [← h]
    exact books_reservations _ (b := ⟨_, fun _ => ∅⟩) (.init ⟨_, _, rfl⟩) rfl

/-- Three pages of the small machine are free. Its bitmap has seven free bits,
    a request for seven pages is granted, and `FreeMemory` wraps. -/
theorem smallBoot_wraps :
    ∃ b, books.Reachable b ∧ b.phys.totalMemory < b.phys.freeMemory ∧ ¬ Accounted b := by
  obtain ⟨s, hs, hret, hlt⟩ : ∃ s, Physical.init smallBoot blankEnv = some s ∧
      (s.requestPages 7).1 = .returned 0x101000 ∧
      (s.requestPages 7).2.totalMemory < (s.requestPages 7).2.freeMemory := by
    decide +kernel
  obtain ⟨held, hreach, -⟩ := books_init hs
  let b' : Books := ⟨(s.requestPages 7).2, held.add .used (pagesOf 0x101000 7)⟩
  have hstep : books.step ⟨s, held⟩ (.requestPages 7) b' := by
    show Books.request ⟨s, held⟩ 7 (s.requestPages 7) b'
    rw [requestPages_eq_of_fst hret]
    rfl
  refine ⟨b', hreach.step hstep, hlt, fun hacc => ?_⟩
  have hle := hacc.1
  have hlt : b'.phys.totalMemory < b'.phys.freeMemory := hlt
  omega

end Fennix.Memory.Physical
