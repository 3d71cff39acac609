import Fennix.Memory.PhysicalSearch
import Fennix.Memory.Virtual

/-! # The kernel allocator as a supplier of pages

    `KernelAllocator` is the one `Physical` object of the kernel. `Map` and
    `Remap` ask it for the pages of their tables, so that it is a `Supplier`.

    `RequestPages` may overrun the end of the bitmap, but the first page it
    hands out is always a managed one that was free. That is the page a table
    lies on, and all that a `Supplier` promises.
-/

namespace Fennix.Memory

open Entry Physical

/-! ## Section 1: Pages by number -/

/-- The address of page `n`. -/
def frame (n : Nat) : Word := BitVec.ofNat 64 (n * pageSize)

/-- The number of the page that an address lies on. -/
def pageNumber (address : Word) : Nat := address.toNat / pageSize

variable {n count : Nat} {s s' : Physical}

theorem frame_toNat (h : n < 2 ^ 52) : (frame n).toNat = n * pageSize := by
  rw [frame, BitVec.toNat_ofNat]
  exact Nat.mod_eq_of_lt (by simp only [pageSize]; omega)

theorem pageNumber_frame (h : n < 2 ^ 52) : pageNumber (frame n) = n := by
  rw [pageNumber, frame_toNat h]
  exact Nat.mul_div_cancel _ (by simp)

theorem frame_add (n i : Nat) : frame n + BitVec.ofNat 64 (i * pageSize) = frame (n + i) := by
  rw [frame, frame, Nat.add_mul, BitVec.ofNat_add]

theorem isPage_frame (h : n < 2 ^ 40) : IsPage (frame n) := by
  have hshift : frame n = BitVec.ofNat 64 n <<< 12 := by
    apply BitVec.eq_of_toNat_eq
    rw [toNat_shift h, frame_toNat (by omega)]
  rw [hshift]
  exact isPage_shift h

theorem frame_ne_zero (h : n < 2 ^ 52) (h0 : n ≠ 0) : frame n ≠ 0 := by
  intro hzero
  apply h0
  rw [← pageNumber_frame h, hzero]
  rfl

theorem canonical_frame (h : n < 2 ^ 35) : Canonical (frame n) := by
  left
  rw [frame_toNat (by omega)]
  simp only [pageSize]
  omega

theorem pageBase_frame (h : n < 2 ^ 52) : pageBase (frame n) = frame n := by
  apply BitVec.eq_of_toNat_eq
  rw [pageBase_toNat, frame_toNat h]
  simp only [pageSize]
  omega

theorem ofAddress_frame_inj {i : Nat} (hn : n < 2 ^ 35) (hi : i < 2 ^ 35)
    (h : PageMapIndexer.ofAddress (frame n) = PageMapIndexer.ofAddress (frame i)) : n = i := by
  have hbase := PageMapIndexer.ofAddress_inj (canonical_frame hn) (canonical_frame hi) h
  rw [pageBase_frame (by omega), pageBase_frame (by omega)] at hbase
  rw [← pageNumber_frame (show n < 2 ^ 52 by omega), hbase, pageNumber_frame (by omega)]

/-! ## Section 2: Frees by page number -/

theorem Physical.freePages_get (s : Physical) {c : Nat} (hc : 0 < c) (hlt : c + count ≤ 2 ^ 52)
    (p : Nat) :
    (s.freePages (c * pageSize) count).pageBitmap.get p = true ↔
      s.pageBitmap.get p = true ∧ ¬ (c ≤ p ∧ p < c + count) := by
  unfold freePages
  split
  · rename_i h
    simp only [pageSize] at h
    have hcount : count = 0 := by omega
    subst hcount
    constructor
    · intro h
      exact ⟨h, by omega⟩
    · exact And.left
  · rw [freeLoop_get]
    have haddress : ∀ t, t < count → (c * pageSize + t * pageSize) % 2 ^ 64 ≠ 0 := by
      intro t ht
      simp only [pageSize]
      omega
    constructor
    · intro hboth
      obtain ⟨hget, hne⟩ := hboth
      refine ⟨hget, ?_⟩
      intro hboth
      obtain ⟨hcp, hp⟩ := hboth
      apply hne (p - c) (by omega) (haddress _ (by omega))
      rw [pageAt_of_lt (by omega)]
      omega
    · intro hboth
      obtain ⟨hget, hout⟩ := hboth
      refine ⟨hget, ?_⟩
      intro t ht _ heq
      rw [pageAt_of_lt (by omega)] at heq
      exact hout (by omega)

/-! ## Section 3: The supplier -/

/-- `KernelAllocator.RequestPages`, for callers that only go on if it returns. -/
def requestFrames (s : Physical) (count : Nat) : Option (Word × Physical) :=
  match s.requestPages count with
  | (.returned A, s') => some (BitVec.ofNat 64 A, s')
  | _ => none

theorem requestFrames_eq_some {page : Word} (h : requestFrames s count = some (page, s')) :
    ∃ A, s.requestPages count = (.returned A, s') ∧ page = BitVec.ofNat 64 A := by
  unfold requestFrames at h
  split at h
  · rename_i A s'' heq
    simp only [Option.some.injEq, Prod.mk.injEq] at h
    exact ⟨A, by rw [heq, h.2], h.1.symm⟩
  · cases h

theorem requestFrames_spec {page : Word} (h : requestFrames s count = some (page, s')) :
    ∃ c, page = frame c ∧ c < s.pageBitmap.bits ∧ s.pageBitmap.get c = false ∧
      (∀ i < count, s.pageBitmap.get ((c + i) % 2 ^ 64) = false) ∧
      s'.pageBitmap.bits = s.pageBitmap.bits ∧
      (∀ p, s'.pageBitmap.get p = true ↔ s.pageBitmap.get p = true ∨
        (p ≤ s.pageBitmap.bits ∧ ∃ t < count, (c + t) % 2 ^ 52 = p)) := by
  obtain ⟨A, hret, rfl⟩ := requestFrames_eq_some h
  obtain ⟨c, rfl, hspec⟩ := requestPages_spec hret
  exact ⟨c, rfl, hspec⟩

/-- `KernelAllocator`: page 0 is in use, and the pages it manages fit the
    entries of page tables. -/
def kernelAllocator : Supplier Physical where
  request := requestFrames
  Taken := fun s page => s.pageBitmap.get (pageNumber page) = true
  Valid := fun s => s.pageBitmap.get 0 = true ∧ s.pageBitmap.bits ≤ 2 ^ 40
  valid := by
    intro s n page s' hs _ h
    obtain ⟨c, _, _, _, _, hbits, hget⟩ := requestFrames_spec h
    exact ⟨(hget 0).mpr (Or.inl hs.1), by rw [hbits]; exact hs.2⟩
  isPage := by
    intro s n page s' hs _ h
    obtain ⟨c, rfl, hlt, hfree, _⟩ := requestFrames_spec h
    have hbits := hs.2
    refine ⟨isPage_frame (by omega), frame_ne_zero (by omega) ?_⟩
    intro heq
    subst heq
    rw [hs.1] at hfree
    cases hfree
  fresh := by
    intro s n page s' hs _ h
    obtain ⟨c, rfl, hlt, hfree, _⟩ := requestFrames_spec h
    have hbits := hs.2
    rw [pageNumber_frame (by omega), hfree]
    exact Bool.false_ne_true
  taken := by
    intro s n page s' hs hn h
    obtain ⟨c, rfl, hlt, _, _, _, hget⟩ := requestFrames_spec h
    have hbits := hs.2
    rw [pageNumber_frame (by omega)]
    refine (hget c).mpr (Or.inr ⟨by omega, 0, hn, ?_⟩)
    exact Nat.mod_eq_of_lt (by omega)
  taken_mono := by
    intro s n page s' other _ _ h ht
    obtain ⟨c, _, _, _, _, _, hget⟩ := requestFrames_spec h
    exact (hget _).mpr (Or.inl ht)

theorem request_of_returned {A : Nat} (h : s.requestPages count = (.returned A, s')) :
    kernelAllocator.request s count = some (BitVec.ofNat 64 A, s') := by
  show requestFrames s count = _
  rw [requestFrames, h]

end Fennix.Memory
