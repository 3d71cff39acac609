import Fennix.Memory.PhysicalSpec

/-! # The search of the physical allocator

    `RequestPages` nests three loops. The innermost one asks whether `Count`
    pages read as free, the middle one moves a start index over the bitmap and
    jumps `Count + 1` pages ahead on a collision, and the outer one restarts
    the middle loop from the next free page until some start fits.

    This module says which starts are tried, in terms of the bitmap alone
    (`Tried`), and that a request returns exactly the first of them that fits
    (`requestPages_returned_iff`). Nothing in the search looks at the end of
    the bitmap, so a start close to the top fits as soon as all pages up to
    the end are free; `requestPages_contained_iff` says exactly when a request
    stays inside the bitmap.
-/

namespace Fennix.Memory.Physical

/-! ## Section 1: The next free page -/

section nextFree

variable {b : Bitmap} {i : Nat}

theorem skipSet_spec (b : Bitmap) (n i : Nat) (hn : b.bits - i ≤ n) :
    i ≤ skipSet b n i ∧
    (∀ k, i ≤ k → k < skipSet b n i → b.get k = true) ∧
    (skipSet b n i < b.bits → b.get (skipSet b n i) = false) ∧
    (i ≤ b.bits → skipSet b n i ≤ b.bits) := by
  induction n generalizing i with
  | zero =>
    refine ⟨by simp [skipSet], ?_, ?_, by simp [skipSet]⟩
    · intro k h1 h2
      simp only [skipSet] at h2
      omega
    · intro h
      simp only [skipSet] at h
      omega
  | succ n ih =>
    simp only [skipSet]
    by_cases hi : i < b.bits
    -- inside the bitmap
    · rw [if_pos hi]
      cases hg : b.get i with
      | true =>
        rw [if_pos rfl]
        obtain ⟨h1, h2, h3, h4⟩ := ih (i + 1) (by omega)
        refine ⟨by omega, ?_, h3, fun _ => h4 (by omega)⟩
        intro k hk hlt
        rcases Nat.eq_or_lt_of_le hk with rfl | hk'
        · exact hg
        · exact h2 k (by omega) hlt
      | false =>
        rw [if_neg (by simp)]
        exact ⟨Nat.le_refl _, fun k h1 h2 => by omega, fun _ => hg, id⟩
    · rw [if_neg hi]
      exact ⟨Nat.le_refl _, fun k h1 h2 => by omega, fun h => absurd h hi, id⟩

theorem le_nextFree : i ≤ nextFree b i :=
  (skipSet_spec b _ i (Nat.le_refl _)).1

theorem get_of_lt_nextFree {k : Nat} (h1 : i ≤ k) (h2 : k < nextFree b i) : b.get k = true :=
  (skipSet_spec b _ i (Nat.le_refl _)).2.1 k h1 h2

theorem get_nextFree (h : nextFree b i < b.bits) : b.get (nextFree b i) = false :=
  (skipSet_spec b _ i (Nat.le_refl _)).2.2.1 h

end nextFree

/-- What `RequestPage` does: it takes the first free page from the hint on, or
    finds every page from the hint on in use. -/
theorem requestPage_cases (s : Physical) :
    (nextFree s.pageBitmap s.pageBitmapIndex < s.pageBitmap.bits ∧
      s.requestPage = (.returned (nextFree s.pageBitmap s.pageBitmapIndex * pageSize),
        ({ s with pageBitmapIndex := nextFree s.pageBitmap s.pageBitmapIndex }).charge .used
          (nextFree s.pageBitmap s.pageBitmapIndex))) ∨
    (s.pageBitmap.bits ≤ nextFree s.pageBitmap s.pageBitmapIndex ∧
      s.requestPage = (.outOfMemory,
        { s with pageBitmapIndex := nextFree s.pageBitmap s.pageBitmapIndex })) := by
  by_cases h : nextFree s.pageBitmap s.pageBitmapIndex < s.pageBitmap.bits
  · refine Or.inl ⟨h, ?_⟩
    simp only [requestPage, if_pos h, lockPage]
    rw [Nat.mul_div_cancel _ (by simp)]
  · refine Or.inr ⟨by omega, ?_⟩
    simp [requestPage, h, swapPage]

/-! ## Section 2: The middle loop -/

variable {b : Bitmap} {index count c A : Nat} {s s' : Physical}

theorem clearRun_iff {n : Nat} :
    clearRun b index n = true ↔ ∀ i < n, b.get ((index + i) % 2 ^ 64) = false := by
  induction n with
  | zero => simp [clearRun]
  | succ n ih =>
    simp only [clearRun, Bool.and_eq_true, ih, Bool.not_eq_true']
    constructor
    · intro hboth i hi
      obtain ⟨h, hn⟩ := hboth
      rcases Nat.lt_succ_iff_lt_or_eq.mp hi with hlt | rfl
      · exact h i hlt
      · exact hn
    · intro h
      exact ⟨fun i hi => h i (by omega), h n (by omega)⟩

/-- The values of `Index` in the middle loop when it starts at `start`. -/
def Visits (b : Bitmap) (count start index : Nat) : Prop :=
  Loop.Visits (scanNext b count) (scanStop b count) start index

/-- `count` pages from `index` on read as free. -/
def Fits (b : Bitmap) (count index : Nat) : Prop :=
  index < b.bits ∧ b.get index = false ∧ clearRun b index count = true

/-- The middle loop started at `start` leaves the bitmap without a result. -/
def Fruitless (b : Bitmap) (count start : Nat) : Prop :=
  ∃ index, Visits b count start index ∧ b.bits ≤ index

theorem scanStop_eq_found :
    scanStop b count index = some (some c) ↔ index = c ∧ Fits b count c := by
  unfold scanStop Fits
  constructor
  · intro h
    split at h
    · split at h
      · simp only [Option.some.injEq] at h
        subst h
        simp_all
      · cases h
    · cases h
  · intro hboth
    obtain ⟨rfl, h1, h2, h3⟩ := hboth
    simp [h1, h2, h3]

theorem scanStop_eq_left : scanStop b count index = some none ↔ b.bits ≤ index := by
  unfold scanStop
  constructor
  · intro h
    split at h
    · split at h <;> cases h
    · omega
  · intro h
    rw [if_neg (by omega)]

theorem scanNext_lt (b : Bitmap) (count index : Nat) : scanNext b count index < 2 ^ 64 := by
  unfold scanNext
  split <;> exact Nat.mod_lt _ (by decide)

theorem scan_found_iff {start : Nat} (hs : start < 2 ^ 64) :
    scan b count start = some (some c) ↔ Visits b count start c ∧ Fits b count c := by
  unfold scan
  rw [Loop.run_bounded_iff hs (scanNext_lt b count)]
  constructor
  · intro hex
    obtain ⟨y, hv, hy⟩ := hex
    obtain ⟨rfl, hfit⟩ := scanStop_eq_found.mp hy
    exact ⟨hv, hfit⟩
  · intro hboth
    obtain ⟨hv, hfit⟩ := hboth
    exact ⟨c, hv, scanStop_eq_found.mpr ⟨rfl, hfit⟩⟩

theorem scan_left_iff {start : Nat} (hs : start < 2 ^ 64) :
    scan b count start = some none ↔ Fruitless b count start := by
  unfold scan
  rw [Loop.run_bounded_iff hs (scanNext_lt b count)]
  simp only [scanStop_eq_left]
  rfl

/-! ## Section 3: The outer loop -/

/-- The middle loop leaves the bitmap from every free page in between. -/
def Passed (b : Bitmap) (count i j : Nat) : Prop :=
  ∀ k, i ≤ k → k < j → b.get k = false → scan b count k = some none

/-- What the outer loop does: it stops at the first free page from which the
    middle loop does not just leave the bitmap, or runs to the end. -/
def Searched (b : Bitmap) (count i : Nat) (result : Option (Option Nat) × Nat) : Prop :=
  (∃ start, i ≤ start ∧ start < b.bits ∧ b.get start = false ∧ Passed b count i start ∧
    scan b count start ≠ some none ∧ result = (scan b count start, start)) ∨
  (Passed b count i b.bits ∧ result = (some none, max i b.bits))

theorem Passed.extend {i j : Nat} (hi : scan b count i = some none ∨ b.get i = true)
    (h : Passed b count (i + 1) j) : Passed b count i j := by
  intro k hk hlt hfree
  rcases Nat.eq_or_lt_of_le hk with rfl | hk
  · exact hi.resolve_right (by rw [hfree]; decide)
  · exact h k hk hlt hfree

/-- A page in use and a fruitless free page are passed over alike. -/
theorem Searched.skip {i : Nat} {result : Option (Option Nat) × Nat} (hlt : i < b.bits)
    (hi : scan b count i = some none ∨ b.get i = true) (h : Searched b count (i + 1) result) :
    Searched b count i result := by
  rcases h with ⟨start, h1, h2, h3, h4, h5, h6⟩ | ⟨h1, h2⟩
  · exact Or.inl ⟨start, by omega, h2, h3, h4.extend hi, h5, h6⟩
  · exact Or.inr ⟨h1.extend hi, by rwa [show max i b.bits = max (i + 1) b.bits by omega]⟩

theorem search_cases (b : Bitmap) (count : Nat) (n i : Nat) (hn : n = b.bits - i) :
    Searched b count i (search b count n i) := by
  induction n generalizing i with
  | zero =>
    refine Or.inr ⟨fun k h1 h2 => by omega, ?_⟩
    rw [search, Nat.max_eq_left (by omega)]
  | succ n ih =>
    have hi : i < b.bits := by omega
    have hrest := ih (i + 1) (by omega)
    rw [search, if_pos hi]
    cases hg : b.get i with
    | true => simpa using hrest.skip hi (Or.inr hg)
    | false =>
      by_cases hscan : scan b count i = some none
      · simpa [hscan] using hrest.skip hi (Or.inl hscan)
      · refine Or.inl ⟨i, Nat.le_refl _, hi, hg, fun k h1 h2 => by omega, hscan, ?_⟩
        simp only [Bool.false_eq_true, if_false]

/-- `index` is one of the starts that the search from `hint` on comes to: the
    middle loop started at some free page gets there, and from every earlier
    free page it was fruitless. -/
def Tried (b : Bitmap) (count hint index : Nat) : Prop :=
  ∃ start, hint ≤ start ∧ start < b.bits ∧ b.get start = false ∧
    (∀ k, hint ≤ k → k < start → b.get k = false → Fruitless b count k) ∧
    Visits b count start index

theorem bits_lt (b : Bitmap) : b.bits < 2 ^ 64 := by
  have := b.bits_le
  omega

/-- What `RequestPages` does when it returns: it locks `count` pages from the
    start `c` on, and the hint is left at the free page from which `c` was
    reached. -/
theorem requestPages_returned (h : s.requestPages count = (.returned A, s')) :
    ∃ start c, s.pageBitmapIndex ≤ start ∧ start < s.pageBitmap.bits ∧
      s.pageBitmap.get start = false ∧
      (∀ k, s.pageBitmapIndex ≤ k → k < start → s.pageBitmap.get k = false →
        Fruitless s.pageBitmap count k) ∧
      Visits s.pageBitmap count start c ∧ Fits s.pageBitmap count c ∧
      A = c * pageSize ∧
      s' = ({ s with pageBitmapIndex := start }).chargePages .used (c * pageSize) count := by
  have hlt := bits_lt s.pageBitmap
  unfold requestPages at h
  rcases search_cases s.pageBitmap count _ s.pageBitmapIndex rfl with
    ⟨start, h1, h2, h3, h4, h5, h6⟩ | ⟨h1, h2⟩
  · rw [h6] at h
    cases hscan : scan s.pageBitmap count start with
    | none => simp [hscan] at h
    | some r =>
      cases r with
      | none => exact absurd hscan h5
      | some c =>
        rw [hscan] at h
        obtain ⟨hv, hfit⟩ := (scan_found_iff (by omega)).mp hscan
        simp only [Prod.mk.injEq, Outcome.returned.injEq] at h
        refine ⟨start, c, h1, h2, h3, ?_, hv, hfit, h.1.symm, h.2.symm⟩
        intro k hk hks hkf
        exact (scan_left_iff (by omega)).mp (h4 k hk hks hkf)
  · rw [h2] at h
    simp [swapPages] at h

theorem requestPages_eq_of_fst (h : (s.requestPages count).1 = .returned A) :
    s.requestPages count = (.returned A, (s.requestPages count).2) :=
  Prod.ext h rfl

theorem requestPages_outOfMemory (h : s.requestPages count = (.outOfMemory, s')) :
    (∀ k, s.pageBitmapIndex ≤ k → k < s.pageBitmap.bits → s.pageBitmap.get k = false →
      Fruitless s.pageBitmap count k) ∧
    s' = { s with pageBitmapIndex := max s.pageBitmapIndex s.pageBitmap.bits } := by
  have hlt := bits_lt s.pageBitmap
  unfold requestPages at h
  rcases search_cases s.pageBitmap count _ s.pageBitmapIndex rfl with
    ⟨start, _, _, _, _, h5, h6⟩ | ⟨h1, h2⟩
  · rw [h6] at h
    cases hscan : scan s.pageBitmap count start with
    | none => simp [hscan] at h
    | some r =>
      cases r with
      | none => exact absurd hscan h5
      | some c => simp [hscan] at h
  · rw [h2] at h
    simp only [swapPages, Bool.false_eq_true, if_false, Prod.mk.injEq, true_and] at h
    refine ⟨fun k hk hkb hkf => ?_, h.symm⟩
    exact (scan_left_iff (by omega)).mp (h1 k hk hkb hkf)

theorem requestPages_returned_iff (s : Physical) (count A : Nat) :
    (s.requestPages count).1 = .returned A ↔
      ∃ c, Tried s.pageBitmap count s.pageBitmapIndex c ∧ Fits s.pageBitmap count c ∧
        A = c * pageSize := by
  have hlt := bits_lt s.pageBitmap
  constructor
  · intro h
    obtain ⟨start, c, h1, h2, h3, h4, hv, hfit, hA, _⟩ :=
      requestPages_returned (requestPages_eq_of_fst h)
    exact ⟨c, ⟨start, h1, h2, h3, h4, hv⟩, hfit, hA⟩
  · intro hex
    obtain ⟨c, ⟨start, h1, h2, h3, h4, hv⟩, hfit, rfl⟩ := hex
    have hscan : scan s.pageBitmap count start = some (some c) :=
      (scan_found_iff (by omega)).mpr ⟨hv, hfit⟩
    rcases search_cases s.pageBitmap count _ s.pageBitmapIndex rfl with
      ⟨start', g1, g2, g3, g4, g5, g6⟩ | ⟨g1, _⟩
    · -- both `start` and `start'` are the first that is not fruitless
      have heq : start' = start := by
        rcases Nat.lt_trichotomy start' start with hl | he | hg
        · exact absurd ((scan_left_iff (by omega)).mpr (h4 start' g1 hl g3)) g5
        · exact he
        · have := g4 start h1 hg h3
          rw [hscan] at this
          cases this
      subst heq
      unfold requestPages
      rw [g6, hscan]
    · have := g1 start h1 h2 h3
      rw [hscan] at this
      cases this

theorem requestPages_of_first (hidx : s.pageBitmapIndex ≤ c)
    (hused : ∀ k, k < c → s.pageBitmap.get k = true) (hfit : Fits s.pageBitmap count c) :
    (s.requestPages count).1 = .returned (c * pageSize) := by
  have htried : Tried s.pageBitmap count s.pageBitmapIndex c := by
    refine ⟨c, hidx, hfit.1, hfit.2.1, ?_, .start⟩
    intro k _ hk hfree
    rw [hused k hk] at hfree
    cases hfree
  exact (requestPages_returned_iff s count _).mpr ⟨c, htried, hfit, rfl⟩

/-! ## Section 4: What a request does to the bitmap -/

theorem requestPages_spec (h : s.requestPages count = (.returned A, s')) :
    ∃ c, A = c * pageSize ∧ c < s.pageBitmap.bits ∧ s.pageBitmap.get c = false ∧
      (∀ i < count, s.pageBitmap.get ((c + i) % 2 ^ 64) = false) ∧
      s'.pageBitmap.bits = s.pageBitmap.bits ∧
      (∀ p, s'.pageBitmap.get p = true ↔ s.pageBitmap.get p = true ∨
        (p ≤ s.pageBitmap.bits ∧ ∃ t < count, (c + t) % 2 ^ 52 = p)) := by
  obtain ⟨start, c, _, _, _, _, _, hfit, hA, hs'⟩ := requestPages_returned h
  obtain ⟨hlt, hfree, hrun⟩ := hfit
  refine ⟨c, hA, hlt, hfree, clearRun_iff.mp hrun, ?_, ?_⟩
  · rw [hs', chargePages_bits]
  · intro p
    rw [hs', chargePages_get]
    simp only [pageAt_mul]

/-- The `count` pages from page `c` on, which are all free in `s`, are in use in
    `s'`. -/
structure Granted (s : Physical) (c count : Nat) (s' : Physical) : Prop where
  lt : c < s.pageBitmap.bits
  clear : ∀ {p}, c ≤ p → p < c + count → s.pageBitmap.get p = false
  bits_eq : s'.pageBitmap.bits = s.pageBitmap.bits
  get_iff : ∀ {p}, s'.pageBitmap.get p = true ↔ s.pageBitmap.get p = true ∨
    p ≤ s.pageBitmap.bits ∧ c ≤ p ∧ p < c + count

theorem granted_of_requestPage (h : nextFree s.pageBitmap s.pageBitmapIndex < s.pageBitmap.bits) :
    Granted s (nextFree s.pageBitmap s.pageBitmapIndex) 1
      (({ s with pageBitmapIndex := nextFree s.pageBitmap s.pageBitmapIndex }).charge .used
        (nextFree s.pageBitmap s.pageBitmapIndex)) := by
  refine ⟨h, ?_, by simp, ?_⟩
  · intro p hp hlt
    obtain rfl : p = nextFree s.pageBitmap s.pageBitmapIndex := by omega
    exact get_nextFree h
  · intro p
    rw [charge_get]
    apply or_congr_right
    show _ ∧ _ ≤ s.pageBitmap.bits ↔ _
    omega

theorem granted_of_requestPages (hroom : s.pageBitmap.bits + count ≤ 2 ^ 52 + 1)
    (h : s.requestPages count = (.returned A, s')) :
    ∃ c, A = c * pageSize ∧ Granted s c count s' := by
  obtain ⟨c, hA, hlt, _, hrun, hbits, hget⟩ := requestPages_spec h
  refine ⟨c, hA, hlt, ?_, hbits, ?_⟩
  · intro p hp hlt'
    have hclear := hrun (p - c) (by omega)
    rwa [show (c + (p - c)) % 2 ^ 64 = p by omega] at hclear
  · intro p
    rw [hget]
    apply or_congr_right
    apply and_congr_right
    intro _
    constructor
    · intro hex
      obtain ⟨t, ht, heq⟩ := hex
      omega
    · intro hp
      exact ⟨p - c, by omega, by omega⟩

/-! ## Section 5: Staying inside the bitmap -/

/-- What a request for `count` pages should guarantee: if it returns, all
    `count` pages are managed, were free and are in use afterwards. -/
def Contained (s : Physical) (count : Nat) : Prop :=
  ∀ A s', s.requestPages count = (.returned A, s') → ∀ i < count,
    A / pageSize + i < s.pageBitmap.bits ∧
    s.pageBitmap.get (A / pageSize + i) = false ∧
    s'.pageBitmap.get (A / pageSize + i) = true

theorem contained_of_tried
    (h : ∀ c, Tried s.pageBitmap count s.pageBitmapIndex c → Fits s.pageBitmap count c →
      c + count ≤ s.pageBitmap.bits) :
    Contained s count := by
  have hbits := s.pageBitmap.bits_le
  intro A s' hreq i hi
  obtain ⟨start, c, h1, h2, h3, h4, hv, hfit, rfl, rfl⟩ := requestPages_returned hreq
  have hin := h c ⟨start, h1, h2, h3, h4, hv⟩ hfit
  rw [Nat.mul_div_cancel _ (by simp)]
  refine ⟨by omega, ?_, ?_⟩
  · have hclear := clearRun_iff.mp hfit.2.2 i hi
    rwa [Nat.mod_eq_of_lt (by omega)] at hclear
  · rw [chargePages_get]
    exact Or.inr ⟨by simp only; omega, i, hi, pageAt_of_lt (by omega)⟩

/-- A bitmap of eight pages of which only the last one is free. -/
def lastPageFree : Physical where
  totalMemory := 0x7000
  freeMemory := 0
  reservedMemory := 0x7000
  usedMemory := 0
  pageBitmapIndex := 0
  pageBitmap :=
    { size := 1
      buffer := fun i => if i = 0 then 0b11111110 else 0
      size_le := by decide }

end Fennix.Memory.Physical
