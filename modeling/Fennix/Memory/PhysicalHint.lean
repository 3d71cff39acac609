import Fennix.Framework.System
import Fennix.Memory.PhysicalSearch
import Fennix.Memory.BootInfo

/-! # The search hint of the physical allocator

    `PageBitmapIndex` is meant as a lower bound of the free pages: every search
    starts there, so a free page below it is lost until some other page is
    freed below it.

    Setting bits never hurts the bound and clearing a bit pulls the hint back,
    so only the requests matter. `RequestPage` moves the hint over pages in use.
    `RequestPages` moves it over every free page from which its middle loop is
    fruitless, and because that loop jumps, it can be fruitless although there
    is a run of free pages that is long enough. The bound survives exactly when
    the loop already succeeds from the first free page (`FirstPassFits`).
-/

namespace Fennix.Memory.Physical

/-! ## Section 1: Runs from `Init` -/

inductive PageCall where
  | requestPage
  | requestPages (count : Nat)
  | freePage (address : Nat)
  | freePages (address count : Nat)
  | reservePages (address pageCount : Nat)
  | unreservePages (address pageCount : Nat)

/-- The allocator from `Init` on. A request that is out of memory stops its
    caller and leaves the allocator to the others. -/
def allocator : System Physical PageCall where
  init := fun s => ∃ bInfo env, Physical.init bInfo env = some s
  step := fun s call s' =>
    match call with
    | .requestPage => s.requestPage.2 = s'
    | .requestPages count =>
        (s.requestPages count).1 ≠ .diverges ∧ (s.requestPages count).2 = s'
    | .freePage address => s.freePage address = s'
    | .freePages address count => s.freePages address count = s'
    | .reservePages address pageCount => s.reservePages address pageCount = s'
    | .unreservePages address pageCount => s.unreservePages address pageCount = s'

/-- Every page below the hint is in use. -/
def HintSound (s : Physical) : Prop :=
  ∀ p, p < s.pageBitmapIndex → s.pageBitmap.get p = true

/-- From the first free page at or above the hint, if there is one, the middle
    loop of `RequestPages` comes to a start that fits. -/
def FirstPassFits (s : Physical) (count : Nat) : Prop :=
  nextFree s.pageBitmap s.pageBitmapIndex < s.pageBitmap.bits →
    ∃ c, Visits s.pageBitmap count (nextFree s.pageBitmap s.pageBitmapIndex) c ∧
      Fits s.pageBitmap count c

/-- The guard on runs: `RequestPages` does not move the hint over a free page. -/
def KeepsHint (s : Physical) : PageCall → Prop
  | .requestPages count => FirstPassFits s count
  | _ => True

/-! ## Section 2: Marking pages -/

variable {s : Physical}

section

variable (h : HintSound s)

include h

theorem HintSound.charge (a : Account) (i : Nat) : HintSound (s.charge a i) := by
  intro p hp
  rw [charge_pageBitmapIndex] at hp
  exact (charge_get s a i p).mpr (Or.inl (h p hp))

theorem HintSound.release (a : Account) (i : Nat) : HintSound (s.release a i) := by
  intro p hp
  rw [release_pageBitmapIndex] at hp
  rw [release_get]
  by_cases hpull : s.pageBitmap.get i = true ∧ i < s.pageBitmapIndex
  · -- the hint is pulled back to the cleared page
    rw [if_pos hpull] at hp
    exact ⟨h p (by omega), by omega⟩
  · -- the cleared page was not below the hint, or was not set at all
    rw [if_neg hpull] at hp
    refine ⟨h p hp, ?_⟩
    intro heq
    subst heq
    exact hpull ⟨h p hp, hp⟩

theorem HintSound.chargePages (a : Account) (address n : Nat) :
    HintSound (s.chargePages a address n) :=
  chargePages_induct h fun _ _ _ hs => hs.charge a _

theorem HintSound.unreservePages (address n : Nat) : HintSound (s.unreservePages address n) :=
  unreserveFrom_induct h fun _ _ _ _ hs => hs.release .reserved _

theorem HintSound.freePage (address : Nat) : HintSound (s.freePage address) := by
  unfold Physical.freePage
  split
  · exact h
  · exact h.release .used _

theorem HintSound.freePages (address count : Nat) : HintSound (s.freePages address count) := by
  unfold Physical.freePages
  split
  · exact h
  · exact freeLoop_induct h fun _ _ _ hs => hs.freePage _

theorem HintSound.reservation (r : Reservation) : HintSound (r.run s) := by
  cases r with
  | reservePages address n => exact h.chargePages .reserved _ n
  | unreservePages address n => exact h.unreservePages _ n
  | reservePage address => exact h.charge .reserved _

theorem HintSound.setHint {i : Nat} (hi : i ≤ nextFree s.pageBitmap s.pageBitmapIndex) :
    HintSound { s with pageBitmapIndex := i } := by
  intro p hp
  simp only at hp ⊢
  rcases Nat.lt_or_ge p s.pageBitmapIndex with hlt | hge
  · exact h p hlt
  · exact get_of_lt_nextFree hge (by omega)

theorem HintSound.requestPage : HintSound s.requestPage.2 := by
  rcases requestPage_cases s with ⟨_, heq⟩ | ⟨_, heq⟩
  · rw [heq]
    exact (h.setHint (Nat.le_refl _)).charge .used _
  · rw [heq]
    exact h.setHint (Nat.le_refl _)

theorem HintSound.get_of_outOfMemory (hoom : s.requestPage.1 = .outOfMemory) {p : Nat}
    (hp : p < s.pageBitmap.bits) : s.pageBitmap.get p = true := by
  rcases requestPage_cases s with ⟨_, heq⟩ | ⟨hend, heq⟩
  · rw [heq] at hoom
    cases hoom
  -- below the hint by soundness, from it on because the search saw every page
  · rcases Nat.lt_or_ge p s.pageBitmapIndex with hlt | hge
    · exact h p hlt
    · exact get_of_lt_nextFree hge (by omega)

end

theorem hintSound_init {bInfo : BootInfo} {env : BootEnv} (hs : Physical.init bInfo env = some s) :
    HintSound s := by
  -- on the calls of `ReserveEssentials`, from the zeroed bitmap with hint 0
  have hfold : ∀ (rs : List Reservation) (s : Physical), HintSound s →
      HintSound (rs.foldl Reservation.run s) := by
    intro rs
    induction rs with
    | nil => exact fun _ h => h
    | cons r rs ih => exact fun s h => ih _ (h.reservation r)
  unfold Physical.init at hs
  simp only at hs
  split at hs
  · cases hs
  · cases hs
    exact hfold _ _ fun p hp => absurd hp (Nat.not_lt_zero p)

/-! ## Section 3: Requests -/

theorem fruitless_not_fits {b : Bitmap} {count start c : Nat} (hs : start < 2 ^ 64)
    (h : Fruitless b count start) (hv : Visits b count start c) : ¬ Fits b count c := by
  intro hfit
  have h1 := (scan_left_iff hs).mpr h
  rw [(scan_found_iff hs).mpr ⟨hv, hfit⟩] at h1
  cases h1

theorem HintSound.requestPages {count : Nat} (h : HintSound s) (hfits : FirstPassFits s count)
    (hne : (s.requestPages count).1 ≠ .diverges) : HintSound (s.requestPages count).2 := by
  have hbits := bits_lt s.pageBitmap
  cases hres : s.requestPages count with
  | mk outcome s' =>
    cases outcome with
    | returned A =>
      obtain ⟨start, c, h1, h2, h3, h4, _, _, _, rfl⟩ := requestPages_returned hres
      -- the pass that succeeds is the one from the first free page
      have hstart : start ≤ nextFree s.pageBitmap s.pageBitmapIndex := by
        by_contra hgt
        have hlt : nextFree s.pageBitmap s.pageBitmapIndex < s.pageBitmap.bits := by omega
        obtain ⟨c', hv, hfit⟩ := hfits hlt
        exact fruitless_not_fits (by omega)
          (h4 _ le_nextFree (by omega) (get_nextFree hlt)) hv hfit
      exact (h.setHint hstart).chargePages .used _ count
    | outOfMemory =>
      obtain ⟨h1, rfl⟩ := requestPages_outOfMemory hres
      -- out of memory although the pass from a free page would succeed is impossible
      have hend : s.pageBitmap.bits ≤ nextFree s.pageBitmap s.pageBitmapIndex := by
        by_contra hgt
        have hlt : nextFree s.pageBitmap s.pageBitmapIndex < s.pageBitmap.bits := by omega
        obtain ⟨c', hv, hfit⟩ := hfits hlt
        exact fruitless_not_fits (by omega) (h1 _ le_nextFree hlt (get_nextFree hlt)) hv hfit
      have hidx : s.pageBitmapIndex ≤ nextFree s.pageBitmap s.pageBitmapIndex := le_nextFree
      exact h.setHint (by omega)
    | diverges =>
      rw [hres] at hne
      exact absurd rfl hne

theorem HintSound.step {s' : Physical} {call : PageCall} (h : HintSound s)
    (hstep : (allocator.restrict KeepsHint).step s call s') : HintSound s' := by
  obtain ⟨hguard, hstep⟩ := hstep
  match call with
  | .requestPage => obtain rfl := hstep; exact h.requestPage
  | .requestPages count => obtain ⟨hne, rfl⟩ := hstep; exact h.requestPages hguard hne
  | .freePage address => obtain rfl := hstep; exact h.freePage address
  | .freePages address count => obtain rfl := hstep; exact h.freePages address count
  | .reservePages address n => obtain rfl := hstep; exact h.chargePages .reserved address n
  | .unreservePages address n => obtain rfl := hstep; exact h.unreservePages address n

/-- **The hint is a lower bound** along every run from `Init` on which
    `RequestPages` always succeeds from the first free page, and then
    `RequestPage` is out of memory only when no managed page is free. -/
theorem hintSound_of_guarded {s : Physical}
    (h : (allocator.restrict KeepsHint).Reachable s) :
    (∀ p, p < s.pageBitmapIndex → s.pageBitmap.get p = true) ∧
    (s.requestPage.1 = .outOfMemory → ∀ p, p < s.pageBitmap.bits → s.pageBitmap.get p = true) := by
  have hsound : HintSound s := by
    refine h.invariant ?_ ?_
    · intro s hex
      obtain ⟨bInfo, env, hs⟩ := hex
      exact hintSound_init hs
    · intro _ _ _ hi hs
      exact hi.step hs
  exact ⟨hsound, fun hoom p hp => hsound.get_of_outOfMemory hoom hp⟩

/-- Two pages requested on the small machine: the first free page starts a
    run of free pages, so the guard is met. -/
theorem hintSound_smallBoot :
    ∃ s, Physical.init smallBoot blankEnv = some s ∧
      ∀ p, p < (s.requestPages 2).2.pageBitmapIndex →
        (s.requestPages 2).2.pageBitmap.get p = true := by
  obtain ⟨s, hs, hbits, hidx, hnext, hfree⟩ := init_smallBoot
  have hfit : Fits s.pageBitmap 2 257 := by
    refine ⟨by omega, hfree 257 (by omega) (by omega), clearRun_iff.mpr fun i hi => ?_⟩
    rw [Nat.mod_eq_of_lt (by omega)]
    exact hfree _ (by omega) (by omega)
  have hguard : FirstPassFits s 2 := by
    intro _
    rw [hidx, hnext]
    exact ⟨257, .start, hfit⟩
  have hused : ∀ k, k < 257 → s.pageBitmap.get k = true :=
    fun k hk => get_of_lt_nextFree (Nat.zero_le k) (by rw [hnext]; exact hk)
  have hret : (s.requestPages 2).1 = .returned (257 * pageSize) :=
    requestPages_of_first (by omega) hused hfit
  have hinit : (allocator.restrict KeepsHint).Reachable s := .init ⟨smallBoot, blankEnv, hs⟩
  have hstep : (allocator.restrict KeepsHint).step s (.requestPages 2) (s.requestPages 2).2 :=
    ⟨hguard, by rw [hret]; simp, rfl⟩
  exact ⟨s, hs, (hintSound_of_guarded (hinit.step hstep)).1⟩

/-! ## Section 4: A run that loses a page -/

/-- A machine with a single page of memory, all of it reserved by `Init`. -/
def tinyBoot : BootInfo where
  entries := [⟨0x100000, 0x1000, .usable⟩]
  memorySize := 0x1000

/-- Pages 1, 3 and 4 of the tiny machine are given back and two pages are
    requested. From page 1 the search collides with page 2, jumps to page 4,
    collides with page 5 and leaves the bitmap; it succeeds from page 3, where
    the hint then stays. Page 1 is free, and a request for one page is out of
    memory. -/
theorem tinyBoot_loses_page :
    ∃ s, allocator.Reachable s ∧ 1 < s.pageBitmapIndex ∧ 1 < s.pageBitmap.bits ∧
      s.pageBitmap.get 1 = false ∧ s.requestPage.1 = .outOfMemory := by
  obtain ⟨s, hs, hret, hfacts⟩ : ∃ s, Physical.init tinyBoot blankEnv = some s ∧
      let s₁ := (s.unreservePages 0x1000 1).unreservePages 0x3000 2
      let s₂ := (s₁.requestPages 2).2
      (s₁.requestPages 2).1 = .returned 0x3000 ∧ 1 < s₂.pageBitmapIndex ∧
        1 < s₂.pageBitmap.bits ∧ s₂.pageBitmap.get 1 = false ∧
        s₂.requestPage.1 = .outOfMemory := by
    decide +kernel
  have hinit : allocator.Reachable s := .init ⟨tinyBoot, blankEnv, hs⟩
  have hfreed := (hinit.step (l := PageCall.unreservePages 0x1000 1) rfl).step
    (l := PageCall.unreservePages 0x3000 2) rfl
  exact ⟨_, hfreed.step (l := PageCall.requestPages 2) ⟨by rw [hret]; simp, rfl⟩, hfacts⟩

end Fennix.Memory.Physical
