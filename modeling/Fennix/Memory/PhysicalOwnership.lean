import Fennix.Framework.System
import Fennix.Memory.PhysicalSearch
import Fennix.Memory.BootInfo

/-! # Exclusive ownership of physical pages

    Runs of requests and frees, with the ranges that are handed out kept
    beside the allocator. A free must name a range that is handed out.

    The bitmap is the only record the allocator has, and it does not cover
    the pages past index `Size * 8`, which a request near the top of memory
    can still hand out. Two such ranges cannot coexist, because both would
    contain the last page that the bitmap does cover. The invariant `Owned`
    therefore speaks about covered pages only, and the rest follows.

    A range that is longer than the address space above the bitmap wraps
    around to page 0; `exclusive_of_guarded` is about runs without such
    requests, and `wrapping_request_not_exclusive` is a run with one.
    `bitmap_exact` says that no page is lost.
-/

namespace Fennix.Memory.Physical

/-! ## Section 1: The ledger -/

/-- A range of `count` pages that was handed out at `address`. -/
structure Range where
  address : Nat
  count : Nat
  deriving DecidableEq, Repr

/-- The pages of a range, as `LockPages` and `FreePages` number them. -/
def Range.Has (r : Range) (p : Nat) : Prop := ∃ t < r.count, pageAt r.address t = p

/-- The allocator together with the ranges that are handed out. -/
structure Ledger where
  phys : Physical
  handedOut : List Range

inductive Call where
  | requestPage
  | requestPages (count : Nat)
  | freePage (address : Nat)
  | freePages (address count : Nat)

/-- The ledger after a request for `count` pages. A request that reports to be
    out of memory stops its caller only; the allocator stays in use. -/
def Requested (l : Ledger) (count : Nat) (result : Outcome × Physical) (l' : Ledger) : Prop :=
  match result with
  | (.returned address, s) => l' = ⟨s, ⟨address, count⟩ :: l.handedOut⟩
  | (.outOfMemory, s) => l' = ⟨s, l.handedOut⟩
  | (.diverges, _) => False

variable {l l' : Ledger} {count address c n : Nat} {s₀ : Physical}

theorem requested_of_returned {result : Outcome × Physical} (h : result.1 = .returned address) :
    Requested l count result ⟨result.2, ⟨address, count⟩ :: l.handedOut⟩ := by
  obtain ⟨outcome, s⟩ := result
  simp only at h
  subst h
  rfl

/-- Requests and frees, starting from the allocator `s₀`. -/
def ledger (s₀ : Physical) : System Ledger Call where
  init := fun l => l = ⟨s₀, []⟩
  step := fun l call l' =>
    match call with
    | .requestPage => Requested l 1 l.phys.requestPage l'
    | .requestPages count => 1 ≤ count ∧ Requested l count (l.phys.requestPages count) l'
    | .freePage address =>
        ⟨address, 1⟩ ∈ l.handedOut ∧
        l' = ⟨l.phys.freePage address, l.handedOut.erase ⟨address, 1⟩⟩
    | .freePages address count =>
        ⟨address, count⟩ ∈ l.handedOut ∧
        l' = ⟨l.phys.freePages address count, l.handedOut.erase ⟨address, count⟩⟩

/-- No page is in two of the ranges, and none was in use at the start. -/
def Exclusive (s₀ : Physical) (l : Ledger) : Prop :=
  l.handedOut.Pairwise (fun r r' => ∀ p, r.Has p → ¬ r'.Has p) ∧
  ∀ r ∈ l.handedOut, ∀ p, r.Has p → s₀.pageBitmap.get p = false

/-- A request whose pages all have an address, wherever in the bitmap its
    range starts. -/
def Addressable (l : Ledger) : Call → Prop
  | .requestPages count => l.phys.pageBitmap.bits + count ≤ 2 ^ 52 + 1
  | _ => True

/-! ## Section 2: The invariant -/

theorem Range.has_iff {p : Nat} (h : c + n ≤ 2 ^ 52) :
    (⟨c * pageSize, n⟩ : Range).Has p ↔ c ≤ p ∧ p < c + n := by
  constructor
  · intro hex
    obtain ⟨t, ht, rfl⟩ := hex
    simp only at ht
    rw [pageAt_of_lt (by omega)]
    omega
  · intro hboth
    obtain ⟨h1, h2⟩ := hboth
    refine ⟨p - c, by simp only; omega, ?_⟩
    rw [pageAt_of_lt (by omega)]
    omega

/-- What every guarded run keeps. -/
structure Owned (s₀ : Physical) (l : Ledger) : Prop where
  bits : l.phys.pageBitmap.bits = s₀.pageBitmap.bits
  kept : ∀ p, s₀.pageBitmap.get p = true → l.phys.pageBitmap.get p = true
  /-- Every range starts inside the bitmap and ends inside the address space. -/
  form : ∀ r ∈ l.handedOut, ∃ c, r.address = c * pageSize ∧
    c < s₀.pageBitmap.bits ∧ 1 ≤ r.count ∧ c + r.count ≤ 2 ^ 52
  taken : ∀ r ∈ l.handedOut, ∀ p, p ≤ s₀.pageBitmap.bits → r.Has p →
    l.phys.pageBitmap.get p = true
  exclusive : Exclusive s₀ l

theorem shared_covered {bits c' n' p : Nat} (hc : c < bits) (hc' : c' < bits)
    (h : c ≤ p ∧ p < c + n) (h' : c' ≤ p ∧ p < c' + n') :
    ∃ q ≤ bits, (c ≤ q ∧ q < c + n) ∧ (c' ≤ q ∧ q < c' + n') :=
  ⟨min p bits, by omega, by omega, by omega⟩

theorem Owned.grant {s' : Physical} (h : Owned s₀ l) (hg : Granted l.phys c n s') (hn : 1 ≤ n)
    (hcn : c + n ≤ 2 ^ 52) : Owned s₀ ⟨s', ⟨c * pageSize, n⟩ :: l.handedOut⟩ := by
  have hc : c < s₀.pageBitmap.bits := by
    rw [← h.bits]
    exact hg.lt
  have hnew : ∀ p, (⟨c * pageSize, n⟩ : Range).Has p ↔ c ≤ p ∧ p < c + n :=
    fun p => Range.has_iff hcn
  constructor
  · exact hg.bits_eq.trans h.bits
  · intro p hp
    exact hg.get_iff.mpr (Or.inl (h.kept p hp))
  · exact List.forall_mem_cons.mpr ⟨⟨c, rfl, hc, hn, hcn⟩, h.form⟩
  · intro r hr p hp hhas
    rcases List.mem_cons.mp hr with rfl | hr
    · rw [← h.bits] at hp
      exact hg.get_iff.mpr (Or.inr ⟨hp, (hnew p).mp hhas⟩)
    · exact hg.get_iff.mpr (Or.inl (h.taken r hr p hp hhas))
  · refine ⟨List.pairwise_cons.mpr ⟨?_, h.exclusive.1⟩, ?_⟩
    · intro r hr p hp hrp
      obtain ⟨c', haddr, hc', _, hcn'⟩ := h.form r hr
      have hold : ∀ q, r.Has q ↔ c' ≤ q ∧ q < c' + r.count := by
        intro q
        have := Range.has_iff (c := c') (n := r.count) (p := q) hcn'
        rwa [← haddr] at this
      -- the shared page may lie past the bitmap, but then the last covered one is shared too
      obtain ⟨q, hq, hqn, hqr⟩ := shared_covered hc hc' ((hnew p).mp hp) ((hold p).mp hrp)
      have htaken := h.taken r hr q hq ((hold q).mpr hqr)
      rw [hg.clear hqn.1 hqn.2] at htaken
      cases htaken
    · intro r hr p hp
      rcases List.mem_cons.mp hr with rfl | hr
      · have hpn := (hnew p).mp hp
        cases hs : s₀.pageBitmap.get p with
        | false => rfl
        | true =>
          have := h.kept p hs
          rw [hg.clear hpn.1 hpn.2] at this
          cases this
      · exact h.exclusive.2 r hr p hp

theorem Owned.giveBack {s' : Physical} {r : Range} (h : Owned s₀ l) (hr : r ∈ l.handedOut)
    (hbits : s'.pageBitmap.bits = l.phys.pageBitmap.bits)
    (hget : ∀ p, ¬ r.Has p → (l.phys.pageBitmap.get p = true → s'.pageBitmap.get p = true)) :
    Owned s₀ ⟨s', l.handedOut.erase r⟩ := by
  have hmem : ∀ r' ∈ l.handedOut.erase r, r' ∈ l.handedOut :=
    fun r' hr' => List.mem_of_mem_erase hr'
  -- `r` is disjoint from everything that stays, by symmetry of disjointness
  have hapart : ∀ r' ∈ l.handedOut.erase r, ∀ p, r.Has p → ¬ r'.Has p := by
    have hperm := (List.perm_cons_erase hr).pairwise_iff
      (R := fun r r' : Range => ∀ p, r.Has p → ¬ r'.Has p)
      (fun hrr' p hp hp' => hrr' p hp' hp)
    exact (List.pairwise_cons.mp (hperm.mp h.exclusive.1)).1
  constructor
  · exact hbits.trans h.bits
  · intro p hp
    refine hget p (fun hrp => ?_) (h.kept p hp)
    rw [h.exclusive.2 r hr p hrp] at hp
    cases hp
  · exact fun r' hr' => h.form r' (hmem r' hr')
  · intro r' hr' p hp hhas
    exact hget p (fun hrp => hapart r' hr' p hrp hhas) (h.taken r' (hmem r' hr') p hp hhas)
  · exact ⟨h.exclusive.1.sublist List.erase_sublist,
      fun r' hr' => h.exclusive.2 r' (hmem r' hr')⟩

/-! ## Section 3: Every step keeps the invariant -/

theorem Owned.setHint (h : Owned s₀ l) (i : Nat) :
    Owned s₀ ⟨{ l.phys with pageBitmapIndex := i }, l.handedOut⟩ :=
  ⟨h.bits, h.kept, h.form, h.taken, h.exclusive⟩

theorem Owned.requestPage (h : Owned s₀ l) (hstep : Requested l 1 l.phys.requestPage l') :
    Owned s₀ l' := by
  have hbits := l.phys.pageBitmap.bits_le
  rcases requestPage_cases l.phys with ⟨hlt, heq⟩ | ⟨_, heq⟩
  · rw [heq] at hstep
    simp only [Requested] at hstep
    subst hstep
    exact h.grant (granted_of_requestPage hlt) (Nat.le_refl 1) (by omega)
  · rw [heq] at hstep
    simp only [Requested] at hstep
    subst hstep
    exact h.setHint _

theorem Owned.requestPages (h : Owned s₀ l) (hcount : 1 ≤ count)
    (hguard : l.phys.pageBitmap.bits + count ≤ 2 ^ 52 + 1)
    (hstep : Requested l count (l.phys.requestPages count) l') : Owned s₀ l' := by
  cases hres : l.phys.requestPages count with
  | mk outcome s' =>
    rw [hres] at hstep
    cases outcome with
    | returned address =>
      simp only [Requested] at hstep
      subst hstep
      obtain ⟨c, rfl, hg⟩ := granted_of_requestPages hguard hres
      have hc := hg.lt
      exact h.grant hg hcount (by omega)
    | outOfMemory =>
      simp only [Requested] at hstep
      subst hstep
      obtain ⟨_, rfl⟩ := requestPages_outOfMemory hres
      exact h.setHint _
    | diverges => exact absurd hstep (by simp [Requested])

theorem Owned.freePage (h : Owned s₀ l) (hr : ⟨address, 1⟩ ∈ l.handedOut) :
    Owned s₀ ⟨l.phys.freePage address, l.handedOut.erase ⟨address, 1⟩⟩ := by
  refine h.giveBack hr (by simp) ?_
  intro p hp hget
  refine (freePage_get _ _ _).mpr ⟨hget, fun _ heq => hp ?_⟩
  obtain ⟨c, haddr, hc, _, hc1⟩ := h.form _ hr
  simp only at haddr hc1
  subst haddr
  refine (Range.has_iff hc1).mpr ?_
  rw [heq, Nat.mul_div_cancel _ (by simp)]
  omega

theorem Owned.freePages (h : Owned s₀ l) (hr : ⟨address, count⟩ ∈ l.handedOut) :
    Owned s₀ ⟨l.phys.freePages address count, l.handedOut.erase ⟨address, count⟩⟩ := by
  refine h.giveBack hr (by simp) ?_
  intro p hp hget
  unfold Physical.freePages
  split
  · exact hget
  · exact (freeLoop_get _ _ _ _).mpr ⟨hget, fun t ht _ heq => hp ⟨t, ht, heq.symm⟩⟩

theorem owned_initial (s₀ : Physical) : Owned s₀ ⟨s₀, []⟩ :=
  ⟨rfl, fun _ hp => hp, by simp, by simp, by simp [Exclusive]⟩

theorem Owned.step {call : Call} (h : Owned s₀ l)
    (hstep : ((ledger s₀).restrict Addressable).step l call l') : Owned s₀ l' := by
  obtain ⟨hguard, hstep⟩ := hstep
  match call with
  | .requestPage => exact h.requestPage hstep
  | .requestPages count => exact h.requestPages hstep.1 hguard hstep.2
  | .freePage address => obtain ⟨hr, rfl⟩ := hstep; exact h.freePage hr
  | .freePages address count => obtain ⟨hr, rfl⟩ := hstep; exact h.freePages hr

theorem owned_of_guarded (s₀ : Physical) (h : ((ledger s₀).restrict Addressable).Reachable l) :
    Owned s₀ l := by
  refine h.invariant ?_ ?_
  · intro _ heq
    subst heq
    exact owned_initial s₀
  · intro _ _ _ hi hs
    exact hi.step hs

/-- **Exclusive ownership**: whatever bitmap a run starts from, the ranges
    handed out stay pairwise disjoint and away from the pages in use at the
    start, as long as every requested range has room in the address space. -/
theorem exclusive_of_guarded (s₀ : Physical) {l : Ledger}
    (h : ((ledger s₀).restrict Addressable).Reachable l) : Exclusive s₀ l :=
  (owned_of_guarded s₀ h).exclusive

/-- The last free page of `lastPageFree`, handed out alone. -/
theorem exclusive_lastPageFree :
    Exclusive lastPageFree ⟨(lastPageFree.requestPages 1).2, [⟨0x7000, 1⟩]⟩ := by
  have hinit : ((ledger lastPageFree).restrict Addressable).Reachable ⟨lastPageFree, []⟩ :=
    .init rfl
  have hstep : ((ledger lastPageFree).restrict Addressable).step ⟨lastPageFree, []⟩
      (.requestPages 1) ⟨(lastPageFree.requestPages 1).2, [⟨0x7000, 1⟩]⟩ :=
    ⟨show lastPageFree.pageBitmap.bits + 1 ≤ 2 ^ 52 + 1 by decide, by decide,
      requested_of_returned (by decide)⟩
  exact exclusive_of_guarded lastPageFree (hinit.step hstep)

/-! ## Section 4: A run with a request that wraps around -/

/-- On `smallBoot` a request for `2 ^ 52` pages succeeds and its range wraps
    around to the reserved page 0. -/
theorem wrapping_request_not_exclusive :
    ∃ s₀ l, Physical.init smallBoot blankEnv = some s₀ ∧
      (ledger s₀).Reachable l ∧ ¬ Exclusive s₀ l := by
  obtain ⟨s, hs, hbits, hidx, hnext, hfree⟩ := init_smallBoot
  have hused : ∀ k, k < 257 → s.pageBitmap.get k = true :=
    fun k hk => get_of_lt_nextFree (Nat.zero_le k) (by rw [hnext]; exact hk)
  -- past the end everything reads as free, so the run from 257 on never collides
  have hfit : Fits s.pageBitmap (2 ^ 52) 257 := by
    refine ⟨by omega, hfree 257 (by omega) (by omega), clearRun_iff.mpr fun i hi => ?_⟩
    rw [Nat.mod_eq_of_lt (by omega)]
    rcases Nat.lt_or_ge 264 (257 + i) with h | h
    · exact Bitmap.get_of_gt (by omega)
    · exact hfree _ (by omega) h
  have hret : (s.requestPages (2 ^ 52)).1 = .returned (257 * pageSize) :=
    requestPages_of_first (by omega) hused hfit
  refine ⟨s, ⟨(s.requestPages (2 ^ 52)).2, [⟨257 * pageSize, 2 ^ 52⟩]⟩, hs, ?_, ?_⟩
  · have hinit : (ledger s).Reachable ⟨s, []⟩ := .init rfl
    have hstep : (ledger s).step ⟨s, []⟩ (.requestPages (2 ^ 52))
        ⟨(s.requestPages (2 ^ 52)).2, [⟨257 * pageSize, 2 ^ 52⟩]⟩ := by
      exact ⟨by decide, requested_of_returned hret⟩
    exact hinit.step hstep
  · intro hex
    have hzero : (⟨257 * pageSize, 2 ^ 52⟩ : Range).Has 0 :=
      ⟨2 ^ 52 - 257, by decide, by rw [pageAt_mul]; decide⟩
    have := hex.2 _ (List.mem_singleton.mpr rfl) 0 hzero
    rw [hused 0 (by omega)] at this
    cases this

/-! ## Section 5: No page is lost -/

/-- A page is in use only if it was at the start or is handed out. -/
def NoneLost (s₀ : Physical) (l : Ledger) : Prop :=
  ∀ p, l.phys.pageBitmap.get p = true →
    s₀.pageBitmap.get p = true ∨ ∃ r ∈ l.handedOut, r.Has p

theorem NoneLost.grant {s' : Physical} (h : NoneLost s₀ l) (hg : Granted l.phys c n s')
    (hcn : c + n ≤ 2 ^ 52) : NoneLost s₀ ⟨s', ⟨c * pageSize, n⟩ :: l.handedOut⟩ := by
  intro p hp
  rcases hg.get_iff.mp hp with hp | ⟨-, hp⟩
  · exact (h p hp).imp_right fun ⟨r, hr, hhas⟩ => ⟨r, List.mem_cons_of_mem _ hr, hhas⟩
  · exact Or.inr ⟨_, List.mem_cons_self, (Range.has_iff hcn).mpr hp⟩

/-- Page 0 is not handed out, whose address `FreePage` refuses. -/
theorem Owned.address_ne_zero {r : Range} (h : Owned s₀ l) (hzero : s₀.pageBitmap.get 0 = true)
    (hr : r ∈ l.handedOut) (t : Nat) (ht : t < r.count) :
    (r.address + t * pageSize) % 2 ^ 64 ≠ 0 := by
  intro hnull
  have hpage : pageAt r.address t = 0 := by rw [pageAt, hnull, Nat.zero_div]
  rw [h.exclusive.2 r hr 0 ⟨t, ht, hpage⟩] at hzero
  cases hzero

theorem NoneLost.giveBack {r : Range} (h : NoneLost s₀ l)
    (hne : ∀ t < r.count, (r.address + t * pageSize) % 2 ^ 64 ≠ 0) :
    NoneLost s₀ ⟨l.phys.freeLoop r.address r.count, l.handedOut.erase r⟩ := by
  intro p hp
  obtain ⟨hp, hfreed⟩ := (freeLoop_get _ _ _ _).mp hp
  refine (h p hp).imp_right fun ⟨r', hr', hhas⟩ => ⟨r', (List.mem_erase_of_ne ?_).mpr hr', hhas⟩
  rintro rfl
  obtain ⟨t, ht, heq⟩ := hhas
  exact hfreed t ht (hne t ht) heq.symm

theorem NoneLost.step {call : Call} (hzero : s₀.pageBitmap.get 0 = true) (howned : Owned s₀ l)
    (h : NoneLost s₀ l) (hstep : ((ledger s₀).restrict Addressable).step l call l') :
    NoneLost s₀ l' := by
  obtain ⟨hguard, hstep⟩ := hstep
  have hbits := l.phys.pageBitmap.bits_le
  match call with
  | .requestPage =>
    rcases requestPage_cases l.phys with ⟨hlt, heq⟩ | ⟨-, heq⟩ <;>
      obtain rfl : l' = _ := by simpa only [ledger, heq, Requested] using hstep
    · exact h.grant (granted_of_requestPage hlt) (by omega)
    · exact h
  | .requestPages count =>
    have hstep := hstep.2
    rcases hres : l.phys.requestPages count with ⟨address | _ | _, s'⟩ <;> rw [hres] at hstep
    · obtain rfl := hstep
      obtain ⟨c, rfl, hg⟩ := granted_of_requestPages hguard hres
      have hc := hg.lt
      simp only [Addressable] at hguard
      exact h.grant hg (by omega)
    · obtain rfl := hstep
      obtain ⟨-, rfl⟩ := requestPages_outOfMemory hres
      exact h
    · exact hstep.elim
  | .freePage address =>
    obtain ⟨hr, rfl⟩ := hstep
    obtain ⟨c, haddr, -, -, hend⟩ := howned.form _ hr
    have hlt : address < 2 ^ 64 := by
      simp only [pageSize] at haddr hend
      omega
    have hloop := h.giveBack (howned.address_ne_zero hzero hr)
    simpa only [freeLoop, Nat.zero_mul, Nat.add_zero, Nat.mod_eq_of_lt hlt] using hloop
  | .freePages address count =>
    obtain ⟨hr, rfl⟩ := hstep
    have hne := howned.address_ne_zero hzero hr
    obtain ⟨-, -, -, hcount, -⟩ := howned.form _ hr
    have hguards : ¬ (address = 0 ∨ count = 0) := by
      rintro (rfl | rfl)
      · exact hne 0 hcount rfl
      · cases hcount
    rw [Physical.freePages, if_neg hguards]
    exact (h.giveBack hne :)

/-- **No page is lost**: if page 0 is in use at the start, a page of the bitmap is in use at any
    point exactly if it was at the start or is handed out. -/
theorem bitmap_exact (s₀ : Physical) (hzero : s₀.pageBitmap.get 0 = true) {l : Ledger}
    (h : ((ledger s₀).restrict Addressable).Reachable l) {p : Nat}
    (hp : p ≤ s₀.pageBitmap.bits) :
    l.phys.pageBitmap.get p = true ↔
      s₀.pageBitmap.get p = true ∨ ∃ r ∈ l.handedOut, r.Has p := by
  have hlost : NoneLost s₀ l := by
    induction h with
    | init heq => exact heq ▸ fun p => Or.inl
    | step hreach hstep ih => exact ih.step hzero (owned_of_guarded s₀ hreach) hstep
  have howned := owned_of_guarded s₀ h
  refine ⟨hlost p, ?_⟩
  rintro (hkept | ⟨r, hr, hhas⟩)
  · exact howned.kept p hkept
  · exact howned.taken r hr p hp hhas

/-- The last page of `lastPageFree` is in use while it is handed out. -/
theorem bitmap_exact_lastPageFree :
    lastPageFree.pageBitmap.get 7 = false ∧
      (lastPageFree.requestPages 1).2.pageBitmap.get 7 = true := by
  have hstep : ((ledger lastPageFree).restrict Addressable).step ⟨lastPageFree, []⟩
      (.requestPages 1) ⟨(lastPageFree.requestPages 1).2, [⟨0x7000, 1⟩]⟩ :=
    ⟨show lastPageFree.pageBitmap.bits + 1 ≤ 2 ^ 52 + 1 by decide, by decide,
      requested_of_returned (by decide)⟩
  have hexact := bitmap_exact lastPageFree (by decide) (.step (.init rfl) hstep)
    (show 7 ≤ _ by decide)
  exact ⟨by decide, hexact.mpr (Or.inr ⟨_, List.mem_singleton_self _, 0, by decide, by decide⟩)⟩

end Fennix.Memory.Physical
