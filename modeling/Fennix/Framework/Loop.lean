import Mathlib.Logic.Function.Iterate
import Mathlib.Data.Finset.Card
import Mathlib.Data.Finset.Range

/-! # Deterministic loops

    A loop is a function `next` from one value of its loop variable to the
    following one and a function `stop` that says when to leave and with what
    result. `run` executes a bounded number of rounds; `Visits` describes the
    values that the loop variable takes.

    The one theorem that takes an argument is `run_of_bounded`: when the loop
    variable stays below `m`, a loop that leaves at all leaves within `m`
    rounds, because until then its values are pairwise distinct.
-/

namespace Fennix.Loop

variable {α β : Type} (next : α → α) (stop : α → Option β)

/-- At most `n` rounds of the loop; `none` when it is still running then. -/
def run : Nat → α → Option β
  | 0, _ => none
  | n + 1, x =>
    match stop x with
    | some r => some r
    | none => run n (next x)

/-- The values the loop variable takes when the loop starts at `x`. -/
inductive Visits (x : α) : α → Prop where
  | start : Visits x x
  | next : ∀ {y}, Visits x y → stop y = none → Visits x (next y)

variable {next stop}

/-! ## Section 1: Rounds and iterates -/

/-- The `k`-th value of the loop variable, provided the loop gets there. -/
def ReachesAt (next : α → α) (stop : α → Option β) (x : α) (k : Nat) : Prop :=
  ∀ j < k, stop (next^[j] x) = none

variable {x : α} {r : β}

theorem visits_iff {y : α} :
    Visits next stop x y ↔ ∃ k, ReachesAt next stop x k ∧ next^[k] x = y := by
  constructor
  · intro h
    induction h with
    | start => exact ⟨0, by simp [ReachesAt], rfl⟩
    | @next y _ hstop ih =>
      obtain ⟨k, hk, rfl⟩ := ih
      refine ⟨k + 1, ?_, Function.iterate_succ_apply' next k x⟩
      intro j hj
      rcases Nat.lt_succ_iff_lt_or_eq.mp hj with hlt | rfl
      · exact hk j hlt
      · exact hstop
  · intro hex
    obtain ⟨k, hk, rfl⟩ := hex
    induction k with
    | zero => exact .start
    | succ k ih =>
      rw [Function.iterate_succ_apply']
      exact .next (ih fun j hj => hk j (by omega)) (hk k (by omega))

theorem run_eq_some_iff {n : Nat} :
    run next stop n x = some r ↔
      ∃ k < n, ReachesAt next stop x k ∧ stop (next^[k] x) = some r := by
  induction n generalizing x with
  | zero => simp [run]
  | succ n ih =>
    cases hs : stop x with
    | some r' =>
      -- the loop leaves before its first round
      simp only [run, hs]
      constructor
      · intro h
        exact ⟨0, by omega, by simp [ReachesAt], by simpa using hs.trans h⟩
      · intro hex
        obtain ⟨k, _, hk, hr⟩ := hex
        cases k with
        | zero => exact (hs.symm.trans hr)
        | succ k =>
          have := hk 0 (by omega)
          simp [hs] at this
    | none =>
      -- round `k` from the next value on is round `k + 1` from `x` on
      simp only [run, hs]
      rw [ih]
      constructor
      · intro hex
        obtain ⟨k, hkn, hk, hr⟩ := hex
        refine ⟨k + 1, by omega, ?_, hr⟩
        intro j hj
        cases j with
        | zero => exact hs
        | succ j => exact hk j (by omega)
      · intro hex
        obtain ⟨k, hkn, hk, hr⟩ := hex
        cases k with
        | zero => simp [hs] at hr
        | succ k => exact ⟨k, by omega, fun j hj => hk (j + 1) (by omega), hr⟩

/-! ## Section 2: Loops with a bounded variable -/

theorem iterate_injOn {k : Nat} (hk : ReachesAt next stop x k) (hr : stop (next^[k] x) = some r) :
    Set.InjOn (fun j => next^[j] x) (Finset.range (k + 1)) := by
  -- a repeated value would bring the loop to its exit earlier than at round `k`
  have key : ∀ i j, i < j → j ≤ k → next^[i] x ≠ next^[j] x := by
    intro i j hij hjk heq
    have h1 : next^[k - j + i] x = next^[k] x := by
      rw [Function.iterate_add_apply, heq, ← Function.iterate_add_apply]
      congr 1
      omega
    have h2 := hk (k - j + i) (by omega)
    rw [h1, hr] at h2
    cases h2
  intro i hi j hj heq
  simp only [Finset.coe_range, Set.mem_Iio] at hi hj
  rcases Nat.lt_trichotomy i j with hlt | rfl | hgt
  · exact absurd heq (key i j hlt (by omega))
  · rfl
  · exact absurd heq.symm (key j i hgt (by omega))

variable {next : Nat → Nat} {stop : Nat → Option β}

theorem run_of_bounded {m x : Nat} (hx : x < m) (hnext : ∀ y, next y < m) {k : Nat}
    (hk : ReachesAt next stop x k) (hr : stop (next^[k] x) = some r) :
    run next stop m x = some r := by
  have hlt : ∀ j, next^[j] x < m := by
    intro j
    cases j with
    | zero => exact hx
    | succ j => rw [Function.iterate_succ_apply']; exact hnext _
  -- `k + 1` distinct values below `m`
  have hcard : (Finset.range (k + 1)).card ≤ (Finset.range m).card :=
    Finset.card_le_card_of_injOn (fun j => next^[j] x)
      (fun j _ => by simpa using hlt j) (iterate_injOn hk hr)
  simp only [Finset.card_range] at hcard
  exact run_eq_some_iff.mpr ⟨k, by omega, hk, hr⟩

theorem run_bounded_iff {m x : Nat} (hx : x < m) (hnext : ∀ y, next y < m) :
    run next stop m x = some r ↔ ∃ y, Visits next stop x y ∧ stop y = some r := by
  constructor
  · intro h
    obtain ⟨k, _, hk, hr⟩ := run_eq_some_iff.mp h
    exact ⟨_, visits_iff.mpr ⟨k, hk, rfl⟩, hr⟩
  · intro hex
    obtain ⟨y, hy, hr⟩ := hex
    obtain ⟨k, hk, rfl⟩ := visits_iff.mp hy
    exact run_of_bounded hx hnext hk hr

end Fennix.Loop
