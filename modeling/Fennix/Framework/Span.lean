import Mathlib.Data.List.Basic
import Mathlib.Tactic.Basic

/-! # Spans of addresses

    - `Span`: a start and a length; the addresses it covers.
    - `Apart`: lists of spans that share no address.
    - `Tiling`: spans that share no address and cover exactly an interval. It
      can be extended at its end, and a tile can be cut in two.
    - `Packed`: spans that share no address and stay inside an interval.
-/

namespace Fennix

/-- The addresses from `start` up to `start + length`. -/
structure Span where
  start : Nat
  length : Nat
  deriving DecidableEq, Repr

namespace Span

/-! ## Section 1: Two spans -/

/-- Address `a` lies in the span. -/
def Covers (s : Span) (a : Nat) : Prop := s.start ≤ a ∧ a < s.start + s.length

/-- No address lies in both. -/
def Disjoint (s t : Span) : Prop := ∀ a, s.Covers a → ¬ t.Covers a

variable {s t : Span}

theorem Disjoint.symm (h : Disjoint s t) : Disjoint t s := fun a ht hs => h a hs ht

theorem disjoint_of_le (h : s.start + s.length ≤ t.start) : Disjoint s t := by
  intro a hs ht
  have := hs.2
  have := ht.1
  omega

theorem disjoint_iff (hs : 0 < s.length) (ht : 0 < t.length) :
    Disjoint s t ↔ s.start + s.length ≤ t.start ∨ t.start + t.length ≤ s.start := by
  constructor
  · intro h
    -- otherwise the larger of the two starts lies in both
    by_contra hlap
    exact h (max s.start t.start) ⟨by omega, by omega⟩ ⟨by omega, by omega⟩
  · intro h
    rcases h with h | h
    · exact disjoint_of_le h
    · exact (disjoint_of_le h).symm

theorem Disjoint.mono {s' : Span} (h : Disjoint s t) (hsub : ∀ a, s'.Covers a → s.Covers a) :
    Disjoint s' t := fun a ha => h a (hsub a ha)

/-! ## Section 2: Lists of spans -/

/-- No two of the spans share an address. -/
def Apart (l : List Span) : Prop := l.Pairwise Disjoint

theorem Apart.nil : Apart [] := List.Pairwise.nil

theorem apart_concat {l : List Span} :
    Apart (l ++ [s]) ↔ Apart l ∧ ∀ t ∈ l, Disjoint t s := by
  rw [Apart, List.pairwise_append]
  simp only [List.pairwise_singleton, List.mem_singleton, forall_eq, true_and]
  exact Iff.rfl

theorem Apart.perm {l l' : List Span} (h : Apart l) (hp : l.Perm l') : Apart l' :=
  hp.pairwise h fun hd => hd.symm

/-- The spans share no address and stay inside the interval from `lo` to `hi`. -/
structure Packed (l : List Span) (lo hi : Nat) : Prop where
  apart : Apart l
  inside : ∀ s ∈ l, lo ≤ s.start ∧ s.start + s.length ≤ hi

namespace Packed

variable {l : List Span} {lo hi : Nat}

theorem nil (lo hi : Nat) : Packed [] lo hi := ⟨Apart.nil, nofun⟩

theorem concat_iff (h : Packed l lo hi) {hi' : Nat} (hle : hi ≤ hi') :
    Packed (l ++ [s]) lo hi' ↔
      (∀ t ∈ l, Disjoint t s) ∧ lo ≤ s.start ∧ s.start + s.length ≤ hi' := by
  constructor
  · intro hpacked
    exact ⟨(apart_concat.mp hpacked.apart).2, hpacked.inside s (by simp)⟩
  · intro hnew
    obtain ⟨hdisjoint, hinside⟩ := hnew
    refine ⟨apart_concat.mpr ⟨h.apart, hdisjoint⟩, ?_⟩
    refine List.forall_mem_append.mpr ⟨fun t ht => ?_, List.forall_mem_singleton.mpr hinside⟩
    have := h.inside t ht
    omega

theorem extend (h : Packed l lo hi) (hle : lo ≤ hi) (n : Nat) :
    Packed (l ++ [⟨hi, n⟩]) lo (hi + n) := by
  rw [h.concat_iff (Nat.le_add_right _ _)]
  exact ⟨fun t ht => disjoint_of_le (h.inside t ht).2, hle, Nat.le_refl _⟩

end Packed

/-- The spans share no address and cover exactly the interval from `lo` to
    `hi`. -/
structure Tiling (l : List Span) (lo hi : Nat) : Prop where
  apart : Apart l
  covers : ∀ a, (∃ s ∈ l, s.Covers a) ↔ lo ≤ a ∧ a < hi

namespace Tiling

variable {l : List Span} {lo hi : Nat}

theorem nil (lo : Nat) : Tiling [] lo lo := by
  refine ⟨Apart.nil, fun a => ?_⟩
  simp only [List.not_mem_nil, false_and, exists_false, false_iff]
  omega

theorem perm {l' : List Span} (h : Tiling l lo hi) (hp : l.Perm l') : Tiling l' lo hi := by
  refine ⟨h.apart.perm hp, fun a => ?_⟩
  rw [← h.covers a]
  simp only [hp.mem_iff]

theorem inside (h : Tiling l lo hi) (hs : s ∈ l) (hpos : 0 < s.length) :
    lo ≤ s.start ∧ s.start + s.length ≤ hi := by
  have hfirst := (h.covers s.start).mp ⟨s, hs, by simp only [Covers]; omega⟩
  have hlast := (h.covers (s.start + s.length - 1)).mp ⟨s, hs, by simp only [Covers]; omega⟩
  omega

theorem extend (h : Tiling l lo hi) (hle : lo ≤ hi) (n : Nat) :
    Tiling (l ++ [⟨hi, n⟩]) lo (hi + n) := by
  refine ⟨apart_concat.mpr ⟨h.apart, ?_⟩, ?_⟩
  · intro t ht a hcovers hend
    have hlt := ((h.covers a).mp ⟨t, ht, hcovers⟩).2
    have hge : hi ≤ a := hend.1
    omega
  · intro a
    simp only [List.mem_append, List.mem_singleton, or_and_right, exists_or, exists_eq_left,
      h.covers a]
    simp only [Covers]
    omega

theorem cut (h : Tiling (s :: l) lo hi) {n : Nat} (hn : n ≤ s.length) :
    Tiling (⟨s.start + n, s.length - n⟩ :: ⟨s.start, n⟩ :: l) lo hi := by
  obtain ⟨hcross, hrest⟩ := List.pairwise_cons.mp h.apart
  refine ⟨List.pairwise_cons.mpr ⟨?_, List.pairwise_cons.mpr ⟨?_, hrest⟩⟩, ?_⟩
  · intro t ht
    rcases List.mem_cons.mp ht with rfl | ht
    · exact (disjoint_of_le (Nat.le_refl _)).symm
    · apply (hcross t ht).mono
      intro a ha
      simp only [Covers] at ha ⊢
      omega
  · intro t ht
    apply (hcross t ht).mono
    intro a ha
    simp only [Covers] at ha ⊢
    omega
  · intro a
    rw [← h.covers a]
    simp only [List.mem_cons, or_and_right, exists_or, exists_eq_left, ← or_assoc]
    apply or_congr_left
    simp only [Covers]
    omega

end Tiling

end Span

end Fennix
