import Mathlib.Data.List.Induction
import Mathlib.Logic.Basic

/-! # Transition systems

    - `System`: a labelled transition system, given by its initial states and
      its step relation, with reachability and the invariant rule.
    - `System.restrict`: the same system with a guard on every step. A result
      about `restrict` is a result about the runs all of whose steps meet the
      guard.
    - `along_iff`: runs along a list of steps that may fail.
-/

namespace Fennix

universe u v

/-- A labelled transition system: initial states and labelled steps. -/
structure System (State : Type u) (Label : Type v) where
  init : State → Prop
  step : State → Label → State → Prop

namespace System

variable {State : Type u} {Label : Type v}

/-! ## Section 1: Reachability -/

/-- States reached by finitely many steps from an initial state. -/
inductive Reachable (sys : System State Label) : State → Prop where
  | init : ∀ {s}, sys.init s → Reachable sys s
  | step : ∀ {s l s'}, Reachable sys s → sys.step s l s' → Reachable sys s'

/-- **Invariant rule**: what holds initially and is kept by every step holds
    in every reachable state. -/
theorem Reachable.invariant {sys : System State Label} {Inv : State → Prop}
    (hinit : ∀ s, sys.init s → Inv s)
    (hstep : ∀ s l s', Inv s → sys.step s l s' → Inv s')
    {s : State} (h : sys.Reachable s) : Inv s := by
  induction h with
  | init hi => exact hinit _ hi
  | step _ hs ih => exact hstep _ _ _ ih hs

/-- What a partial function that makes steps computes is reachable. -/
theorem Reachable.foldlM {sys : System State Label} {f : State → Label → Option State}
    (hf : ∀ {s l s'}, f s l = some s' → sys.step s l s') {run : List Label} {s s' : State}
    (h : sys.Reachable s) (hrun : run.foldlM f s = some s') : sys.Reachable s' := by
  induction run generalizing s with
  | nil =>
    cases hrun
    exact h
  | cons l run ih =>
    obtain ⟨mid, hone, hrest⟩ := Option.bind_eq_some_iff.mp hrun
    exact ih (h.step (hf hone)) hrest

/-! ## Section 2: Guarded runs -/

/-- The runs of `sys` all of whose steps meet `guard` in the state before
    the step. -/
def restrict (sys : System State Label) (guard : State → Label → Prop) :
    System State Label where
  init := sys.init
  step := fun s l s' => guard s l ∧ sys.step s l s'

theorem Reachable.of_restrict {sys : System State Label} {guard : State → Label → Prop}
    {s : State} (h : (sys.restrict guard).Reachable s) : sys.Reachable s := by
  induction h with
  | init hi => exact .init hi
  | step _ hs ih => exact .step ih hs.2

end System

/-! ## Section 3: Steps that may fail -/

/-- Along a list of steps an invariant holds at each point exactly if no step is
    a bad one, given that for a single step. -/
theorem along_iff {σ α : Type} {step : σ → α → Option σ} {Inv : σ → Prop} {Bad : σ → α → Prop}
    (hstep : ∀ s a, Inv s → ((∃ s', step s a = some s' ∧ Inv s') ↔ ¬ Bad s a)) {s : σ}
    (hs : Inv s) (l : List α) :
    (∀ earlier, earlier <+: l → ∃ s', earlier.foldlM step s = some s' ∧ Inv s') ↔
      ∀ earlier a s', earlier ++ [a] <+: l → earlier.foldlM step s = some s' → ¬ Bad s' a := by
  have happend : ∀ earlier a s', earlier.foldlM step s = some s' →
      (earlier ++ [a]).foldlM step s = step s' a := by
    intro earlier a s' h
    simp [List.foldlM_append, h]
  constructor
  · intro h earlier a s' hle hs'
    obtain ⟨_, heq, hinv⟩ := h earlier ((List.prefix_append _ _).trans hle)
    cases hs'.symm.trans heq
    have hnext := h _ hle
    rw [happend _ _ _ hs'] at hnext
    exact (hstep _ _ hinv).mp hnext
  · intro h earlier
    induction earlier using List.reverseRecOn with
    | nil => exact fun _ => ⟨s, rfl, hs⟩
    | append_singleton earlier a ih =>
      intro hle
      obtain ⟨s', hs', hinv⟩ := ih ((List.prefix_append _ _).trans hle)
      rw [happend _ _ _ hs']
      exact (hstep s' a hinv).mpr (h _ _ _ hle hs')

/-- What a call returns can be looked up, so that a run on given inputs is decided by
    evaluating it. -/
instance decidableExistsSome {α : Type*} {o : Option α} {P : α → Prop} [DecidablePred P] :
    Decidable (∃ a, o = some a ∧ P a) :=
  inferInstanceAs (Decidable (∃ a ∈ o, P a))

@[inherit_doc decidableExistsSome]
instance decidableExistsPair {α β : Type*} {o : Option (α × β)} {P : α → β → Prop}
    [∀ a b, Decidable (P a b)] : Decidable (∃ a b, o = some (a, b) ∧ P a b) :=
  decidable_of_iff (∃ r ∈ o, P r.1 r.2) Prod.exists

@[inherit_doc decidableExistsSome]
instance decidableExistsSnd {α β : Type*} [DecidableEq α] {o : Option (α × β)} {a : α}
    {P : β → Prop} [DecidablePred P] : Decidable (∃ b, o = some (a, b) ∧ P b) :=
  decidable_of_iff (∃ r ∈ o, r.1 = a ∧ P r.2) (by simp [Prod.exists])

end Fennix
