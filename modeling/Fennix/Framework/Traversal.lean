import Mathlib.Data.Fintype.Order
import Mathlib.Data.List.Count
import Mathlib.Logic.Relation
import Mathlib.Order.WellFounded

/-! # Traversals that mark late

    A graph is visited depth first: a visit comes to the children of a node first and
    then records the node. Only some nodes are marked by that; a visit of a marked node
    does nothing, and one of another node starts again.

    - `visit_isSome_iff`: visits end exactly if no cycle can be reached.
    - `Complete`: what a traversal from nothing records.
    - `Complete.once_iff`: which nodes it records once.
-/

namespace Fennix.Traversal

open Relation (ReflTransGen TransGen)

variable {α : Type} (children : α → List α)

/-! ## Section 1: The graph -/

/-- `b` is a child of `a`. -/
def Edge (a b : α) : Prop := b ∈ children a

/-- `b` can be reached from `a`. -/
abbrev Reach : α → α → Prop := ReflTransGen (Edge children)

/-- No infinite path starts at `a`. -/
abbrev Grounded (a : α) : Prop := Acc (fun b a => Edge children a b) a

section grounded

variable {children}

theorem Grounded.reach {a b : α} (h : Grounded children a) (hb : Reach children a b) :
    Grounded children b := by
  induction hb with
  | refl => exact h
  | tail _ hedge ih => exact ih.inv hedge

theorem Grounded.not_cycle {a : α} (h : Grounded children a) : ¬ TransGen (Edge children) a a := by
  induction h with
  | intro a _ ih =>
    intro hcycle
    obtain ⟨b, hedge, hback⟩ := Relation.TransGen.head'_iff.mp hcycle
    exact ih b hedge (Relation.TransGen.tail' hback hedge)

theorem grounded_iff [Finite α] (a : α) :
    Grounded children a ↔ ∀ b, Reach children a b → ¬ TransGen (Edge children) b b := by
  constructor
  · exact fun h b hb => (h.reach hb).not_cycle
  · intro hacyclic
    -- the nodes behind a node that `a` reaches, which is no relation with cycles
    let below : α → α → Prop := fun c b => Reach children a b ∧ TransGen (Edge children) b c
    have htrans : IsTrans α below := ⟨fun x y z hxy hyz => ⟨hyz.1, hyz.2.trans hxy.2⟩⟩
    have hirrefl : Std.Irrefl below := ⟨fun b hb => hacyclic b hb.1 hb.2⟩
    have hwf : WellFounded below := Finite.wellFounded_of_trans_of_irrefl below
    have hgrounded : ∀ b, Reach children a b → Grounded children b := by
      intro b
      induction hwf.apply b with
      | intro b _ ih =>
        intro hb
        exact ⟨b, fun c hedge => ih c ⟨hb, .single hedge⟩ (hb.tail hedge)⟩
    exact hgrounded a .refl

end grounded

/-! ## Section 2: What visits add -/

section adds

variable (marks : α → Prop) [DecidableEq α]

/-- What visits of `nodes` add to `log`. -/
structure Adds (log nodes new : List α) : Prop where
  grounded : ∀ b ∈ new, Grounded children b
  reached : ∀ b ∈ new, ∃ a ∈ nodes, Reach children a b
  covers : ∀ a ∈ nodes, a ∈ log ++ new
  closed : ∀ b ∈ new, ∀ c ∈ children b, c ∈ log ++ new
  /-- A marked node is recorded once. -/
  once : ∀ b, marks b → new.count b ≤ 1 ∧ (b ∈ log → b ∉ new)
  /-- A node that is not marked is recorded each time it is come to. -/
  again : ∀ b, ¬ marks b → new.count b = nodes.count b + (new.flatMap children).count b

variable {children} {marks} {log nodes new : List α} {a : α}

theorem Adds.nil (log : List α) : Adds children marks log [] [] where
  grounded := by simp
  reached := by simp
  covers := by simp
  closed := by simp
  once := by simp
  again := by simp

theorem Adds.append {nodes' new' : List α} (h : Adds children marks log nodes new)
    (h' : Adds children marks (log ++ new) nodes' new') :
    Adds children marks log (nodes ++ nodes') (new ++ new') where
  grounded := List.forall_mem_append.mpr ⟨h.grounded, h'.grounded⟩
  reached := by
    refine List.forall_mem_append.mpr ⟨fun b hb => ?_, fun b hb => ?_⟩
    · obtain ⟨a, ha, hreach⟩ := h.reached b hb
      exact ⟨a, List.mem_append_left _ ha, hreach⟩
    · obtain ⟨a, ha, hreach⟩ := h'.reached b hb
      exact ⟨a, List.mem_append_right _ ha, hreach⟩
  covers := by
    rw [← List.append_assoc]
    exact List.forall_mem_append.mpr
      ⟨fun a ha => List.mem_append_left _ (h.covers a ha), h'.covers⟩
  closed := by
    rw [← List.append_assoc]
    exact List.forall_mem_append.mpr
      ⟨fun b hb c hc => List.mem_append_left _ (h.closed b hb c hc), h'.closed⟩
  once b hb := by
    obtain ⟨hcount, hlog⟩ := h.once b hb
    obtain ⟨hcount', hlog'⟩ := h'.once b hb
    rw [List.count_append]
    constructor
    · by_cases hnew : b ∈ new
      · rw [List.count_eq_zero.mpr (hlog' (List.mem_append_right _ hnew))]
        exact hcount
      · rw [List.count_eq_zero.mpr hnew, Nat.zero_add]
        exact hcount'
    · intro hmem
      exact List.not_mem_append (hlog hmem) (hlog' (List.mem_append_left _ hmem))
  again b hb := by
    rw [List.count_append, List.count_append, List.flatMap_append, List.count_append,
      h.again b hb, h'.again b hb]
    omega

theorem Adds.skip (hmarks : marks a) (hlog : a ∈ log) : Adds children marks log [a] [] where
  grounded := by simp
  reached := by simp
  covers := by simpa using hlog
  closed := by simp
  once := by simp
  again b hb := by
    have hne : a ≠ b := fun h => hb (h ▸ hmarks)
    simp [hne]

theorem Adds.record (hlog : ∀ b ∈ log, Grounded children b) (hnew : ¬ (marks a ∧ a ∈ log))
    (h : Adds children marks log (children a) new) :
    Adds children marks log [a] (new ++ [a]) := by
  have hgrounded : Grounded children a := ⟨a, fun b hb =>
    List.forall_mem_append.mpr ⟨hlog, h.grounded⟩ b (h.covers b hb)⟩
  have hnot : a ∉ new := by
    intro hmem
    obtain ⟨b, hb, hreach⟩ := h.reached a hmem
    exact hgrounded.not_cycle (Relation.TransGen.head' hb hreach)
  refine ⟨?_, ?_, ?_, ?_, ?_, ?_⟩
  · exact List.forall_mem_append.mpr ⟨h.grounded, List.forall_mem_singleton.mpr hgrounded⟩
  · refine List.forall_mem_append.mpr ⟨fun b hb => ?_, List.forall_mem_singleton.mpr ?_⟩
    · obtain ⟨c, hc, hreach⟩ := h.reached b hb
      exact ⟨a, List.mem_singleton_self a, .head hc hreach⟩
    · exact ⟨a, List.mem_singleton_self a, .refl⟩
  · simp
  · rw [← List.append_assoc]
    refine List.forall_mem_append.mpr ⟨fun b hb c hc => ?_, List.forall_mem_singleton.mpr ?_⟩
    · exact List.mem_append_left _ (h.closed b hb c hc)
    · exact fun c hc => List.mem_append_left _ (h.covers c hc)
  · intro b hb
    obtain ⟨hcount, hmem⟩ := h.once b hb
    by_cases hab : b = a
    · subst hab
      refine ⟨?_, fun hlog => absurd ⟨hb, hlog⟩ hnew⟩
      rw [List.count_append, List.count_eq_zero.mpr hnot, List.count_singleton_self]
    · refine ⟨?_, fun hlog => List.not_mem_append (hmem hlog) (by simpa using hab)⟩
      have hsingle : [a].count b = 0 := List.count_eq_zero.mpr (by simpa using hab)
      rw [List.count_append, hsingle]
      exact hcount
  · intro b hb
    rw [List.count_append, List.flatMap_append, List.count_append, h.again b hb,
      List.flatMap_singleton]
    omega

end adds

/-! ## Section 3: Visits -/

section visits

variable (marks : α → Prop) [DecidableEq α] [DecidablePred marks]

/-- The nodes recorded after a visit of `a`; `none` if the visit is nested deeper than
    `depth`. -/
def visit : Nat → List α → α → Option (List α)
  | 0, _, _ => none
  | depth + 1, log, a =>
    if marks a ∧ a ∈ log then some log
    else ((children a).foldlM (visit depth) log).map (· ++ [a])

variable {children} {marks} {log : List α} {a : α}

theorem visit_adds {depth : Nat} {log' : List α} (hlog : ∀ b ∈ log, Grounded children b)
    (h : visit children marks depth log a = some log') :
    ∃ new, log' = log ++ new ∧ Adds children marks log [a] new := by
  induction depth generalizing log log' a with
  | zero => cases h
  | succ depth ih =>
    have hfold : ∀ nodes log log', (∀ b ∈ log, Grounded children b) →
        nodes.foldlM (visit children marks depth) log = some log' →
        ∃ new, log' = log ++ new ∧ Adds children marks log nodes new := by
      intro nodes
      induction nodes with
      | nil =>
        intro log log' _ hfold
        cases hfold
        exact ⟨[], (List.append_nil _).symm, .nil _⟩
      | cons b nodes ihnodes =>
        intro log log' hlog hfold
        obtain ⟨log₁, hvisit, hfold⟩ := Option.bind_eq_some_iff.mp hfold
        obtain ⟨new, rfl, hadds⟩ := ih hlog hvisit
        obtain ⟨new', rfl, hadds'⟩ :=
          ihnodes _ _ (List.forall_mem_append.mpr ⟨hlog, hadds.grounded⟩) hfold
        exact ⟨new ++ new', List.append_assoc _ _ _, hadds.append hadds'⟩
    rw [visit] at h
    by_cases hmarked : marks a ∧ a ∈ log
    · rw [if_pos hmarked] at h
      cases h
      exact ⟨[], (List.append_nil _).symm, .skip hmarked.1 hmarked.2⟩
    · rw [if_neg hmarked] at h
      obtain ⟨log₁, hchildren, rfl⟩ := Option.map_eq_some_iff.mp h
      obtain ⟨new, rfl, hadds⟩ := hfold _ _ _ hlog hchildren
      exact ⟨new ++ [a], List.append_assoc _ _ _, hadds.record hlog hmarked⟩

theorem exists_visit (marks : α → Prop) [DecidablePred marks] (h : Grounded children a) :
    ∃ n, ∀ depth, n ≤ depth → ∀ log, (visit children marks depth log a).isSome := by
  induction h with
  | intro a _ ih =>
    have hbound : ∀ nodes : List α, (∀ b ∈ nodes, b ∈ children a) → ∃ n, ∀ depth, n ≤ depth → ∀ log,
        (nodes.foldlM (visit children marks depth) log).isSome := by
      intro nodes
      induction nodes with
      | nil => exact fun _ => ⟨0, fun _ _ _ => rfl⟩
      | cons b nodes ihnodes =>
        intro hnodes
        obtain ⟨hb, hnodes⟩ := List.forall_mem_cons.mp hnodes
        obtain ⟨n, hn⟩ := ih b hb
        obtain ⟨n', hn'⟩ := ihnodes hnodes
        refine ⟨max n n', fun depth hdepth log => ?_⟩
        obtain ⟨log', hvisit⟩ := Option.isSome_iff_exists.mp (hn depth (by omega) log)
        rw [List.foldlM_cons, hvisit]
        exact hn' depth (by omega) log'
    obtain ⟨n, hn⟩ := hbound (children a) fun _ hb => hb
    refine ⟨n + 1, fun depth hdepth log => ?_⟩
    obtain ⟨depth, rfl⟩ : ∃ k, depth = k + 1 := ⟨depth - 1, by omega⟩
    rw [visit]
    by_cases hmarked : marks a ∧ a ∈ log
    · rw [if_pos hmarked]
      rfl
    · rw [if_neg hmarked, Option.isSome_map]
      exact hn depth (by omega) log

/-- What a traversal from nothing records. -/
structure Complete (children : α → List α) (marks : α → Prop) (root : α) (log : List α) :
    Prop where
  grounded : Grounded children root
  mem_iff : ∀ b, b ∈ log ↔ Reach children root b
  once : ∀ b, marks b → log.count b ≤ 1
  again : ∀ b, ¬ marks b → log.count b = [root].count b + (log.flatMap children).count b

theorem visit_complete {depth : Nat} {root : α}
    (h : visit children marks depth [] root = some log) : Complete children marks root log := by
  obtain ⟨new, hlog, hadds⟩ := visit_adds (fun b hb => (List.not_mem_nil hb).elim) h
  obtain rfl : log = new := hlog
  have hroot : root ∈ log := hadds.covers root (List.mem_singleton_self root)
  refine ⟨hadds.grounded root hroot, ?_, fun b hb => (hadds.once b hb).1, hadds.again⟩
  intro b
  constructor
  · intro hb
    obtain ⟨a, ha, hreach⟩ := hadds.reached b hb
    rwa [List.mem_singleton.mp ha] at hreach
  · intro hreach
    induction hreach with
    | refl => exact hroot
    | tail _ hedge ih => exact hadds.closed _ ih _ hedge

theorem visit_isSome_iff [Finite α] (marks : α → Prop) [DecidablePred marks] (root : α) :
    (∃ depth log, visit children marks depth [] root = some log) ↔
      ∀ b, Reach children root b → ¬ TransGen (Edge children) b b := by
  rw [← grounded_iff]
  constructor
  · intro ⟨depth, log, h⟩
    exact (visit_complete h).grounded
  · intro h
    obtain ⟨n, hn⟩ := exists_visit marks h
    exact ⟨n, Option.isSome_iff_exists.mp (hn n (Nat.le_refl n) [])⟩

end visits

/-! ## Section 4: Nodes recorded once -/

section once

variable {children} {marks : α → Prop} [DecidableEq α] {log : List α} {root : α}

/-- `b` can be reached from `a` through nodes that are not marked. -/
abbrev Through (children : α → List α) (marks : α → Prop) : α → α → Prop :=
  ReflTransGen fun a b => Edge children a b ∧ ¬ marks b

/-- At most one edge from what `root` reaches ends at `b`. -/
def SingleParent (children : α → List α) (root b : α) : Prop :=
  ∀ a a', Reach children root a → Reach children root a' → Edge children a b →
    Edge children a' b → a = a' ∧ (children a).count b ≤ 1

theorem le_count_flatMap {a : α} (b : α) :
    log.count a * (children a).count b ≤ (log.flatMap children).count b := by
  induction log with
  | nil => simp
  | cons c log ih =>
    rw [List.flatMap_cons, List.count_append, List.count_cons]
    by_cases hc : c = a
    · subst hc
      rw [beq_self_eq_true, if_pos rfl, Nat.add_mul]
      omega
    · rw [if_neg (by simpa using hc), Nat.add_zero]
      omega

theorem count_flatMap_eq {a b : α} (h : ∀ c ∈ log, b ∈ children c → c = a) :
    (log.flatMap children).count b = log.count a * (children a).count b := by
  induction log with
  | nil => simp
  | cons c log ih =>
    obtain ⟨hc, hlog⟩ := List.forall_mem_cons.mp h
    rw [List.flatMap_cons, List.count_append, List.count_cons, ih hlog]
    by_cases hca : c = a
    · subst hca
      rw [beq_self_eq_true, if_pos rfl, Nat.add_mul]
      omega
    · rw [if_neg (by simpa using hca), List.count_eq_zero.mpr fun hb => hca (hc hb),
        Nat.zero_add, Nat.add_zero]

theorem two_le_count_flatMap {a a' b : α} (ha : a ∈ log) (ha' : a' ∈ log) (hne : a ≠ a')
    (hb : b ∈ children a) (hb' : b ∈ children a') : 2 ≤ (log.flatMap children).count b := by
  obtain ⟨front, rest, rfl⟩ := List.append_of_mem ha
  have hpos : 0 < (children a).count b := List.count_pos_iff.mpr hb
  have hother : ∀ part : List α, a' ∈ part → 0 < (part.flatMap children).count b :=
    fun part hmem => List.count_pos_iff.mpr (List.mem_flatMap.mpr ⟨a', hmem, hb'⟩)
  rw [List.flatMap_append, List.flatMap_cons, List.count_append, List.count_append]
  obtain hfront | hrest := List.mem_append.mp ha'
  · have := hother front hfront
    omega
  · obtain heq | hrest := List.mem_cons.mp hrest
    · exact absurd heq.symm hne
    · have := hother rest hrest
      omega

namespace Complete

theorem count_le (h : Complete children marks root log) {a b : α}
    (hthrough : Through children marks a b) : log.count a ≤ log.count b := by
  induction hthrough with
  | refl => exact Nat.le_refl _
  | @tail b c _ hstep ih =>
    obtain ⟨hedge, hmarks⟩ := hstep
    have hpos : 0 < (children b).count c := List.count_pos_iff.mpr hedge
    calc log.count a ≤ log.count b := ih
      _ ≤ log.count b * (children b).count c := Nat.le_mul_of_pos_right _ hpos
      _ ≤ (log.flatMap children).count c := le_count_flatMap c
      _ ≤ log.count c := by
        rw [h.again c hmarks]
        omega

theorem two_le_count (h : Complete children marks root log) {a : α} (hmarks : ¬ marks a)
    (hparents : ¬ SingleParent children root a) : 2 ≤ log.count a := by
  have hflat : 2 ≤ (log.flatMap children).count a := by
    unfold SingleParent at hparents
    push Not at hparents
    obtain ⟨b, b', hb, hb', hedge, hedge', hcount⟩ := hparents
    have hmem := (h.mem_iff b).mpr hb
    by_cases heq : b = b'
    · have hpos : 0 < log.count b := List.count_pos_iff.mpr hmem
      have htwo := hcount heq
      calc 2 ≤ (children b).count a := htwo
        _ ≤ log.count b * (children b).count a := Nat.le_mul_of_pos_left _ hpos
        _ ≤ (log.flatMap children).count a := le_count_flatMap a
    · exact two_le_count_flatMap hmem ((h.mem_iff b').mpr hb') heq hedge hedge'
  rw [h.again a hmarks]
  omega

/-- If all nodes on the way to it that are not marked have a single parent, a node is
    recorded at most once. -/
theorem count_le_one [Finite α] (h : Complete children marks root log) {b : α}
    (hparents : ∀ a, Reach children root a → ¬ marks a → Through children marks a b →
      SingleParent children root a)
    {a : α} (ha : Reach children root a) (hmarks : ¬ marks a)
    (hthrough : Through children marks a b) : log.count a ≤ 1 := by
  -- by induction from the root downwards
  let above : α → α → Prop := fun a c => Reach children root a ∧ TransGen (Edge children) a c
  have htrans : IsTrans α above := ⟨fun x y z hxy hyz => ⟨hxy.1, hxy.2.trans hyz.2⟩⟩
  have hirrefl : Std.Irrefl above :=
    ⟨fun c hc => (h.grounded.reach hc.1).not_cycle hc.2⟩
  have hwf : WellFounded above := Finite.wellFounded_of_trans_of_irrefl above
  induction hwf.apply a with
  | intro a _ ih =>
    rw [h.again a hmarks]
    by_cases hparent : ∃ c, Reach children root c ∧ Edge children c a
    · obtain ⟨c, hc, hedge⟩ := hparent
      have hsingle := hparents a ha hmarks hthrough
      have hroot : root ≠ a := by
        rintro rfl
        exact h.grounded.not_cycle (Relation.TransGen.tail' hc hedge)
      have hcount : log.count c ≤ 1 := by
        by_cases hcmarks : marks c
        · exact h.once c hcmarks
        · exact ih c ⟨hc, .single hedge⟩ hc hcmarks (.head ⟨hedge, hmarks⟩ hthrough)
      have hnone : [root].count a = 0 := List.count_eq_zero.mpr (by simpa using hroot.symm)
      have honly : ∀ d ∈ log, a ∈ children d → d = c := fun d hd hda =>
        (hsingle d c ((h.mem_iff d).mp hd) hc hda hedge).1
      rw [hnone, Nat.zero_add, count_flatMap_eq honly]
      exact (Nat.mul_le_mul hcount (hsingle c c hc hc hedge hedge).2).trans_eq (Nat.one_mul 1)
    · have hnone : (log.flatMap children).count a = 0 := by
        rw [List.count_eq_zero, List.mem_flatMap]
        exact fun ⟨c, hc, hedge⟩ => hparent ⟨c, (h.mem_iff c).mp hc, hedge⟩
      rw [hnone, Nat.add_zero]
      exact List.count_le_length

/-- The nodes that matter are recorded once each exactly if the nodes that are not marked
    and lead to one of them through others that are not marked have a single parent. -/
theorem once_iff [Finite α] (h : Complete children marks root log) (matters : α → Prop) :
    (∀ b, Reach children root b → matters b → log.count b = 1) ↔
      ∀ a, Reach children root a → ¬ marks a → (∃ b, matters b ∧ Through children marks a b) →
        SingleParent children root a := by
  constructor
  · intro honce a ha hmarks ⟨b, hmatters, hthrough⟩
    by_contra hparents
    have hedges : (fun a b => Edge children a b ∧ ¬ marks b) ≤ Edge children :=
      fun _ _ hstep => hstep.1
    have hreach : Reach children root b :=
      ha.trans (Relation.ReflTransGen.mono hedges a b hthrough)
    have hone := honce b hreach hmatters
    have htwo := h.two_le_count hmarks hparents
    have hle := h.count_le hthrough
    omega
  · intro hparents b hb hmatters
    have hpos : 0 < log.count b := List.count_pos_iff.mpr ((h.mem_iff b).mpr hb)
    have hle : log.count b ≤ 1 := by
      by_cases hmarks : marks b
      · exact h.once b hmarks
      · exact h.count_le_one (fun a ha hmarks hthrough =>
          hparents a ha hmarks ⟨b, hmatters, hthrough⟩) hb hmarks .refl
    omega

end Complete

end once

end Fennix.Traversal
