import Fennix.Core.Lock
import Fennix.Framework.Tally

/-! # Mutual exclusion of spin locks

    `Ledger` is what `LockClass` is for: which context has won which lock, and two
    counters that follow with some delay. Every step of `Lock` and `Unlock` is a step
    of the ledger or changes nothing there (`ledger_step`), as long as no deadlock is
    resolved by force. Mutual exclusion and the counters are read off the ledger.
-/

namespace Fennix.Core.Lock

open Function (update update_of_ne update_self update_eq_self)

/-! ## Section 1: The ledger -/

/-- Which pairs of a context and a lock have won the flag, are in `Count` of the lock,
    and are in `LocksCount`. -/
@[ext]
structure Ledger (Context Lock : Type*) where
  isLocked : Lock → Bool
  count : Lock → BitVec 64
  locksCount : BitVec 64
  acquired : Set (Context × Lock)
  counted : Set (Context × Lock)
  tallied : Set (Context × Lock)

namespace Ledger

variable {Context Lock : Type*} [DecidableEq Lock]

/-- What can happen to a pair. -/
inductive Step : Ledger Context Lock → Ledger Context Lock → Prop where
  | idle {v} : Step v v
  | acquire {v} (c l) (hfree : v.isLocked l = false) :
    Step v { v with
      isLocked := update v.isLocked l true
      acquired := insert (c, l) v.acquired }
  | release {v} (c l) (hwon : (c, l) ∈ v.acquired) :
    Step v { v with
      isLocked := update v.isLocked l false
      acquired := v.acquired \ {(c, l)} }
  | count {v} (c l) (hnew : (c, l) ∉ v.counted) :
    Step v { v with
      count := update v.count l (v.count l + 1)
      counted := insert (c, l) v.counted }
  | uncount {v} (c l) (hin : (c, l) ∈ v.counted) :
    Step v { v with
      count := update v.count l (v.count l - 1)
      counted := v.counted \ {(c, l)} }
  | tally {v} (c l) (hnew : (c, l) ∉ v.tallied) :
    Step v { v with
      locksCount := v.locksCount + 1
      tallied := insert (c, l) v.tallied }
  | untally {v} (c l) (hin : (c, l) ∈ v.tallied) :
    Step v { v with
      locksCount := v.locksCount - 1
      tallied := v.tallied \ {(c, l)} }

/-- The invariant of the ledger. -/
structure Balanced (v : Ledger Context Lock) : Prop where
  locked : ∀ {c l}, (c, l) ∈ v.acquired → v.isLocked l = true
  exclusive : ∀ {c d l}, (c, l) ∈ v.acquired → (d, l) ∈ v.acquired → c = d
  count : ∀ l, Tally (v.count l) {p ∈ v.counted | p.2 = l}
  locksCount : Tally v.locksCount v.tallied

variable {v v' : Ledger Context Lock}

theorem Balanced.acquire (h : Balanced v) {c : Context} {l : Lock} (hfree : v.isLocked l = false) :
    Balanced { v with
      isLocked := update v.isLocked l true
      acquired := insert (c, l) v.acquired } where
  locked := by
    intro d k hd
    by_cases hk : k = l
    · simp [hk]
    · show update v.isLocked l true k = true
      rw [update_of_ne hk]
      exact h.locked (hd.resolve_left fun heq => hk (Prod.mk.inj heq).2)
  exclusive := by
    intro d e k hd he
    -- No pair has won a lock whose flag is clear.
    have hnone : ∀ x, (x, l) ∉ v.acquired := fun x hx => by
      simp [h.locked hx] at hfree
    rcases hd with hd | hd <;> rcases he with he | he
    · rw [(Prod.mk.inj hd).1, (Prod.mk.inj he).1]
    · rw [(Prod.mk.inj hd).2] at he
      exact absurd he (hnone e)
    · rw [(Prod.mk.inj he).2] at hd
      exact absurd hd (hnone d)
    · exact h.exclusive hd he
  count := h.count
  locksCount := h.locksCount

theorem Balanced.release (h : Balanced v) {c : Context} {l : Lock} (hwon : (c, l) ∈ v.acquired) :
    Balanced { v with
      isLocked := update v.isLocked l false
      acquired := v.acquired \ {(c, l)} } where
  locked := by
    rintro d k ⟨hd, hne⟩
    by_cases hk : k = l
    · subst hk
      exact absurd (congrArg (·, k) (h.exclusive hd hwon)) hne
    · show update v.isLocked l false k = true
      rw [update_of_ne hk]
      exact h.locked hd
  exclusive := fun hd he => h.exclusive hd.1 he.1
  count := h.count
  locksCount := h.locksCount

theorem Balanced.step (h : Balanced v) (hstep : Step v v') : Balanced v' := by
  cases hstep with
  | idle => exact h
  | acquire c l hfree => exact h.acquire hfree
  | release c l hwon => exact h.release hwon
  | count c l hnew => exact { h with count := Tally.insert_key h.count hnew }
  | uncount c l hin => exact { h with count := Tally.erase_key h.count hin }
  | tally c l hnew => exact { h with locksCount := h.locksCount.insert hnew }
  | untally c l hin => exact { h with locksCount := h.locksCount.erase hin }

end Ledger

/-! ## Section 2: The ledger of a state -/

/-- The lock that a context inside `Lock` or `Unlock` has won and not released. -/
def Pc.acquired : Pc → Option Address
  | .addCount call | .storeCurrentHolder call | .storeStackPointerHolder call
  | .storeCore call | .addLocksCount call => some call.lock
  | .storeIsLocked l _ => some l
  | _ => none

/-- The lock in whose `Count` a context inside `Lock` or `Unlock` is. -/
def Pc.counted : Pc → Option Address
  | .storeCurrentHolder call | .storeStackPointerHolder call
  | .storeCore call | .addLocksCount call => some call.lock
  | .storeIsLocked l _ | .subCount l _ => some l
  | _ => none

/-- The lock for which a context inside `Unlock` is in `LocksCount`. -/
def Pc.tallied : Pc → Option Address
  | .storeIsLocked l _ | .subCount l _ | .subLocksCount l _ => some l
  | _ => none

/-- What holds of a context with these locks: it is not about to acquire or release a
    lock it still has, its loop counter is below the timeout, and no `Unlock` was
    called by `DeadLock`. -/
def Pc.Sound (cfg : Config) (held : Finset Address) : Pc → Prop
  | .addCount call | .storeCurrentHolder call | .storeStackPointerHolder call
  | .storeCore call | .addLocksCount call => call.lock ∉ held
  | .storeIsLocked l retry | .subCount l retry | .subLocksCount l retry => l ∉ held ∧ retry = none
  | .exchange _ i => i < cfg.deadLockTimeout
  | .clearDeadLocks _ => False
  | _ => True

variable {Context : Type*}

namespace State

/-- The locks of a context: those it holds, and the one that `f` reads off its `Pc`. -/
def mine (s : State Context) (f : Pc → Option Address) (c : Context) : Set Address :=
  {l | l ∈ s.holds c ∨ f (s.pc c) = some l}

/-- The locks of all contexts. -/
def pairs (s : State Context) (f : Pc → Option Address) : Set (Context × Address) :=
  {p | p.2 ∈ s.mine f p.1}

/-- The ledger of a state. -/
def ledger (s : State Context) : Ledger Context Address where
  isLocked := LockClass.isLocked ∘ s.locks
  count := (fun lc => lc.lockData.count) ∘ s.locks
  locksCount := s.locksCount
  acquired := s.pairs Pc.acquired
  counted := s.pairs Pc.counted
  tallied := s.pairs Pc.tallied

/-- Only `c` has moved. -/
def Moves (c : Context) (s s' : State Context) : Prop :=
  ∀ d, d ≠ c → s'.pc d = s.pc d ∧ s'.holds d = s.holds d

variable {s s' : State Context} {c : Context} {f : Pc → Option Address} {l : Address}

theorem Moves.mine_eq (h : Moves c s s') {d : Context} (hd : d ≠ c) :
    s'.mine f d = s.mine f d := by
  simp only [mine, h d hd]

theorem Moves.pairs_eq (h : Moves c s s') (hmine : s'.mine f c = s.mine f c) :
    s'.pairs f = s.pairs f := by
  ext ⟨d, k⟩
  by_cases hd : d = c
  · subst hd
    exact iff_of_eq (congrArg (k ∈ ·) hmine)
  · exact iff_of_eq (congrArg (k ∈ ·) (h.mine_eq hd))

theorem Moves.pairs_insert (h : Moves c s s') (hmine : s'.mine f c = insert l (s.mine f c)) :
    s'.pairs f = insert (c, l) (s.pairs f) := by
  ext ⟨d, k⟩
  by_cases hd : d = c
  · subst hd
    simp [pairs, hmine]
  · simp [pairs, h.mine_eq hd, hd]

theorem Moves.pairs_erase (h : Moves c s s') (hmine : s'.mine f c = s.mine f c \ {l}) :
    s'.pairs f = s.pairs f \ {(c, l)} := by
  ext ⟨d, k⟩
  by_cases hd : d = c
  · subst hd
    simp [pairs, hmine]
  · simp [pairs, h.mine_eq hd, hd]

section Accesses

variable [DecidableEq Context] {next : Pc}

theorem moves_goTo (s : State Context) (c : Context) (next : Pc) : Moves c s (s.goTo c next) :=
  fun _ hd => ⟨update_of_ne hd _ _, rfl⟩

omit [DecidableEq Context] in
theorem not_mem_pairs (hheld : l ∉ s.holds c) (hnone : f (s.pc c) = none) :
    (c, l) ∉ s.pairs f := by
  rintro (hmem | hmem)
  · exact hheld hmem
  · cases hnone.symm.trans hmem

theorem pairs_goTo_same (h : f next = f (s.pc c)) : (s.goTo c next).pairs f = s.pairs f := by
  refine (moves_goTo s c next).pairs_eq ?_
  simp [mine, goTo, h]

theorem pairs_goTo_some (hnone : f (s.pc c) = none) (hsome : f next = some l) :
    (s.goTo c next).pairs f = insert (c, l) (s.pairs f) := by
  refine (moves_goTo s c next).pairs_insert ?_
  ext k
  simp [mine, goTo, hnone, hsome, or_comm, eq_comm]

theorem pairs_goTo_none (hsome : f (s.pc c) = some l) (hnone : f next = none)
    (hheld : l ∉ s.holds c) : (s.goTo c next).pairs f = s.pairs f \ {(c, l)} := by
  refine (moves_goTo s c next).pairs_erase ?_
  ext k
  simp only [mine, goTo, update_self, hnone, hsome, Set.mem_sdiff]
  constructor
  · rintro (hk | hk)
    · exact ⟨.inl hk, fun heq => hheld (heq ▸ hk)⟩
    · cases hk
  · rintro ⟨hk | hk, hne⟩
    · exact .inl hk
    · exact absurd (Option.some.inj hk).symm hne

theorem ledger_modify_goTo (s : State Context) (l : Address) (g : LockClass → LockClass)
    (c : Context) (next : Pc) :
    ((s.modify l g).goTo c next).ledger =
      { isLocked := update s.ledger.isLocked l (g (s.locks l)).isLocked
        count := update s.ledger.count l (g (s.locks l)).lockData.count
        locksCount := s.locksCount
        acquired := (s.goTo c next).pairs Pc.acquired
        counted := (s.goTo c next).pairs Pc.counted
        tallied := (s.goTo c next).pairs Pc.tallied } := by
  ext1
  · exact Function.comp_update LockClass.isLocked s.locks l _
  · exact Function.comp_update (fun lc : LockClass => lc.lockData.count) s.locks l _
  all_goals rfl

/-- The next access concerns the same locks as the last. -/
def SameLocks (pc next : Pc) : Prop :=
  next.acquired = pc.acquired ∧ next.counted = pc.counted ∧ next.tallied = pc.tallied

theorem ledger_goTo (h : SameLocks (s.pc c) next) : (s.goTo c next).ledger = s.ledger := by
  obtain ⟨ha, hc, ht⟩ := h
  ext1
  · rfl
  · rfl
  · rfl
  · exact pairs_goTo_same ha
  · exact pairs_goTo_same hc
  · exact pairs_goTo_same ht

theorem ledger_modify_goTo_same {g : LockClass → LockClass} (h : SameLocks (s.pc c) next)
    (hlocked : (g (s.locks l)).isLocked = (s.locks l).isLocked)
    (hcount : (g (s.locks l)).lockData.count = (s.locks l).lockData.count) :
    ((s.modify l g).goTo c next).ledger = s.ledger := by
  obtain ⟨ha, hc, ht⟩ := h
  rw [ledger_modify_goTo, pairs_goTo_same ha, pairs_goTo_same hc, pairs_goTo_same ht, hlocked,
    hcount]
  ext1
  · exact update_eq_self _ _
  · exact update_eq_self _ _
  all_goals rfl

end Accesses

end State

/-! ## Section 3: Every step is a step of the ledger -/

/-- The configurations in which no deadlock is resolved by force. -/
def patient (debug : Bool) : Config :=
  { debug := debug
    forceUnlock := false
    unlockDeadLock := false }

variable {debug : Bool} [DecidableEq Context] {s s' : State Context} {c : Context}

/-- The invariant of a context holds of all. -/
def State.Sound (debug : Bool) (s : State Context) : Prop :=
  ∀ c, (s.pc c).Sound (patient debug) (s.holds c)

omit [DecidableEq Context] in
theorem State.Sound.of_moves (h : s.Sound debug) (hmove : State.Moves c s s')
    (hc : (s'.pc c).Sound (patient debug) (s'.holds c)) : s'.Sound debug := by
  intro d
  by_cases hd : d = c
  · rw [hd]
    exact hc
  · rw [(hmove d hd).1, (hmove d hd).2]
    exact h d

omit [DecidableEq Context] in
theorem State.Sound.at_pc (h : s.Sound debug) {pc : Pc} (hpc : s.pc c = pc) :
    pc.Sound (patient debug) (s.holds c) := hpc ▸ h c

/-- The result of a step: the contexts are still sound, and the ledger has made a step. -/
def Follows (debug : Bool) (s s' : State Context) : Prop :=
  s'.Sound debug ∧ Ledger.Step s.ledger s'.ledger

namespace State

variable {next : Pc} {l : Address} {call : Call}

theorem Sound.goTo (h : s.Sound debug) {t : State Context} (hpc : t.pc = s.pc)
    (hholds : t.holds = s.holds) (hnext : next.Sound (patient debug) (s.holds c)) :
    (t.goTo c next).Sound debug := by
  refine h.of_moves (c := c) (fun d hd => ⟨?_, ?_⟩) ?_
  · rw [← hpc]
    exact update_of_ne hd _ _
  · rw [← hholds]
    rfl
  · show (update t.pc c next c).Sound (patient debug) (t.holds c)
    rw [update_self, hholds]
    exact hnext

variable (h : s.Sound debug) (core : Option (BitVec 64))

include h

theorem follows_goTo (hnext : next.Sound (patient debug) (s.holds c))
    (hsame : SameLocks (s.pc c) next) : Follows debug s (s.goTo c next) := by
  refine ⟨h.goTo rfl rfl hnext, ?_⟩
  rw [ledger_goTo hsame]
  exact .idle

theorem follows_modify {g : LockClass → LockClass}
    (hnext : next.Sound (patient debug) (s.holds c)) (hsame : SameLocks (s.pc c) next)
    (hlocked : (g (s.locks l)).isLocked = (s.locks l).isLocked)
    (hcount : (g (s.locks l)).lockData.count = (s.locks l).lockData.count) :
    Follows debug s ((s.modify l g).goTo c next) := by
  refine ⟨h.goTo rfl rfl hnext, ?_⟩
  rw [ledger_modify_goTo_same hsame hlocked hcount]
  exact .idle

/-- `IsLocked.exchange(true)`: the lock is won, or nothing changes and the context goes
    around its loop or into `DeadLock`. -/
theorem follows_exchange (hb : s.ledger.Balanced) {i : Nat}
    (hpc : s.pc c = .exchange call i) :
    Follows debug s (s.access (patient debug) core c (.exchange call i)) := by
  have hi : i < (patient debug).deadLockTimeout := h.at_pc hpc
  cases hlocked : (s.locks call.lock).isLocked with
  | false =>
    have hnext : afterExchange (patient debug) call i false = .addCount call := by
      simp [afterExchange, afterLoop, hi]
    have hheld : call.lock ∉ s.holds c := by
      intro hmem
      have := hb.locked (c := c) (l := call.lock) (.inl hmem)
      exact absurd (hlocked.symm.trans this) (by decide)
    simp only [access, hlocked, hnext]
    refine ⟨h.goTo rfl rfl hheld, ?_⟩
    have hledger := Ledger.Step.acquire (v := s.ledger) c call.lock hlocked
    rw [ledger_modify_goTo, pairs_goTo_some (by rw [hpc]; rfl) rfl,
      pairs_goTo_same (by rw [hpc]; rfl), pairs_goTo_same (by rw [hpc]; rfl)]
    show Ledger.Step _ { isLocked := _, count := update s.ledger.count _ (s.ledger.count _), .. }
    rw [update_eq_self]
    exact hledger
  | true =>
    simp only [access, hlocked]
    by_cases hmore : i + 1 < (patient debug).deadLockTimeout
    · have hnext : afterExchange (patient debug) call i true = .exchange call (i + 1) := by
        simp [afterExchange, hmore]
      rw [hnext]
      exact follows_modify h hmore (by rw [hpc]; exact ⟨rfl, rfl, rfl⟩) hlocked.symm rfl
    · have hnext : afterExchange (patient debug) call i true = .deadLock call := by
        simp [afterExchange, afterLoop, hmore, Nat.not_lt.mp hmore]
      rw [hnext]
      exact follows_modify h trivial (by rw [hpc]; exact ⟨rfl, rfl, rfl⟩) hlocked.symm rfl

theorem follows_addCount (hpc : s.pc c = .addCount call) :
    Follows debug s (s.access (patient debug) core c (.addCount call)) := by
  have hheld : call.lock ∉ s.holds c := h.at_pc hpc
  have hnew : (c, call.lock) ∉ s.ledger.counted := not_mem_pairs hheld (by rw [hpc]; rfl)
  refine ⟨h.goTo rfl rfl hheld, ?_⟩
  have hledger := Ledger.Step.count (v := s.ledger) c call.lock hnew
  simp only [access, modifyData]
  rw [ledger_modify_goTo, pairs_goTo_same (by rw [hpc]; rfl),
    pairs_goTo_some (by rw [hpc]; rfl) rfl, pairs_goTo_same (by rw [hpc]; rfl)]
  show Ledger.Step _ { isLocked := update s.ledger.isLocked _ (s.ledger.isLocked _), .. }
  rw [update_eq_self]
  exact hledger

theorem follows_addLocksCount (hpc : s.pc c = .addLocksCount call) :
    Follows debug s (s.access (patient debug) core c (.addLocksCount call)) := by
  have hheld : call.lock ∉ s.holds c := h.at_pc hpc
  have hnew : (c, call.lock) ∉ s.ledger.tallied := not_mem_pairs hheld (by rw [hpc]; rfl)
  have hmove : Moves c s (s.access (patient debug) core c (.addLocksCount call)) :=
    fun d hd => ⟨update_of_ne hd _ _, update_of_ne hd _ _⟩
  refine ⟨h.of_moves hmove ?_, ?_⟩
  · simp [access, goTo, Pc.Sound]
  · -- What the context was inside `Lock` for, it now holds.
    have hsame : ∀ f : Pc → Option Address, f (.addLocksCount call) = some call.lock →
        f .outside = none →
        (s.access (patient debug) core c (.addLocksCount call)).mine f c = s.mine f c := by
      intro f hf hout
      ext k
      simp [mine, access, goTo, hpc, hf, hout, or_comm, eq_comm]
    have hledger := Ledger.Step.tally (v := s.ledger) c call.lock hnew
    have heq : (s.access (patient debug) core c (.addLocksCount call)).ledger =
        { s.ledger with
          locksCount := s.ledger.locksCount + 1
          tallied := insert (c, call.lock) s.ledger.tallied } := by
      ext1
      · rfl
      · rfl
      · rfl
      · exact hmove.pairs_eq (hsame _ rfl rfl)
      · exact hmove.pairs_eq (hsame _ rfl rfl)
      · refine hmove.pairs_insert ?_
        ext k
        simp [mine, access, goTo, hpc, Pc.tallied, or_comm]
    rw [heq]
    exact hledger

theorem follows_unlock (hpc : s.pc c = .outside) (hheld : l ∈ s.holds c) :
    Follows debug s { s.goTo c (.storeIsLocked l none) with
      holds := update s.holds c ((s.holds c).erase l) } := by
  have hmove : Moves c s { s.goTo c (.storeIsLocked l none) with
      holds := update s.holds c ((s.holds c).erase l) } :=
    fun d hd => ⟨update_of_ne hd _ _, update_of_ne hd _ _⟩
  refine ⟨h.of_moves hmove ?_, ?_⟩
  · simp [goTo, Pc.Sound]
  · have hsame : ∀ f : Pc → Option Address, f .outside = none →
        f (.storeIsLocked l none) = some l →
        mine { s.goTo c (.storeIsLocked l none) with
          holds := update s.holds c ((s.holds c).erase l) } f c = s.mine f c := by
      intro f hout hf
      ext k
      simp only [mine, goTo, update_self, hpc, hout, hf, Finset.mem_erase]
      constructor
      · rintro (⟨_, hk⟩ | hk)
        · exact .inl hk
        · exact .inl (Option.some.inj hk ▸ hheld)
      · rintro (hk | hk)
        · exact (em (k = l)).elim (fun heq => .inr (congrArg some heq.symm))
            fun hne => .inl ⟨hne, hk⟩
        · cases hk
    have heq : State.ledger { s.goTo c (.storeIsLocked l none) with
        holds := update s.holds c ((s.holds c).erase l) } = s.ledger := by
      ext1
      · rfl
      · rfl
      · rfl
      all_goals exact hmove.pairs_eq (hsame _ rfl rfl)
    rw [heq]
    exact .idle

theorem follows_storeIsLocked (hpc : s.pc c = .storeIsLocked l none) :
    Follows debug s (s.access (patient debug) core c (.storeIsLocked l none)) := by
  have hheld := h.at_pc hpc
  have hwon : (c, l) ∈ s.ledger.acquired := .inr (by rw [hpc]; rfl)
  refine ⟨h.goTo rfl rfl hheld, ?_⟩
  have hledger := Ledger.Step.release (v := s.ledger) c l hwon
  simp only [access]
  rw [ledger_modify_goTo, pairs_goTo_none (by rw [hpc]; rfl) rfl hheld.1,
    pairs_goTo_same (by rw [hpc]; rfl), pairs_goTo_same (by rw [hpc]; rfl)]
  show Ledger.Step _ { isLocked := _, count := update s.ledger.count _ (s.ledger.count _), .. }
  rw [update_eq_self]
  exact hledger

theorem follows_subCount (hpc : s.pc c = .subCount l none) :
    Follows debug s (s.access (patient debug) core c (.subCount l none)) := by
  have hheld := h.at_pc hpc
  have hin : (c, l) ∈ s.ledger.counted := .inr (by rw [hpc]; rfl)
  refine ⟨h.goTo rfl rfl hheld, ?_⟩
  have hledger := Ledger.Step.uncount (v := s.ledger) c l hin
  simp only [access, modifyData]
  rw [ledger_modify_goTo, pairs_goTo_same (by rw [hpc]; rfl),
    pairs_goTo_none (by rw [hpc]; rfl) rfl hheld.1, pairs_goTo_same (by rw [hpc]; rfl)]
  show Ledger.Step _ { isLocked := update s.ledger.isLocked _ (s.ledger.isLocked _), .. }
  rw [update_eq_self]
  exact hledger

theorem follows_subLocksCount (hpc : s.pc c = .subLocksCount l none) :
    Follows debug s (s.access (patient debug) core c (.subLocksCount l none)) := by
  have hheld := h.at_pc hpc
  have hin : (c, l) ∈ s.ledger.tallied := .inr (by rw [hpc]; rfl)
  have hsound : (s.goTo c .outside).Sound debug := h.goTo rfl rfl trivial
  refine ⟨hsound, ?_⟩
  have hledger := Ledger.Step.untally (v := s.ledger) c l hin
  have heq : (s.access (patient debug) core c (.subLocksCount l none)).ledger =
      { s.ledger with
        locksCount := s.ledger.locksCount - 1
        tallied := s.ledger.tallied \ {(c, l)} } := by
    ext1
    · rfl
    · rfl
    · rfl
    · exact pairs_goTo_same (show Pc.acquired .outside = _ by rw [hpc]; rfl)
    · exact pairs_goTo_same (show Pc.counted .outside = _ by rw [hpc]; rfl)
    · exact pairs_goTo_none (by rw [hpc]; rfl) rfl hheld.1
  rw [heq]
  exact hledger

theorem follows_access (hb : s.ledger.Balanced) :
    Follows debug s (s.access (patient debug) core c (s.pc c)) := by
  cases hpc : s.pc c with
  | outside => exact ⟨h, .idle⟩
  | exchange call i => exact follows_exchange h core hb hpc
  | addCount call => exact follows_addCount h core hpc
  | addLocksCount call => exact follows_addLocksCount h core hpc
  | storeIsLocked l retry =>
    obtain rfl : retry = none := (h.at_pc hpc).2
    exact follows_storeIsLocked h core hpc
  | subCount l retry =>
    obtain rfl : retry = none := (h.at_pc hpc).2
    exact follows_subCount h core hpc
  | subLocksCount l retry =>
    obtain rfl : retry = none := (h.at_pc hpc).2
    exact follows_subLocksCount h core hpc
  | clearDeadLocks call => exact (h.at_pc hpc).elim
  | loadDeadLocks call =>
    -- The retry starts with the counter at zero.
    have hpos : 0 < (patient debug).deadLockTimeout := by cases debug <;> decide
    simp only [access, patient, Bool.false_eq_true, false_and, if_false]
    exact follows_goTo h hpos (by rw [hpc]; exact ⟨rfl, rfl, rfl⟩)
  | storeStackPointerAttempt call =>
    have hpos : 0 < (patient debug).deadLockTimeout := by cases debug <;> decide
    exact follows_modify h hpos (by rw [hpc]; exact ⟨rfl, rfl, rfl⟩) rfl rfl
  | storeAttemptingToGet | deadLock =>
    exact follows_modify h trivial (by rw [hpc]; exact ⟨rfl, rfl, rfl⟩) rfl rfl
  | storeCurrentHolder call | storeStackPointerHolder call =>
    have hheld : call.lock ∉ s.holds c := h.at_pc hpc
    exact follows_modify h hheld (by rw [hpc]; exact ⟨rfl, rfl, rfl⟩) rfl rfl
  | storeCore call =>
    have hheld : call.lock ∉ s.holds c := h.at_pc hpc
    cases core with
    | none => exact follows_goTo h hheld (by rw [hpc]; exact ⟨rfl, rfl, rfl⟩)
    | some id => exact follows_modify h hheld (by rw [hpc]; exact ⟨rfl, rfl, rfl⟩) rfl rfl

end State

/-- **Refinement**: every step of the system is a step of the ledger. -/
theorem ledger_step (h : s.Sound debug) (hb : s.ledger.Balanced) {action : Action Context}
    (hstep : (lockSystem (patient debug)).step s action s') : Follows debug s s' := by
  cases action with
  | lock c call =>
    obtain ⟨hpc, rfl⟩ := hstep
    exact State.follows_goTo h trivial (by rw [hpc]; exact ⟨rfl, rfl, rfl⟩)
  | unlock c l =>
    obtain ⟨hpc, hheld, rfl⟩ := hstep
    exact State.follows_unlock h hpc hheld
  | access c core =>
    obtain ⟨-, rfl⟩ := hstep
    exact State.follows_access h core hb

/-! ## Section 4: Mutual exclusion -/

/-- What every run keeps. -/
structure State.Accounted (debug : Bool) (s : State Context) : Prop where
  sound : s.Sound debug
  balanced : s.ledger.Balanced

theorem accounted_of_reachable (h : (lockSystem (patient debug)).Reachable s) :
    s.Accounted debug := by
  refine System.Reachable.invariant ?_ ?_ h
  · rintro s rfl
    have hnone : ∀ f : Pc → Option Address, f .outside = none →
        (State.new : State Context).pairs f = ∅ := by
      intro f hf
      ext p
      simp [State.pairs, State.mine, State.new, hf]
    refine ⟨fun _ => trivial, ⟨?_, ?_, ?_, ?_⟩⟩
    all_goals simp only [State.ledger, hnone Pc.acquired rfl, hnone Pc.counted rfl,
      hnone Pc.tallied rfl]
    · intro c l hmem
      exact hmem.elim
    · intro c d l hmem
      exact hmem.elim
    · intro l
      have hempty : {p ∈ (∅ : Set (Context × Address)) | p.2 = l} = ∅ := by simp
      rw [hempty]
      exact Tally.empty
    · exact Tally.empty
  · rintro s action s' ⟨hsound, hb⟩ hstep
    obtain ⟨hsound', hledger⟩ := ledger_step hsound hb hstep
    exact ⟨hsound', hb.step hledger⟩

/-- The locks that some context holds. -/
def State.held (s : State Context) : Set Address := {l | ∃ c, l ∈ s.holds c}

theorem ncard_lt (S : Set Address) : S.ncard < 2 ^ 64 := by
  have hle : S.ncard ≤ (Finset.range (2 ^ 61) : Set Nat).ncard := by
    refine Set.ncard_le_ncard_of_injOn (fun a => a.1 / 8) ?_ ?_ (Finset.finite_toSet _)
    · rintro ⟨a, ha, -⟩ -
      simp only [Finset.coe_range, Set.mem_Iio]
      omega
    · rintro ⟨a, -, ha⟩ - ⟨b, -, hb⟩ - (heq : a / 8 = b / 8)
      exact Subtype.ext (by change a = b; omega)
  rw [Set.ncard_coe_finset, Finset.card_range] at hle
  omega

omit [DecidableEq Context] in
theorem pairs_of_outside (hout : ∀ c, s.pc c = .outside) {f : Pc → Option Address}
    (hf : f .outside = none) : s.pairs f = {p | p.2 ∈ s.holds p.1} := by
  ext p
  simp [State.pairs, State.mine, hout, hf]

/-- **Spin locks.** Two contexts never hold one lock, whatever the interleaving and
    however often `Lock` times out. While no context is inside `Lock` or `Unlock`,
    `Count` says whether a lock is held, and `LocksCount` how many are. -/
theorem lock_mutual_exclusion (h : (lockSystem (patient debug)).Reachable s) :
    (∀ l c d, l ∈ s.holds c → l ∈ s.holds d → c = d) ∧
      ((∀ c, s.pc c = .outside) →
        (∀ l, (l ∈ s.held → (s.locks l).lockData.count = 1) ∧
          (l ∉ s.held → (s.locks l).lockData.count = 0)) ∧
        s.held.Finite ∧ s.locksCount.toNat = s.held.ncard) := by
  have hb := (accounted_of_reachable h).balanced
  have hexcl : ∀ l c d, l ∈ s.holds c → l ∈ s.holds d → c = d :=
    fun l c d hc hd => hb.exclusive (l := l) (.inl hc) (.inl hd)
  refine ⟨hexcl, fun hout => ⟨fun l => ⟨?_, ?_⟩, ?_⟩⟩
  · -- The only pair in the count of a held lock is the one that holds it.
    rintro ⟨c, hc⟩
    have hone : {p ∈ s.ledger.counted | p.2 = l} = {(c, l)} := by
      rw [show s.ledger.counted = _ from pairs_of_outside hout rfl]
      ext ⟨d, k⟩
      constructor
      · rintro ⟨hk, rfl⟩
        exact congrArg (·, k) (hexcl k d c hk hc)
      · rintro ⟨rfl, rfl⟩
        exact ⟨hc, rfl⟩
    have hcount := (hb.count l).2
    rw [hone, Set.ncard_singleton] at hcount
    exact hcount
  · intro hfree
    have hnone : {p ∈ s.ledger.counted | p.2 = l} = ∅ := by
      rw [show s.ledger.counted = _ from pairs_of_outside hout rfl]
      refine Set.eq_empty_of_forall_notMem ?_
      rintro ⟨d, k⟩ ⟨hk, rfl⟩
      exact hfree ⟨d, hk⟩
    have hcount := (hb.count l).2
    rw [hnone, Set.ncard_empty] at hcount
    exact hcount
  · have htally := hb.locksCount
    rw [show s.ledger.tallied = _ from pairs_of_outside hout rfl] at htally
    -- A held lock is the lock of exactly one pair.
    have himage : s.held = Prod.snd '' {p : Context × Address | p.2 ∈ s.holds p.1} := by
      ext l
      constructor
      · rintro ⟨c, hc⟩
        exact ⟨(c, l), hc, rfl⟩
      · rintro ⟨⟨c, _⟩, hc, rfl⟩
        exact ⟨c, hc⟩
    have hinj : Set.InjOn Prod.snd {p : Context × Address | p.2 ∈ s.holds p.1} := by
      rintro ⟨c, l⟩ hc ⟨d, k⟩ hd (rfl : l = k)
      exact congrArg (·, l) (hexcl l c d hc hd)
    have hcard := hinj.ncard_image
    rw [← himage] at hcard
    refine ⟨himage ▸ htally.1.image _, ?_⟩
    rw [hcard]
    exact htally.toNat_eq (hcard ▸ ncard_lt s.held)

/-- The next `n` accesses of a context, with nothing in between. -/
def State.accesses (cfg : Config) (c : Context) : Nat → State Context → State Context
  | 0, s => s
  | n + 1, s => accesses cfg c n (s.access cfg none c (s.pc c))

theorem reachable_accesses {cfg : Config} (h : (lockSystem cfg).Reachable s) (n : Nat) :
    (lockSystem cfg).Reachable (s.accesses cfg c n) := by
  induction n generalizing s with
  | zero => exact h
  | succ n ih =>
    by_cases hpc : s.pc c = .outside
    · have hsame : s.access cfg none c (s.pc c) = s := by rw [hpc]; rfl
      rw [State.accesses, hsame]
      exact ih h
    · have hstep : (lockSystem cfg).step s (.access c none) (s.access cfg none c (s.pc c)) :=
        ⟨hpc, rfl⟩
      exact ih (.step h hstep)

/-- A call of `Lock`. -/
def exampleCall : Call :=
  { lock := ⟨8, by decide⟩
    functionName := "main"
    frameAddress := 0 }

/-- One of two contexts has called `Lock` and returned. -/
def exampleHeld : State Bool :=
  (State.new.goTo true (.storeAttemptingToGet exampleCall)).accesses (patient true) true 8

theorem reachable_exampleHeld : (lockSystem (patient true)).Reachable exampleHeld := by
  have hcall : (lockSystem (patient true)).step (State.new : State Bool) (.lock true exampleCall)
      (State.new.goTo true (.storeAttemptingToGet exampleCall)) := ⟨rfl, rfl⟩
  exact reachable_accesses (.step (.init rfl) hcall) 8

theorem lock_mutual_exclusion_held :
    exampleCall.lock ∈ exampleHeld.holds true ∧ (∀ c, exampleHeld.pc c = .outside) ∧
      (exampleHeld.locks exampleCall.lock).lockData.count = 1 ∧
      exampleHeld.locksCount.toNat = exampleHeld.held.ncard := by
  have hheld : exampleCall.lock ∈ exampleHeld.holds true := by decide
  have hout : ∀ c, exampleHeld.pc c = .outside := by
    intro c
    cases c <;> rfl
  obtain ⟨-, hquiet⟩ := lock_mutual_exclusion reachable_exampleHeld
  obtain ⟨hcount, -, htotal⟩ := hquiet hout
  exact ⟨hheld, hout, (hcount exampleCall.lock).1 ⟨true, hheld⟩, htotal⟩

end Fennix.Core.Lock
