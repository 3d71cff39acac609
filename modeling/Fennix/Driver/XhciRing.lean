import Mathlib.Data.BitVec
import Mathlib.Logic.Function.Basic

/-! # The rings of the xHCI driver

    `drivers/usb/xhci/ring.cpp`: the ring of commands for the controller and the ring of
    events from it. The last slot of the command ring links to the first and is not for a
    command. The cycle bit of a TRB says in which lap of the ring it was written.

    - `commands_right_iff`: the commands are written as they should be exactly if `QueueTRB`
      never fills the last slot before the link, the last command apart: it does not go back
      to slot 0 then, and the next command replaces the link.
    - `events_read`: `DequeueEvents` reads every event once.
-/

namespace Fennix.Driver.Xhci

open Function (update update_self update_of_ne)

/-! ## Section 1: Laps -/

/-- The cycle bit of the `k`-th TRB in a ring of `n` slots. -/
def lapBit (n k : Nat) : Bool := k / n % 2 = 0

/-- `if (++ptr == n)`, with which both rings and the controller go on. -/
def advance (n ptr : Nat) (cycle : Bool) : Nat × Bool :=
  if ptr + 1 = n then (0, !cycle) else (ptr + 1, cycle)

theorem lapBit_add {n : Nat} (hn : 0 < n) (k : Nat) : lapBit n (k + n) = !lapBit n k := by
  rw [lapBit, lapBit, Nat.add_div_right k hn, ← decide_not]
  exact decide_eq_decide.mpr (by omega)

theorem advance_eq {n : Nat} (hn : 0 < n) (k : Nat) :
    advance n (k % n) (lapBit n k) = ((k + 1) % n, lapBit n (k + 1)) := by
  have hk := Nat.div_add_mod k n
  have hlt := Nat.mod_lt k hn
  unfold advance
  split
  · have hsucc : (k + 1) / n = k / n + 1 ∧ (k + 1) % n = 0 := by
      rw [Nat.div_mod_unique hn, Nat.mul_add]
      omega
    rw [hsucc.2, lapBit, lapBit, hsucc.1, ← decide_not]
    exact congrArg _ (decide_eq_decide.mpr (by omega))
  · have hsucc : (k + 1) / n = k / n ∧ (k + 1) % n = k % n + 1 := by
      rw [Nat.div_mod_unique hn]
      omega
    rw [hsucc.2, lapBit, lapBit, hsucc.1]

/-- Positions less than a lap apart have different slots. -/
theorem update_slot {α : Type} {n j k : Nat} (f : Nat → α) (a : α) (hne : j ≠ k) (hj : j < k + n)
    (hk : k < j + n) : update f (k % n) a (j % n) = f (j % n) := by
  apply update_of_ne
  intro heq
  rcases Nat.lt_or_gt_of_ne hne with hlt | hlt
  · have hzero := Nat.sub_mod_eq_zero_of_mod_eq heq.symm
    rw [Nat.mod_eq_of_lt (by omega)] at hzero
    omega
  · have hzero := Nat.sub_mod_eq_zero_of_mod_eq heq
    rw [Nat.mod_eq_of_lt (by omega)] at hzero
    omega

/-- `TRB`: the cycle bit and what else is in it. -/
structure Trb (τ : Type) where
  content : τ
  cycle : Bool
  deriving DecidableEq

/-! ## Section 2: Commands -/

section commands

variable {τ : Type} {n k : Nat}

/-- A store to `Buffer`: the slot and the TRB. The link is `none`; its other fields are always
    the same. -/
abbrev Store (τ : Type) := Nat × Trb (Option τ)

/-- `CommandRing`. `Buffer` is never read; the constructor writes the link to its last slot. -/
structure CommandRing where
  enqueuePtr : Nat := 0
  ringCycleState : Bool := true

/-- `QueueTRB`, with its stores; `n` is `MaxTRBCount`. -/
def CommandRing.queueTRB (n : Nat) (r : CommandRing) (trb : τ) : List (Store τ) × CommandRing :=
  ([(r.enqueuePtr, ⟨some trb, r.ringCycleState⟩)],
    { enqueuePtr := r.enqueuePtr + 1
      ringCycleState :=
        if r.enqueuePtr + 1 ≥ n - 1 then !r.ringCycleState else r.ringCycleState })

/-- `_EnqueueTRB` -/
def CommandRing.enqueueTRB (n : Nat) (r : CommandRing) (trb : τ) : List (Store τ) × CommandRing :=
  let store := (r.enqueuePtr, ⟨some trb, r.ringCycleState⟩)
  if r.enqueuePtr + 1 = n - 1 then
    ([store, (n - 1, ⟨none, r.ringCycleState⟩)], ⟨0, !r.ringCycleState⟩)
  else ([store], { r with enqueuePtr := r.enqueuePtr + 1 })

/-- A command, and whether it is queued by `QueueTRB`. -/
structure Call (τ : Type) where
  trb : τ
  queued : Bool

def CommandRing.produce (n : Nat) (r : CommandRing) (c : Call τ) : List (Store τ) × CommandRing :=
  if c.queued then r.queueTRB n c.trb else r.enqueueTRB n c.trb

def CommandRing.run (n : Nat) (calls : List (Call τ)) : CommandRing :=
  calls.foldl (fun r c => (r.produce n c).2) {}

/-- The `k`-th command goes to its slot, with the cycle bit of its lap; what else is stored is
    the link, in the last slot. -/
def Written (n k : Nat) (trb : τ) (stores : List (Store τ)) : Prop :=
  stores.head? = some (k % (n - 1), ⟨some trb, lapBit (n - 1) k⟩) ∧
    ∀ s ∈ stores.tail, s.1 = n - 1 ∧ s.2.content = none

/-- So it is for all commands of a run. -/
def CommandsRight (n : Nat) (calls : List (Call τ)) : Prop :=
  ∀ earlier c, earlier ++ [c] <+: calls →
    Written n earlier.length c.trb ((CommandRing.run n earlier).produce n c).1

/-- The ring is ready for the `k`-th command. -/
def CommandRing.Ready (n k : Nat) (r : CommandRing) : Prop :=
  r.enqueuePtr = k % (n - 1) ∧ r.ringCycleState = lapBit (n - 1) k

theorem written_iff (n k : Nat) (r : CommandRing) (c : Call τ) :
    Written n k c.trb (r.produce n c).1 ↔ r.Ready n k := by
  unfold Written CommandRing.Ready CommandRing.produce CommandRing.queueTRB CommandRing.enqueueTRB
  split_ifs <;> simp

/-- The `k`-th command takes the last slot before the link. -/
def Last (n k : Nat) : Prop := k % (n - 1) + 1 = n - 1

/-- Only `_EnqueueTRB` goes back to slot 0. -/
theorem CommandRing.Ready.produce_iff (hn : 2 ≤ n) {r : CommandRing} (h : r.Ready n k)
    (c : Call τ) : (r.produce n c).2.Ready n (k + 1) ↔ ¬ (c.queued ∧ Last n k) := by
  have hadvance := advance_eq (show 0 < n - 1 by omega) k
  have hlt' : (k + 1) % (n - 1) < n - 1 := Nat.mod_lt _ (by omega)
  obtain ⟨hptr, hcycle⟩ := h
  unfold advance at hadvance
  unfold CommandRing.produce queueTRB enqueueTRB Ready Last
  rw [hptr, hcycle]
  split at hadvance <;> obtain ⟨hslot, hlap⟩ := Prod.mk.inj hadvance <;> rename_i hlast
  · cases c.queued <;> simp [hlast, hslot, hlap]
    omega
  · have hbelow : ¬ k % (n - 1) + 1 ≥ n - 1 := by omega
    rw [if_neg hlast, if_neg hbelow]
    cases c.queued <;> simp [hlt'.ne, hslot, hlap]

/-- For every ring size of at least 2 and all commands, queued by the two functions in any
    order: each command is stored in the slot after the one before, below the link and with
    the cycle bit of its lap, exactly if `QueueTRB` has the last slot below the link for no
    command but the last. -/
theorem commands_right_iff (n : Nat) (hn : 2 ≤ n) (calls : List (Call τ)) :
    CommandsRight n calls ↔ ∀ earlier c next, earlier ++ [c] ++ [next] <+: calls →
      ¬ (c.queued ∧ Last n earlier.length) := by
  have hrun : ∀ earlier (c : Call τ), CommandRing.run n (earlier ++ [c]) =
      ((CommandRing.run n earlier).produce n c).2 := fun _ _ => List.foldl_append ..
  simp only [CommandsRight, written_iff]
  constructor
  · intro h earlier c next hle
    have hready := h _ next hle
    rw [hrun, List.length_append] at hready
    exact ((h earlier c ((List.prefix_append _ _).trans hle)).produce_iff hn c).mp hready
  · intro h earlier
    induction earlier using List.reverseRecOn with
    | nil => exact fun _ _ => ⟨(Nat.zero_mod _).symm, by simp [lapBit, CommandRing.run]⟩
    | append_singleton earlier c ih =>
      intro next hle
      rw [hrun, List.length_append]
      exact ((ih c ((List.prefix_append _ _).trans hle)).produce_iff hn c).mpr (h _ _ _ hle)

theorem commands_right_iff_enqueue : 2 ≤ 3 ∧
    CommandsRight 3 [⟨5, false⟩, ⟨6, false⟩, ⟨7, false⟩] :=
  ⟨by decide, (commands_right_iff 3 (by decide) _).mpr (by
    rintro earlier c next hle ⟨hqueued, -⟩
    have hmem := hle.subset (List.mem_append_left _ (List.mem_append_right earlier
      (List.mem_singleton_self c)))
    simp only [List.mem_cons, List.not_mem_nil, or_false] at hmem
    obtain rfl | rfl | rfl := hmem <;> cases hqueued)⟩

/-- Two commands in a ring of two slots: the second replaces the link. -/
theorem commands_wrong : ¬ CommandsRight 2 [⟨5, true⟩, ⟨6, true⟩] := by
  intro h
  have hhead := (h [⟨5, true⟩] ⟨6, true⟩ List.prefix_rfl).1
  revert hhead
  decide

end commands

/-! ## Section 3: Events -/

section events

variable {ε : Type} {n k : Nat}

/-- `EventRing` with its one segment. `erdp` is the pointer in the register of that name. -/
structure EventRing (ε : Type) where
  trb : Nat → Trb ε
  dequeuePtr : Nat := 0
  ringCycleState : Bool := true
  erdp : Nat

/-- `EventRing::EventRing`, with zeroed slots at `base`. -/
def EventRing.new (zero : ε) (base : Nat) : EventRing ε :=
  { trb := fun _ => ⟨zero, false⟩, erdp := base }

/-- `UpdateERDP` -/
def EventRing.updateERDP (base : Nat) (r : EventRing ε) : EventRing ε :=
  { r with erdp := base + r.dequeuePtr * 16 }

/-- `HasUnprocessedEvents` -/
def EventRing.hasUnprocessedEvents (r : EventRing ε) : Bool :=
  (r.trb r.dequeuePtr).cycle == r.ringCycleState

/-- `DequeueTRB`, in a segment of `n` slots. -/
def EventRing.dequeueTRB (n : Nat) (r : EventRing ε) : Option (Trb ε × EventRing ε) :=
  if (r.trb r.dequeuePtr).cycle ≠ r.ringCycleState then none
  else
    let next := advance n r.dequeuePtr r.ringCycleState
    some (r.trb r.dequeuePtr, { r with dequeuePtr := next.1, ringCycleState := next.2 })

/-- At most `rounds` rounds of the loop of `DequeueEvents`. -/
def EventRing.drain (n : Nat) : Nat → EventRing ε → List (Trb ε) →
    Option (List (Trb ε) × EventRing ε)
  | 0, _, _ => none
  | rounds + 1, r, trbs =>
    if r.hasUnprocessedEvents then
      match r.dequeueTRB n with
      | none => some (trbs, r)
      | some (trb, r') => drain n rounds r' (trbs ++ [trb])
    else some (trbs, r)

/-- `DequeueEvents` -/
def EventRing.dequeueEvents (n base rounds : Nat) (r : EventRing ε) :
    Option (List (Trb ε) × EventRing ε) :=
  (r.drain n rounds []).map fun q => (q.1, q.2.updateERDP base)

/-- The ring, and where and with which cycle bit the controller writes the next event. -/
structure Bus (ε : Type) where
  ring : EventRing ε
  slot : Nat := 0
  cycle : Bool := true

/-- The controller writes an event, or the driver calls `DequeueEvents`. -/
inductive Action (ε : Type) where
  | write (event : ε)
  | dequeue

def Bus.step (n base : Nat) (b : Bus ε) : Action ε → Option (Bus ε)
  | .write event =>
    let next := advance n b.slot b.cycle
    some ⟨{ b.ring with trb := update b.ring.trb b.slot ⟨event, b.cycle⟩ }, next.1, next.2⟩
  | .dequeue => (b.ring.dequeueEvents n base n).map fun q => { b with ring := q.2 }

/-- The events written since the last call. -/
def unread (actions : List (Action ε)) : List ε :=
  actions.foldl (fun events a => match a with
    | .write event => events ++ [event]
    | .dequeue => []) []

/-- The driver has read `k` events; `events` are those after them. The slots that the
    controller writes next have the cycle bit of the lap before. -/
structure Bus.Inv (n : Nat) (b : Bus ε) (k : Nat) (events : List ε) : Prop where
  driver : (b.ring.dequeuePtr, b.ring.ringCycleState) = (k % n, lapBit n k)
  controller : (b.slot, b.cycle) = ((k + events.length) % n, lapBit n (k + events.length))
  written : ∀ i e, events[i]? = some e → b.ring.trb ((k + i) % n) = ⟨e, lapBit n (k + i)⟩
  free : ∀ i, events.length ≤ i → i < events.length + n →
    (b.ring.trb ((k + i) % n)).cycle = !lapBit n (k + i)

theorem EventRing.drain_eq (hn : 0 < n) (events : List ε) : ∀ {k rounds : Nat} {r : EventRing ε}
    (trbs : List (Trb ε)), events.length < rounds →
    (r.dequeuePtr, r.ringCycleState) = (k % n, lapBit n k) →
    (∀ i e, events[i]? = some e → r.trb ((k + i) % n) = ⟨e, lapBit n (k + i)⟩) →
    (r.trb ((k + events.length) % n)).cycle = !lapBit n (k + events.length) →
    ∃ new, new.map Trb.content = events ∧ r.drain n rounds trbs = some (trbs ++ new,
      { r with dequeuePtr := (k + events.length) % n,
               ringCycleState := lapBit n (k + events.length) }) := by
  induction events with
  | nil =>
    intro k rounds r trbs hrounds hdriver _ hfree
    obtain ⟨rounds, rfl⟩ := Nat.exists_eq_succ_of_ne_zero (Nat.ne_zero_of_lt hrounds)
    obtain ⟨hptr, hcycle⟩ := Prod.mk.inj hdriver
    have hempty : r.hasUnprocessedEvents = false := by
      simp [hasUnprocessedEvents, hptr, hcycle, show (r.trb (k % n)).cycle = !lapBit n k from hfree]
    exact ⟨[], rfl, by simp [drain, hempty, ← hptr, ← hcycle]⟩
  | cons e events ih =>
    intro k rounds r trbs hrounds hdriver hwritten hfree
    obtain ⟨rounds, rfl⟩ := Nat.exists_eq_succ_of_ne_zero (Nat.ne_zero_of_lt hrounds)
    obtain ⟨hptr, hcycle⟩ := Prod.mk.inj hdriver
    have hfirst : r.trb (k % n) = ⟨e, lapBit n k⟩ := hwritten 0 e rfl
    have hshift : ∀ i, k + 1 + i = k + (i + 1) := by omega
    obtain ⟨new, hnew, hdrain⟩ := ih (k := k + 1)
      (r := { r with dequeuePtr := (k + 1) % n, ringCycleState := lapBit n (k + 1) })
      (trbs ++ [⟨e, lapBit n k⟩]) (Nat.lt_of_succ_lt_succ hrounds) rfl
      (fun i d hd => by rw [hshift]; exact hwritten (i + 1) d hd)
      (by rw [hshift]; exact hfree)
    refine ⟨⟨e, lapBit n k⟩ :: new, congrArg (e :: ·) hnew, ?_⟩
    rw [List.append_assoc, hshift] at hdrain
    simpa [drain, hasUnprocessedEvents, dequeueTRB, hptr, hcycle, hfirst, advance_eq hn] using hdrain

variable {b : Bus ε} {events : List ε}

theorem Bus.Inv.write (base : Nat) (h : b.Inv n k events) (e : ε)
    (hroom : (events ++ [e]).length < n) :
    ∃ b', b.step n base (.write e) = some b' ∧ b'.Inv n k (events ++ [e]) := by
  obtain ⟨hslot, hcycle⟩ := Prod.mk.inj h.controller
  have hlength : (events ++ [e]).length = events.length + 1 := List.length_append
  refine ⟨_, rfl, h.driver, ?_, ?_, ?_⟩
  · simp only [hslot, hcycle, advance_eq (Nat.zero_lt_of_lt hroom), hlength, Nat.add_assoc]
  · intro i d hd
    simp only [hslot, hcycle]
    rcases Nat.lt_trichotomy i events.length with hi | rfl | hi
    · rw [update_slot _ _ (by omega) (by omega) (by omega)]
      exact h.written i d (List.getElem?_append_left hi ▸ hd)
    · rw [List.getElem?_concat_length] at hd
      rw [update_self, Option.some.inj hd]
    · rw [List.getElem?_eq_none (by omega)] at hd
      cases hd
  · intro i hi hlt
    simp only [hslot, hcycle]
    by_cases hlap : i = events.length + n
    · -- the slot of the new event comes again a lap later
      rw [hlap, ← Nat.add_assoc, Nat.add_mod_right, lapBit_add (by omega), Bool.not_not, update_self]
    · rw [update_slot _ _ (by omega) (by omega) (by omega)]
      exact h.free i (by omega) (by omega)

theorem Bus.Inv.dequeue (base : Nat) (h : b.Inv n k events) (hlt : events.length < n)
    {rounds : Nat} (hrounds : n ≤ rounds) :
    ∃ trbs ring, b.ring.dequeueEvents n base rounds = some (trbs, ring) ∧
      trbs.map Trb.content = events ∧ ring.erdp = base + b.slot * 16 ∧
      { b with ring := ring : Bus ε }.Inv n (k + events.length) [] := by
  obtain ⟨hslot, hcycle⟩ := Prod.mk.inj h.controller
  obtain ⟨new, hnew, hdrain⟩ := b.ring.drain_eq (by omega) events [] (hlt.trans_le hrounds) h.driver
    h.written (h.free _ le_rfl (by omega))
  rw [← hslot] at hdrain
  refine ⟨new, ⟨b.ring.trb, b.slot, lapBit n (k + events.length), base + b.slot * 16⟩,
    by rw [EventRing.dequeueEvents, hdrain]; rfl, hnew, rfl, by rw [← hslot], h.controller, nofun, ?_⟩
  intro i _ hi
  rw [Nat.add_assoc]
  exact h.free _ (Nat.le_add_right _ _) (Nat.add_lt_add_left (by simpa using hi) _)

/-- For every segment, and whatever the controller writes while fewer events than slots are
    unread: a call ends within as many rounds as there are slots, returns the events written
    since the last call, and leaves the pointer at the controller's next slot. -/
theorem events_read (zero : ε) (n base : Nat) (actions : List (Action ε))
    (h : ∀ earlier, earlier <+: actions → (unread earlier).length < n) :
    ∃ b, actions.foldlM (Bus.step n base) { ring := .new zero base } = some b ∧
      ∀ rounds, n ≤ rounds → ∃ trbs ring, b.ring.dequeueEvents n base rounds = some (trbs, ring) ∧
        trbs.map Trb.content = unread actions ∧ ring.erdp = base + b.slot * 16 := by
  suffices hrun : ∃ b k, actions.foldlM (Bus.step n base) { ring := .new zero base } = some b ∧
      b.Inv n k (unread actions) by
    obtain ⟨b, k, hrun, hinv⟩ := hrun
    refine ⟨b, hrun, fun rounds hrounds => ?_⟩
    obtain ⟨trbs, ring, hcall, htrbs, hpointer, -⟩ := hinv.dequeue base (h _ List.prefix_rfl) hrounds
    exact ⟨trbs, ring, hcall, htrbs, hpointer⟩
  induction actions using List.reverseRecOn with
  | nil =>
    refine ⟨_, 0, rfl, by simp [lapBit, EventRing.new], by simp [lapBit, unread], nofun, ?_⟩
    intro i _ hi
    simp [EventRing.new, lapBit, Nat.div_eq_of_lt (show i < n by simpa [unread] using hi)]
  | append_singleton actions a ih =>
    obtain ⟨b, k, hrun, hinv⟩ := ih fun earlier hle => h earlier (hle.trans (List.prefix_append _ _))
    have hroom := h _ List.prefix_rfl
    rw [List.foldlM_append, hrun]
    rw [unread, List.foldl_append] at hroom ⊢
    cases a with
    | write e =>
      obtain ⟨b', hstep, hinv'⟩ := hinv.write base e hroom
      exact ⟨b', k, by simpa using hstep, hinv'⟩
    | dequeue =>
      obtain ⟨trbs, ring, hstep, -, -, hinv'⟩ :=
        hinv.dequeue base (h _ (List.prefix_append _ _)) le_rfl
      exact ⟨_, _, by simp [Bus.step, hstep], hinv'⟩

/-- Two events in a segment of three slots. -/
theorem events_read_two : (unread [Action.write 5, .write 6]).length < 3 ∧
    ∃ b, [Action.write 5, .write 6].foldlM (Bus.step 3 4096) { ring := .new 0 4096 } = some b ∧
      ∀ rounds, 3 ≤ rounds → ∃ trbs ring,
        b.ring.dequeueEvents 3 4096 rounds = some (trbs, ring) ∧
        trbs.map Trb.content = [5, 6] ∧ ring.erdp = 4096 + b.slot * 16 :=
  ⟨by decide, events_read 0 3 4096 [.write 5, .write 6] (by
    have hinits : ∀ earlier ∈ [Action.write 5, .write 6].inits, (unread earlier).length < 3 := by
      decide
    exact fun earlier hle => hinits earlier ((List.mem_inits _ _).mpr hle))⟩

end events

end Fennix.Driver.Xhci
