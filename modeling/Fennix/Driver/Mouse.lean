import Mathlib.Data.BitVec
import Mathlib.Data.List.Infix

/-! # The PS/2 mouse

    `PS2MouseInterruptHandler` of `drivers/misc/aip/mouse.cpp` gets one byte for each
    interrupt. It collects the bytes of a packet and makes the report at the next byte, which
    is then lost, though it is the first one of the next packet. Bytes that are also responses
    of the mouse are dropped, and the four bits of the wheel are read as unsigned.

    `packets_right_iff`: so of all streams only those of at most two packets can be reported
    as they should be.
-/

namespace Fennix.Driver.Mouse

/-- `PS2_MOUSE_PACKET`. Without a fourth byte `ZMovement` stays 0. -/
structure Packet where
  base : BitVec 8 := 0
  xMovement : BitVec 8 := 0
  yMovement : BitVec 8 := 0
  zMovement : BitVec 8 := 0

/-- The mouse part of an `InputReport`. -/
structure Report where
  leftButton : Bool
  rightButton : Bool
  middleButton : Bool
  button4 : Bool
  button5 : Bool
  x : Int
  y : Int
  z : Int
  deriving DecidableEq

/-- A movement of nine bits, or 0 after an overflow. -/
def movement (byte : BitVec 8) (sign overflow : Bool) : Int :=
  if overflow then 0 else byte.toNat - if sign then 256 else 0

/-- The report that the handler makes of a packet. -/
def Packet.report (p : Packet) : Report where
  leftButton := p.base.getLsbD 0
  rightButton := p.base.getLsbD 1
  middleButton := p.base.getLsbD 2
  button4 := p.zMovement.getLsbD 4
  button5 := p.zMovement.getLsbD 5
  x := movement p.xMovement (p.base.getLsbD 4) (p.base.getLsbD 6)
  y := -movement p.yMovement (p.base.getLsbD 5) (p.base.getLsbD 7)
  z := (p.zMovement.setWidth 4).toNat

/-- What the packet says: the wheel moves by a signed number. -/
def Packet.encoded (p : Packet) : Report := { p.report with z := (p.zMovement.setWidth 4).toInt }

/-- The variables of the handler. -/
structure State where
  packetReady : Bool := false
  cycle : Nat := 0
  packet : Packet := {}

/-- `PS2_MOUSE_RESP_ACK` or `PS2_MOUSE_RESP_RESEND`. -/
def isResponse (data : BitVec 8) : Bool := data = 0xFA || data = 0xFE

/-- The `switch` over `Cycle`. -/
def collect (fourPackets : Bool) (s : State) (data : BitVec 8) : State :=
  match s.cycle with
  | 0 => if data &&& 8 = 0 then s else { s with packet.base := data, cycle := 1 }
  | 1 => { s with packet.xMovement := data, cycle := 2 }
  | 2 => { s with
      packet.yMovement := data
      cycle := if fourPackets then 3 else 0
      packetReady := ! fourPackets }
  | 3 => { s with packet.zMovement := data, cycle := 0, packetReady := true }
  | _ => s

/-- `PS2MouseInterruptHandler`, with the report that it makes. -/
def interruptHandler (fourPackets : Bool) (s : State) (data : BitVec 8) : State × Option Report :=
  if isResponse data then (s, none)
  else if s.packetReady then ({ s with packetReady := false }, some s.packet.report)
  else (collect fourPackets s data, none)

/-- The reports for a stream of bytes. -/
def reports (fourPackets : Bool) : State → List (BitVec 8) → List Report
  | _, [] => []
  | s, data :: rest =>
    let r := interruptHandler fourPackets s data
    r.2.toList ++ reports fourPackets r.1 rest

/-- The bytes of a packet after the first. -/
def Packet.tail (fourPackets : Bool) (p : Packet) : List (BitVec 8) :=
  p.xMovement :: p.yMovement :: if fourPackets then [p.zMovement] else []

def Packet.bytes (fourPackets : Bool) (p : Packet) : List (BitVec 8) :=
  p.base :: p.tail fourPackets

/-- A packet has bit 3 set in its first byte, and no fourth byte if there are three. -/
def Packet.Valid (fourPackets : Bool) (p : Packet) : Prop :=
  p.base &&& 8 ≠ 0 ∧ (fourPackets = false → p.zMovement = 0)

instance (fourPackets : Bool) : DecidablePred (Packet.Valid fourPackets) :=
  fun _ => instDecidableAnd

/-- When a packet begins there is one report for each of the earlier packets, as encoded. -/
def PacketsRight (fourPackets : Bool) (packets : List Packet) : Prop :=
  ∀ earlier next, earlier ++ [next] <+: packets →
    reports fourPackets {} (earlier.flatMap (·.bytes fourPackets) ++ [next.base]) =
      earlier.map Packet.encoded

variable {fourPackets : Bool} {s : State}

/-- As many bytes as a packet has are needed before the one that makes the report. -/
def State.needs (fourPackets : Bool) (s : State) : Nat :=
  if s.packetReady then 0 else (if fourPackets then 4 else 3) - s.cycle

theorem interruptHandler_quiet {n : Nat} (h : n < s.needs fourPackets) (data : BitVec 8) :
    (interruptHandler fourPackets s data).2 = none ∧
      n ≤ (interruptHandler fourPackets s data).1.needs fourPackets := by
  unfold State.needs at h
  unfold interruptHandler
  split_ifs with hresponse hready
  · exact ⟨rfl, Nat.le_of_lt h⟩
  · simp [hready] at h
  · -- a byte that is collected is one of those needed
    refine ⟨rfl, ?_⟩
    unfold collect State.needs
    cases fourPackets <;> split <;> simp_all <;> grind

theorem reports_quiet (bytes : List (BitVec 8)) : ∀ {s : State},
    bytes.length ≤ s.needs fourPackets → reports fourPackets s bytes = [] := by
  induction bytes with
  | nil => exact fun _ => rfl
  | cons data bytes ih =>
    intro s h
    obtain ⟨hnone, hneeds⟩ := interruptHandler_quiet h data
    rw [reports, hnone]
    exact ih hneeds

theorem reports_filter (bytes : List (BitVec 8)) : ∀ s,
    reports fourPackets s bytes = reports fourPackets s (bytes.filter (! isResponse ·)) := by
  induction bytes with
  | nil => exact fun _ => rfl
  | cons data bytes ih =>
    intro s
    by_cases hdata : isResponse data
    · rw [List.filter_cons_of_neg (by simp [hdata]), ← ih]
      simp [reports, interruptHandler, hdata]
    · rw [List.filter_cons_of_pos (by simp [hdata]), reports, reports, ih]

variable {p q : Packet}

theorem length_tail (p : Packet) :
    (p.tail fourPackets).length + 1 = ({ packet := q } : State).needs fourPackets := by
  cases fourPackets <;> rfl

/-- Without responses among the bytes, the first one of the next packet makes the report. -/
theorem reports_bytes (hp : p.Valid fourPackets)
    (hbytes : ∀ b ∈ p.bytes fourPackets ++ [q.base], isResponse b = false)
    (rest : List (BitVec 8)) :
    reports fourPackets {} (p.bytes fourPackets ++ q.base :: rest) =
      p.report :: reports fourPackets { packet := p } rest := by
  obtain ⟨base, x, y, z⟩ := p
  obtain ⟨hbase, hz⟩ := hp
  cases fourPackets <;> simp_all [Packet.bytes, Packet.tail, reports, interruptHandler, collect]

theorem encoded_eq_report_iff : p.encoded = p.report ↔ p.zMovement.getLsbD 3 = false := by
  have hsign : ∀ z : BitVec 8, (z.setWidth 4).toInt = (z.setWidth 4).toNat ↔
      z.getLsbD 3 = false := by
    decide
  rw [← hsign, Packet.encoded, Report.mk.injEq]
  simp [Packet.report]

theorem reports_base_iff (hp : p.Valid fourPackets) :
    reports fourPackets {} (p.bytes fourPackets ++ [q.base]) = [p.encoded] ↔
      (∀ b ∈ p.bytes fourPackets ++ [q.base], isResponse b = false) ∧
        p.zMovement.getLsbD 3 = false := by
  rw [← encoded_eq_report_iff]
  by_cases hbytes : ∀ b ∈ p.bytes fourPackets ++ [q.base], isResponse b = false
  · rw [reports_bytes hp hbytes, reports, List.singleton_inj, eq_comm, and_iff_right hbytes]
  · refine iff_of_false ?_ fun h => hbytes h.1
    -- a byte is dropped, and those left are only a packet
    have hshort : ((p.bytes fourPackets ++ [q.base]).filter (! isResponse ·)).length <
        (p.bytes fourPackets ++ [q.base]).length := by
      rw [List.length_filter_lt_length_iff_exists]
      simpa using hbytes
    rw [reports_filter, reports_quiet]
    · exact nofun
    · rw [← length_tail p]
      exact Nat.le_of_lt_succ (by simpa [Packet.bytes] using hshort)

/-- For every stream of valid packets: each is reported once, in order and as it is encoded,
    when the next begins, exactly if there are at most two packets, and with two of them no
    byte up to the start of the second is that of a response and the wheel of the first is
    not turned backwards. -/
theorem packets_right_iff (fourPackets : Bool) (packets : List Packet)
    (hvalid : ∀ p ∈ packets, p.Valid fourPackets) :
    PacketsRight fourPackets packets ↔ packets.length ≤ 1 ∨ ∃ p q, packets = [p, q] ∧
      (∀ b ∈ p.bytes fourPackets ++ [q.base], isResponse b = false) ∧
        p.zMovement.getLsbD 3 = false := by
  constructor
  · intro h
    match packets with
    | [] => exact .inl (Nat.zero_le 1)
    | [p] => exact .inl le_rfl
    | [p, q] =>
      have hbase := reports_base_iff (q := q) (hvalid p List.mem_cons_self)
      exact .inr ⟨p, q, rfl, hbase.mp (by simpa using h [p] q List.prefix_rfl)⟩
    | p :: q :: r :: rest =>
      -- after the report, the bytes up to the third packet are not more than a packet
      have hp := hvalid p List.mem_cons_self
      have hfirst := h [p] q (by simp)
      have hsecond := h [p, q] r (by simp)
      rw [List.flatMap_singleton] at hfirst
      have hbytes := reports_bytes hp ((reports_base_iff hp).mp hfirst).1
        (q.tail fourPackets ++ [r.base])
      rw [reports_quiet (q.tail fourPackets ++ [r.base]) (by
        rw [List.length_append]
        exact (length_tail q).le)] at hbytes
      simp [Packet.bytes] at hsecond hbytes
      simp [hbytes] at hsecond
  · intro h earlier next hle
    rcases earlier with _ | ⟨a, l⟩
    · exact reports_quiet _ (by cases fourPackets <;> exact Nat.le_add_left 1 _)
    · obtain h | ⟨p, q, rfl, h⟩ := h
      · have hlength := hle.length_le
        simp at hlength
        omega
      · obtain ⟨rfl, hl⟩ := List.cons_prefix_cons.mp hle
        obtain rfl : l = [] := List.length_eq_zero_iff.mp (by simpa using hl.length_le)
        obtain rfl : next = q := by simpa using hl
        simpa using (reports_base_iff (hvalid a List.mem_cons_self)).mpr h

/-- Three packets. The first byte of the second is lost: it is taken for a fourth byte. -/
theorem packets_wrong :
    ¬ PacketsRight false [⟨8, 1, 1, 0⟩, ⟨8, 1, 1, 0⟩, ⟨8, 1, 1, 0⟩] := by
  intro h
  have hreports := h [⟨8, 1, 1, 0⟩, ⟨8, 1, 1, 0⟩] ⟨8, 1, 1, 0⟩ List.prefix_rfl
  revert hreports
  decide

theorem packets_right_iff_two : Packet.Valid false ⟨8, 1, 1, 0⟩ ∧
    PacketsRight false [⟨8, 1, 1, 0⟩, ⟨8, 2, 2, 0⟩] :=
  ⟨⟨by decide, fun _ => rfl⟩, (packets_right_iff false _ (by decide)).mpr
    (.inr ⟨_, _, rfl, by decide, rfl⟩)⟩

end Fennix.Driver.Mouse
