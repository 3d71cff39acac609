import Fennix.Network.Checksum

/-! # Packets that are received

    `IPv4::OnEthernetPacketReceived` of `Kernel/network/ip.cpp` and `UDP::Connect`, `Bind`
    and `OnIPv4PacketReceived` of `Kernel/network/udp.cpp`: which handlers are called, and
    with which part of the packet.

    - `slices_right_iff`: the total length of the header is not converted from network
      order, and the header length is subtracted without a look at it.
    - `delivery_right_iff`: a datagram goes to the last socket, with the length of its
      header added to that of the payload.
-/

namespace Fennix.Network

/-- An IPv4 address, as its bytes in network order. -/
abbrev Address := List Byte

/-- A `uint16_t` at an offset, read as the machine has it, and as the network has it. -/
def loadWord (data : List Byte) (i : Nat) : Nat :=
  (data.getD i 0).toNat + 256 * (data.getD (i + 1) 0).toNat

def networkWord (data : List Byte) (i : Nat) : Nat := swap16 (loadWord data i)

/-- A part of the packet: where it starts, and its length. -/
structure Slice where
  offset : Nat
  length : Nat
  deriving DecidableEq

/-! ## Section 1: IPv4 -/

/-- `4 * Packet->Header.IHL` -/
def headerLength (data : List Byte) : Nat := 4 * ((data.getD 0 0).toNat % 16)

/-- `Packet->Header.TotalLength`, cut to the length of the frame -/
def shownLength (data : List Byte) : Nat := min (loadWord data 2) data.length

/-- The packet is long enough for a header, and for this interface. -/
def Addressed (interfaceIP : Address) (data : List Byte) : Prop :=
  20 ≤ data.length ∧ ((data.drop 16).take 4 = interfaceIP ∨
    (data.drop 16).take 4 = [255, 255, 255, 255] ∨ interfaceIP = [0, 0, 0, 0])

instance (interfaceIP : Address) (data : List Byte) : Decidable (Addressed interfaceIP data) :=
  inferInstanceAs (Decidable (_ ∧ _))

/-- A call of a handler. -/
structure IPv4Call where
  event : Nat
  sourceIP : Address
  destinationIP : Address
  slice : Slice

/-- `IPv4::OnEthernetPacketReceived`: the calls of the registered events, each with its
    protocol and the answer it gives, and whether there is a reply. -/
def onEthernetPacketReceived (interfaceIP : Address) (events : List (Byte × Bool))
    (data : List Byte) : List IPv4Call × Bool :=
  if Addressed interfaceIP data then
    let matching := events.zipIdx.filter fun e => e.1.1 = data.getD 9 0
    (matching.map fun e =>
      { event := e.2
        sourceIP := (data.drop 12).take 4
        destinationIP := (data.drop 16).take 4
        slice := ⟨headerLength data, (shownLength data + 2 ^ 64 - headerLength data) % 2 ^ 64⟩ },
      matching.any fun e => e.1.2)
  else ([], false)

/-- The header length and the total length go together, and with the frame. -/
def WellFormed (data : List Byte) : Prop :=
  20 ≤ headerLength data ∧ headerLength data ≤ networkWord data 2 ∧ networkWord data 2 ≤ data.length

/-- The slice is inside of the frame, and the payload of a packet that is well formed. -/
def SliceRight (data : List Byte) (slice : Slice) : Prop :=
  slice.offset + slice.length ≤ data.length ∧ (WellFormed data →
    slice = ⟨headerLength data, networkWord data 2 - headerLength data⟩)

/-- For every frame, interface and list of registered events: the slices that handlers are
    called with are right exactly if no handler is called, or the total length as it is shown
    is not below the header length, and for a packet that is well formed it is the one of
    the header. -/
theorem slices_right_iff (interfaceIP : Address) (events : List (Byte × Bool)) (data : List Byte)
    (hlength : data.length < 2 ^ 64) :
    (∀ call ∈ (onEthernetPacketReceived interfaceIP events data).1, SliceRight data call.slice) ↔
      (Addressed interfaceIP data → data.getD 9 0 ∈ events.map Prod.fst →
        headerLength data ≤ shownLength data ∧
          (WellFormed data → shownLength data = networkWord data 2)) := by
  have hheader : headerLength data < 2 ^ 64 := by
    unfold headerLength
    omega
  have hshown : shownLength data ≤ data.length := Nat.min_le_right _ _
  -- all calls have the same slice
  have hslice : SliceRight data
        ⟨headerLength data, (shownLength data + 2 ^ 64 - headerLength data) % 2 ^ 64⟩ ↔
      headerLength data ≤ shownLength data ∧
        (WellFormed data → shownLength data = networkWord data 2) := by
    simp only [SliceRight, Slice.mk.injEq, true_and]
    constructor
    · rintro ⟨hinside, hexact⟩
      have hle : headerLength data ≤ shownLength data := by omega
      refine ⟨hle, fun hwell => ?_⟩
      have := hexact hwell
      have := hwell.2.1
      omega
    · rintro ⟨hle, hexact⟩
      refine ⟨by omega, fun hwell => ?_⟩
      rw [← hexact hwell]
      omega
  unfold onEthernetPacketReceived
  by_cases haddressed : Addressed interfaceIP data
  · have hcalled : data.getD 9 0 ∈ events.map Prod.fst ↔
        ∃ e ∈ events.zipIdx, e.1.1 = data.getD 9 0 := by
      conv_lhs => rw [← List.zipIdx_map_fst 0 events]
      simp only [List.map_map, List.mem_map, Function.comp_apply]
    rw [if_pos haddressed, forall_prop_of_true haddressed, hcalled, ← hslice]
    simp only [List.mem_map, List.mem_filter, decide_eq_true_eq]
    constructor
    · rintro h ⟨e, he, hprotocol⟩
      exact h _ ⟨e, ⟨he, hprotocol⟩, rfl⟩
    · rintro h call ⟨e, ⟨he, hprotocol⟩, rfl⟩
      exact h ⟨e, he, hprotocol⟩
  · simp [haddressed]

/-- A header without options, of a packet of 20 bytes. -/
def emptyPacket : List Byte := [0x45, 0, 0, 20] ++ List.replicate 5 0 ++ [17] ++ List.replicate 10 0

theorem slices_right_iff_empty :
    (onEthernetPacketReceived [0, 0, 0, 0] [(17, false)] emptyPacket).1.length = 1 ∧
      ∀ call ∈ (onEthernetPacketReceived [0, 0, 0, 0] [(17, false)] emptyPacket).1,
        SliceRight emptyPacket call.slice :=
  ⟨by decide, (slices_right_iff [0, 0, 0, 0] [(17, false)] emptyPacket (by decide)).mpr
    fun _ _ => ⟨by decide, fun _ => by decide⟩⟩

/-- A frame of 60 bytes with a packet of 28 bytes, which the network fills up: the handler
    is called with 40 bytes instead of 8. And one with a total length of 5 in the order of
    the machine, for which the length is `2 ^ 64 - 15`. -/
theorem slices_wrong :
    ((onEthernetPacketReceived [0, 0, 0, 0] [(17, false)]
        ([0x45, 0, 0, 28] ++ List.replicate 5 0 ++ [17] ++ List.replicate 50 0)).1.map
      IPv4Call.slice) = [⟨20, 40⟩] ∧
    ((onEthernetPacketReceived [0, 0, 0, 0] [(17, false)]
        ([0x45, 0, 5, 0] ++ List.replicate 5 0 ++ [17] ++ List.replicate 10 0)).1.map
      IPv4Call.slice) = [⟨20, 2 ^ 64 - 15⟩] := by
  decide

/-! ## Section 2: UDP -/

/-- `class Socket`. The handlers that are bound are numbered. -/
structure Socket where
  localIP : Address
  localPort : Nat
  remoteIP : Address
  remotePort : Nat
  listening : Bool
  eventHandler : Option Nat

/-- The interface's address, `RegisteredEvents`, and `UsablePort`. -/
structure Udp where
  interfaceIP : Address
  sockets : List Socket
  usablePort : Nat

/-- `UDP::Connect` -/
def Udp.connect (udp : Udp) (ip : Address) (port : Nat) : Udp :=
  { udp with
    sockets := udp.sockets ++
      [⟨udp.interfaceIP, swap16 udp.usablePort, ip, swap16 port, false, none⟩]
    usablePort := (udp.usablePort + 1) % 2 ^ 16 }

/-- `UDP::Bind` of a socket -/
def Udp.bind (udp : Udp) (socket handler : Nat) : Udp :=
  { udp with sockets := udp.sockets.modify socket fun s => { s with eventHandler := some handler } }

/-- Sockets that were connected, each to an address and a port and bound to a handler. -/
def Udp.connected (udp : Udp) : List (Address × Nat × Nat) → Udp
  | [] => udp
  | (ip, port, handler) :: rest =>
    connected ((udp.connect ip port).bind udp.sockets.length handler) rest

/-- A call of a handler -/
structure UdpCall where
  handler : Option Nat
  slice : Slice

/-- The loop of `OnIPv4PacketReceived`: the sockets after it, and the last one it remembers,
    or nothing if it returns at a socket that listens. -/
def scanSockets (sourceIP destinationIP : Address) (data : List Byte) :
    Option Socket → List Socket → List Socket × Option (Option Socket)
  | good, [] => ([], some good)
  | _, s :: sockets =>
    if s.localPort = loadWord data 2 ∧ s.localIP = destinationIP ∧ s.listening = true then
      ({ s with listening := false, remotePort := networkWord data 0, remoteIP := sourceIP } ::
        sockets, none)
    else
      let r := scanSockets sourceIP destinationIP data (some s) sockets
      (s :: r.1, r.2)

/-- `UDP::OnIPv4PacketReceived`: the sockets, the call of a handler and the result. -/
def onIPv4PacketReceived (udp : Udp) (sourceIP destinationIP : Address) (data : List Byte) :
    Udp × List UdpCall × Bool :=
  if data.length < 8 then (udp, [], false)
  else
    let r := scanSockets sourceIP destinationIP data none udp.sockets
    ({ udp with sockets := r.1 },
      match r.2 with
      | none => ([], true)
      | some none => ([], false)
      | some (some good) => ([⟨good.eventHandler, ⟨8, data.length⟩⟩], false))

/-- The datagram has a header with its own length. -/
def WellFormedUdp (data : List Byte) : Prop := 8 ≤ data.length ∧ networkWord data 4 = data.length

/-- The payload goes to the socket with the port of the datagram, and only there. -/
def DeliveryRight (udp : Udp) (data : List Byte) (calls : List UdpCall) : Prop :=
  calls = match udp.sockets.find? (·.localPort = loadWord data 2) with
    | none => []
    | some s => [⟨s.eventHandler, ⟨8, data.length - 8⟩⟩]

/-- A socket that was connected and bound is the last one, and does not listen. -/
theorem connect_bind_sockets (udp : Udp) (ip : Address) (port handler : Nat) :
    ((udp.connect ip port).bind udp.sockets.length handler).sockets = udp.sockets ++
      [⟨udp.interfaceIP, swap16 udp.usablePort, ip, swap16 port, false, some handler⟩] := by
  simp [Udp.bind, Udp.connect, List.modify_eq_take_drop]

theorem connected_silent (peers : List (Address × Nat × Nat)) : ∀ udp : Udp,
    (∀ s ∈ udp.sockets, s.listening = false) →
    (∀ s ∈ (udp.connected peers).sockets, s.listening = false) ∧
      (udp.connected peers).sockets.length = udp.sockets.length + peers.length := by
  induction peers with
  | nil => exact fun udp h => ⟨h, rfl⟩
  | cons peer peers ih =>
    intro udp h
    obtain ⟨ip, port, handler⟩ := peer
    obtain ⟨hall, hcount⟩ := ih ((udp.connect ip port).bind udp.sockets.length handler) (by
      rw [connect_bind_sockets, List.forall_mem_append]
      exact ⟨h, by simp⟩)
    rw [connect_bind_sockets, List.length_append, List.length_singleton] at hcount
    exact ⟨hall, by rw [Udp.connected, hcount, List.length_cons]; omega⟩

/-- Without a socket that listens, the loop remembers the last one. -/
theorem scanSockets_silent (sourceIP destinationIP : Address) (data : List Byte)
    (sockets : List Socket) : ∀ good, (∀ s ∈ sockets, s.listening = false) →
    scanSockets sourceIP destinationIP data good sockets =
      (sockets, some (sockets.getLast?.or good)) := by
  induction sockets with
  | nil => intro good _; rfl
  | cons s sockets ih =>
    intro good h
    rw [List.forall_mem_cons] at h
    rw [scanSockets, if_neg (by simp [h.1]), ih _ h.2, List.getLast?_cons]
    cases sockets.getLast? <;> rfl

/-- For every list of sockets that were connected and bound, and every datagram that is well
    formed: it is delivered as it should be exactly if there is no socket. -/
theorem delivery_right_iff (interfaceIP : Address) (usablePort : Nat)
    (peers : List (Address × Nat × Nat)) (sourceIP destinationIP : Address) (data : List Byte)
    (hwell : WellFormedUdp data) :
    DeliveryRight (Udp.connected ⟨interfaceIP, [], usablePort⟩ peers) data
        (onIPv4PacketReceived (Udp.connected ⟨interfaceIP, [], usablePort⟩ peers) sourceIP
          destinationIP data).2.1 ↔ peers = [] := by
  obtain ⟨hsilent, hcount⟩ := connected_silent peers ⟨interfaceIP, [], usablePort⟩ (by simp)
  have hlong := hwell.1
  generalize Udp.connected ⟨interfaceIP, [], usablePort⟩ peers = udp at hsilent hcount
  simp only [List.length_nil, Nat.zero_add] at hcount
  rw [onIPv4PacketReceived, if_neg (by omega), scanSockets_silent _ _ _ _ _ hsilent]
  simp only [DeliveryRight, Option.or_none]
  constructor
  · intro hright
    rw [← List.length_eq_zero_iff, ← hcount, List.length_eq_zero_iff]
    by_contra hne
    rw [List.getLast?_eq_some_getLast hne] at hright
    -- a handler is called, with a length that is not the payload's
    rcases hfind : udp.sockets.find? (·.localPort = loadWord data 2) with _ | s
    · simp [hfind] at hright
    · simp only [hfind, List.cons.injEq, UdpCall.mk.injEq, Slice.mk.injEq] at hright
      omega
  · rintro rfl
    have hnil : udp.sockets = [] := List.length_eq_zero_iff.mp hcount
    simp [hnil]

/-- An empty datagram to port `0x200`. -/
def smallDatagram : List Byte := [0, 53, 2, 0, 0, 8, 0, 0]

theorem delivery_right_iff_none :
    WellFormedUdp smallDatagram ∧
      DeliveryRight ⟨[10, 0, 0, 1], [], 0x200⟩ smallDatagram
        (onIPv4PacketReceived ⟨[10, 0, 0, 1], [], 0x200⟩ [10, 0, 0, 2] [10, 0, 0, 1]
          smallDatagram).2.1 := by
  have hwell : WellFormedUdp smallDatagram := by
    unfold WellFormedUdp
    decide
  exact ⟨hwell, (delivery_right_iff [10, 0, 0, 1] 0x200 [] [10, 0, 0, 2] [10, 0, 0, 1] _ hwell).mpr
    rfl⟩

/-- Two sockets, and a datagram for the first one: the handler of the second one is called,
    with the 8 bytes of the header as if they were payload. -/
theorem delivery_to_last :
    let udp := Udp.connected ⟨[10, 0, 0, 1], [], 0x200⟩
      [([10, 0, 0, 2], 67, 1), ([10, 0, 0, 3], 53, 2)]
    (udp.sockets.map Socket.localPort = [swap16 0x200, swap16 0x201]) ∧
      ((onIPv4PacketReceived udp [10, 0, 0, 2] [10, 0, 0, 1] smallDatagram).2.1.map
        fun c => (c.handler, c.slice)) = [(some 2, ⟨8, 8⟩)] := by
  decide

end Fennix.Network
