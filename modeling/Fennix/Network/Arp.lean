import Fennix.Network.Receive

/-! # The ARP cache

    `ARP::ManageDiscoveredAddresses` and the part of `ARP::OnEthernetPacketReceived` of
    `Kernel/network/arp.cpp` that keeps the addresses which were discovered.

    The search is made for `TmpIPStruct` before the sender's address is written to it, so
    whether a packet adds an entry or updates one depends on whether `255.255.255.255`, the
    address of a structure that is not filled, is in the cache (`cache_right_iff`).
-/

namespace Fennix.Network.Arp

open Fennix.Network

/-- `struct DiscoveredAddress` -/
structure DiscoveredAddress where
  mac : List Byte
  ip : Address
  deriving DecidableEq

inductive DAType where
  | add | del | search | update

/-- The loop of `DA_UPDATE`: the first entry of the address has the new MAC. -/
def updateFirst (ip : Address) (mac : List Byte) : List DiscoveredAddress → List DiscoveredAddress
  | [] => []
  | d :: cache => if d.ip = ip then ⟨mac, d.ip⟩ :: cache else d :: updateFirst ip mac cache

/-- `ARP::ManageDiscoveredAddresses`: the cache after it, and the entry it returns. -/
def manageDiscoveredAddresses (cache : List DiscoveredAddress) (type : DAType) (ip : Address)
    (mac : List Byte) : List DiscoveredAddress × Option DiscoveredAddress :=
  match type with
  | .add => (cache ++ [⟨mac, ip⟩], some ⟨mac, ip⟩)
  | .del => (cache.eraseP (·.ip = ip), none)
  | .search => (cache, cache.find? (·.ip = ip))
  | .update => (updateFirst ip mac cache, (updateFirst ip mac cache).find? (·.ip = ip))

/-- The fields of `struct ARPHeader` that are read here, in network order. -/
structure ArpHeader where
  hardwareType : Nat
  protocolType : Nat
  senderMAC : List Byte
  senderIP : Address

/-- `InternetProtocol TmpIPStruct;` -/
def tmpIPStruct : Address := [255, 255, 255, 255]

/-- `ARP::OnEthernetPacketReceived`, up to the answer -/
def onEthernetPacketReceived (cache : List DiscoveredAddress) (header : ArpHeader) :
    List DiscoveredAddress :=
  if header.hardwareType ≠ 1 ∨ header.protocolType ≠ 0x0800 then cache
  else if (manageDiscoveredAddresses cache .search tmpIPStruct header.senderMAC).2 = none then
    (manageDiscoveredAddresses cache .add header.senderIP header.senderMAC).1
  else (manageDiscoveredAddresses cache .update header.senderIP header.senderMAC).1

/-- The cache after a sequence of packets. -/
def received (packets : List ArpHeader) : List DiscoveredAddress :=
  packets.foldl onEthernetPacketReceived []

/-- The MAC of the last packet of an address. -/
def latest (packets : List ArpHeader) (ip : Address) : Option (List Byte) :=
  (packets.reverse.find? (·.senderIP = ip)).map ArpHeader.senderMAC

def search (cache : List DiscoveredAddress) (ip : Address) : Option (List Byte) :=
  (manageDiscoveredAddresses cache .search ip []).2.map DiscoveredAddress.mac

/-- There is one entry for an address at most, and a search finds the last packet. -/
def CacheRight (packets : List ArpHeader) (cache : List DiscoveredAddress) : Prop :=
  (cache.map DiscoveredAddress.ip).Nodup ∧
    ∀ ip mac, latest packets ip = some mac → search cache ip = some mac

/-- A packet of a sender that was heard before comes exactly if `255.255.255.255` was. -/
def Orderly (packets : List ArpHeader) : Prop :=
  ∀ earlier p, earlier ++ [p] <+: packets →
    (p.senderIP ∈ earlier.map ArpHeader.senderIP ↔ tmpIPStruct ∈ earlier.map ArpHeader.senderIP)

/-! ## Section 1: One packet -/

variable {cache : List DiscoveredAddress} {packets : List ArpHeader} {p : ArpHeader} {ip : Address}

theorem search_eq_none : search cache ip = none ↔ ip ∉ cache.map DiscoveredAddress.ip := by
  simp [search, manageDiscoveredAddresses]

theorem updateFirst_ips (mac : List Byte) :
    (updateFirst ip mac cache).map DiscoveredAddress.ip = cache.map DiscoveredAddress.ip := by
  induction cache with
  | nil => rfl
  | cons d cache ih =>
    unfold updateFirst
    split <;> simp [ih]

theorem updateFirst_of_notMem (mac : List Byte) (h : ip ∉ cache.map DiscoveredAddress.ip) :
    updateFirst ip mac cache = cache := by
  induction cache with
  | nil => rfl
  | cons d cache ih =>
    rw [List.map_cons, List.mem_cons, not_or] at h
    rw [updateFirst, if_neg (Ne.symm h.1), ih h.2]

theorem search_updateFirst (mac : List Byte) (key : Address)
    (h : ip ∈ cache.map DiscoveredAddress.ip) :
    search (updateFirst ip mac cache) key = if ip = key then some mac else search cache key := by
  simp only [search, manageDiscoveredAddresses]
  induction cache with
  | nil => simp at h
  | cons d cache ih =>
    by_cases hd : d.ip = ip
    · rw [updateFirst, if_pos hd]
      by_cases hkey : ip = key <;> simp [hd, hkey]
    · have hmem : ip ∈ cache.map DiscoveredAddress.ip := by
        simpa [Ne.symm hd] using h
      rw [updateFirst, if_neg hd]
      by_cases hkey : d.ip = key
      · have hne : ip ≠ key := fun e => hd (hkey.trans e.symm)
        simp [hkey, hne]
      · simpa [hkey] using ih hmem

theorem search_concat (d : DiscoveredAddress) :
    search (cache ++ [d]) ip = (search cache ip).or (if d.ip = ip then some d.mac else none) := by
  simp only [search, manageDiscoveredAddresses, List.find?_append, List.find?_singleton,
    Option.map_or, decide_eq_true_eq]
  split <;> rfl

theorem latest_concat : latest (packets ++ [p]) ip =
    if p.senderIP = ip then some p.senderMAC else latest packets ip := by
  by_cases h : p.senderIP = ip <;> simp [latest, h]

theorem latest_eq_none : latest packets ip = none ↔ ip ∉ packets.map ArpHeader.senderIP := by
  simp [latest]

/-- What a packet of the supported types does. -/
theorem received_concat (h : p.hardwareType = 1 ∧ p.protocolType = 0x0800) :
    received (packets ++ [p]) =
      if tmpIPStruct ∈ (received packets).map DiscoveredAddress.ip then
        updateFirst p.senderIP p.senderMAC (received packets)
      else received packets ++ [⟨p.senderMAC, p.senderIP⟩] := by
  have hnone : (manageDiscoveredAddresses (received packets) .search tmpIPStruct p.senderMAC).2 =
      none ↔ tmpIPStruct ∉ (received packets).map DiscoveredAddress.ip := by
    simp [manageDiscoveredAddresses]
  rw [received, List.foldl_concat, ← received, onEthernetPacketReceived, if_neg (by simp [h])]
  by_cases htmp : tmpIPStruct ∈ (received packets).map DiscoveredAddress.ip
  · rw [if_pos htmp, if_neg (by rw [hnone]; exact not_not_intro htmp)]
    rfl
  · rw [if_neg htmp, if_pos (hnone.mpr htmp)]
    rfl

theorem orderly_concat : Orderly (packets ++ [p]) ↔ Orderly packets ∧
    (p.senderIP ∈ packets.map ArpHeader.senderIP ↔
      tmpIPStruct ∈ packets.map ArpHeader.senderIP) := by
  simp only [Orderly, List.prefix_concat_iff]
  constructor
  · intro h
    exact ⟨fun earlier q hq => h earlier q (.inr hq), h packets p (.inl rfl)⟩
  · rintro ⟨hall, hlast⟩ earlier q (heq | hq)
    · obtain ⟨rfl, hq⟩ := List.append_inj' heq rfl
      rw [List.singleton_inj] at hq
      exact hq ▸ hlast
    · exact hall earlier q hq

/-! ## Section 2: All packets -/

/-- What holds of the cache after every sequence of packets. -/
structure Kept (packets : List ArpHeader) (cache : List DiscoveredAddress) : Prop where
  /-- only senders are in the cache -/
  sent : ∀ ip ∈ cache.map DiscoveredAddress.ip, ip ∈ packets.map ArpHeader.senderIP
  /-- until `255.255.255.255` is heard, every packet is added -/
  quiet : tmpIPStruct ∉ cache.map DiscoveredAddress.ip →
    cache.map DiscoveredAddress.ip = packets.map ArpHeader.senderIP
  /-- an entry which is the only one of its address is up to date -/
  fresh : (cache.map DiscoveredAddress.ip).Nodup →
    ∀ ip ∈ cache.map DiscoveredAddress.ip, search cache ip = latest packets ip

theorem kept_received (packets : List ArpHeader)
    (h : ∀ p ∈ packets, p.hardwareType = 1 ∧ p.protocolType = 0x0800) :
    Kept packets (received packets) := by
  induction packets using List.reverseRecOn with
  | nil => exact ⟨by simp [received], fun _ => rfl, by simp [received]⟩
  | append_singleton packets p ih =>
    rw [List.forall_mem_append] at h
    have hkept := ih h.1
    rw [received_concat (h.2 p (by simp))]
    split
    · next htmp =>
      refine ⟨?_, ?_, ?_⟩
      · intro ip hip
        rw [updateFirst_ips] at hip
        simpa using Or.inl (by simpa using hkept.sent ip hip)
      · intro hno
        rw [updateFirst_ips] at hno
        exact absurd htmp hno
      · intro hnodup ip hip
        rw [updateFirst_ips] at hnodup hip
        rw [latest_concat, ← hkept.fresh hnodup ip hip]
        by_cases hknown : p.senderIP ∈ (received packets).map DiscoveredAddress.ip
        · exact search_updateFirst _ _ hknown
        · -- an update of an address that is not there changes nothing
          have hne : p.senderIP ≠ ip := fun e => hknown (e ▸ hip)
          rw [if_neg hne, updateFirst_of_notMem _ hknown]
    · next htmp =>
      have hips : (received packets ++ [(⟨p.senderMAC, p.senderIP⟩ : DiscoveredAddress)]).map
          DiscoveredAddress.ip = (packets ++ [p]).map ArpHeader.senderIP := by
        simp [← hkept.quiet htmp]
      refine ⟨fun ip hip => hips ▸ hip, fun _ => hips, ?_⟩
      intro hnodup ip hip
      rw [latest_concat]
      rw [List.map_append, List.map_singleton, List.nodup_append] at hnodup
      by_cases heq : p.senderIP = ip
      · have hnone : search (received packets) ip = none := by
          rw [search_eq_none, ← heq]
          exact fun hmem => hnodup.2.2 _ hmem _ (by simp) rfl
        rw [search_concat, hnone, if_pos heq, if_pos heq]
        rfl
      · have hold : ip ∈ (received packets).map DiscoveredAddress.ip := by
          simpa [Ne.symm heq] using hip
        rw [search_concat, if_neg heq, if_neg heq, ← hkept.fresh hnodup.1 ip hold, Option.or_none]

theorem cacheRight_iff (h : Kept packets cache) : CacheRight packets cache ↔
    (cache.map DiscoveredAddress.ip).Nodup ∧
      ∀ ip ∈ packets.map ArpHeader.senderIP, ip ∈ cache.map DiscoveredAddress.ip := by
  refine and_congr_right fun hnodup => forall_congr' fun ip => ?_
  constructor
  · intro hfound hsent
    by_contra hno
    obtain ⟨mac, hmac⟩ := Option.ne_none_iff_exists'.mp (mt latest_eq_none.mp (not_not_intro hsent))
    have := hfound mac hmac
    rw [search_eq_none.mpr hno] at this
    cases this
  · intro hsent mac hmac
    have hmem : ip ∈ packets.map ArpHeader.senderIP := by
      by_contra hno
      rw [latest_eq_none.mpr hno] at hmac
      cases hmac
    rw [h.fresh hnodup ip (hsent hmem), hmac]

/-- For every sequence of Ethernet and IPv4 packets: the cache has one entry of each sender,
    with the MAC of its last packet, exactly if each packet that is not the first one of its
    sender comes after one of `255.255.255.255`, and each packet after that one is not the
    first one of its sender. -/
theorem cache_right_iff (packets : List ArpHeader)
    (h : ∀ p ∈ packets, p.hardwareType = 1 ∧ p.protocolType = 0x0800) :
    CacheRight packets (received packets) ↔ Orderly packets := by
  rw [cacheRight_iff (kept_received packets h)]
  induction packets using List.reverseRecOn with
  | nil => simp [received, Orderly]
  | append_singleton packets p ih =>
    rw [List.forall_mem_append] at h
    have hkept := kept_received packets h.1
    rw [orderly_concat, ← ih h.1, received_concat (h.2 p (by simp)), List.map_append,
      List.map_singleton, List.forall_mem_append, List.forall_mem_singleton]
    by_cases htmp : tmpIPStruct ∈ (received packets).map DiscoveredAddress.ip
    · -- the entries stay, so the sender has to have one
      rw [if_pos htmp, updateFirst_ips, iff_true_right (hkept.sent _ htmp), ← and_assoc]
      refine and_congr_right fun hall => ⟨hkept.sent _, hall.2 _⟩
    · rw [if_neg htmp, List.map_append, hkept.quiet htmp]
      rw [hkept.quiet htmp] at htmp
      rw [iff_false_right htmp, List.map_singleton, List.nodup_append]
      constructor
      · rintro ⟨⟨hnodup, -, hnew⟩, -⟩
        exact ⟨⟨hnodup, fun _ => id⟩, fun hmem => hnew _ hmem _ (by simp) rfl⟩
      · rintro ⟨⟨hnodup, -⟩, hnew⟩
        refine ⟨⟨hnodup, by simp, ?_⟩, ?_, by simp⟩
        · rintro ip hip _ hlast rfl
          obtain rfl : ip = p.senderIP := List.mem_singleton.mp hlast
          exact hnew hip
        · exact fun ip hip => List.mem_append_left _ hip

theorem cache_right_iff_one : CacheRight [⟨1, 0x0800, [2], [10, 0, 0, 2]⟩]
    (received [⟨1, 0x0800, [2], [10, 0, 0, 2]⟩]) :=
  (cache_right_iff _ (by simp)).mpr <| by
    rw [← List.nil_append [_], orderly_concat]
    exact ⟨by simp [Orderly], by simp⟩

/-- A host that has a new MAC: there are two entries, and the old one is found. -/
theorem cache_stale :
    received [⟨1, 0x0800, [2], [10, 0, 0, 2]⟩, ⟨1, 0x0800, [3], [10, 0, 0, 2]⟩] =
        [⟨[2], [10, 0, 0, 2]⟩, ⟨[3], [10, 0, 0, 2]⟩] ∧
      search (received [⟨1, 0x0800, [2], [10, 0, 0, 2]⟩, ⟨1, 0x0800, [3], [10, 0, 0, 2]⟩])
        [10, 0, 0, 2] = some [2] := by
  decide

end Fennix.Network.Arp
