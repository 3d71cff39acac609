import Mathlib.Data.BitVec

/-! # Requests to an AHCI disk

    `Read`, `Write` and `Port::ReadWrite` of `Kernel/drivers/storage/ahci/ahci.cpp`. A
    request becomes at most one command: a 48-bit sector number in six registers, a
    16-bit number of sectors and a region of memory whose length has 22 bits. The device
    is what the driver reads of it: it may be busy, finish or fail at any time.

    - `readWrite_eq`: what is issued and when the call succeeds.
    - `request_right_iff`: a request is carried out and answered rightly exactly if the
      sector number has 24 bits, there are at most 8192 sectors and nothing fails.
-/

namespace Fennix.Driver.Ahci

/-! ## Section 1: The driver -/

def EINVAL : Int := 28
def EIO : Int := 29
def ENOTSUP : Int := 61
def ETIMEDOUT : Int := 78

inductive PortType where
  | none
  | sata
  | semb
  | pm
  | satapi
deriving DecidableEq, Repr

structure Port where
  ahciPortType : PortType
  blockSize : Nat
deriving DecidableEq, Repr

/-- What the driver can read from the registers of a port. `busy k` is that the `k`-th
    read of `TaskFileData` finds `ATA_DEV_BUSY` or `ATA_DEV_DRQ`; `issued k` that the
    `k`-th read of `CommandIssue` after the command was issued is not 0, and `error k`
    that `HBA_PxIS_TFES` is set in `InterruptStatus` then. -/
structure Device where
  busy : Nat → Bool
  issued : Nat → Bool
  error : Nat → Bool

/-- What is issued: the entry of the region table and the registers of the command. -/
structure Command where
  write : Bool
  dataBaseAddress : Nat
  dataBaseAddressUpper : Nat
  byteCount : Nat
  lba0 : Nat
  lba1 : Nat
  lba2 : Nat
  lba3 : Nat
  lba4 : Nat
  lba5 : Nat
  countLow : Nat
  countHigh : Nat
deriving DecidableEq, Repr

/-- The command of `ReadWrite`. -/
def command (sector sectorCount buffer : Nat) (write : Bool) : Command :=
  let sectorL := sector % 2 ^ 32
  let sectorH := sector / 2 ^ 32 % 2 ^ 32
  { write
    dataBaseAddress := buffer % 2 ^ 32
    dataBaseAddressUpper := buffer / 2 ^ 32 % 2 ^ 32
    byteCount := (sectorCount * 2 ^ 9 % 2 ^ 32 + 2 ^ 32 - 1) % 2 ^ 32 % 2 ^ 22
    lba0 := sectorL % 2 ^ 8
    lba1 := sectorL / 2 ^ 8 % 2 ^ 8
    lba2 := sectorL / 2 ^ 16 % 2 ^ 8
    lba3 := sectorH % 2 ^ 8
    lba4 := sectorH / 2 ^ 8 % 2 ^ 8
    lba5 := sectorH / 2 ^ 16 % 2 ^ 8
    countLow := sectorCount % 2 ^ 8
    countHigh := sectorCount / 2 ^ 8 % 2 ^ 8 }

/-- `while (busy && spinLock < limit) spinLock++;`, with what `spinLock` lacks to the limit. -/
def spinBusy (d : Device) : Nat → Nat → Nat
  | 0, spinLock => spinLock
  | n + 1, spinLock => if d.busy spinLock then spinBusy d n (spinLock + 1) else spinLock

/-- The loop that waits for the command. -/
def spinIssued (d : Device) (limit : Nat) : Nat → Nat → Nat → Nat → Option Int
  | 0, _, _, _ => none
  | rounds + 1, k, spinLock, retries =>
    if limit < spinLock ∧ 10 < retries + 1 then some ETIMEDOUT
    else if ¬ d.issued k then some 0
    else if d.error k then some EIO
    else if limit < spinLock then spinIssued d limit rounds (k + 1) 1 (retries + 1)
    else spinIssued d limit rounds (k + 1) (spinLock + 1) retries

/-- The reads of `CommandIssue` after which the driver gives up. -/
def polls (limit : Nat) : Nat := 11 * (limit + 1)

/-- `Port::ReadWrite`: the status and the commands that were issued. -/
def readWrite (port : Port) (d : Device) (sector sectorCount buffer : Nat) (write : Bool) :
    Option (Int × List Command) :=
  if port.ahciPortType = .satapi ∧ write then some (ENOTSUP, [])
  else if spinBusy d 1000000 0 = 1000000 then some (ETIMEDOUT, [])
  else (spinIssued d 100000000 (polls 100000000 + 1) 0 0 0).map fun status =>
    (status, [command sector sectorCount buffer write])

/-- `Read` and `Write`, which differ in the direction only. The status is a `bool`. -/
def request (write : Bool) (port : Port) (d : Device) (buffer size offset : Nat) :
    Option (Int × List Command) :=
  if offset % port.blockSize ≠ 0 ∨ size % port.blockSize ≠ 0 then some (-EINVAL, [])
  else
    let sector := offset / port.blockSize
    let sectorCount := size / port.blockSize % 2 ^ 32
    if sectorCount = 0 then some (0, [])
    else (readWrite port d sector sectorCount buffer write).map fun r =>
      (if r.1 ≠ 0 then 1 else (size : Int), r.2)

/-- `Read` -/
def read : Port → Device → Nat → Nat → Nat → Option (Int × List Command) := request false

/-- `Write` -/
def write : Port → Device → Nat → Nat → Nat → Option (Int × List Command) := request true

/-! ## Section 2: What a command does -/

namespace Command

/-- The sector a device starts at. -/
def lba (c : Command) : Nat :=
  c.lba0 + 2 ^ 8 * c.lba1 + 2 ^ 16 * c.lba2 + 2 ^ 24 * c.lba3 + 2 ^ 32 * c.lba4 + 2 ^ 40 * c.lba5

/-- The number of sectors a device transfers; 0 stands for 65536. -/
def count (c : Command) : Nat :=
  if c.countLow + 2 ^ 8 * c.countHigh = 0 then 65536 else c.countLow + 2 ^ 8 * c.countHigh

/-- The bytes of the region of memory. -/
def bytes (c : Command) : Nat := c.byteCount + 1

/-- The address of the region of memory. -/
def address (c : Command) : Nat := c.dataBaseAddress + 2 ^ 32 * c.dataBaseAddressUpper

/-- The sectors that are transferred, each with its place in memory. -/
def moves (c : Command) : List (Nat × Nat) :=
  (List.range c.count).map fun i => (c.lba + i, c.address + 512 * i)

end Command

/-- The device completes what was issued and reports no error. -/
def Completed (d : Device) (commands : List Command) : Prop :=
  commands ≠ [] ∧ ∃ k, d.issued k = false ∧ ∀ j ≤ k, d.error j = false

/-- A request is carried out and answered rightly. -/
structure Right (write : Bool) (d : Device) (buffer size offset : Nat) (result : Int)
    (commands : List Command) : Prop where
  /-- The commands together transfer the sectors asked for. -/
  moves : commands.flatMap Command.moves =
    (List.range (size / 512)).map fun i => (offset / 512 + i, buffer + 512 * i)
  /-- The region of memory is as long as the sectors. -/
  bytes : ∀ c ∈ commands, c.bytes = 512 * c.count
  direction : ∀ c ∈ commands, c.write = write
  completed : result = size ↔ Completed d commands
  failed : ¬ Completed d commands → result < 0

/-! ## Section 3: The registers -/

theorem address_command {buffer : Nat} (h : buffer < 2 ^ 64) (sector sectorCount : Nat)
    (write : Bool) : (command sector sectorCount buffer write).address = buffer := by
  simp only [Command.address, command]
  omega

/-- The fourth register takes a byte of the upper half of the sector number, so the upper
    byte of the lower half is lost. -/
theorem lba_command (sector sectorCount buffer : Nat) (write : Bool) :
    (command sector sectorCount buffer write).lba =
      sector % 2 ^ 24 + 2 ^ 24 * (sector / 2 ^ 32 % 2 ^ 24) := by
  simp only [Command.lba, command]
  omega

theorem lba_command_eq_iff {sector : Nat} (h : sector < 2 ^ 48) (sectorCount buffer : Nat)
    (write : Bool) :
    (command sector sectorCount buffer write).lba = sector ↔ sector < 2 ^ 24 := by
  have hhigh : sector / 2 ^ 32 % 2 ^ 24 = sector / 2 ^ 32 := Nat.mod_eq_of_lt (by omega)
  rw [lba_command, hhigh]
  constructor
  · intro heq
    have hzero : sector / 2 ^ 32 = 0 := by omega
    omega
  · intro hlt
    omega

theorem count_command {sectorCount : Nat} (hpos : 0 < sectorCount) (hle : sectorCount ≤ 65536)
    (sector buffer : Nat) (write : Bool) :
    (command sector sectorCount buffer write).count = sectorCount := by
  have hsum : sectorCount % 2 ^ 8 + 2 ^ 8 * (sectorCount / 2 ^ 8 % 2 ^ 8) = sectorCount % 65536 := by
    omega
  simp only [Command.count, command, hsum]
  by_cases hzero : sectorCount % 65536 = 0
  · rw [if_pos hzero]
    omega
  · rw [if_neg hzero]
    omega

theorem bytes_command_le (sector sectorCount buffer : Nat) (write : Bool) :
    (command sector sectorCount buffer write).bytes ≤ 512 * 8192 := by
  simp only [Command.bytes, command]
  omega

theorem bytes_command {sectorCount : Nat} (hpos : 0 < sectorCount) (hle : sectorCount ≤ 8192)
    (sector buffer : Nat) (write : Bool) :
    (command sector sectorCount buffer write).bytes = 512 * sectorCount := by
  simp only [Command.bytes, command]
  omega

theorem command_exact_iff {sector n buffer : Nat} (hpos : 0 < n) (hend : sector + n ≤ 2 ^ 48)
    (hbuffer : buffer < 2 ^ 64) (write : Bool) :
    ((command sector (n % 2 ^ 32) buffer write).moves =
          (List.range n).map (fun i => (sector + i, buffer + 512 * i)) ∧
        (command sector (n % 2 ^ 32) buffer write).bytes =
          512 * (command sector (n % 2 ^ 32) buffer write).count) ↔
      sector < 2 ^ 24 ∧ n ≤ 8192 := by
  have hlba := lba_command_eq_iff (by omega : sector < 2 ^ 48) (n % 2 ^ 32) buffer write
  have haddress := address_command hbuffer sector (n % 2 ^ 32) write
  constructor
  · intro ⟨hmoves, hbytes⟩
    have hcount : (command sector (n % 2 ^ 32) buffer write).count = n := by
      simpa [Command.moves] using congrArg List.length hmoves
    have hle := bytes_command_le sector (n % 2 ^ 32) buffer write
    refine ⟨?_, by omega⟩
    -- The first sector of the command is the first one asked for.
    obtain ⟨k, rfl⟩ : ∃ k, n = k + 1 := ⟨n - 1, by omega⟩
    unfold Command.moves at hmoves
    rw [hcount, List.range_succ_eq_map] at hmoves
    simp only [List.map_cons, List.cons.injEq, Prod.mk.injEq, add_zero] at hmoves
    exact hlba.mp hmoves.1.1
  · intro ⟨hsector, hn⟩
    have hmod : n % 2 ^ 32 = n := Nat.mod_eq_of_lt (by omega)
    rw [hmod] at hlba haddress ⊢
    have hcount := count_command hpos (by omega : n ≤ 65536) sector buffer write
    refine ⟨?_, ?_⟩
    · simp only [Command.moves, hcount, hlba.mpr hsector, haddress]
    · rw [hcount, bytes_command hpos hn]

/-! ## Section 4: The loops -/

theorem spinBusy_eq_iff (d : Device) (n : Nat) : ∀ spinLock,
    spinBusy d n spinLock = spinLock + n ↔ ∀ k, spinLock ≤ k → k < spinLock + n → d.busy k = true := by
  induction n with
  | zero => intro spinLock; simp [spinBusy]; omega
  | succ n ih =>
    intro spinLock
    have hnext := ih (spinLock + 1)
    unfold spinBusy
    split
    case isTrue hbusy =>
      rw [show spinLock + (n + 1) = spinLock + 1 + n by omega, hnext]
      constructor
      · intro h k hk hlt
        obtain rfl | hk : k = spinLock ∨ spinLock + 1 ≤ k := by omega
        · exact hbusy
        · exact h k hk hlt
      · intro h k hk hlt
        exact h k (by omega) hlt
    case isFalse hbusy =>
      constructor
      · intro h; omega
      · intro h; exact absurd (h spinLock le_rfl (by omega)) hbusy

/-- The command is seen to be completed at a read from the `k`-th on, before an error. -/
def SeenFrom (d : Device) (limit k : Nat) : Prop :=
  ∃ n, k ≤ n ∧ n < polls limit ∧ d.issued n = false ∧
    ∀ j, k ≤ j → j < n → d.issued j = true ∧ d.error j = false

variable {d : Device}

theorem seenFrom_iff_next {limit k : Nat} (hissued : d.issued k = true) (herror : d.error k = false) :
    SeenFrom d limit k ↔ SeenFrom d limit (k + 1) := by
  constructor
  · intro ⟨n, hk, hn, hdone, hbefore⟩
    obtain rfl | hlt : n = k ∨ k + 1 ≤ n := by omega
    · rw [hissued] at hdone
      cases hdone
    · exact ⟨n, hlt, hn, hdone, fun j hj hjn => hbefore j (by omega) hjn⟩
  · intro ⟨n, hk, hn, hdone, hbefore⟩
    refine ⟨n, by omega, hn, hdone, fun j hj hjn => ?_⟩
    obtain rfl | hlt : j = k ∨ k + 1 ≤ j := by omega
    · exact ⟨hissued, herror⟩
    · exact hbefore j hlt hjn

/-- The loop ends, and with 0 exactly if it sees the command completed. The rounds are
    those left until `retries` is too great. -/
theorem spinIssued_spec (d : Device) (limit : Nat) : ∀ rounds k spinLock retries : Nat,
    k = retries * (limit + 1) + spinLock → spinLock ≤ limit + 1 → retries ≤ 10 →
    polls limit + 1 = k + rounds →
      ∃ status, spinIssued d limit rounds k spinLock retries = some status ∧
        (status = 0 ↔ SeenFrom d limit k) := by
  intro rounds
  induction rounds with
  | zero =>
    intro k spinLock retries hk hspin hretries hrounds
    have : retries * (limit + 1) ≤ 10 * (limit + 1) := Nat.mul_le_mul_right _ hretries
    unfold polls at hrounds
    omega
  | succ rounds ih =>
    intro k spinLock retries hk hspin hretries hrounds
    have hmul : retries * (limit + 1) ≤ 10 * (limit + 1) := Nat.mul_le_mul_right _ hretries
    unfold spinIssued
    by_cases htime : limit < spinLock ∧ 10 < retries + 1
    · -- After the last retry nothing is read any more.
      rw [if_pos htime]
      refine ⟨_, rfl, fun h => absurd h (by decide), fun h => ?_⟩
      obtain ⟨n, hkn, hn, -⟩ := h
      obtain rfl : retries = 10 := by omega
      unfold polls at hn
      omega
    rw [if_neg htime]
    have hbound : k < polls limit := by
      unfold polls
      obtain hlt | rfl : retries < 10 ∨ retries = 10 := by omega
      · have : retries * (limit + 1) ≤ 9 * (limit + 1) := Nat.mul_le_mul_right _ (by omega)
        omega
      · omega
    cases hissued : d.issued k with
    | false =>
      rw [if_pos (by simp)]
      refine ⟨_, rfl, fun _ => ⟨k, le_rfl, hbound, hissued, fun j hj hjk => by omega⟩, fun _ => rfl⟩
    | true =>
      rw [if_neg (by simp)]
      cases herror : d.error k with
      | true =>
        rw [if_pos rfl]
        refine ⟨_, rfl, fun h => absurd h (by decide), fun h => ?_⟩
        obtain ⟨n, hkn, -, hdone, hbefore⟩ := h
        obtain rfl | hlt : n = k ∨ k < n := by omega
        · rw [hissued] at hdone
          cases hdone
        · have := (hbefore k le_rfl hlt).2
          rw [herror] at this
          cases this
      | false =>
        rw [if_neg (by simp), seenFrom_iff_next hissued herror]
        split
        · -- A retry starts the count again.
          refine ih (k + 1) 1 (retries + 1) ?_ (by omega) (by omega) (by omega)
          rw [Nat.add_mul]
          omega
        · exact ih (k + 1) (spinLock + 1) retries (by omega) (by omega) hretries (by omega)

/-! ## Section 5: Requests -/

/-- The reads of `TaskFileData` find the device ready in time. -/
def Ready (d : Device) : Prop := ∃ k < 1000000, d.busy k = false

/-- The port takes the command. -/
def Accepts (port : Port) (d : Device) (write : Bool) : Prop :=
  ¬ (port.ahciPortType = .satapi ∧ write = true) ∧ Ready d

/-- `readWrite` ends. If the port takes the command it is issued, and the status is 0
    exactly if it is seen to be completed. -/
theorem readWrite_eq (port : Port) (d : Device) (sector sectorCount buffer : Nat) (write : Bool) :
    ∃ status commands, readWrite port d sector sectorCount buffer write = some (status, commands) ∧
      (Accepts port d write → commands = [command sector sectorCount buffer write] ∧
        (status = 0 ↔ SeenFrom d 100000000 0)) ∧
      (¬ Accepts port d write → commands = []) := by
  unfold readWrite
  by_cases htype : port.ahciPortType = .satapi ∧ write = true
  · rw [if_pos htype]
    exact ⟨_, _, rfl, fun h => absurd htype h.1, fun _ => rfl⟩
  rw [if_neg htype]
  have hspin := spinBusy_eq_iff d 1000000 0
  rw [Nat.zero_add] at hspin
  by_cases hbusy : spinBusy d 1000000 0 = 1000000
  · rw [if_pos hbusy]
    refine ⟨_, _, rfl, fun h => ?_, fun _ => rfl⟩
    obtain ⟨k, hk, hready⟩ := h.2
    have := hspin.mp hbusy k (by omega) hk
    rw [hready] at this
    cases this
  · rw [if_neg hbusy]
    obtain ⟨status, hstatus, hseen⟩ := spinIssued_spec d 100000000 (polls 100000000 + 1) 0 0 0
      (by omega) (by omega) (by omega) (by omega)
    rw [hstatus]
    refine ⟨status, _, rfl, fun _ => ⟨rfl, hseen⟩, fun h => absurd ⟨htype, ?_⟩ h⟩
    rw [hspin] at hbusy
    push Not at hbusy
    obtain ⟨k, -, hk, hready⟩ := hbusy
    exact ⟨k, hk, by simpa using hready⟩

/-- The device completes the command while the driver waits for it, without an error. -/
def CompletesInTime (d : Device) : Prop :=
  ∃ k < polls 100000000, d.issued k = false ∧ ∀ j ≤ k, d.error j = false

theorem SeenFrom.of_completesInTime (h : CompletesInTime d) : SeenFrom d 100000000 0 := by
  obtain ⟨k, hk, hdone, herror⟩ := h
  -- The driver sees the first read that finds the command completed.
  have hex : ∃ n, d.issued n = false := ⟨k, hdone⟩
  have hle : Nat.find hex ≤ k := Nat.find_min' hex hdone
  refine ⟨Nat.find hex, by omega, by omega, Nat.find_spec hex, fun j _ hj => ⟨?_, ?_⟩⟩
  · simpa using Nat.find_min hex hj
  · exact herror j (by omega)

theorem SeenFrom.completesInTime {commands : List Command} (h : SeenFrom d 100000000 0)
    (hcompleted : Completed d commands) : CompletesInTime d := by
  obtain ⟨n, -, hn, hdone, hbefore⟩ := h
  obtain ⟨-, k, hk, herror⟩ := hcompleted
  have hle : n ≤ k := by
    by_contra hlt
    have := (hbefore k (by omega) (by omega)).1
    rw [hk] at this
    cases this
  exact ⟨n, hn, hdone, fun j hj => herror j (by omega)⟩

/-- A request that the driver carries out and answers rightly. -/
structure Within (write : Bool) (port : Port) (d : Device) (size offset : Nat) : Prop where
  sector : offset / 512 < 2 ^ 24
  sectors : size / 512 ≤ 8192
  accepts : Accepts port d write
  completes : CompletesInTime d

/-- A request to a port whose blocks have 512 bytes ends. It is carried out and answered
    rightly exactly if its sectors are among the first 2^24 and at most 8192, the port
    takes the command, and the device completes it in time and without an error: every
    failure is answered with 1, and a sector number of more than 24 bits is mangled. -/
theorem request_right_iff (write : Bool) (port : Port) (d : Device) {buffer size offset : Nat}
    (hblock : port.blockSize = 512) (hbuffer : buffer < 2 ^ 64) (hoffset : 512 ∣ offset)
    (hsize : 512 ∣ size) (hpos : 0 < size) (hend : offset + size ≤ 2 ^ 48 * 512) :
    ∃ result commands, request write port d buffer size offset = some (result, commands) ∧
      (Right write d buffer size offset result commands ↔ Within write port d size offset) := by
  have hn : 0 < size / 512 := Nat.div_pos (Nat.le_of_dvd hpos hsize) (by omega)
  have hmoves : ¬ ([] : List Command).flatMap Command.moves =
      (List.range (size / 512)).map fun i => (offset / 512 + i, buffer + 512 * i) := by
    intro h
    have := congrArg List.length h
    simp at this
    omega
  unfold request
  rw [hblock, if_neg (by omega)]
  by_cases hzero : size / 512 % 2 ^ 32 = 0
  · -- A number of sectors that is a multiple of 2^32 is taken for no sectors.
    rw [if_pos hzero]
    refine ⟨_, _, rfl, fun h => absurd h.moves hmoves, fun h => ?_⟩
    have := h.sectors
    omega
  rw [if_neg hzero]
  obtain ⟨status, commands, hrw, hyes, hno⟩ :=
    readWrite_eq port d (offset / 512) (size / 512 % 2 ^ 32) buffer write
  rw [hrw, Option.map_some]
  refine ⟨_, _, rfl, ?_⟩
  by_cases haccepts : Accepts port d write
  case neg =>
    rw [hno haccepts]
    exact ⟨fun h => absurd h.moves hmoves, fun h => absurd h.accepts haccepts⟩
  case pos =>
    obtain ⟨rfl, hstatus⟩ := hyes haccepts
    have hexact := command_exact_iff hn (by omega : offset / 512 + size / 512 ≤ 2 ^ 48) hbuffer write
    have hsum : (size : Int) ≠ 1 := by omega
    constructor
    · intro h
      -- No answer is negative, so nothing failed, and the driver has seen that.
      have hcompleted : Completed d [command (offset / 512) (size / 512 % 2 ^ 32) buffer write] := by
        by_contra hnot
        have hneg := h.failed hnot
        split at hneg <;> omega
      have hresult := h.completed.mpr hcompleted
      have hzero : status = 0 := by
        by_contra hne
        rw [if_pos hne] at hresult
        omega
      have hmove := h.moves
      rw [List.flatMap_singleton] at hmove
      obtain ⟨hsector, hsectors⟩ := hexact.mp ⟨hmove, h.bytes _ List.mem_cons_self⟩
      exact ⟨hsector, hsectors, haccepts, (hstatus.mp hzero).completesInTime hcompleted⟩
    · intro h
      obtain ⟨hmove, hbytes⟩ := hexact.mpr ⟨h.sector, h.sectors⟩
      have hzero : status = 0 := hstatus.mpr (.of_completesInTime h.completes)
      obtain ⟨k, -, hdone, herror⟩ := h.completes
      have hcompleted : Completed d [command (offset / 512) (size / 512 % 2 ^ 32) buffer write] :=
        ⟨List.cons_ne_nil _ _, k, hdone, herror⟩
      constructor
      case moves => rw [List.flatMap_singleton, hmove]
      case bytes =>
        intro c hc
        rw [List.mem_singleton.mp hc, hbytes]
      case direction =>
        intro c hc
        rw [List.mem_singleton.mp hc]
        rfl
      case completed =>
        rw [if_neg (not_not.mpr hzero)]
        exact ⟨fun _ => hcompleted, fun _ => rfl⟩
      case failed => exact fun hnot => absurd hcompleted hnot

/-! ## Section 6: Two requests -/

/-- A disk. -/
def disk : Port := ⟨.sata, 512⟩

/-- A device that completes the command before it is read for the second time. -/
def quick : Device where
  busy _ := false
  issued k := k = 0
  error _ := false

/-- A device that fails. -/
def failing : Device where
  busy _ := false
  issued _ := true
  error _ := true

theorem request_right_quick :
    ∃ result commands, request true disk quick 0x100000 4096 (8192 * 512) = some (result, commands) ∧
      Right true quick 0x100000 4096 (8192 * 512) result commands := by
  obtain ⟨result, commands, hrun, hiff⟩ := request_right_iff true disk quick
    (by decide : disk.blockSize = 512) (by decide : 0x100000 < 2 ^ 64)
    (by decide : 512 ∣ 8192 * 512) (by decide : 512 ∣ 4096) (by decide) (by decide)
  refine ⟨result, commands, hrun, hiff.mpr ⟨by decide, by decide, ⟨by decide, 0, by decide, rfl⟩, ?_⟩⟩
  exact ⟨1, by decide, rfl, fun j _ => rfl⟩

/-- The sector 2^24 is not read, but the sector 0; and a request to a device that fails is
    answered with 1. -/
theorem request_wrong :
    (∃ result commands, read disk quick 0 512 (2 ^ 24 * 512) = some (result, commands) ∧
      commands.flatMap Command.moves = [(0, 0)] ∧
      ¬ Right false quick 0 512 (2 ^ 24 * 512) result commands) ∧
    ∃ commands, read disk failing 0 512 0 = some (1, commands) ∧
      ¬ Completed failing commands ∧ ¬ Right false failing 0 512 0 1 commands := by
  refine ⟨⟨512, [command (2 ^ 24) 1 0 false], by decide +kernel, by decide +kernel, fun h => ?_⟩,
    [command 0 1 0 false], by decide +kernel, ?_, fun h => ?_⟩
  · have hmoves := h.moves
    revert hmoves
    decide +kernel
  · rintro ⟨-, k, hk, -⟩
    cases hk
  · have hneg := h.failed (by rintro ⟨-, k, hk, -⟩; cases hk)
    omega

end Fennix.Driver.Ahci
