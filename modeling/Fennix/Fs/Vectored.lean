import Fennix.Fs.DescriptorOffset

/-! # Vectored I/O

    `linux_readv` and `linux_writev` of `Kernel/subsystem/linux/syscall.cpp`. The
    segments go one by one through `linux_read` and `linux_write`, which return Linux
    error numbers. A failure is converted once more, with the table for native
    numbers, and what was transferred before it is forgotten. No Linux error number
    stands at its own place in that table, so no failure is ever reported right.

    A buffer that is mapped is shorter than `ssize_t` counts.
-/

namespace Fennix.Fs

open Bytes
open Option (map_eq_some_iff bind_eq_some_iff bind_some map_some)

/-! ## Section 1: The calls -/

/-- A `struct iovec`: `iov_base`, whether `UserCheckAndGetAddress` finds it, and the
    bytes there, which are `iov_len` many. -/
structure Iovec where
  base : Nat
  mapped : Bool
  bytes : List Byte
  deriving DecidableEq

/-- `iov_len`. -/
abbrev Iovec.len (v : Iovec) : Nat := v.bytes.length

/-- The bytes that were stored at an `iov_base`. -/
abbrev Stores := List (Nat × List Byte)

namespace FileDescriptorTable

variable {σ : Type} (fs : Nat → InodeOperations σ)

/-- `linux_read` into a segment: what it returns and the bytes it stores there. -/
def readSegment (fd : Int) (s : FileDescriptorTable σ) (v : Iovec) :
    Option (Int × List Byte × FileDescriptorTable σ) :=
  (s.linuxRead fs v.mapped fd v.len).bind fun (n, s') =>
    if v.mapped = false then some (n, [], s')
    else (s.usrRead fs fd v.len).map fun (_, bytes) => (n, bytes, s')

/-- `linux_write` from a segment. -/
def writeSegment (fd : Int) (s : FileDescriptorTable σ) (v : Iovec) :
    Option (Int × List Byte × FileDescriptorTable σ) :=
  (s.linuxWrite fs v.mapped fd v.bytes).map fun (n, s') => (n, [], s')

/-- The loop of `linux_readv` and `linux_writev`. -/
def vectored (transfer : FileDescriptorTable σ → Iovec →
      Option (Int × List Byte × FileDescriptorTable σ)) :
    Int → FileDescriptorTable σ → List Iovec → Option (Int × Stores × FileDescriptorTable σ)
  | total, s, [] => some (total, [], s)
  | total, s, v :: rest =>
    if v.base = 0 then some (-linuxEfault, [], s)
    else if v.len = 0 then vectored transfer total s rest
    else
      (transfer s v).bind fun (n, bytes, s) =>
        if n < 0 then (convertErrnoToLinux n).map fun ret => (ret, [(v.base, bytes)], s)
        else if n < v.len then some (total + n, [(v.base, bytes)], s)
        else
          (vectored transfer (total + n) s rest).map fun (ret, stores, s) =>
            (ret, (v.base, bytes) :: stores, s)

/-- `linux_readv`; `mapped` is whether `UserCheckAndGetAddress` finds the array. -/
def linuxReadv (s : FileDescriptorTable σ) (mapped : Bool) (fildes : Int) (iov : List Iovec) :
    Option (Int × Stores × FileDescriptorTable σ) :=
  if mapped = false then some (-linuxEfault, [], s)
  else vectored (readSegment fs fildes) 0 s iov

/-- `linux_writev`. -/
def linuxWritev (s : FileDescriptorTable σ) (mapped : Bool) (fildes : Int) (iov : List Iovec) :
    Option (Int × Stores × FileDescriptorTable σ) :=
  if mapped = false then some (-linuxEfault, [], s)
  else vectored (writeSegment fs fildes) 0 s iov

/-! ## Section 2: What vectored I/O is for -/

/-- A direction of transfer: what the file answers in native numbers, and the Linux call
    that transfers one segment and returns this answer, converted. -/
structure Direction (σ : Type) where
  native : FileDescriptorTable σ → Iovec → Option Int
  transfer : FileDescriptorTable σ → Iovec → Option (Int × List Byte × FileDescriptorTable σ)
  converted : ∀ {s v n bytes s'}, transfer s v = some (n, bytes, s') →
    (if v.mapped = false then some (-linuxEfault) else (native s v).bind convertErrnoToLinux) =
      some n

/-- The Linux error number for a segment: `EFAULT`, or that of the native one. -/
def Direction.linuxError (d : Direction σ) (s : FileDescriptorTable σ) (v : Iovec) : Option Int :=
  if v.mapped = false then some (-linuxEfault) else (d.native s v).bind convertErrnoToLinux

/-- How a vectored call ends: the number of bytes transferred, the error that ended it if
    one did, what was stored and the files after it. -/
structure Outcome (σ : Type) where
  transferred : Int
  failure : Option Int
  stores : Stores
  table : FileDescriptorTable σ

/-- The segments in order, up to the first transfer that is short or fails. -/
def Direction.transferAll (d : Direction σ) :
    FileDescriptorTable σ → List Iovec → Option (Outcome σ)
  | s, [] => some ⟨0, none, [], s⟩
  | s, v :: rest =>
    if v.base = 0 then some ⟨0, some (-linuxEfault), [], s⟩
    else if v.len = 0 then d.transferAll s rest
    else
      (d.transfer s v).bind fun (n, bytes, s') =>
        if n < 0 then some ⟨0, d.linuxError s v, [(v.base, bytes)], s'⟩
        else if n < v.len then some ⟨n, none, [(v.base, bytes)], s'⟩
        else
          (d.transferAll s' rest).map fun o =>
            ⟨n + o.transferred, o.failure, (v.base, bytes) :: o.stores, o.table⟩

/-- The total if it is positive, otherwise the error. -/
def Outcome.result (o : Outcome σ) : Int :=
  if o.transferred > 0 then o.transferred else o.failure.getD 0

theorem linuxRead_returns {s s' : FileDescriptorTable σ} {mapped : Bool} {fd n : Int} {count : Nat}
    (h : s.linuxRead fs mapped fd count = some (n, s')) :
    (if mapped = false then some (-linuxEfault)
      else ((s.usrRead fs fd count).map Prod.fst).bind convertErrnoToLinux) = some n := by
  cases mapped with
  | false => exact congrArg (Option.map Prod.fst) h
  | true =>
    rw [linuxRead, if_neg (by decide), bind_eq_some_iff] at h
    obtain ⟨⟨r, bytes⟩, hread, h⟩ := h
    obtain ⟨ret, hconvert, h⟩ := bind_eq_some_iff.mp h
    rw [if_neg (by decide), hread, map_some, bind_some, hconvert]
    split at h
    · obtain ⟨_, -, heq⟩ := map_eq_some_iff.mp h
      exact congrArg some (Prod.mk.inj heq).1
    · exact congrArg some (Prod.mk.inj (Option.some.inj h)).1

theorem linuxWrite_returns {s s' : FileDescriptorTable σ} {mapped : Bool} {fd n : Int}
    {buf : List Byte} (h : s.linuxWrite fs mapped fd buf = some (n, s')) :
    (if mapped = false then some (-linuxEfault)
      else ((s.usrWrite fs fd buf).map Prod.fst).bind convertErrnoToLinux) = some n := by
  cases mapped with
  | false => exact congrArg (Option.map Prod.fst) h
  | true =>
    rw [linuxWrite, if_neg (by decide), bind_eq_some_iff] at h
    obtain ⟨⟨r, t⟩, hwrite, h⟩ := h
    obtain ⟨ret, hconvert, h⟩ := bind_eq_some_iff.mp h
    rw [if_neg (by decide), hwrite, map_some, bind_some, hconvert]
    split at h
    · obtain ⟨_, -, heq⟩ := map_eq_some_iff.mp h
      exact congrArg some (Prod.mk.inj heq).1
    · exact congrArg some (Prod.mk.inj (Option.some.inj h)).1

/-- Reading. -/
def reading (fd : Int) : Direction σ where
  native := fun s v => (s.usrRead fs fd v.len).map Prod.fst
  transfer := readSegment fs fd
  converted := by
    intro s v n bytes s' h
    obtain ⟨⟨m, t⟩, hread, h⟩ := bind_eq_some_iff.mp h
    obtain rfl : m = n := by
      dsimp only at h
      split at h
      · exact (Prod.mk.inj (Option.some.inj h)).1
      · obtain ⟨_, -, heq⟩ := map_eq_some_iff.mp h
        exact (Prod.mk.inj heq).1
    exact linuxRead_returns fs hread

/-- Writing. -/
def writing (fd : Int) : Direction σ where
  native := fun s v => (s.usrWrite fs fd v.bytes).map Prod.fst
  transfer := writeSegment fs fd
  converted := by
    intro s v n bytes s' h
    obtain ⟨⟨m, t⟩, hwrite, heq⟩ := map_eq_some_iff.mp h
    obtain rfl : m = n := (Prod.mk.inj heq).1
    exact linuxWrite_returns fs hwrite

/-! ## Section 3: Converting twice -/

/-- A number is converted to itself or, if it is an error, by the table. -/
theorem convert_cases {r n : Int} (h : convertErrnoToLinux r = some n) :
    0 ≤ r ∧ n = r ∨ r < 0 ∧ ∃ k : Fin 82, ∃ e, (-r).toNat = k ∧ errnoMap[k.val]? = some e ∧ n = -e := by
  by_cases hr : r ≥ 0
  · rw [convert_nonneg hr] at h
    exact .inl ⟨hr, (Option.some.inj h).symm⟩
  · rw [convertErrnoToLinux, if_neg hr] at h
    obtain ⟨e, he, rfl⟩ := map_eq_some_iff.mp h
    exact .inr ⟨by omega, ⟨(-r).toNat, (List.getElem?_eq_some_iff.mp he).1⟩, e, rfl, he, rfl⟩

theorem convert_twice {r n : Int} (h : convertErrnoToLinux r = some n) (hn : n < 0) :
    convertErrnoToLinux n ≠ some n := by
  have htable : ∀ k : Fin 82, (errnoMap[k.val]?.all fun e => e = 0 ∨ errnoMap[e.toNat]? ≠ some e) =
      true := by decide
  obtain ⟨hr, rfl⟩ | ⟨-, k, e, -, he, rfl⟩ := convert_cases h
  · omega
  · have hall := htable k
    rw [he] at hall
    intro hagain
    rw [convertErrnoToLinux, if_neg (by omega)] at hagain
    obtain ⟨e', he', heq⟩ := map_eq_some_iff.mp hagain
    obtain rfl : e' = e := by omega
    rw [Int.neg_neg] at he'
    simp only [Option.all_some, decide_eq_true_eq] at hall
    obtain hzero | hne := hall
    · omega
    · exact hne he'

theorem convert_neg_iff {r n : Int} (h : convertErrnoToLinux r = some n) : n < 0 ↔ r < 0 := by
  have htable : ∀ k : Fin 82, (errnoMap[k.val]?.all fun e => k.val = 0 ∨ 0 < e) = true := by decide
  obtain ⟨-, rfl⟩ | ⟨hr, k, e, hk, he, rfl⟩ := convert_cases h
  · rfl
  · have hall := htable k
    rw [he] at hall
    simp only [Option.all_some, decide_eq_true_eq] at hall
    omega

namespace Direction

variable {fs} {d : Direction σ} {s s' : FileDescriptorTable σ} {v : Iovec} {n : Int}
  {bytes : List Byte}

/-- The segment is mapped, and the file does not answer with an error. -/
def Answers (d : Direction σ) (s : FileDescriptorTable σ) (v : Iovec) : Prop :=
  v.mapped = true ∧ ∀ r, d.native s v = some r → 0 ≤ r

theorem answers_iff (h : d.transfer s v = some (n, bytes, s')) : d.Answers s v ↔ 0 ≤ n := by
  have hconverted := d.converted h
  unfold Answers
  cases hmapped : v.mapped with
  | false =>
    rw [if_pos hmapped] at hconverted
    cases hconverted
    exact iff_of_false (fun h => by cases h.1) (by decide)
  | true =>
    rw [if_neg (by rw [hmapped]; decide)] at hconverted
    obtain ⟨r, hr, hconvert⟩ := bind_eq_some_iff.mp hconverted
    have hneg := convert_neg_iff hconvert
    rw [hr]
    constructor
    · rintro ⟨-, hpos⟩
      have := hpos r rfl
      omega
    · intro hpos
      refine ⟨rfl, fun r' hr' => ?_⟩
      cases hr'
      omega

theorem failure_differs (h : d.transfer s v = some (n, bytes, s')) (hn : n < 0) :
    convertErrnoToLinux n ≠ some n := by
  have hconverted := d.converted h
  split at hconverted
  · cases hconverted
    decide
  · obtain ⟨r, -, hconvert⟩ := bind_eq_some_iff.mp hconverted
    exact convert_twice hconvert hn

/-- No transfer that is reached fails, and no null `iov_base` is reached after `done` bytes
    have been transferred, unless there were none. -/
def Unfailing (d : Direction σ) : Int → FileDescriptorTable σ → List Iovec → Prop
  | _, _, [] => True
  | done, s, v :: rest =>
    if v.base = 0 then done = 0
    else if v.len = 0 then d.Unfailing done s rest
    else ∀ n bytes s', d.transfer s v = some (n, bytes, s') →
      d.Answers s v ∧ (n < v.len ∨ d.Unfailing (done + n) s' rest)

/-- What a call should return that has transferred `total` bytes already. -/
def expected (d : Direction σ) (total : Int) (s : FileDescriptorTable σ) (iov : List Iovec) :
    Option (Int × Stores × FileDescriptorTable σ) :=
  (d.transferAll s iov).map fun o =>
    (({ o with transferred := total + o.transferred } : Outcome σ).result, o.stores, o.table)

/-- A transfer is in front of what the rest of a call does. -/
def inFront (base : Nat) (bytes : List Byte) (r : Int × Stores × FileDescriptorTable σ) :
    Int × Stores × FileDescriptorTable σ :=
  (r.1, (base, bytes) :: r.2.1, r.2.2)

theorem inFront_injective (base : Nat) (bytes : List Byte) :
    Function.Injective (inFront base bytes : _ → Int × Stores × FileDescriptorTable σ) := by
  rintro ⟨r, stores, s⟩ ⟨r', stores', s'⟩ h
  simp only [inFront, Prod.mk.injEq, List.cons.injEq, true_and] at h
  obtain ⟨rfl, rfl, rfl⟩ := h
  rfl

section Step

variable {total : Int} {rest : List Iovec}

theorem step_full (total : Int) (rest : List Iovec) (hbase : v.base ≠ 0) (hlen : v.len ≠ 0)
    (h : d.transfer s v = some (n, bytes, s')) (hn : ¬ n < 0) (hfull : ¬ n < v.len) :
    vectored d.transfer total s (v :: rest) =
        (vectored d.transfer (total + n) s' rest).map (inFront v.base bytes) ∧
      d.expected total s (v :: rest) =
        (d.expected (total + n) s' rest).map (inFront v.base bytes) := by
  constructor
  · rw [vectored, if_neg hbase, if_neg hlen, h, bind_some]
    dsimp only
    rw [if_neg hn, if_neg hfull]
    rfl
  · rw [expected, transferAll, if_neg hbase, if_neg hlen, h, bind_some]
    dsimp only
    rw [if_neg hn, if_neg hfull, Option.map_map, expected, Option.map_map]
    congr 1
    funext o
    simp only [Function.comp_apply, inFront, Outcome.result, Int.add_assoc]

theorem step_short (hbase : v.base ≠ 0) (hlen : v.len ≠ 0)
    (h : d.transfer s v = some (n, bytes, s')) (hn : ¬ n < 0) (hshort : n < v.len)
    (htotal : 0 ≤ total) :
    vectored d.transfer total s (v :: rest) = d.expected total s (v :: rest) := by
  rw [vectored, expected, transferAll, if_neg hbase, if_neg hlen, if_neg hbase, if_neg hlen, h,
    bind_some, bind_some]
  dsimp only
  rw [if_neg hn, if_pos hshort, if_neg hn, if_pos hshort, map_some]
  congr 2
  simp only [Outcome.result, Option.getD_none]
  omega

theorem step_failed (hbase : v.base ≠ 0) (hlen : v.len ≠ 0)
    (h : d.transfer s v = some (n, bytes, s')) (hn : n < 0) :
    vectored d.transfer total s (v :: rest) ≠ d.expected total s (v :: rest) := by
  have herror : d.linuxError s v = some n := d.converted h
  rw [vectored, expected, transferAll, if_neg hbase, if_neg hlen, if_neg hbase, if_neg hlen, h,
    bind_some, bind_some]
  dsimp only
  rw [if_pos hn, if_pos hn, map_some]
  intro heq
  obtain ⟨ret, hret, heq⟩ := map_eq_some_iff.mp heq
  have hvalue := (Prod.mk.inj heq).1
  have hneg := (convert_neg_iff hret).mpr hn
  simp only [Outcome.result, Int.add_zero, herror, Option.getD_some] at hvalue
  split at hvalue
  · omega
  · rw [hvalue] at hret
    exact failure_differs h hn hret

theorem step_null (hbase : v.base = 0) (htotal : 0 ≤ total) :
    vectored d.transfer total s (v :: rest) = d.expected total s (v :: rest) ↔ total = 0 := by
  have hefault : linuxEfault = 14 := rfl
  rw [vectored, expected, transferAll, if_pos hbase, if_pos hbase, map_some]
  simp only [Outcome.result, Int.add_zero, Option.getD_some, Option.some.injEq, Prod.mk.injEq,
    and_true]
  constructor
  · intro heq
    split at heq <;> omega
  · rintro rfl
    rfl

end Step

theorem vectored_eq_iff (d : Direction σ) (iov : List Iovec) {total : Int} (htotal : 0 ≤ total)
    (s : FileDescriptorTable σ) :
    vectored d.transfer total s iov = d.expected total s iov ↔ d.Unfailing total s iov := by
  induction iov generalizing total s with
  | nil =>
    refine iff_of_true ?_ trivial
    simp only [vectored, expected, transferAll, map_some, Outcome.result, Int.add_zero,
      Option.getD_none]
    congr 2
    omega
  | cons v rest ih =>
    rw [Unfailing]
    by_cases hbase : v.base = 0
    · rw [if_pos hbase]
      exact step_null hbase htotal
    · rw [if_neg hbase]
      by_cases hlen : v.len = 0
      · rw [if_pos hlen, vectored, if_neg hbase, if_pos hlen, expected, transferAll, if_neg hbase,
          if_pos hlen]
        exact ih htotal s
      · rw [if_neg hlen]
        cases h : d.transfer s v with
        | none =>
          refine iff_of_true ?_ fun n bytes s' heq => by cases heq
          rw [vectored, if_neg hbase, if_neg hlen, expected, transferAll, if_neg hbase, if_neg hlen,
            h]
          rfl
        | some r =>
          obtain ⟨n, bytes, s'⟩ := r
          simp only [Option.some.injEq, Prod.mk.injEq]
          by_cases hn : n < 0
          · refine iff_of_false (step_failed hbase hlen h hn) fun hall => ?_
            have hpos := (answers_iff h).mp (hall n bytes s' ⟨rfl, rfl, rfl⟩).1
            omega
          · have hanswers := (answers_iff h).mpr (Int.not_lt.mp hn)
            by_cases hshort : n < v.len
            · refine iff_of_true (step_short hbase hlen h hn hshort htotal) ?_
              rintro n' bytes' t ⟨rfl, rfl, rfl⟩
              exact ⟨hanswers, .inl hshort⟩
            · obtain ⟨hcode, hexpected⟩ := step_full total rest hbase hlen h hn hshort
              rw [hcode, hexpected, (Option.map_injective (inFront_injective _ _)).eq_iff,
                ih (by omega) s']
              constructor
              · rintro hrest n' bytes' t ⟨rfl, rfl, rfl⟩
                exact ⟨hanswers, .inr hrest⟩
              · intro hall
                exact (hall n bytes s' ⟨rfl, rfl, rfl⟩).2.resolve_left hshort

end Direction

/-- **Vectored I/O.** Both calls transfer the segments in order up to the first short or
    failed transfer and return the total, or else the error converted once, exactly if no
    transfer that they reach fails and no null `iov_base` is reached after progress. -/
theorem vectored_right_iff (s : FileDescriptorTable σ) (fildes : Int) (iov : List Iovec) :
    (s.linuxReadv fs true fildes iov = (reading fs fildes).expected 0 s iov ↔
        (reading fs fildes).Unfailing 0 s iov) ∧
      (s.linuxWritev fs true fildes iov = (writing fs fildes).expected 0 s iov ↔
        (writing fs fildes).Unfailing 0 s iov) :=
  ⟨(reading fs fildes).vectored_eq_iff iov (Int.le_refl 0) s,
    (writing fs fildes).vectored_eq_iff iov (Int.le_refl 0) s⟩

/-- A file system that transfers two bytes and answers `-EIO` behind them. -/
def twoBytes : InodeOperations (List Byte) where
  read := some fun w _ size off =>
    if off = 0 then (((min size 2 : Nat) : Int), readAt w 0 (min size 2)) else (-29, [])
  write := some fun w _ buf off =>
    if off = 0 then (((min buf.length 2 : Nat) : Int), writeAt 0 w 0 (buf.take 2)) else (-29, w)
  seek := some fun _ _ x => x

/-- Two segments of two bytes: the error of the second is returned instead of the two bytes
    that were transferred, and it is not the one of `EIO`, which is 5. -/
theorem vectored_loses_total :
    (fourByteTable.linuxReadv (fun _ => twoBytes) true 3
        [⟨16, true, [0, 0]⟩, ⟨32, true, [0, 0]⟩]).map Prod.fst = some (-97) ∧
      ((reading (fun _ => twoBytes) 3).expected 0 fourByteTable
        [⟨16, true, [0, 0]⟩, ⟨32, true, [0, 0]⟩]).map Prod.fst = some 2 ∧
      (fourByteTable.linuxWritev (fun _ => twoBytes) true 3
        [⟨16, true, [5, 6]⟩, ⟨32, true, [7, 8]⟩]).map Prod.fst = some (-97) ∧
      ((writing (fun _ => twoBytes) 3).expected 0 fourByteTable
        [⟨16, true, [5, 6]⟩, ⟨32, true, [7, 8]⟩]).map Prod.fst = some 2 := by
  decide +kernel

end FileDescriptorTable

end Fennix.Fs
