import Fennix.Framework.Loop
import Fennix.Memory.Bitmap

/-! # The physical page allocator

    `Kernel/core/memory/pmm.cpp`. The allocator is one bitmap, a search hint
    `PageBitmapIndex` and four counters. All arithmetic of the source is on
    64-bit words; it is written here on `Nat` with an explicit `% 2 ^ 64`
    wherever a value can reach that size.

    A request either returns an address, reports that it is out of memory
    (and then stops the processor), or never leaves its search loop.
-/

namespace Fennix.Memory

/-- `uintptr_t` and `uint64_t`. -/
abbrev Word := BitVec 64

/-- `PAGE_SIZE`. -/
abbrev pageSize : Nat := 0x1000

/-- `TO_PAGES(d)`. -/
def toPages (d : Nat) : Nat := (d + pageSize - 1) % 2 ^ 64 / pageSize

/-- Index of page `t` of the range that starts at `address`,
    `((uintptr_t)Address + (t * PAGE_SIZE)) / PAGE_SIZE`. -/
def pageAt (address t : Nat) : Nat := (address + t * pageSize) % 2 ^ 64 / pageSize

/-- `std::atomic_uint64_t::fetch_add`. -/
def fetchAdd (counter d : Nat) : Nat := (counter + d) % 2 ^ 64

/-- `std::atomic_uint64_t::fetch_sub`. -/
def fetchSub (counter d : Nat) : Nat := (2 ^ 64 - d + counter) % 2 ^ 64

/-- `class Physical`. -/
structure Physical where
  totalMemory : Nat
  freeMemory : Nat
  reservedMemory : Nat
  usedMemory : Nat
  pageBitmapIndex : Nat
  pageBitmap : Bitmap

/-- What a request does. -/
inductive Outcome where
  /-- It returns this address. -/
  | returned (address : Nat)
  /-- It reports "Out of memory!" and does not return. -/
  | outOfMemory
  /-- Its search loop never ends. -/
  | diverges
  deriving DecidableEq, Repr

namespace Physical

/-! ## Section 1: Marking pages -/

/-- The counter that a set bit is accounted under. -/
inductive Account where
  | used
  | reserved
  deriving DecidableEq, Repr

/-- The common body of `LockPage`, `ReservePage` and the loop of
    `ReservePages`: set the bit of a free page and move `PAGE_SIZE` bytes from
    `FreeMemory` to `account`. -/
def charge (s : Physical) (account : Account) (index : Nat) : Physical :=
  -- a page that is set already is not counted twice
  if s.pageBitmap.get index then s
  else if (s.pageBitmap.set index true).1 then
    { s with
      pageBitmap := (s.pageBitmap.set index true).2
      freeMemory := fetchSub s.freeMemory pageSize
      usedMemory :=
        if account = .used then fetchAdd s.usedMemory pageSize else s.usedMemory
      reservedMemory :=
        if account = .reserved then fetchAdd s.reservedMemory pageSize else s.reservedMemory }
  else s

/-- The common body of `FreePage`, `UnreservePage` and the loop of
    `UnreservePages`: clear the bit of a page that is set, move `PAGE_SIZE`
    bytes from `account` to `FreeMemory` and pull the search hint back. -/
def release (s : Physical) (account : Account) (index : Nat) : Physical :=
  if s.pageBitmap.get index = false then s
  else if (s.pageBitmap.set index false).1 then
    { s with
      pageBitmap := (s.pageBitmap.set index false).2
      freeMemory := fetchAdd s.freeMemory pageSize
      usedMemory :=
        if account = .used then fetchSub s.usedMemory pageSize else s.usedMemory
      reservedMemory :=
        if account = .reserved then fetchSub s.reservedMemory pageSize else s.reservedMemory
      -- freed pages are searched first
      pageBitmapIndex := if s.pageBitmapIndex > index then index else s.pageBitmapIndex }
  else s

/-- `Physical::LockPage`. -/
def lockPage (s : Physical) (address : Nat) : Physical :=
  s.charge .used (address / pageSize)

/-- The loop of `LockPages` and `ReservePages`. -/
def chargePages (s : Physical) (account : Account) (address : Nat) : Nat → Physical
  | 0 => s
  | n + 1 => (chargePages s account address n).charge account (pageAt address n)

/-- `Physical::LockPages`. -/
def lockPages (s : Physical) (address pageCount : Nat) : Physical :=
  s.chargePages .used address pageCount

/-- `Physical::ReservePage`. -/
def reservePage (s : Physical) (address : Nat) : Physical :=
  s.charge .reserved (if address = 0 then 0 else address / pageSize)

/-- `Physical::ReservePages`. -/
def reservePages (s : Physical) (address pageCount : Nat) : Physical :=
  s.chargePages .reserved address pageCount

/-- `Physical::UnreservePage`. -/
def unreservePage (s : Physical) (address : Nat) : Physical :=
  s.release .reserved (if address = 0 then 0 else address / pageSize)

/-- The loop of `UnreservePages` from its `t`-th round on. Unlike the other
    loops it returns at the first page that is already free. -/
def unreserveFrom (s : Physical) (address : Nat) : Nat → Nat → Physical
  | _, 0 => s
  | t, n + 1 =>
    if s.pageBitmap.get (pageAt address t) = false then s
    else unreserveFrom (s.release .reserved (pageAt address t)) address (t + 1) n

/-- `Physical::UnreservePages`. -/
def unreservePages (s : Physical) (address pageCount : Nat) : Physical :=
  s.unreserveFrom address 0 pageCount

/-- `Physical::FreePage`. -/
def freePage (s : Physical) (address : Nat) : Physical :=
  if address = 0 then s else s.release .used (address / pageSize)

/-- The loop of `FreePages`. -/
def freeLoop (s : Physical) (address : Nat) : Nat → Physical
  | 0 => s
  | n + 1 => (freeLoop s address n).freePage ((address + n * pageSize) % 2 ^ 64)

/-- `Physical::FreePages`. -/
def freePages (s : Physical) (address count : Nat) : Physical :=
  if address = 0 ∨ count = 0 then s else s.freeLoop address count

/-! ## Section 2: Requests -/

/-- `Physical::SwapPage` is a stub. -/
def swapPage (_address : Nat) : Bool := false

/-- `Physical::SwapPages` returns false in every case. -/
def swapPages (_address _pageCount : Nat) : Bool := false

/-- The `if (PageBitmap[i] == true) continue;` that every search loop starts
    with: the first free index from `i` on, or the end of the bitmap. The
    first argument bounds the rounds left. -/
def skipSet (b : Bitmap) : Nat → Nat → Nat
  | 0, i => i
  | n + 1, i => if i < b.bits then if b.get i then skipSet b n (i + 1) else i else i

/-- The first free page at or after `i`, or `Size * 8`. -/
def nextFree (b : Bitmap) (i : Nat) : Nat := skipSet b (b.bits - i) i

/-- `Physical::RequestPage`. -/
def requestPage (s : Physical) : Outcome × Physical :=
  let i := nextFree s.pageBitmap s.pageBitmapIndex
  let s' := { s with pageBitmapIndex := i }
  if i < s.pageBitmap.bits then
    (.returned (i * pageSize), s'.lockPage (i * pageSize))
  -- past the end the page is swapped in, as far as `SwapPage` goes
  else if swapPage (i * pageSize) then
    (.returned (i * pageSize), s'.lockPage (i * pageSize))
  else (.outOfMemory, s')

/-- The innermost loop of `RequestPages`: do the `count` pages from `index` on
    all read as free? -/
def clearRun (b : Bitmap) (index : Nat) : Nat → Bool
  | 0 => true
  | n + 1 => clearRun b index n && !b.get ((index + n) % 2 ^ 64)

/-- When the middle loop of `RequestPages` leaves: with `some index` once
    `count` pages from `index` on are free, with `none` when `Index` has left
    the bitmap. -/
def scanStop (b : Bitmap) (count index : Nat) : Option (Option Nat) :=
  if index < b.bits then
    if !b.get index && clearRun b index count then some (some index) else none
  else some none

/-- The next `Index` of the middle loop. On a page in use the loop header adds
    one; on a collision (`goto NextPage`) the body adds `Count` before that. -/
def scanNext (b : Bitmap) (count index : Nat) : Nat :=
  if b.get index then (index + 1) % 2 ^ 64 else (index + count + 1) % 2 ^ 64

/-- The middle loop of `RequestPages`, run to its end. Nothing it reads changes
    while it runs and `Index` is a 64-bit word, so a loop that is still running
    after `2 ^ 64` rounds never ends (`Loop.run_bounded_iff`). -/
def scan (b : Bitmap) (count index : Nat) : Option (Option Nat) :=
  Loop.run (scanNext b count) (scanStop b count) (2 ^ 64) index

/-- The outer loop of `RequestPages`, with the rounds left as its first
    argument: what it finds and the final `PageBitmapIndex`. -/
def search (b : Bitmap) (count : Nat) : Nat → Nat → Option (Option Nat) × Nat
  | 0, i => (some none, i)
  | n + 1, i =>
    if i < b.bits then
      if b.get i then search b count n (i + 1)
      else
        match scan b count i with
        -- the middle loop has left the bitmap: the hint moves on over a free page
        | some none => search b count n (i + 1)
        | found => (found, i)
    else (some none, i)

/-- `Physical::RequestPages`. -/
def requestPages (s : Physical) (count : Nat) : Outcome × Physical :=
  match search s.pageBitmap count (s.pageBitmap.bits - s.pageBitmapIndex) s.pageBitmapIndex with
  -- `Index` came back to a value it had before
  | (none, i) => (.diverges, { s with pageBitmapIndex := i })
  | (some (some index), i) =>
    (.returned (index * pageSize),
      ({ s with pageBitmapIndex := i }).lockPages (index * pageSize) count)
  | (some none, i) =>
    let s' := { s with pageBitmapIndex := i }
    if swapPages (i * pageSize) count then
      (.returned (i * pageSize), s'.lockPages (i * pageSize) count)
    else (.outOfMemory, s')

end Physical

end Fennix.Memory
