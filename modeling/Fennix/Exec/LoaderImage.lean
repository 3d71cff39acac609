import Fennix.Exec.Loader
import Mathlib.Data.List.GetD

/-! # The image of a loaded program

    What the process sees after `LoadSegments`: its page table and the memory behind it.
    Pages are mapped over what was mapped there before, and bytes are stored over what
    was stored before, so of all that concerns an address the last shows.

    - `run_grants`: what is seen at an address after pages were given to some headers.
    - `loadSegments_right_iff`: all segments are there at once exactly if nothing that
      comes after a segment shows other bytes in its place.
-/

namespace Fennix.Exec

/-! ## Section 1: Memory -/

/-- Physical memory. -/
abbrev Memory := Nat → Byte

/-- The page table of the process: the page a virtual page is. -/
abbrev Table := Nat → Option Nat

/-- What an effect does to memory. -/
def Effect.onMemory (m : Memory) : Effect → Memory
  | .request address count => fun x => if address ≤ x ∧ x < address + 4096 * count then 0 else m x
  | .store address bytes | .tls address bytes => fun x =>
    if sub64 x address < bytes.length then bytes.getD (sub64 x address) 0 else m x
  | .clear address length => fun x => if sub64 x address < length then 0 else m x
  | .map .. | .stop => m

/-- What an effect does to the page table. -/
def Effect.onTable (t : Table) : Effect → Table
  | .request address count => fun q =>
    if address / 4096 ≤ q ∧ q < address / 4096 + count then some q else t q
  | .map vAddr pAddr length => fun q =>
    if vAddr / 4096 ≤ q ∧ q < vAddr / 4096 + length / 4096 then
      some (pAddr / 4096 + (q - vAddr / 4096))
    else t q
  | .store .. | .tls .. | .clear .. | .stop => t

/-- Memory after some effects. -/
def runMemory (m : Memory) (effects : List Effect) : Memory := effects.foldl Effect.onMemory m

/-- The page table after some effects. -/
def runTable (t : Table) (effects : List Effect) : Table := effects.foldl Effect.onTable t

/-- What the process reads at a virtual address. -/
def userByte (m : Memory) (t : Table) (v : Nat) : Option Byte :=
  (t (v / 4096)).map fun q => m (4096 * q + v % 4096)

/-- A file system that reads exactly what the file has. -/
def exactRead (file : List Byte) : Read := fun offset size => (file.drop offset).take size

/-- A byte of a segment: a byte of the file, or zero. -/
def expected (file : List Byte) (h : Phdr) (i : Nat) : Byte :=
  if i < h.pFilesz then file.getD (h.pOffset + i) 0 else 0

/-- The address is in the virtual range of a segment. -/
def Phdr.Has (h : Phdr) (v : Nat) : Prop := h.pVaddr ≤ v ∧ v < h.pVaddr + h.pMemsz

/-- A file whose segments are in the file and in the part of memory that is the process's,
    and whose segments to be loaded have no address in common. -/
structure WellFormed (file : List Byte) (headers : List Phdr) : Prop where
  segment : ∀ h ∈ headers, h.pType ≠ .other →
    h.pFilesz ≤ h.pMemsz ∧ h.pOffset + h.pFilesz ≤ file.length ∧ h.pVaddr + h.pMemsz ≤ 2 ^ 47
  disjoint : headers.Pairwise fun h k => h.pType = .load → k.pType = .load → ∀ v, h.Has v → ¬ k.Has v

/-- Pages that were given are not given again. -/
def Alloc.Fresh (alloc : Alloc) : Prop :=
  ∀ j k m n a b, j < k → alloc j m = some a → alloc k n = some b →
    a + 4096 * m ≤ b ∨ b + 4096 * n ≤ a

/-- Of several layers the last one that has something at a place shows. -/
def top {γ α β : Type} (layer : γ → α → Option β) : List γ → α → Option β
  | [], _ => none
  | g :: gs, x => (top layer gs x).or (layer g x)

theorem top_append {γ α β : Type} (layer : γ → α → Option β) (first second : List γ) (x : α) :
    top layer (first ++ second) x = (top layer second x).or (top layer first x) := by
  induction first with
  | nil => simp [top]
  | cons g first ih => simp [top, ih, Option.or_assoc]

/-! ## Section 2: The pages of a header -/

/-- The bytes in the pages that a header gets. -/
def block (file : List Byte) (h : Phdr) (o : Nat) : Byte :=
  if h.pType = .tls then ((file.drop h.pOffset).take h.pMemsz).getD o 0
  else if h.pVaddr % 4096 ≤ o then expected file h (o - h.pVaddr % 4096) else 0

/-- What a header that got pages shows at a virtual address: its segment, or the pages
    themselves at their own address. -/
def layer (file : List Byte) (g : Phdr × Nat) (v : Nat) : Option Byte :=
  if g.1.pType = .load ∧ loadAddress g.1 ≤ v ∧ v < loadAddress g.1 + 4096 * loadPages g.1 then
    some (block file g.1 (v - loadAddress g.1))
  else if g.2 ≤ v ∧ v < g.2 + 4096 * grantPages g.1 then some (block file g.1 (v - g.2))
  else none

/-- A header for which pages are requested, in a well-formed file, with its pages. -/
structure Granted (file : List Byte) (g : Phdr × Nat) : Prop where
  type : g.1.pType = .load ∧ g.1.pMemsz ≠ 0 ∨ g.1.pType = .tls
  filesz_le : g.1.pFilesz ≤ g.1.pMemsz
  file_le : g.1.pOffset + g.1.pFilesz ≤ file.length
  vaddr_le : g.1.pVaddr + g.1.pMemsz ≤ 2 ^ 47
  aligned : g.2 % 4096 = 0
  address_le : g.2 + 4096 * grantPages g.1 ≤ 2 ^ 47

/-- The address is in the pages a header got. -/
def InBlock (g : Phdr × Nat) (x : Nat) : Prop := g.2 ≤ x ∧ x < g.2 + 4096 * grantPages g.1

theorem runMemory_append (m : Memory) (first second : List Effect) :
    runMemory m (first ++ second) = runMemory (runMemory m first) second :=
  List.foldl_append

theorem runTable_append (t : Table) (first second : List Effect) :
    runTable t (first ++ second) = runTable (runTable t first) second :=
  List.foldl_append

theorem sub64_lt_iff {x address length : Nat} (hx : x < 2 ^ 63) (hend : address + length ≤ 2 ^ 63) :
    sub64 x address < length ↔ address ≤ x ∧ x < address + length := by
  unfold sub64
  split <;> omega

theorem sub64_eq {x address : Nat} (hle : address ≤ x) : sub64 x address = x - address :=
  if_pos hle

section granted

variable {file : List Byte} {g : Phdr × Nat}

variable {x : Nat}

theorem onMemory_store {h : Phdr} {destination : Nat} (hfile : h.pOffset + h.pFilesz ≤ file.length)
    (hend : destination + h.pFilesz ≤ 2 ^ 63) (hx : x < 2 ^ 63) (m : Memory) :
    Effect.onMemory m (.store destination (exactRead file h.pOffset h.pFilesz)) x =
      if destination ≤ x ∧ x < destination + h.pFilesz then expected file h (x - destination)
      else m x := by
  have hlength : (exactRead file h.pOffset h.pFilesz).length = h.pFilesz := by
    simp [exactRead]
    omega
  simp only [Effect.onMemory, hlength, sub64_lt_iff hx hend]
  by_cases hin : destination ≤ x ∧ x < destination + h.pFilesz
  · have hi : x - destination < h.pFilesz := by omega
    rw [if_pos hin, if_pos hin, sub64_eq hin.1]
    simp [expected, exactRead, List.getD_eq_getElem?_getD, hi]
  · rw [if_neg hin, if_neg hin]

theorem runMemory_copySegment {h : Phdr} {destination : Nat} (hle : h.pFilesz ≤ h.pMemsz)
    (hfile : h.pOffset + h.pFilesz ≤ file.length) (hend : destination + h.pMemsz ≤ 2 ^ 63)
    (hx : x < 2 ^ 63) (m : Memory) :
    runMemory m (copySegment (exactRead file) h destination) x =
      if destination ≤ x ∧ x < destination + h.pMemsz then expected file h (x - destination)
      else m x := by
  have hrest : sub64 h.pMemsz h.pFilesz = h.pMemsz - h.pFilesz := if_pos hle
  have hstart : (destination + h.pFilesz) % 2 ^ 64 = destination + h.pFilesz := by omega
  -- First the file bytes, if there are some, then the zeros, if there are some.
  have hfirst : ∀ m : Memory, runMemory m (if 0 < h.pFilesz then
      [.store destination (exactRead file h.pOffset h.pFilesz)] else []) x =
        if destination ≤ x ∧ x < destination + h.pFilesz then expected file h (x - destination)
        else m x := by
    intro m
    split
    case isTrue => exact onMemory_store hfile (by omega) hx m
    case isFalse => rw [if_neg (by omega)]; rfl
  have hsecond : ∀ m : Memory, runMemory m (if 0 < h.pMemsz - h.pFilesz then
      [.clear (destination + h.pFilesz) (h.pMemsz - h.pFilesz)] else []) x =
        if destination + h.pFilesz ≤ x ∧ x < destination + h.pMemsz then 0 else m x := by
    intro m
    split
    case isTrue =>
      have hiff := sub64_lt_iff hx
        (by omega : destination + h.pFilesz + (h.pMemsz - h.pFilesz) ≤ 2 ^ 63)
      have hsum : destination + h.pFilesz + (h.pMemsz - h.pFilesz) = destination + h.pMemsz := by omega
      rw [hsum] at hiff
      simp only [runMemory, List.foldl_cons, List.foldl_nil, Effect.onMemory, hiff]
    case isFalse => rw [if_neg (by omega)]; rfl
  simp only [copySegment, hrest, hstart, runMemory_append, hsecond, hfirst]
  by_cases hin : destination ≤ x ∧ x < destination + h.pMemsz
  · rw [if_pos hin]
    by_cases hzero : destination + h.pFilesz ≤ x
    · rw [if_pos ⟨hzero, hin.2⟩, expected, if_neg (by omega)]
    · rw [if_neg (by omega), if_pos (by omega)]
  · rw [if_neg hin, if_neg (by omega), if_neg (by omega)]

theorem runTable_copySegment (read : Read) (h : Phdr) (destination : Nat) (t : Table) :
    runTable t (copySegment read h destination) = t := by
  unfold copySegment
  generalize sub64 h.pMemsz h.pFilesz = rest
  generalize (destination + h.pFilesz) % 2 ^ 64 = start
  simp only [runTable_append]
  split <;> split <;> rfl

theorem Granted.room (hg : Granted file g) :
    (g.1.pType = .load → g.1.pVaddr % 4096 + g.1.pMemsz ≤ 4096 * loadPages g.1) ∧
      g.1.pMemsz ≤ 4096 * grantPages g.1 := by
  have h1 := hg.vaddr_le
  unfold grantPages loadPages toPages
  refine ⟨fun _ => by omega, ?_⟩
  split <;> omega

theorem Granted.alignUp_eq (hg : Granted file g) :
    alignUp (g.1.pVaddr - loadAddress g.1 + g.1.pMemsz) / 4096 = loadPages g.1 := by
  have h1 := hg.vaddr_le
  unfold alignUp loadPages toPages loadAddress
  omega

theorem Granted.memory (hg : Granted file g) (hx : x < 2 ^ 63) (m : Memory) :
    runMemory m (grantEffects (exactRead file) g) x =
      if g.2 ≤ x ∧ x < g.2 + 4096 * grantPages g.1 then block file g.1 (x - g.2) else m x := by
  have hroom := hg.room
  have hend := hg.address_le
  unfold grantEffects
  by_cases htls : g.1.pType = .tls
  · rw [if_pos htls]
    have hpages : grantPages g.1 = toPages g.1.pMemsz := if_pos htls
    rw [hpages] at hroom hend ⊢
    have hlength : (exactRead file g.1.pOffset g.1.pMemsz).length ≤ g.1.pMemsz := by simp [exactRead]
    have hiff := sub64_lt_iff hx (by omega :
      g.2 + (exactRead file g.1.pOffset g.1.pMemsz).length ≤ 2 ^ 63)
    simp only [tlsAt, runMemory, List.foldl_cons, List.foldl_nil, Effect.onMemory, hiff]
    by_cases hin : g.2 ≤ x ∧ x < g.2 + (exactRead file g.1.pOffset g.1.pMemsz).length
    · rw [if_pos hin, if_pos (by omega), sub64_eq hin.1, block, if_pos htls, exactRead]
    · rw [if_neg hin]
      by_cases hpage : g.2 ≤ x ∧ x < g.2 + 4096 * toPages g.1.pMemsz
      · have hout : ((file.drop g.1.pOffset).take g.1.pMemsz).length ≤ x - g.2 := by
          unfold exactRead at hin
          omega
        rw [if_pos hpage, if_pos hpage, block, if_pos htls, List.getD_eq_default _ _ hout]
      · rw [if_neg hpage, if_neg hpage]
  · rw [if_neg htls]
    have hload : g.1.pType = .load := (hg.type.resolve_right htls).1
    have hpages : grantPages g.1 = loadPages g.1 := if_neg htls
    rw [hpages] at hroom hend ⊢
    have hfits := hroom.1 hload
    have hdestination : loadDestination g.1 g.2 = g.2 + g.1.pVaddr % 4096 := by
      unfold loadDestination loadAddress
      omega
    have hcopy := runMemory_copySegment hg.filesz_le hg.file_le
      (by omega : loadDestination g.1 g.2 + g.1.pMemsz ≤ 2 ^ 63) hx
    have hsplit : runMemory m (loadAt (exactRead file) g.1 g.2) =
        runMemory (Effect.onMemory m (.request g.2 (loadPages g.1)))
          (copySegment (exactRead file) g.1 (loadDestination g.1 g.2)) := rfl
    rw [hsplit, hcopy]
    simp only [Effect.onMemory, hdestination, block, if_neg htls]
    by_cases hin : g.2 + g.1.pVaddr % 4096 ≤ x ∧ x < g.2 + g.1.pVaddr % 4096 + g.1.pMemsz
    · rw [if_pos hin, if_pos (by omega), if_pos (by omega), Nat.sub_sub]
    · rw [if_neg hin]
      by_cases hpage : g.2 ≤ x ∧ x < g.2 + 4096 * loadPages g.1
      · rw [if_pos hpage, if_pos hpage]
        by_cases hbefore : g.1.pVaddr % 4096 ≤ x - g.2
        · have := hg.filesz_le
          rw [if_pos hbefore, expected, if_neg (by omega)]
        · rw [if_neg hbefore]
      · rw [if_neg hpage, if_neg hpage]

theorem Granted.table (hg : Granted file g) (q : Nat) (t : Table) :
    runTable t (grantEffects (exactRead file) g) q =
      if g.1.pType = .load ∧ loadAddress g.1 / 4096 ≤ q ∧ q < loadAddress g.1 / 4096 + loadPages g.1 then
        some (g.2 / 4096 + (q - loadAddress g.1 / 4096))
      else if g.2 / 4096 ≤ q ∧ q < g.2 / 4096 + grantPages g.1 then some q
      else t q := by
  have halign := hg.alignUp_eq
  unfold grantEffects
  by_cases htls : g.1.pType = .tls
  · rw [if_pos htls, if_neg (by rw [htls]; simp)]
    have hpages : grantPages g.1 = toPages g.1.pMemsz := if_pos htls
    rw [hpages]
    rfl
  · rw [if_neg htls]
    have hload : g.1.pType = .load := (hg.type.resolve_right htls).1
    have hpages : grantPages g.1 = loadPages g.1 := if_neg htls
    rw [hpages]
    have hsplit : runTable t (loadAt (exactRead file) g.1 g.2) =
        runTable (Effect.onTable (Effect.onTable t (.request g.2 (loadPages g.1)))
          (.map (loadAddress g.1) g.2 (alignUp (g.1.pVaddr - loadAddress g.1 + g.1.pMemsz))))
          (copySegment (exactRead file) g.1 (loadDestination g.1 g.2)) := rfl
    rw [hsplit, runTable_copySegment]
    simp only [Effect.onTable, halign, hload, true_and]

theorem Granted.shows (hg : Granted file g) {v : Nat} {b : Byte} (hv : layer file g v = some b)
    (m : Memory) (t : Table) :
    ∃ q, runTable t (grantEffects (exactRead file) g) (v / 4096) = some q ∧ q < 2 ^ 51 ∧
      InBlock g (4096 * q + v % 4096) ∧
      runMemory m (grantEffects (exactRead file) g) (4096 * q + v % 4096) = b := by
  have haligned := hg.aligned
  have hend := hg.address_le
  have hstart : loadAddress g.1 % 4096 = 0 := by unfold loadAddress; omega
  unfold layer at hv
  split at hv
  case isTrue hin =>
    have hpages : grantPages g.1 = loadPages g.1 := if_neg (by rw [hin.1]; decide)
    have hx : 4096 * (g.2 / 4096 + (v / 4096 - loadAddress g.1 / 4096)) + v % 4096 =
        g.2 + (v - loadAddress g.1) := by omega
    have hblock : InBlock g (g.2 + (v - loadAddress g.1)) := by
      unfold InBlock
      omega
    refine ⟨g.2 / 4096 + (v / 4096 - loadAddress g.1 / 4096), ?_, by omega, ?_, ?_⟩
    · rw [hg.table, if_pos ⟨hin.1, by omega, by omega⟩]
    · rw [hx]
      exact hblock
    · rw [hx, hg.memory (by omega), if_pos ⟨hblock.1, hblock.2⟩, Nat.add_sub_cancel_left]
      exact Option.some.inj hv
  case isFalse hout =>
    split at hv
    case isFalse => cases hv
    case isTrue hin =>
      have hx : 4096 * (v / 4096) + v % 4096 = v := by omega
      refine ⟨v / 4096, ?_, by omega, ?_, ?_⟩
      · rw [hg.table, if_neg (fun h => hout ⟨h.1, by omega, by omega⟩), if_pos (by omega)]
      · rw [hx]
        exact hin
      · rw [hx, hg.memory (by omega), if_pos hin]
        exact Option.some.inj hv

theorem Granted.hides (hg : Granted file g) {v : Nat} (hv : layer file g v = none) (t : Table) :
    runTable t (grantEffects (exactRead file) g) (v / 4096) = t (v / 4096) := by
  have haligned := hg.aligned
  have hstart : loadAddress g.1 % 4096 = 0 := by unfold loadAddress; omega
  unfold layer at hv
  split at hv
  case isTrue => cases hv
  case isFalse hout =>
    split at hv
    case isTrue => cases hv
    case isFalse hout' =>
      rw [hg.table, if_neg (fun h => hout ⟨h.1, by omega, by omega⟩), if_neg (by omega)]

end granted

/-! ## Section 3: Programs at fixed addresses -/

/-- Two headers have no pages in common. -/
def Apart (g k : Phdr × Nat) : Prop := ∀ x, InBlock g x → ¬ InBlock k x

/-- What is seen at an address after some headers got their pages: what the last of them
    shows there, or what was seen before. The page seen before is not among the pages. -/
theorem run_grants {file : List Byte} {v : Nat} : ∀ (gs : List (Phdr × Nat)),
    (∀ g ∈ gs, Granted file g) → gs.Pairwise Apart → ∀ (m : Memory) (t : Table) (q : Nat) (b : Byte),
      t (v / 4096) = some q → q < 2 ^ 51 → m (4096 * q + v % 4096) = b →
      (∀ g ∈ gs, ¬ InBlock g (4096 * q + v % 4096)) →
        userByte (runMemory m (gs.flatMap (grantEffects (exactRead file))))
            (runTable t (gs.flatMap (grantEffects (exactRead file)))) v =
          some ((top (layer file) gs v).getD b) := by
  intro gs
  induction gs with
  | nil =>
    intro _ _ m t q b ht _ hm _
    simp [userByte, runMemory, runTable, ht, hm, top]
  | cons g gs ih =>
    intro hgranted hapart m t q b ht hq hm hfree
    have hg := hgranted g List.mem_cons_self
    obtain ⟨hfirst, hrest⟩ := List.pairwise_cons.mp hapart
    have hgs : ∀ k ∈ gs, Granted file k := fun k hk => hgranted k (List.mem_cons_of_mem _ hk)
    rw [List.flatMap_cons, runMemory_append, runTable_append, top]
    cases hlayer : layer file g v with
    | none =>
      have hsame : runMemory m (grantEffects (exactRead file) g) (4096 * q + v % 4096) = b := by
        have hout := hfree g List.mem_cons_self
        unfold InBlock at hout
        rw [hg.memory (by omega), if_neg hout, hm]
      have hpage := hg.hides hlayer t
      rw [Option.or_none]
      exact ih hgs hrest _ _ q b (hpage.trans ht) hq hsame
        fun k hk => hfree k (List.mem_cons_of_mem _ hk)
    | some b' =>
      -- From now on the address is in the pages of this header.
      obtain ⟨q', ht', hq', hin, hm'⟩ := hg.shows hlayer m t
      rw [ih hgs hrest _ _ q' b' ht' hq' hm' fun k hk => hfirst k hk _ hin]
      cases top (layer file) gs v <;> rfl

theorem layer_segment {file : List Byte} {g : Phdr × Nat} (hg : Granted file g)
    (hload : g.1.pType = .load) {i : Nat} (hi : i < g.1.pMemsz) :
    layer file g (g.1.pVaddr + i) = some (expected file g.1 i) := by
  have hroom := hg.room.1 hload
  have hnotls : ¬ g.1.pType = .tls := by rw [hload]; decide
  have hoffset : g.1.pVaddr + i - loadAddress g.1 = g.1.pVaddr % 4096 + i := by
    unfold loadAddress
    omega
  have hin : loadAddress g.1 ≤ g.1.pVaddr + i ∧
      g.1.pVaddr + i < loadAddress g.1 + 4096 * loadPages g.1 := by
    unfold loadAddress
    omega
  rw [layer, if_pos ⟨hload, hin⟩, hoffset, block, if_neg hnotls, if_pos (by omega),
    Nat.add_sub_cancel_left]

section exec

variable {file : List Byte} {headers : List Phdr} {alloc : Alloc}

theorem granted_of_mem (hwf : WellFormed file headers) (halloc : alloc.Sound) {g : Phdr × Nat}
    (hg : g ∈ grants alloc 0 headers) : Granted file g := by
  obtain ⟨hmem, htype, k, -, hfrom⟩ := of_mem_grants headers 0 hg
  have hother : g.1.pType ≠ .other := by
    obtain h | h := htype
    · rw [h.1]; decide
    · rw [h]; decide
  obtain ⟨hle, hfile, hvaddr⟩ := hwf.segment g.1 hmem hother
  obtain ⟨haligned, hend⟩ := halloc k _ _ hfrom
  exact ⟨htype, hle, hfile, hvaddr, haligned, hend⟩

theorem grants_apart (halloc : alloc.Fresh) (headers : List Phdr) : ∀ requests,
    (grants alloc requests headers).Pairwise Apart := by
  induction headers with
  | nil => intro requests; exact .nil
  | cons h headers ih =>
    intro requests
    obtain ⟨hgrants, -⟩ | ⟨-, address, hfrom, hgrants, -⟩ | ⟨-, hgrants, -⟩ :=
      loadExec_cons fullRead alloc requests h headers
    · rw [hgrants]
      exact .nil
    · -- The pages of a header and those of a header that comes later are from two requests.
      rw [hgrants]
      refine List.pairwise_cons.mpr ⟨fun g hg x hx hgx => ?_, ih (requests + 1)⟩
      obtain ⟨-, -, k, hk, hfrom'⟩ := of_mem_grants headers (requests + 1) hg
      have := halloc requests k _ _ _ _ (by omega) hfrom hfrom'
      unfold InBlock at hx hgx
      simp only at hx
      omega
    · rw [hgrants]
      exact ih requests

theorem mem_grants_of_returns {read : Read} {h : Phdr} (hload : h.pType = .load)
    (hmemsz : h.pMemsz ≠ 0) (headers : List Phdr) : ∀ requests,
    Effect.stop ∉ loadExec read alloc requests headers → h ∈ headers →
      ∃ address, (h, address) ∈ grants alloc requests headers := by
  induction headers with
  | nil => intro requests _ hh; cases hh
  | cons k headers ih =>
    intro requests hstop hh
    obtain ⟨-, hexec⟩ | ⟨-, address, -, hgrants, hexec⟩ | ⟨hk, hgrants, hexec⟩ :=
      loadExec_cons read alloc requests k headers
    · simp [hexec] at hstop
    · rw [hexec] at hstop
      rw [hgrants]
      obtain rfl | hh := List.mem_cons.mp hh
      · exact ⟨address, List.mem_cons_self⟩
      · obtain ⟨a, ha⟩ := ih (requests + 1) (fun hmem => hstop (List.mem_append_right _ hmem)) hh
        exact ⟨a, List.mem_cons_of_mem _ ha⟩
    · rw [hexec] at hstop
      rw [hgrants]
      obtain rfl | hh := List.mem_cons.mp hh
      · exact absurd ⟨hload, hmemsz⟩ hk
      · exact ih requests hstop hh

theorem exec_seen (hwf : WellFormed file headers) (hsound : alloc.Sound) (hfresh : alloc.Fresh)
    {before after : List (Phdr × Nat)} {g : Phdr × Nat}
    (hgrants : grants alloc 0 headers = before ++ g :: after) (hload : g.1.pType = .load) {i : Nat}
    (hi : i < g.1.pMemsz) (m : Memory) (t : Table) :
    userByte (runMemory m (loadExec (exactRead file) alloc 0 headers))
        (runTable t (loadExec (exactRead file) alloc 0 headers)) (g.1.pVaddr + i) =
      some ((top (layer file) after (g.1.pVaddr + i)).getD (expected file g.1 i)) := by
  have hall : ∀ k ∈ before ++ g :: after, Granted file k := fun k hk =>
    granted_of_mem hwf hsound (hgrants ▸ hk)
  have hapart := grants_apart hfresh headers 0
  rw [hgrants] at hapart
  have hafter := (List.pairwise_append.mp hapart).2.1
  obtain ⟨hfirst, hrest⟩ := List.pairwise_cons.mp hafter
  have hg : Granted file g := hall g (by simp)
  obtain ⟨rest, hstop, heq⟩ := loadExec_eq (exactRead file) alloc headers 0
  -- Being stopped changes nothing.
  have hmemory : ∀ m, runMemory m rest = m := by
    obtain rfl | rfl := hstop
    · exact fun m => rfl
    · exact fun m => rfl
  have htable : ∀ t, runTable t rest = t := by
    obtain rfl | rfl := hstop
    · exact fun t => rfl
    · exact fun t => rfl
  rw [heq, hgrants, runMemory_append, runTable_append, hmemory, htable, List.flatMap_append,
    runMemory_append, runTable_append, List.flatMap_cons, runMemory_append, runTable_append]
  obtain ⟨q, ht, hq, hin, hm⟩ := hg.shows (layer_segment hg hload hi)
    (runMemory m (before.flatMap (grantEffects (exactRead file))))
    (runTable t (before.flatMap (grantEffects (exactRead file))))
  exact run_grants after (fun k hk => hall k (by simp [hk])) hrest _ _ q _ ht hq hm
    fun k hk => hfirst k hk _ hin

end exec

/-! ## Section 4: Programs that can be placed anywhere -/

/-- What a header stores at a distance from the start of the block. -/
def copied (file : List Byte) (h : Phdr) (o : Nat) : Option Byte :=
  if (h.pType = .load ∨ h.pType = .dynamic) ∧ h.pVaddr ≤ o ∧ o < h.pVaddr + h.pMemsz then
    some (expected file h (o - h.pVaddr))
  else none

section dyn

variable {file : List Byte} {headers : List Phdr}

variable {h : Phdr}

theorem WellFormed.copied (hwf : WellFormed file headers) (hh : h ∈ headers)
    (htype : h.pType = .load ∨ h.pType = .dynamic) :
    h.pFilesz ≤ h.pMemsz ∧ h.pOffset + h.pFilesz ≤ file.length ∧ h.pVaddr + h.pMemsz ≤ 2 ^ 47 := by
  refine hwf.segment h hh ?_
  obtain h | h := htype
  · rw [h]; decide
  · rw [h]; decide

theorem run_copies (hwf : WellFormed file headers) {base o : Nat} (hbase : base ≤ 2 ^ 47)
    (ho : o < 2 ^ 62) : ∀ hs : List Phdr, (∀ h ∈ hs, h ∈ headers) → ∀ m : Memory,
    runMemory m (hs.flatMap (copyAt (exactRead file) base)) (base + o) =
      (top (copied file) hs o).getD (m (base + o)) := by
  intro hs
  induction hs with
  | nil => intro _ m; rfl
  | cons h hs ih =>
    intro hmem m
    obtain ⟨hh, hrest⟩ := List.forall_mem_cons.mp hmem
    rw [List.flatMap_cons, runMemory_append, ih hrest, top]
    -- What this header leaves at the place.
    have hstep : runMemory m (copyAt (exactRead file) base h) (base + o) =
        (copied file h o).getD (m (base + o)) := by
      unfold copyAt copied
      by_cases htype : h.pType = .load ∨ h.pType = .dynamic
      · obtain ⟨hle, hfile, hvaddr⟩ := hwf.copied hh htype
        by_cases hmemsz : h.pMemsz = 0
        · rw [if_neg (fun hc => hc.2 hmemsz), if_neg (by omega)]
          rfl
        · have hstart : (base + h.pVaddr) % 2 ^ 64 = base + h.pVaddr := by omega
          rw [if_pos ⟨htype, hmemsz⟩, hstart,
            runMemory_copySegment hle hfile (by omega) (by omega)]
          by_cases hin : h.pVaddr ≤ o ∧ o < h.pVaddr + h.pMemsz
          · rw [if_pos (by omega), if_pos ⟨htype, hin⟩, Nat.add_sub_add_left]
            rfl
          · rw [if_neg (by omega), if_neg (fun hc => hin hc.2)]
            rfl
      · rw [if_neg (fun hc => htype hc.1), if_neg (fun hc => htype hc.1)]
        rfl
    rw [hstep]
    cases top (copied file) hs o <;> rfl

theorem runTable_copies (read : Read) (base : Nat) (hs : List Phdr) (t : Table) :
    runTable t (hs.flatMap (copyAt read base)) = t := by
  induction hs with
  | nil => rfl
  | cons h hs ih =>
    have hstep : runTable t (copyAt read base h) = t := by
      unfold copyAt
      split
      · exact runTable_copySegment _ _ _ _
      · rfl
    rw [List.flatMap_cons, runTable_append, hstep, ih]

/-- One round of the loop for `SegmentsSize`. -/
def sizeWith (size : Nat) (h : Phdr) : Nat :=
  if (h.pType = .load ∨ h.pType = .dynamic) ∧ size < (h.pVaddr + h.pMemsz) % 2 ^ 64 then
    (h.pVaddr + h.pMemsz) % 2 ^ 64
  else size

theorem WellFormed.sizeWith (hwf : WellFormed file headers) (hh : h ∈ headers) {size : Nat}
    (hsize : size ≤ 2 ^ 47) :
    size ≤ sizeWith size h ∧ sizeWith size h ≤ 2 ^ 47 ∧
      (h.pType = .load ∨ h.pType = .dynamic → h.pVaddr + h.pMemsz ≤ sizeWith size h) := by
  have hend := fun htype => (hwf.copied hh htype).2.2
  unfold Exec.sizeWith
  split
  · next hgreater =>
    have := hend hgreater.1
    exact ⟨by omega, by omega, fun _ => by omega⟩
  · next hnot =>
    refine ⟨le_rfl, hsize, fun htype => ?_⟩
    have := hend htype
    have : ¬ size < (h.pVaddr + h.pMemsz) % 2 ^ 64 := fun hlt => hnot ⟨htype, hlt⟩
    omega

theorem le_dynPages (hwf : WellFormed file headers) (hh : h ∈ headers)
    (htype : h.pType = .load ∨ h.pType = .dynamic) :
    h.pVaddr + h.pMemsz ≤ 4096 * dynPages headers := by
  -- The size is at least the end of every segment, and itself one of the ends or 0.
  have hfold : ∀ (hs : List Phdr) (size : Nat), (∀ k ∈ hs, k ∈ headers) → size ≤ 2 ^ 47 →
      size ≤ hs.foldl sizeWith size ∧ hs.foldl sizeWith size ≤ 2 ^ 47 ∧
      ∀ k ∈ hs, k.pType = .load ∨ k.pType = .dynamic →
        k.pVaddr + k.pMemsz ≤ hs.foldl sizeWith size := by
    intro hs
    induction hs with
    | nil => exact fun size _ hsize => ⟨le_rfl, hsize, nofun⟩
    | cons k hs ih =>
      intro size hmem hsize
      obtain ⟨hk, hrest⟩ := List.forall_mem_cons.mp hmem
      obtain ⟨hle, hbound, hend⟩ := hwf.sizeWith hk hsize
      obtain ⟨hle', hbound', hends⟩ := ih _ hrest hbound
      exact ⟨hle.trans hle', hbound',
        List.forall_mem_cons.mpr ⟨fun htype => (hend htype).trans hle', hends⟩⟩
  obtain ⟨-, hle, hends⟩ := hfold headers 0 (fun _ hk => hk) (by omega)
  have hend := hends h hh htype
  rw [show headers.foldl sizeWith 0 = segmentsSize headers from rfl] at hle hend
  unfold dynPages toPages
  omega

theorem dyn_seen {alloc : Alloc} (hwf : WellFormed file headers) (hsound : alloc.Sound) {base : Nat}
    (hbase : alloc 0 (dynPages headers) = some base) {before after : List Phdr}
    (hheaders : headers = before ++ h :: after) (hload : h.pType = .load) {i : Nat}
    (hi : i < h.pMemsz) (m : Memory) (t : Table) :
    userByte (runMemory m (loadDyn (exactRead file) alloc headers headers))
        (runTable t (loadDyn (exactRead file) alloc headers headers)) (base + h.pVaddr + i) =
      some ((top (copied file) after (h.pVaddr + i)).getD (expected file h i)) := by
  have hh : h ∈ headers := by rw [hheaders]; simp
  have hroom := le_dynPages hwf hh (.inl hload)
  have hend := (hwf.copied hh (.inl hload)).2.2
  obtain ⟨haligned, hlimit⟩ := hsound _ _ _ hbase
  have heffects : loadDyn (exactRead file) alloc headers headers =
      [.request base (dynPages headers)] ++ headers.flatMap (copyAt (exactRead file) base) := by
    unfold loadDyn
    rw [← dynPages, hbase]
    rfl
  have hplace : 4096 * ((base + h.pVaddr + i) / 4096) + (base + h.pVaddr + i) % 4096 =
      base + (h.pVaddr + i) := by omega
  have hpage : runTable t [.request base (dynPages headers)] ((base + h.pVaddr + i) / 4096) =
      some ((base + h.pVaddr + i) / 4096) := if_pos (by omega)
  have htop : ∀ b, (top (copied file) headers (h.pVaddr + i)).getD b =
      (top (copied file) after (h.pVaddr + i)).getD (expected file h i) := by
    intro b
    have hown : copied file h (h.pVaddr + i) = some (expected file h i) := by
      rw [copied, if_pos ⟨.inl hload, by omega, by omega⟩, Nat.add_sub_cancel_left]
    rw [hheaders, top_append, top, hown]
    cases top (copied file) after (h.pVaddr + i) <;> rfl
  rw [userByte, heffects, runTable_append, runTable_copies, hpage, Option.map_some, hplace,
    runMemory_append, run_copies hwf (by omega) (by omega) headers (fun _ hk => hk), htop]

end dyn

/-! ## Section 5: The image -/

/-- What is added to the addresses of a file. -/
def loadBias (alloc : Alloc) (headers : List Phdr) : FileType → Nat
  | .exec => 0
  | .dyn => (alloc 0 (dynPages headers)).getD 0

/-- The process sees all segments: the file bytes of each, then zeros up to its end. -/
def Right (file : List Byte) (headers : List Phdr) (bias : Nat) (m : Memory) (t : Table) : Prop :=
  ∀ h ∈ headers, h.pType = .load → ∀ i < h.pMemsz,
    userByte m t (bias + h.pVaddr + i) = some (expected file h i)

/-- Nothing that comes after a segment shows another byte in place of one of the segment's. -/
def Unshadowed (file : List Byte) (headers : List Phdr) (alloc : Alloc) : FileType → Prop
  | .exec => ∀ before g after, grants alloc 0 headers = before ++ g :: after → g.1.pType = .load →
      ∀ i < g.1.pMemsz, ∀ b ∈ top (layer file) after (g.1.pVaddr + i), b = expected file g.1 i
  | .dyn => ∀ before h after, headers = before ++ h :: after → h.pType = .load →
      ∀ i < h.pMemsz, ∀ b ∈ top (copied file) after (h.pVaddr + i), b = expected file h i

theorem getD_eq_iff {α : Type} {o : Option α} {a : α} : o.getD a = a ↔ ∀ b ∈ o, b = a := by
  cases o <;> simp

/-- After `LoadSegments` returned for a well-formed file the process sees all segments at
    once, exactly if no byte of a segment is shadowed: at fixed addresses by the pages of a
    later segment that are mapped over the same page, or that have an address in it; else
    by what a later `PT_DYNAMIC` stores. -/
theorem loadSegments_right_iff {alloc : Alloc} (hsound : alloc.Sound) (hfresh : alloc.Fresh)
    (eType : FileType) {file : List Byte} {headers : List Phdr} (hwf : WellFormed file headers)
    (hreturns : Effect.stop ∉ loadSegments (exactRead file) alloc eType headers headers)
    (m : Memory) (t : Table) :
    Right file headers (loadBias alloc headers eType)
        (runMemory m (loadSegments (exactRead file) alloc eType headers headers))
        (runTable t (loadSegments (exactRead file) alloc eType headers headers)) ↔
      Unshadowed file headers alloc eType := by
  cases eType with
  | exec =>
    constructor
    · intro hright before g after hgrants hload i hi
      have hg : g ∈ grants alloc 0 headers := by rw [hgrants]; simp
      have hseen := exec_seen hwf hsound hfresh hgrants hload hi m t
      have hbyte := hright g.1 (of_mem_grants headers 0 hg).1 hload i hi
      rw [loadBias, Nat.zero_add] at hbyte
      exact getD_eq_iff.mp (Option.mem_unique hseen hbyte)
    · intro hclear h hh hload i hi
      obtain ⟨address, hg⟩ := mem_grants_of_returns hload (by omega) headers 0 hreturns hh
      obtain ⟨before, after, hgrants⟩ := List.append_of_mem hg
      have hseen := exec_seen hwf hsound hfresh hgrants hload hi m t
      rw [getD_eq_iff.mpr (hclear before _ after hgrants hload i hi)] at hseen
      rw [loadBias, Nat.zero_add]
      exact hseen
  | dyn =>
    obtain ⟨base, hbase⟩ : ∃ base, alloc 0 (dynPages headers) = some base := by
      cases hfrom : alloc 0 (dynPages headers) with
      | some base => exact ⟨base, rfl⟩
      | none =>
        exfalso
        apply hreturns
        simp only [loadSegments, loadDyn]
        rw [← dynPages, hfrom]
        exact List.mem_singleton_self _
    have hbias : loadBias alloc headers .dyn = base := by rw [loadBias, hbase]; rfl
    rw [hbias]
    constructor
    · intro hright before h after hheaders hload i hi
      have hseen := dyn_seen hwf hsound hbase hheaders hload hi m t
      have hbyte := hright h (by rw [hheaders]; simp) hload i hi
      exact getD_eq_iff.mp (Option.mem_unique hseen hbyte)
    · intro hclear h hh hload i hi
      obtain ⟨before, after, hheaders⟩ := List.append_of_mem hh
      have hseen := dyn_seen hwf hsound hbase hheaders hload hi m t
      rw [getD_eq_iff.mpr (hclear before h after hheaders hload i hi)] at hseen
      exact hseen

theorem somePages_fresh : somePages.Fresh := by
  intro j k m n a b hlt ha hb
  unfold somePages at ha hb
  split at ha
  case isFalse => cases ha
  split at hb
  case isFalse => cases hb
  cases ha
  cases hb
  omega

theorem wellFormed_pair {file : List Byte} {h k : Phdr}
    (hsegment : ∀ x ∈ [h, k], x.pType ≠ .other → x.pFilesz ≤ x.pMemsz ∧
      x.pOffset + x.pFilesz ≤ file.length ∧ x.pVaddr + x.pMemsz ≤ 2 ^ 47)
    (hbefore : h.pVaddr + h.pMemsz ≤ k.pVaddr) : WellFormed file [h, k] := by
  refine ⟨hsegment, List.pairwise_pair.mpr fun _ _ v hh hk => ?_⟩
  unfold Phdr.Has at hh hk
  omega

/-- A file of two bytes, each in a segment of its own: the second one follows the first in
    the same page, or is in the next page. -/
def twoBytes : List Byte := [7, 8]

@[inherit_doc twoBytes] def firstByte : Phdr :=
  ⟨.load, 0, 0x400000, 1, 1, by decide, by decide, by decide⟩

@[inherit_doc twoBytes] def samePage : Phdr :=
  ⟨.load, 1, 0x400001, 1, 1, by decide, by decide, by decide⟩

@[inherit_doc twoBytes] def nextPage : Phdr :=
  ⟨.load, 1, 0x401000, 1, 1, by decide, by decide, by decide⟩

/-- Nothing is mapped. -/
def noPages : Table := fun _ => none

/-- Two segments with bytes in the same page: the file is well formed, and the first byte is
    lost. -/
theorem loadSegments_wrong :
    WellFormed twoBytes [firstByte, samePage] ∧
      userByte (runMemory 0 (loadSegments (exactRead twoBytes) somePages .exec
          [firstByte, samePage] [firstByte, samePage]))
        (runTable noPages (loadSegments (exactRead twoBytes) somePages .exec
          [firstByte, samePage] [firstByte, samePage])) 0x400000 = some 0 ∧
      ¬ Right twoBytes [firstByte, samePage] 0
        (runMemory 0 (loadSegments (exactRead twoBytes) somePages .exec
          [firstByte, samePage] [firstByte, samePage]))
        (runTable noPages (loadSegments (exactRead twoBytes) somePages .exec
          [firstByte, samePage] [firstByte, samePage])) := by
  have hlost : userByte (runMemory 0 (loadSegments (exactRead twoBytes) somePages .exec
      [firstByte, samePage] [firstByte, samePage]))
      (runTable noPages (loadSegments (exactRead twoBytes) somePages .exec
        [firstByte, samePage] [firstByte, samePage])) 0x400000 = some 0 := by decide +kernel
  refine ⟨wellFormed_pair (by decide) (by decide), hlost, fun hright => ?_⟩
  have hbyte := hright firstByte (by simp) rfl 0 (by decide)
  have : (some 0 : Option Byte) = some 7 := hlost.symm.trans hbyte
  cases this

theorem loadSegments_right_twoPages :
    Right twoBytes [firstByte, nextPage] 0
      (runMemory 0 (loadSegments (exactRead twoBytes) somePages .exec
        [firstByte, nextPage] [firstByte, nextPage]))
      (runTable noPages (loadSegments (exactRead twoBytes) somePages .exec
        [firstByte, nextPage] [firstByte, nextPage])) := by
  have hwf : WellFormed twoBytes [firstByte, nextPage] := wellFormed_pair (by decide) (by decide)
  refine (loadSegments_right_iff somePages_sound somePages_fresh .exec hwf (by decide +kernel) 0
    noPages).mpr ?_
  have hgrants : grants somePages 0 [firstByte, nextPage] =
      [(firstByte, 0x100000), (nextPage, 0x110000)] := by decide +kernel
  intro before g after hsplit _ i hi
  rw [hgrants] at hsplit
  obtain ⟨-, hfirst⟩ | ⟨rest, -, hrest⟩ := List.cons_eq_append_iff.mp hsplit
  · -- The byte of the first segment is not in the page of the second one.
    obtain ⟨rfl, rfl⟩ := List.cons.inj hfirst
    obtain rfl : i = 0 := by
      have : i < 1 := hi
      omega
    have htop : top (layer twoBytes) [(nextPage, 0x110000)] (firstByte.pVaddr + 0) = none := by
      decide +kernel
    intro b hb
    rw [htop] at hb
    cases hb
  · obtain ⟨-, hsecond⟩ | ⟨last, -, hlast⟩ := List.cons_eq_append_iff.mp hrest
    · obtain ⟨rfl, rfl⟩ := List.cons.inj hsecond
      intro b hb
      cases hb
    · simp at hlast

end Fennix.Exec
