import Mathlib.Data.BitVec

/-! # Loading the segments of a program

    `ELFObject::LoadSegments` of `Kernel/exec/elf/elf_loader.cpp`, as the list of what it
    does to memory. A program at fixed addresses gets pages for each segment, which are
    mapped over the pages of its virtual range; one that can be placed anywhere gets one
    block of pages for all of them. The sizes are sums and differences modulo 2^64 of
    what the file says.

    The pages come from `RequestPages`, which stops the process if there are none. The
    two loops over the headers each read them from the file; what they read may differ.

    - `loadSegments_safe_iff`: for which headers everything is written into the pages
      that were requested.
-/

namespace Fennix.Exec

/-- A byte. -/
abbrev Byte := BitVec 8

/-! ## Section 1: The loader -/

/-- The types of program headers that the loader tells apart here. -/
inductive SegmentType where
  | load
  | dynamic
  | tls
  | other
deriving DecidableEq, Repr

/-- A program header. -/
structure Phdr where
  pType : SegmentType
  pOffset : Nat
  pVaddr : Nat
  pFilesz : Nat
  pMemsz : Nat
  vaddr_lt : pVaddr < 2 ^ 64
  filesz_lt : pFilesz < 2 ^ 64
  memsz_lt : pMemsz < 2 ^ 64
deriving DecidableEq, Repr

/-- What the loader does. -/
inductive Effect where
  /-- `RequestPages`, which clears the pages and maps them to themselves. -/
  | request (address count : Nat)
  | map (vAddr pAddr length : Nat)
  /-- What `Read` stores of a segment. -/
  | store (address : Nat) (bytes : List Byte)
  /-- `memset(address, 0, length)` -/
  | clear (address length : Nat)
  /-- What `Read` stores of a `PT_TLS` segment. -/
  | tls (address : Nat) (bytes : List Byte)
  /-- There are not enough pages. -/
  | stop
deriving DecidableEq, Repr

/-- `Read` of the file: what it stores, for an offset and a size. -/
abbrev Read := Nat → Nat → List Byte

/-- The address of the pages that a request gets, for the number of requests before it and
    the number of pages. -/
abbrev Alloc := Nat → Nat → Option Nat

/-- `TO_PAGES` -/
def toPages (d : Nat) : Nat := (d + 4096 - 1) % 2 ^ 64 / 4096

/-- The difference of two 64-bit numbers. -/
def sub64 (a b : Nat) : Nat := if b ≤ a then a - b else a + (2 ^ 64 - b)

/-- `ALIGN_UP` to a page -/
def alignUp (x : Nat) : Nat := (x + (4096 - 1)) % 2 ^ 64 / 4096 * 4096

section loader

variable (read : Read) (alloc : Alloc)

/-- The file bytes of a segment and the zeros behind them. -/
def copySegment (h : Phdr) (destination : Nat) : List Effect :=
  let rest := sub64 h.pMemsz h.pFilesz
  (if 0 < h.pFilesz then [.store destination (read h.pOffset h.pFilesz)] else []) ++
    if 0 < rest then [.clear ((destination + h.pFilesz) % 2 ^ 64) rest] else []

/-- `SegmentsSize` -/
def segmentsSize (headers : List Phdr) : Nat :=
  headers.foldl (fun size h =>
    if (h.pType = .load ∨ h.pType = .dynamic) ∧ size < (h.pVaddr + h.pMemsz) % 2 ^ 64 then
      (h.pVaddr + h.pMemsz) % 2 ^ 64
    else size) 0

/-- The cases `PT_LOAD` and `PT_DYNAMIC` for a program that can be placed anywhere, which
    are the same. -/
def copyAt (base : Nat) (h : Phdr) : List Effect :=
  if (h.pType = .load ∨ h.pType = .dynamic) ∧ h.pMemsz ≠ 0 then
    copySegment read h ((base + h.pVaddr) % 2 ^ 64)
  else []

/-- The branch for `ET_DYN`, with the headers that its two loops read. -/
def loadDyn (sizing loading : List Phdr) : List Effect :=
  match alloc 0 (toPages (segmentsSize sizing) + 1) with
  | none => [.stop]
  | some base =>
    .request base (toPages (segmentsSize sizing) + 1) :: loading.flatMap (copyAt read base)

/-- The pages of a `PT_LOAD` segment at a fixed address. -/
def loadPages (h : Phdr) : Nat := toPages (h.pMemsz + h.pVaddr % 4096)

/-- `vAddr` -/
def loadAddress (h : Phdr) : Nat := h.pVaddr - h.pVaddr % 4096

/-- Where in its pages a `PT_LOAD` segment at a fixed address starts: `pAddr + destOffset`. -/
def loadDestination (h : Phdr) (pAddr : Nat) : Nat := pAddr + (h.pVaddr - loadAddress h)

/-- What is done with the pages of a `PT_LOAD` segment at a fixed address. -/
def loadAt (h : Phdr) (pAddr : Nat) : List Effect :=
  .request pAddr (loadPages h) ::
    .map (loadAddress h) pAddr (alignUp (h.pVaddr - loadAddress h + h.pMemsz)) ::
      copySegment read h (loadDestination h pAddr)

/-- What is done with the pages of a `PT_TLS` segment. -/
def tlsAt (h : Phdr) (tlsMemory : Nat) : List Effect :=
  [.request tlsMemory (toPages h.pMemsz), .tls tlsMemory (read h.pOffset h.pMemsz)]

/-- The branch for `ET_EXEC`, after a number of requests. -/
def loadExec : Nat → List Phdr → List Effect
  | _, [] => []
  | requests, h :: headers =>
    if h.pType = .load ∧ h.pMemsz ≠ 0 then
      match alloc requests (loadPages h) with
      | none => [.stop]
      | some pAddr => loadAt read h pAddr ++ loadExec (requests + 1) headers
    else if h.pType = .tls then
      match alloc requests (toPages h.pMemsz) with
      | none => [.stop]
      | some tlsMemory => tlsAt read h tlsMemory ++ loadExec (requests + 1) headers
    else loadExec requests headers

/-- The types of files that are loaded. -/
inductive FileType where
  | exec
  | dyn
deriving DecidableEq, Repr

/-- `ELFObject::LoadSegments`. It rejects no file. -/
def loadSegments (eType : FileType) (sizing loading : List Phdr) : List Effect :=
  match eType with
  | .dyn => loadDyn read alloc sizing loading
  | .exec => loadExec read alloc 0 loading

end loader

/-! ## Section 2: What is written -/

/-- The effect writes the byte at an address for a `PT_LOAD` or `PT_DYNAMIC` segment. -/
def Effect.Writes : Effect → Nat → Prop
  | .store address bytes, x => ∃ i < bytes.length, x = (address + i) % 2 ^ 64
  | .clear address length, x => ∃ i < length, x = (address + i) % 2 ^ 64
  | _, _ => False

/-- The byte at an address is in pages that were requested. -/
def Requested (effects : List Effect) (x : Nat) : Prop :=
  ∃ address count, .request address count ∈ effects ∧ address ≤ x ∧ x < address + 4096 * count

/-- Every byte that is written is in pages that were requested. -/
def Contained (effects : List Effect) : Prop :=
  ∀ e ∈ effects, ∀ x, e.Writes x → Requested effects x

/-- The file system stores at most as much as it is asked for. -/
def Bounded (read : Read) : Prop := ∀ offset size, (read offset size).length ≤ size

/-- Pages are what the kernel can address by their physical address. -/
def Alloc.Sound (alloc : Alloc) : Prop :=
  ∀ requests count address, alloc requests count = some address →
    address % 4096 = 0 ∧ address + 4096 * count ≤ 2 ^ 47

/-- A file system that stores all it is asked for. -/
def fullRead : Read := fun _ size => List.replicate size 0

theorem fullRead_bounded : Bounded fullRead := by
  intro offset size
  simp [fullRead]

section copy

variable {read : Read} {h : Phdr} {destination x : Nat}

theorem request_notMem_copySegment {address count : Nat} :
    Effect.request address count ∉ copySegment read h destination := by
  intro hmem
  simp only [copySegment, List.mem_append] at hmem
  obtain hmem | hmem := hmem
  · split at hmem <;> simp at hmem
  · split at hmem <;> simp at hmem

theorem copySegment_inside (hread : Bounded read) (hle : h.pFilesz ≤ h.pMemsz) {e : Effect}
    (he : e ∈ copySegment read h destination) (hx : e.Writes x) :
    ∃ i < h.pMemsz, x = (destination + i) % 2 ^ 64 := by
  have hmem := h.memsz_lt
  have hrest : sub64 h.pMemsz h.pFilesz = h.pMemsz - h.pFilesz := if_pos hle
  simp only [copySegment, hrest, List.mem_append] at he
  obtain he | he := he
  · split at he
    case isFalse => cases he
    obtain rfl := List.mem_singleton.mp he
    obtain ⟨i, hi, rfl⟩ := hx
    have := hread h.pOffset h.pFilesz
    exact ⟨i, by omega, rfl⟩
  · split at he
    case isFalse => cases he
    obtain rfl := List.mem_singleton.mp he
    obtain ⟨i, hi, rfl⟩ := hx
    exact ⟨h.pFilesz + i, by omega, by omega⟩

/-- Bytes are written for the part in the file and for the difference. -/
theorem copySegment_writes {i : Nat} (hi : i < h.pFilesz + sub64 h.pMemsz h.pFilesz) :
    ∃ e ∈ copySegment fullRead h destination, e.Writes ((destination + i) % 2 ^ 64) := by
  simp only [copySegment, List.mem_append]
  by_cases hfile : i < h.pFilesz
  · refine ⟨.store destination (fullRead h.pOffset h.pFilesz), .inl ?_, i, ?_, rfl⟩
    · rw [if_pos (by omega)]
      exact List.mem_singleton_self _
    · simpa [fullRead] using hfile
  · refine ⟨.clear ((destination + h.pFilesz) % 2 ^ 64) (sub64 h.pMemsz h.pFilesz), .inr ?_,
      i - h.pFilesz, by omega, by omega⟩
    rw [if_pos (by omega)]
    exact List.mem_singleton_self _

theorem copySegment_covers (hle : h.pFilesz ≤ h.pMemsz) {i : Nat} (hi : i < h.pMemsz) :
    ∃ e ∈ copySegment fullRead h destination, e.Writes ((destination + i) % 2 ^ 64) := by
  apply copySegment_writes
  rw [sub64, if_pos hle]
  omega

/-- If the file part is greater than the segment, the difference wraps and everything there
    is is written. -/
theorem copySegment_floods (hlt : h.pMemsz < h.pFilesz) (hx : x < 2 ^ 64) :
    ∃ e ∈ copySegment fullRead h destination, e.Writes x := by
  have hfilesz := h.filesz_lt
  have hdistance : x = (destination + (x + 2 ^ 64 - destination % 2 ^ 64) % 2 ^ 64) % 2 ^ 64 := by
    omega
  rw [hdistance]
  apply copySegment_writes
  rw [sub64, if_neg (by omega)]
  omega

end copy

/-! ## Section 3: Programs at fixed addresses -/

/-- The headers that get pages, with the address of the pages. -/
def grants (alloc : Alloc) : Nat → List Phdr → List (Phdr × Nat)
  | _, [] => []
  | requests, h :: headers =>
    if h.pType = .load ∧ h.pMemsz ≠ 0 then
      match alloc requests (loadPages h) with
      | none => []
      | some pAddr => (h, pAddr) :: grants alloc (requests + 1) headers
    else if h.pType = .tls then
      match alloc requests (toPages h.pMemsz) with
      | none => []
      | some tlsMemory => (h, tlsMemory) :: grants alloc (requests + 1) headers
    else grants alloc requests headers

/-- What is done for a header that got pages. -/
def grantEffects (read : Read) (g : Phdr × Nat) : List Effect :=
  if g.1.pType = .tls then tlsAt read g.1 g.2 else loadAt read g.1 g.2

/-- The number of pages a header gets. -/
def grantPages (h : Phdr) : Nat := if h.pType = .tls then toPages h.pMemsz else loadPages h

section grants

variable {alloc : Alloc}

/-- What the loop does with a header: it gets no pages and the loop stops, it gets pages, or it
    needs none. -/
theorem loadExec_cons (read : Read) (alloc : Alloc) (requests : Nat) (h : Phdr)
    (headers : List Phdr) :
    (grants alloc requests (h :: headers) = [] ∧
        loadExec read alloc requests (h :: headers) = [.stop]) ∨
      ((h.pType = .load ∧ h.pMemsz ≠ 0 ∨ h.pType = .tls) ∧
        ∃ address, alloc requests (grantPages h) = some address ∧
          grants alloc requests (h :: headers) = (h, address) :: grants alloc (requests + 1) headers ∧
          loadExec read alloc requests (h :: headers) =
            grantEffects read (h, address) ++ loadExec read alloc (requests + 1) headers) ∨
      (¬ (h.pType = .load ∧ h.pMemsz ≠ 0) ∧
        grants alloc requests (h :: headers) = grants alloc requests headers ∧
        loadExec read alloc requests (h :: headers) = loadExec read alloc requests headers) := by
  rw [loadExec, grants]
  unfold grantEffects grantPages
  by_cases hload : h.pType = .load ∧ h.pMemsz ≠ 0
  · have hnotls : ¬ h.pType = .tls := by rw [hload.1]; decide
    simp only [if_pos hload, if_neg hnotls]
    cases alloc requests (loadPages h) with
    | none => exact .inl ⟨rfl, rfl⟩
    | some pAddr => exact .inr (.inl ⟨.inl hload, pAddr, rfl, rfl, rfl⟩)
  · simp only [if_neg hload]
    by_cases htls : h.pType = .tls
    · simp only [if_pos htls]
      cases alloc requests (toPages h.pMemsz) with
      | none => exact .inl ⟨rfl, rfl⟩
      | some tlsMemory => exact .inr (.inl ⟨.inr htls, tlsMemory, rfl, rfl, rfl⟩)
    · exact .inr (.inr ⟨hload, if_neg htls, if_neg htls⟩)

theorem loadExec_eq (read : Read) (alloc : Alloc) (headers : List Phdr) : ∀ requests,
    ∃ rest, (rest = [] ∨ rest = [Effect.stop]) ∧
      loadExec read alloc requests headers =
        (grants alloc requests headers).flatMap (grantEffects read) ++ rest := by
  induction headers with
  | nil => intro requests; exact ⟨[], .inl rfl, rfl⟩
  | cons h headers ih =>
    intro requests
    obtain ⟨hgrants, hexec⟩ | ⟨-, address, -, hgrants, hexec⟩ | ⟨-, hgrants, hexec⟩ :=
      loadExec_cons read alloc requests h headers
    · exact ⟨[.stop], .inr rfl, by rw [hgrants, hexec]; rfl⟩
    · obtain ⟨rest, hrest, heq⟩ := ih (requests + 1)
      exact ⟨rest, hrest, by rw [hgrants, hexec, heq, List.flatMap_cons, List.append_assoc]⟩
    · rw [hgrants, hexec]
      exact ih requests

theorem of_mem_grants {g : Phdr × Nat} (headers : List Phdr) : ∀ requests,
    g ∈ grants alloc requests headers →
      g.1 ∈ headers ∧ (g.1.pType = .load ∧ g.1.pMemsz ≠ 0 ∨ g.1.pType = .tls) ∧
        ∃ k ≥ requests, alloc k (grantPages g.1) = some g.2 := by
  induction headers with
  | nil => intro requests hg; cases hg
  | cons h headers ih =>
    intro requests hg
    -- What the rest of the headers gets is from later requests.
    have hlater : ∀ r ≥ requests, g ∈ grants alloc r headers →
        g.1 ∈ h :: headers ∧ (g.1.pType = .load ∧ g.1.pMemsz ≠ 0 ∨ g.1.pType = .tls) ∧
          ∃ k ≥ requests, alloc k (grantPages g.1) = some g.2 := by
      intro r hr hg
      obtain ⟨hmem, htype, k, hk, hfrom⟩ := ih r hg
      exact ⟨List.mem_cons_of_mem _ hmem, htype, k, by omega, hfrom⟩
    obtain ⟨hgrants, -⟩ | ⟨htype, address, hfrom, hgrants, -⟩ | ⟨-, hgrants, -⟩ :=
      loadExec_cons fullRead alloc requests h headers
    · rw [hgrants] at hg
      cases hg
    · rw [hgrants] at hg
      obtain rfl | hg := List.mem_cons.mp hg
      · exact ⟨List.mem_cons_self, htype, requests, le_rfl, hfrom⟩
      · exact hlater (requests + 1) (by omega) hg
    · exact hlater requests le_rfl (hgrants ▸ hg)

end grants

/-- The headers for which a program at fixed addresses is loaded into its pages. -/
def ExecFits (alloc : Alloc) (loading : List Phdr) : Prop :=
  ∀ g ∈ grants alloc 0 loading, g.1.pType = .load →
    g.1.pFilesz ≤ g.1.pMemsz ∧ g.1.pMemsz + g.1.pVaddr % 4096 + 4096 - 1 < 2 ^ 64

variable {read : Read} {alloc : Alloc} {loading : List Phdr} {e : Effect} {x : Nat}

theorem mem_loadExec {g : Phdr × Nat} (hg : g ∈ grants alloc 0 loading)
    (he : e ∈ grantEffects read g) : e ∈ loadExec read alloc 0 loading := by
  obtain ⟨rest, -, heq⟩ := loadExec_eq read alloc loading 0
  rw [heq]
  exact List.mem_append_left _ (List.mem_flatMap.mpr ⟨g, hg, he⟩)

theorem exists_grant_of_mem_loadExec (he : e ∈ loadExec read alloc 0 loading) (hstop : e ≠ .stop) :
    ∃ g ∈ grants alloc 0 loading, e ∈ grantEffects read g := by
  obtain ⟨rest, hrest, heq⟩ := loadExec_eq read alloc loading 0
  rw [heq, List.mem_append] at he
  obtain he | he := he
  · exact List.mem_flatMap.mp he
  · obtain rfl | rfl := hrest
    · cases he
    · exact absurd (List.mem_singleton.mp he) hstop

theorem request_mem_grantEffects {g : Phdr × Nat} {address count : Nat}
    (h : Effect.request address count ∈ grantEffects read g) :
    address = g.2 ∧ count = grantPages g.1 := by
  unfold grantEffects at h
  split at h
  case isTrue htls =>
    simpa [tlsAt, grantPages, htls] using h
  case isFalse htls =>
    simp only [loadAt, List.mem_cons, Effect.request.injEq, reduceCtorEq, false_or] at h
    obtain h | h := h
    · rw [grantPages, if_neg htls]
      exact h
    · exact absurd h request_notMem_copySegment

theorem grantPages_request (g : Phdr × Nat) :
    Effect.request g.2 (grantPages g.1) ∈ grantEffects read g := by
  unfold grantEffects grantPages
  split
  · exact List.mem_cons_self
  · exact List.mem_cons_self

theorem lt_of_requested_exec (halloc : alloc.Sound)
    (hx : Requested (loadExec read alloc 0 loading) x) : x < 2 ^ 47 := by
  obtain ⟨address, count, hmem, -, hlt⟩ := hx
  obtain ⟨g, hg, he⟩ := exists_grant_of_mem_loadExec hmem (by simp)
  obtain ⟨rfl, rfl⟩ := request_mem_grantEffects he
  obtain ⟨-, -, k, -, hfrom⟩ := of_mem_grants loading 0 hg
  have := (halloc k _ _ hfrom).2
  omega

theorem loadExec_safe_iff (halloc : alloc.Sound) (loading : List Phdr) :
    (∀ read, Bounded read → Contained (loadExec read alloc 0 loading)) ↔
      ExecFits alloc loading := by
  constructor
  · intro hsafe g hg hload
    have hnotls : ¬ g.1.pType = .tls := by rw [hload]; decide
    obtain ⟨-, -, k, -, hfrom⟩ := of_mem_grants loading 0 hg
    have hsound := halloc k _ _ hfrom
    -- A file system that stores all it is asked for would write where no pages are.
    have hinside : ∀ x, (∃ e ∈ copySegment fullRead g.1 (loadDestination g.1 g.2), e.Writes x) →
        x < 2 ^ 47 := by
      rintro x ⟨e, he, hx⟩
      have hmem : e ∈ grantEffects fullRead g := by
        rw [grantEffects, if_neg hnotls]
        exact List.mem_cons_of_mem _ (List.mem_cons_of_mem _ he)
      exact lt_of_requested_exec halloc
        (hsafe fullRead fullRead_bounded e (mem_loadExec hg hmem) x hx)
    have hle : g.1.pFilesz ≤ g.1.pMemsz := by
      by_contra hlt
      have := hinside (2 ^ 63) (copySegment_floods (by omega) (by omega))
      omega
    refine ⟨hle, ?_⟩
    by_contra hwrap
    -- So great a segment reaches far beyond its pages.
    have := hinside ((loadDestination g.1 g.2 + 2 ^ 62) % 2 ^ 64) (copySegment_covers hle (by omega))
    unfold loadDestination loadAddress at this
    omega
  · intro hfits read hread e he x hx
    obtain ⟨g, hg, he⟩ := exists_grant_of_mem_loadExec he (by rintro rfl; exact hx)
    obtain ⟨-, htype, k, -, hfrom⟩ := of_mem_grants loading 0 hg
    have hsound := halloc k _ _ hfrom
    refine ⟨g.2, grantPages g.1, mem_loadExec hg (grantPages_request g), ?_⟩
    unfold grantEffects at he
    split at he
    case isTrue htls =>
      -- What is stored for `PT_TLS` is not looked at.
      simp only [tlsAt, List.mem_cons, List.not_mem_nil, or_false] at he
      obtain rfl | rfl := he
      · cases hx
      · cases hx
    case isFalse htls =>
      have hload : g.1.pType = .load := (htype.resolve_right htls).1
      obtain ⟨hle, hwrap⟩ := hfits g hg hload
      simp only [loadAt, List.mem_cons] at he
      obtain rfl | rfl | he := he
      · cases hx
      · cases hx
      · obtain ⟨i, hi, rfl⟩ := copySegment_inside hread hle he hx
        rw [grantPages, if_neg htls] at hsound ⊢
        unfold loadDestination loadAddress
        unfold loadPages toPages at hsound ⊢
        omega

/-! ## Section 4: Programs that can be placed anywhere -/

/-- The pages that are requested for all segments together. -/
def dynPages (sizing : List Phdr) : Nat := toPages (segmentsSize sizing) + 1

/-- The headers for which a program that can be placed anywhere is loaded into its pages. -/
def DynFits (alloc : Alloc) (sizing loading : List Phdr) : Prop :=
  (alloc 0 (dynPages sizing)).isSome →
    ∀ h ∈ loading, h.pType = .load ∨ h.pType = .dynamic → h.pMemsz ≠ 0 →
      h.pFilesz ≤ h.pMemsz ∧ h.pVaddr + h.pMemsz ≤ 4096 * dynPages sizing

theorem requested_block {base count : Nat}
    (h : Requested (.request base count :: loading.flatMap (copyAt read base)) x) :
    base ≤ x ∧ x < base + 4096 * count := by
  obtain ⟨address, n, hmem, hx⟩ := h
  obtain heq | hmem := List.mem_cons.mp hmem
  · obtain ⟨rfl, rfl⟩ := Effect.request.inj heq
    exact hx
  · obtain ⟨h, -, he⟩ := List.mem_flatMap.mp hmem
    unfold copyAt at he
    split at he
    · exact absurd he request_notMem_copySegment
    · cases he

theorem loadDyn_safe_iff (halloc : alloc.Sound) (sizing loading : List Phdr) :
    (∀ read, Bounded read → Contained (loadDyn read alloc sizing loading)) ↔
      DynFits alloc sizing loading := by
  unfold loadDyn DynFits
  rw [← dynPages]
  cases hfrom : alloc 0 (dynPages sizing) with
  | none =>
    refine ⟨fun _ h => by simp at h, fun _ read _ e he x hx => ?_⟩
    obtain rfl := List.mem_singleton.mp he
    cases hx
  | some base =>
    have hsound := halloc _ _ _ hfrom
    constructor
    · intro hsafe _ h hh htype hmemsz
      have hvaddr := h.vaddr_lt
      have hinside : ∀ x, (∃ e ∈ copySegment fullRead h ((base + h.pVaddr) % 2 ^ 64), e.Writes x) →
          base ≤ x ∧ x < base + 4096 * dynPages sizing := by
        rintro x ⟨e, he, hx⟩
        have hmem : e ∈ copyAt fullRead base h := by
          rw [copyAt, if_pos ⟨htype, hmemsz⟩]
          exact he
        exact requested_block (hsafe fullRead fullRead_bounded e
          (List.mem_cons_of_mem _ (List.mem_flatMap.mpr ⟨h, hh, hmem⟩)) x hx)
      have hle : h.pFilesz ≤ h.pMemsz := by
        by_contra hlt
        have := hinside (2 ^ 63) (copySegment_floods (by omega) (by omega))
        omega
      refine ⟨hle, ?_⟩
      -- Every byte of the segment is written, so the one behind the block is not in it.
      have hwritten : ∀ i < h.pMemsz, (base + h.pVaddr + i) % 2 ^ 64 < base + 4096 * dynPages sizing ∧
          base ≤ (base + h.pVaddr + i) % 2 ^ 64 := by
        intro i hi
        have := hinside (((base + h.pVaddr) % 2 ^ 64 + i) % 2 ^ 64) (copySegment_covers hle hi)
        omega
      by_contra hgt
      have hfirst := hwritten 0 (by omega)
      have hlast := hwritten (4096 * dynPages sizing - h.pVaddr)
      omega
    · intro hfits read hread e he x hx
      obtain rfl | he := List.mem_cons.mp he
      · cases hx
      obtain ⟨h, hh, he⟩ := List.mem_flatMap.mp he
      unfold copyAt at he
      split at he
      case isFalse => cases he
      case isTrue hcopied =>
        obtain ⟨hle, hend⟩ := hfits rfl h hh hcopied.1 hcopied.2
        obtain ⟨i, hi, rfl⟩ := copySegment_inside hread hle he hx
        refine ⟨base, dynPages sizing, List.mem_cons_self, ?_⟩
        omega

/-! ## Section 5: Loading -/

/-- The headers that the loader can load. -/
def Fits (alloc : Alloc) : FileType → List Phdr → List Phdr → Prop
  | .exec, _, loading => ExecFits alloc loading
  | .dyn, sizing, loading => DynFits alloc sizing loading

/-- Whatever the file and what `Read` stores of it, every byte that is written for a
    `PT_LOAD` or `PT_DYNAMIC` segment is in pages that were requested, exactly if the sizes
    in every header that is loaded fit each other. -/
theorem loadSegments_safe_iff {alloc : Alloc} (halloc : alloc.Sound) (eType : FileType)
    (sizing loading : List Phdr) :
    (∀ read, Bounded read → Contained (loadSegments read alloc eType sizing loading)) ↔
      Fits alloc eType sizing loading := by
  cases eType with
  | exec => exact loadExec_safe_iff halloc loading
  | dyn => exact loadDyn_safe_iff halloc sizing loading

/-- Pages are given from 1 MiB on, sixteen at most. -/
def somePages : Alloc := fun requests count =>
  if count ≤ 16 ∧ requests < 2 ^ 20 then some (0x100000 + 0x10000 * requests) else none

theorem somePages_sound : somePages.Sound := by
  intro requests count address h
  unfold somePages at h
  split at h
  · cases h
    omega
  · cases h

/-- A header of a segment to be loaded. -/
def loadHeader (vaddr filesz memsz : Nat) (hvaddr : vaddr < 2 ^ 64) (hfilesz : filesz < 2 ^ 64)
    (hmemsz : memsz < 2 ^ 64) : Phdr :=
  ⟨.load, 0, vaddr, filesz, memsz, hvaddr, hfilesz, hmemsz⟩

theorem loadSegments_safe_small :
    somePages.Sound ∧ ∀ read, Bounded read → Contained (loadSegments read somePages .exec []
      [loadHeader 0x400800 0x800 0x1000 (by decide) (by decide) (by decide)]) := by
  refine ⟨somePages_sound, (loadSegments_safe_iff somePages_sound .exec [] _).mpr ?_⟩
  change ∀ g ∈ grants somePages 0 _, g.1.pType = .load → g.1.pFilesz ≤ g.1.pMemsz ∧ _
  decide +kernel

theorem not_contained_of_writes {effects : List Effect} (he : e ∈ effects) (hx : e.Writes x)
    (hrequests : ∀ r ∈ effects, ∀ address count, r = .request address count →
      address + 4096 * count ≤ x ∨ x < address) :
    ¬ Contained effects := by
  intro hcontained
  obtain ⟨address, count, hmem, hle, hlt⟩ := hcontained e he x hx
  have := hrequests _ hmem address count rfl
  omega

/-- A header with more file bytes than bytes. -/
def greedy : Phdr := loadHeader 0x1000 9 8 (by decide) (by decide) (by decide)

/-- A header whose end wraps. -/
def wrapping : Phdr := loadHeader (2 ^ 64 - 8) 8 8 (by decide) (by decide) (by decide)

/-- A segment with more file bytes than bytes is cleared all over memory, in both types of
    files; and one whose end wraps is stored before the block. -/
theorem loadSegments_unsafe :
    ¬ Contained (loadSegments fullRead somePages .exec [greedy] [greedy]) ∧
      ¬ Contained (loadSegments fullRead somePages .dyn [greedy] [greedy]) ∧
      ¬ Contained (loadSegments fullRead somePages .dyn [wrapping] [wrapping]) := by
  have hexec : loadSegments fullRead somePages .exec [greedy] [greedy] =
      [.request 0x100000 1, .map 0x1000 0x100000 0x1000, .store 0x100000 (List.replicate 9 0),
        .clear 0x100009 (2 ^ 64 - 1)] := by decide +kernel
  have hdyn : loadSegments fullRead somePages .dyn [greedy] [greedy] =
      [.request 0x100000 3, .store 0x101000 (List.replicate 9 0), .clear 0x101009 (2 ^ 64 - 1)] := by
    decide +kernel
  have hwrap : loadSegments fullRead somePages .dyn [wrapping] [wrapping] =
      [.request 0x100000 1, .store 0xFFFF8 (List.replicate 8 0)] := by decide +kernel
  rw [hexec, hdyn, hwrap]
  refine ⟨?_, ?_, ?_⟩
  · refine not_contained_of_writes (x := 0x200009) (e := .clear 0x100009 (2 ^ 64 - 1)) (by simp)
      ⟨0x100000, by decide, by decide⟩ ?_
    simp
  · refine not_contained_of_writes (x := 0x201009) (e := .clear 0x101009 (2 ^ 64 - 1)) (by simp)
      ⟨0x100000, by decide, by decide⟩ ?_
    simp
  · refine not_contained_of_writes (x := 0xFFFF8) (e := .store 0xFFFF8 (List.replicate 8 0))
      (by simp) ⟨0, by decide, by decide⟩ ?_
    simp

end Fennix.Exec
