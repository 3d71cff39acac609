import Mathlib.Data.BitVec
import Mathlib.Data.List.Nodup
import Mathlib.Data.List.TakeWhile

/-! # `std::unordered_map`

    The hash map of `Kernel/include_std/unordered_map`: a vector of buckets, each
    a list of pairs, and a counter of the elements. The counter is a field of its
    own; assigning a map copies the buckets and leaves the counter of the target.

    An iterator is a bucket and an element, which is a pointer to a node of the
    bucket's list. Moving an iterator whose node was deleted is undefined.

    The type carries what every operation keeps of the buckets: a pair is in the
    bucket of its hash, and no key is there twice. The load factor is a `double`
    in the source; the comparisons with 0.75 are exact here.
-/

namespace Fennix.Std

/-! ## Section 1: Buckets -/

/-- `std::vector<std::list<value_type>>`. -/
abbrev Buckets (κ α : Type) := List (List (κ × α))

namespace Buckets

variable {κ α : Type} (hash : κ → Nat)

/-- `push_back` to the bucket of a key. -/
def pushBack (bs : Buckets κ α) (e : κ × α) : Buckets κ α :=
  bs.modify (hash e.1 % bs.length) (· ++ [e])

/-- The loop of `rehash`, which fills `count` new buckets. -/
def redistribute (count : Nat) (bs : Buckets κ α) : Buckets κ α :=
  bs.flatten.foldl (pushBack hash) (List.replicate count [])

/-- Removes a key from its bucket. -/
def eraseKey [DecidableEq κ] (bs : Buckets κ α) (k : κ) : Buckets κ α :=
  bs.modify (hash k % bs.length) fun b => b.eraseP fun e => e.1 = k

/-- Each pair is in the bucket of its hash, and no key is there twice. -/
structure Sound (bs : Buckets κ α) : Prop where
  placed : ∀ i b, bs[i]? = some b → ∀ e ∈ b, hash e.1 % bs.length = i
  nodup : (bs.flatten.map Prod.fst).Nodup

variable {hash}

variable {bs : Buckets κ α} {e : κ × α} {i : Nat} {b : List (κ × α)} {k : κ}

theorem mem_flatten_iff :
    e ∈ bs.flatten ↔ ∃ (i : Nat) (b : List (κ × α)), bs[i]? = some b ∧ e ∈ b := by
  rw [List.mem_flatten]
  refine ⟨?_, ?_⟩
  · rintro ⟨b, hb, he⟩
    obtain ⟨i, hi⟩ := List.mem_iff_getElem?.mp hb
    exact ⟨i, b, hi, he⟩
  · rintro ⟨i, b, hi, he⟩
    exact ⟨b, List.mem_of_getElem? hi, he⟩

theorem mem_flatten_of_getD (h : e ∈ bs.getD i []) : e ∈ bs.flatten := by
  rw [List.getD_eq_getElem?_getD] at h
  cases hb : bs[i]? with
  | none =>
    rw [hb] at h
    cases h
  | some b =>
    rw [hb] at h
    exact mem_flatten_iff.mpr ⟨i, b, hb, h⟩

theorem flatten_modify_append (hi : i < bs.length) (e : κ × α) :
    (bs.modify i (· ++ [e])).flatten.Perm (e :: bs.flatten) := by
  induction bs generalizing i with
  | nil => exact absurd hi (Nat.not_lt_zero i)
  | cons b bs ih =>
    cases i with
    | zero =>
      rw [List.modify_zero_cons, List.flatten_cons, List.flatten_cons, List.append_assoc]
      exact List.perm_middle
    | succ i =>
      rw [List.modify_succ_cons, List.flatten_cons, List.flatten_cons]
      exact ((ih (Nat.lt_of_succ_lt_succ hi)).append_left b).trans List.perm_middle

theorem flatten_modify_sublist {f : List (κ × α) → List (κ × α)} (hf : ∀ b, (f b).Sublist b)
    (bs : Buckets κ α) (i : Nat) : (bs.modify i f).flatten.Sublist bs.flatten := by
  induction bs generalizing i with
  | nil =>
    rw [List.modify_nil]
  | cons b bs ih =>
    cases i with
    | zero =>
      rw [List.modify_zero_cons, List.flatten_cons, List.flatten_cons]
      exact (hf b).append (List.Sublist.refl _)
    | succ i =>
      rw [List.modify_succ_cons, List.flatten_cons, List.flatten_cons]
      exact (List.Sublist.refl b).append (ih i)

theorem pushBack_length (bs : Buckets κ α) (e : κ × α) :
    (pushBack hash bs e).length = bs.length :=
  List.length_modify ..

theorem pushBack_perm (hash : κ → Nat) (hbs : 0 < bs.length) (e : κ × α) :
    (pushBack hash bs e).flatten.Perm (e :: bs.flatten) :=
  flatten_modify_append (Nat.mod_lt _ hbs) e

theorem placed_modify {f : List (κ × α) → List (κ × α)}
    (h : ∀ i b, bs[i]? = some b → ∀ e ∈ b, hash e.1 % bs.length = i)
    (hf : ∀ b, ∀ e ∈ f b, e ∈ b ∨ hash e.1 % bs.length = i) :
    ∀ j b, (bs.modify i f)[j]? = some b → ∀ e ∈ b, hash e.1 % (bs.modify i f).length = j := by
  intro j b hj e he
  rw [List.length_modify]
  rw [List.getElem?_modify] at hj
  obtain ⟨b', hb', rfl⟩ := Option.map_eq_some_iff.mp hj
  split at he
  · rename_i hij
    obtain hmem | heq := hf b' e he
    · exact h j b' hb' e hmem
    · exact heq.trans hij
  · exact h j b' hb' e he

theorem Sound.pushBack (h : Sound hash bs) (hbs : 0 < bs.length)
    (he : e.1 ∉ bs.flatten.map Prod.fst) : Sound hash (pushBack hash bs e) := by
  refine ⟨?_, ?_⟩
  · apply placed_modify h.placed
    intro b
    exact List.forall_mem_append.mpr ⟨fun _ => Or.inl, List.forall_mem_singleton.mpr (Or.inr rfl)⟩
  · rw [((pushBack_perm hash hbs e).map Prod.fst).nodup_iff]
    exact List.nodup_cons.mpr ⟨he, h.nodup⟩

theorem find_of_nodup [DecidableEq κ] (h : (b.map Prod.fst).Nodup) {v : α} (hmem : (k, v) ∈ b) :
    (b.find? fun e => e.1 = k) = some (k, v) := by
  induction b with
  | nil => cases hmem
  | cons e b ih =>
    obtain ⟨he, hb⟩ := List.nodup_cons.mp h
    obtain rfl | hmem := List.mem_cons.mp hmem
    · exact List.find?_cons_of_pos (decide_eq_true rfl)
    · have hne : e.1 ≠ k := by
        intro heq
        exact he (List.mem_map.mpr ⟨(k, v), hmem, heq.symm⟩)
      rw [List.find?_cons_of_neg (by simpa using hne)]
      exact ih hb hmem

theorem mem_eraseP_of_nodup [DecidableEq κ] (h : (b.map Prod.fst).Nodup) :
    e ∈ b.eraseP (fun e => e.1 = k) ↔ e.1 ≠ k ∧ e ∈ b := by
  refine ⟨?_, fun ⟨hne, hmem⟩ => (List.mem_eraseP_of_neg (by simpa using hne)).mpr hmem⟩
  intro hmem
  refine ⟨?_, List.mem_of_mem_eraseP hmem⟩
  induction b with
  | nil => cases hmem
  | cons d b ih =>
    obtain ⟨hd, hb⟩ := List.nodup_cons.mp h
    by_cases hdk : d.1 = k
    · rw [List.eraseP_cons_of_pos (by simpa using hdk)] at hmem
      intro hek
      exact hd (List.mem_map.mpr ⟨e, hmem, hek.trans hdk.symm⟩)
    · rw [List.eraseP_cons_of_neg (by simpa using hdk)] at hmem
      obtain rfl | hmem := List.mem_cons.mp hmem
      · exact hdk
      · exact ih hb hmem

theorem Sound.bucket_nodup (h : Sound hash bs) (hb : bs[i]? = some b) : (b.map Prod.fst).Nodup :=
  ((List.sublist_flatten_of_mem (List.mem_of_getElem? hb)).map Prod.fst).nodup h.nodup

theorem Sound.mem_eraseKey [DecidableEq κ] (h : Sound hash bs) :
    e ∈ (eraseKey hash bs k).flatten ↔ e.1 ≠ k ∧ e ∈ bs.flatten := by
  rw [mem_flatten_iff, mem_flatten_iff]
  refine ⟨?_, ?_⟩
  · rintro ⟨i, b, hb, he⟩
    rw [eraseKey, List.getElem?_modify] at hb
    obtain ⟨b', hb', rfl⟩ := Option.map_eq_some_iff.mp hb
    split at he
    · obtain ⟨hne, hmem⟩ := (mem_eraseP_of_nodup (h.bucket_nodup hb')).mp he
      exact ⟨hne, i, b', hb', hmem⟩
    · rename_i hi
      refine ⟨?_, i, b', hb', he⟩
      rintro rfl
      exact hi (h.placed i b' hb' e he)
  · rintro ⟨hne, i, b, hb, he⟩
    refine ⟨i, _, by rw [eraseKey, List.getElem?_modify, hb]; rfl, ?_⟩
    split
    · exact (mem_eraseP_of_nodup (h.bucket_nodup hb)).mpr ⟨hne, he⟩
    · exact he

theorem Sound.eraseKey [DecidableEq κ] (h : Sound hash bs) (k : κ) :
    Sound hash (eraseKey hash bs k) := by
  refine ⟨?_, ?_⟩
  · apply placed_modify h.placed
    intro b e he
    exact Or.inl (List.mem_of_mem_eraseP he)
  · exact ((flatten_modify_sublist (fun b => List.eraseP_sublist) bs _).map Prod.fst).nodup h.nodup

theorem sound_nil : Sound hash ([] : Buckets κ α) where
  placed := fun _ _ h => nomatch h
  nodup := List.nodup_nil

theorem sound_replicate (count : Nat) : Sound hash (List.replicate count [] : Buckets κ α) := by
  refine ⟨?_, ?_⟩
  · intro i b hb e he
    rw [List.eq_of_mem_replicate (List.mem_of_getElem? hb)] at he
    cases he
  · rw [List.flatten_replicate_nil]
    exact List.nodup_nil

theorem foldl_pushBack (es : List (κ × α)) (h : Sound hash bs) (hbs : 0 < bs.length)
    (hes : ((es ++ bs.flatten).map Prod.fst).Nodup) :
    Sound hash (es.foldl (pushBack hash) bs) ∧
      (es.foldl (pushBack hash) bs).length = bs.length ∧
      (es.foldl (pushBack hash) bs).flatten.Perm (es ++ bs.flatten) := by
  induction es generalizing bs with
  | nil => exact ⟨h, rfl, List.Perm.refl _⟩
  | cons e es ih =>
    have hperm := pushBack_perm hash hbs e
    have hmove : (es ++ (Buckets.pushBack hash bs e).flatten).Perm (e :: es ++ bs.flatten) :=
      (hperm.append_left es).trans List.perm_middle
    obtain ⟨he, -⟩ := List.nodup_cons.mp (show ((e :: (es ++ bs.flatten)).map Prod.fst).Nodup from hes)
    have hfresh : e.1 ∉ bs.flatten.map Prod.fst := by
      intro hmem
      rw [List.map_append] at he
      exact he (List.mem_append_right _ hmem)
    obtain ⟨hsound, hlength, hflatten⟩ := ih (h.pushBack hbs hfresh)
      (by rw [pushBack_length]; exact hbs) ((hmove.map Prod.fst).nodup_iff.mpr hes)
    exact ⟨hsound, hlength.trans (pushBack_length bs e), hflatten.trans hmove⟩

theorem redistribute_spec (h : Sound hash bs) {count : Nat} (hcount : 0 < count) :
    Sound hash (redistribute hash count bs) ∧ (redistribute hash count bs).length = count ∧
      (redistribute hash count bs).flatten.Perm bs.flatten := by
  have hnil : (List.replicate count ([] : List (κ × α))).flatten = [] := List.flatten_replicate_nil
  obtain ⟨hsound, hlength, hperm⟩ := foldl_pushBack bs.flatten
    (show Sound hash _ from sound_replicate count) (by rw [List.length_replicate]; exact hcount)
    (by rw [hnil, List.append_nil]; exact h.nodup)
  rw [hnil, List.append_nil] at hperm
  exact ⟨hsound, hlength.trans List.length_replicate, hperm⟩

end Buckets

/-! ## Section 2: The map -/

/-- `std::unordered_map<κ, α>`. -/
structure UnorderedMap {κ : Type} (hash : κ → Nat) (α : Type) where
  buckets : Buckets κ α
  elementsCount : BitVec 64
  sound : Buckets.Sound hash buckets

namespace UnorderedMap

variable {κ α : Type} {hash : κ → Nat}

/-- `unordered_map()`. -/
def empty : UnorderedMap hash α :=
  ⟨[], 0, Buckets.sound_nil⟩

/-- `size`. -/
def size (m : UnorderedMap hash α) : BitVec 64 := m.elementsCount

/-- The pairs in the order of an iteration. -/
def entries (m : UnorderedMap hash α) : List (κ × α) := m.buckets.flatten

/-- `operator=`, which copies the buckets only. -/
def assign (m other : UnorderedMap hash α) : UnorderedMap hash α :=
  ⟨other.buckets, m.elementsCount, other.sound⟩

/-- `rehash`, for a positive `count`. -/
def rehash (m : UnorderedMap hash α) (count : Nat) (hcount : 0 < count) : UnorderedMap hash α :=
  ⟨Buckets.redistribute hash (max count (m.elementsCount.toNat * 4 / 3)) m.buckets,
    m.elementsCount,
    (Buckets.redistribute_spec m.sound (Nat.lt_of_lt_of_le hcount (Nat.le_max_left ..))).1⟩

/-- The start of `insert`, `find` and others: there are buckets. -/
def grown (m : UnorderedMap hash α) : UnorderedMap hash α :=
  if m.buckets = [] then m.rehash 16 (by decide) else m

theorem rehash_spec (m : UnorderedMap hash α) (count : Nat) (hcount : 0 < count) :
    0 < (m.rehash count hcount).buckets.length ∧
      (m.rehash count hcount).entries.Perm m.entries := by
  have hpos : 0 < max count (m.elementsCount.toNat * 4 / 3) :=
    Nat.lt_of_lt_of_le hcount (Nat.le_max_left ..)
  obtain ⟨-, hlength, hperm⟩ := Buckets.redistribute_spec m.sound hpos
  exact ⟨Nat.lt_of_lt_of_eq hpos hlength.symm, hperm⟩

theorem grown_spec (m : UnorderedMap hash α) :
    0 < m.grown.buckets.length ∧ m.grown.entries.Perm m.entries := by
  unfold grown
  split
  · exact m.rehash_spec 16 (by decide)
  · rename_i hne
    exact ⟨List.length_pos_iff.mpr hne, List.Perm.refl _⟩

theorem grown_size (m : UnorderedMap hash α) : m.grown.size = m.size := by
  unfold grown
  split
  · rfl
  · rfl

variable [DecidableEq κ]

/-- The bucket of a key. -/
def bucket (m : UnorderedMap hash α) (k : κ) : List (κ × α) :=
  m.buckets.getD (hash k % m.buckets.length) []

/-- What the map has for a key. -/
def lookup (m : UnorderedMap hash α) (k : κ) : Option α :=
  ((m.bucket k).find? fun e => e.1 = k).map Prod.snd

/-- `find`, with the value that the iterator is at. -/
def find (m : UnorderedMap hash α) (k : κ) : Option α × UnorderedMap hash α :=
  (m.grown.lookup k, m.grown)

variable {m : UnorderedMap hash α} {k : κ} {v : α}

theorem lookup_eq_some_iff : m.lookup k = some v ↔ (k, v) ∈ m.entries := by
  refine ⟨?_, ?_⟩
  · intro h
    obtain ⟨⟨k', v'⟩, hfind, rfl⟩ := Option.map_eq_some_iff.mp h
    obtain rfl : k' = k := by simpa using List.find?_some hfind
    exact Buckets.mem_flatten_of_getD (List.mem_of_find?_eq_some hfind)
  · intro h
    obtain ⟨i, b, hb, he⟩ := Buckets.mem_flatten_iff.mp h
    obtain rfl := m.sound.placed i b hb (k, v) he
    -- the key is only once among all keys, so the search stops at this pair
    rw [lookup, bucket, List.getD_eq_getElem?_getD, hb, Option.getD_some,
      Buckets.find_of_nodup (m.sound.bucket_nodup hb) he]
    rfl

theorem lookup_eq_none_iff : m.lookup k = none ↔ k ∉ m.entries.map Prod.fst := by
  refine ⟨?_, ?_⟩
  · intro h hmem
    obtain ⟨⟨k', v⟩, he, rfl⟩ := List.mem_map.mp hmem
    rw [lookup_eq_some_iff.mpr he] at h
    cases h
  · intro h
    cases hlookup : m.lookup k with
    | none => rfl
    | some v => exact absurd (List.mem_map_of_mem (lookup_eq_some_iff.mp hlookup)) h

theorem lookup_congr {m' : UnorderedMap hash α} (h : ∀ e, e ∈ m'.entries ↔ e ∈ m.entries) (k : κ) :
    m'.lookup k = m.lookup k := by
  apply Option.ext
  intro v
  rw [lookup_eq_some_iff, lookup_eq_some_iff]
  exact h (k, v)

theorem lookup_grown (m : UnorderedMap hash α) (k : κ) : m.grown.lookup k = m.lookup k :=
  lookup_congr (fun _ => m.grown_spec.2.mem_iff) k

/-! ## Section 3: Changing the map -/

/-- The end of `insert`: a new pair, and perhaps more buckets. -/
def add (m : UnorderedMap hash α) (k : κ) (v : α) (hpos : 0 < m.buckets.length)
    (hnone : m.lookup k = none) : UnorderedMap hash α :=
  let m' : UnorderedMap hash α :=
    ⟨Buckets.pushBack hash m.buckets (k, v), m.elementsCount + 1,
      m.sound.pushBack hpos (lookup_eq_none_iff.mp hnone)⟩
  if 3 * m'.buckets.length < 4 * m'.elementsCount.toNat then
    m'.rehash (m'.buckets.length * 2) (by
      show 0 < (Buckets.pushBack hash m.buckets (k, v)).length * 2
      rw [Buckets.pushBack_length]
      omega)
  else m'

/-- `insert`, which leaves a key alone that is there. -/
def insert (m : UnorderedMap hash α) (k : κ) (v : α) : UnorderedMap hash α :=
  if hnone : m.grown.lookup k = none then m.grown.add k v m.grown_spec.1 hnone else m.grown

/-- `erase`. -/
def erase (m : UnorderedMap hash α) (k : κ) : UnorderedMap hash α :=
  if m.lookup k = none then m
  else ⟨Buckets.eraseKey hash m.buckets k, m.elementsCount - 1, m.sound.eraseKey k⟩

theorem add_entries (hpos : 0 < m.buckets.length) (hnone : m.lookup k = none) :
    (m.add k v hpos hnone).entries.Perm ((k, v) :: m.entries) := by
  have hperm := Buckets.pushBack_perm hash hpos (k, v)
  unfold add
  dsimp only
  split
  · exact (rehash_spec _ _ _).2.trans hperm
  · exact hperm

theorem add_size (hpos : 0 < m.buckets.length) (hnone : m.lookup k = none) :
    (m.add k v hpos hnone).size = m.size + 1 := by
  unfold add
  dsimp only
  split
  · rfl
  · rfl

theorem insert_of_some (h : m.lookup k ≠ none) (v : α) :
    (∀ k', (m.insert k v).lookup k' = m.lookup k') ∧ (m.insert k v).size = m.size := by
  rw [insert, dif_neg (by rw [lookup_grown]; exact h)]
  exact ⟨m.lookup_grown, m.grown_size⟩

theorem insert_of_none (h : m.lookup k = none) (v : α) :
    (∀ k', (m.insert k v).lookup k' = if k' = k then some v else m.lookup k') ∧
      (m.insert k v).size = m.size + 1 := by
  have hgrown : m.grown.lookup k = none := by
    rw [lookup_grown]
    exact h
  rw [insert, dif_pos hgrown]
  refine ⟨?_, (add_size _ hgrown).trans (congrArg (· + 1) m.grown_size)⟩
  intro k'
  apply Option.ext
  intro w
  rw [lookup_eq_some_iff, (add_entries _ hgrown).mem_iff, List.mem_cons, m.grown_spec.2.mem_iff,
    ← lookup_eq_some_iff]
  split
  · rename_i hk
    rw [hk, h]
    simp [eq_comm]
  · rename_i hk
    simp [hk]

theorem lookup_erase (m : UnorderedMap hash α) (k k' : κ) :
    (m.erase k).lookup k' = if k' = k then none else m.lookup k' := by
  unfold erase
  split
  · rename_i hnone
    split
    · rename_i hk
      rw [hk]
      exact hnone
    · rfl
  · apply Option.ext
    intro v
    rw [lookup_eq_some_iff, entries, m.sound.mem_eraseKey]
    split
    · rename_i hk
      exact ⟨fun h => absurd hk h.1, fun h => nomatch h⟩
    · rename_i hk
      rw [lookup_eq_some_iff]
      exact and_iff_right hk

end UnorderedMap

/-! ## Section 4: Iterators -/

/-- `unordered_map::iterator`. Nodes are named by their keys, the null pointer is
    `none`. -/
structure Iterator (κ : Type) where
  bucket : Nat
  element : Option κ
  deriving DecidableEq

namespace UnorderedMap

variable {κ α : Type} {hash : κ → Nat} [DecidableEq κ]

/-- The first element of the buckets from `i` on. -/
def firstFrom : Buckets κ α → Nat → Iterator κ
  | [], i => ⟨i, none⟩
  | [] :: bs, i => firstFrom bs (i + 1)
  | (e :: _) :: _, i => ⟨i, some e.1⟩

/-- `begin`. -/
def begin (m : UnorderedMap hash α) : Iterator κ := firstFrom m.buckets 0

/-- `end`. -/
def stop (m : UnorderedMap hash α) : Iterator κ := ⟨m.buckets.length, none⟩

/-- The bucket of an iterator, from its element on. -/
def fromElement (m : UnorderedMap hash α) (it : Iterator κ) : List (κ × α) :=
  (m.buckets.getD it.bucket []).dropWhile fun e => it.element ≠ some e.1

/-- `operator++`; `none` if the node is not there any more. -/
def next (m : UnorderedMap hash α) (it : Iterator κ) : Option (Iterator κ) :=
  let bucketAfter := firstFrom (m.buckets.drop (it.bucket + 1)) (it.bucket + 1)
  if it.element = none then some bucketAfter
  else
    match m.fromElement it with
    | [] => none
    | [_] => some bucketAfter
    | _ :: e :: _ => some ⟨it.bucket, some e.1⟩

/-- A range-based `for` whose body may change the map. -/
def rangeFor (body : κ × α → UnorderedMap hash α → UnorderedMap hash α) (last : Iterator κ) :
    Nat → Iterator κ → UnorderedMap hash α → Option (UnorderedMap hash α)
  | 0, _, _ => none
  | fuel + 1, it, m =>
    if it = last then some m
    else
      (m.fromElement it).head?.bind fun e =>
        ((body e m).next it).bind fun it' => rangeFor body last fuel it' (body e m)

/-- The iterator is at the first of the pairs `es`, and these are all that come. -/
def At (m : UnorderedMap hash α) (it : Iterator κ) : List (κ × α) → Prop
  | [] => it = m.stop
  | e :: es => it.element = some e.1 ∧ ∃ rest, m.fromElement it = e :: rest ∧
      es = rest ++ (m.buckets.drop (it.bucket + 1)).flatten

variable {m : UnorderedMap hash α} {e : κ × α} {it : Iterator κ} {es : List (κ × α)}

theorem fromElement_of_append {i : Nat} (before : List (κ × α)) {rest : List (κ × α)}
    (hb : m.buckets[i]? = some (before ++ e :: rest)) :
    m.fromElement ⟨i, some e.1⟩ = e :: rest := by
  have hnodup := m.sound.bucket_nodup hb
  rw [fromElement, List.getD_eq_getElem?_getD, hb, Option.getD_some,
    List.dropWhile_append_of_pos, List.dropWhile_cons_of_neg (by simp)]
  intro d hd
  rw [List.map_append] at hnodup
  have hne : e.1 ≠ d.1 := fun heq => List.disjoint_of_nodup_append hnodup
    (List.mem_map_of_mem hd) (by rw [← heq]; exact List.mem_map_of_mem List.mem_cons_self)
  simpa using hne

theorem at_firstFrom (m : UnorderedMap hash α) {bs : Buckets κ α} {i : Nat}
    (hbs : m.buckets.drop i = bs) (hi : i ≤ m.buckets.length) :
    m.At (firstFrom bs i) bs.flatten := by
  induction bs generalizing i with
  | nil =>
    have hlength := List.drop_eq_nil_iff.mp hbs
    show (⟨i, none⟩ : Iterator κ) = ⟨m.buckets.length, none⟩
    rw [Nat.le_antisymm hi hlength]
  | cons b bs ih =>
    have hb : m.buckets[i]? = some b := by
      rw [← List.head?_drop, hbs]
      rfl
    have hdrop : m.buckets.drop (i + 1) = bs := by
      rw [← List.tail_drop, hbs]
      rfl
    cases b with
    | nil => exact ih hdrop (List.getElem?_eq_some_iff.mp hb).1
    | cons e b =>
      refine ⟨rfl, b, fromElement_of_append [] hb, ?_⟩
      show b ++ bs.flatten = b ++ (m.buckets.drop (i + 1)).flatten
      rw [hdrop]

theorem at_begin (m : UnorderedMap hash α) : m.At m.begin m.entries :=
  m.at_firstFrom List.drop_zero (Nat.zero_le _)

theorem exists_bucket {rest : List (κ × α)} (h : m.fromElement it = e :: rest) :
    ∃ before, m.buckets[it.bucket]? = some (before ++ e :: rest) := by
  rw [fromElement, List.getD_eq_getElem?_getD] at h
  cases hb : m.buckets[it.bucket]? with
  | none =>
    rw [hb] at h
    cases h
  | some b =>
    rw [hb, Option.getD_some] at h
    refine ⟨b.takeWhile fun e => it.element ≠ some e.1, ?_⟩
    rw [← h, List.takeWhile_append_dropWhile]

theorem At.next (h : m.At it (e :: es)) : ∃ it', m.next it = some it' ∧ m.At it' es := by
  obtain ⟨helement, rest, hfrom, rfl⟩ := h
  obtain ⟨before, hb⟩ := exists_bucket hfrom
  rw [UnorderedMap.next, if_neg (by rw [helement]; exact Option.some_ne_none _), hfrom]
  cases rest with
  | nil => exact ⟨_, rfl, m.at_firstFrom rfl (List.getElem?_eq_some_iff.mp hb).1⟩
  | cons d rest =>
    refine ⟨_, rfl, rfl, rest, ?_, rfl⟩
    exact fromElement_of_append (before ++ [e]) (by rw [List.append_assoc]; exact hb)

theorem At.next_erase (h : m.At it (e :: es)) : (m.erase e.1).next it = none := by
  obtain ⟨helement, rest, hfrom, rfl⟩ := h
  have hnone : e.1 ∉ (m.erase e.1).entries.map Prod.fst := by
    rw [← lookup_eq_none_iff, lookup_erase, if_pos rfl]
  have hgone : (m.erase e.1).fromElement it = [] := by
    rw [fromElement, List.dropWhile_eq_nil_iff]
    intro d hd
    have hne : e.1 ≠ d.1 := by
      intro heq
      exact hnone (List.mem_map.mpr ⟨d, Buckets.mem_flatten_of_getD hd, heq.symm⟩)
    rw [helement]
    simpa using hne
  rw [UnorderedMap.next, if_neg (by rw [helement]; exact Option.some_ne_none _), hgone]

theorem rangeFor_erase (p : κ × α → Prop) [DecidablePred p] (h : m.At it es) {fuel : Nat}
    (hfuel : es.length < fuel) :
    rangeFor (fun e m => if p e then m.erase e.1 else m) m.stop fuel it m =
      if ∀ e ∈ es, ¬ p e then some m else none := by
  induction es generalizing it fuel with
  | nil =>
    obtain ⟨fuel, rfl⟩ := Nat.exists_eq_succ_of_ne_zero (Nat.ne_zero_of_lt hfuel)
    rw [rangeFor, if_pos (show it = m.stop from h), if_pos (fun e he => nomatch he)]
  | cons e es ih =>
    obtain ⟨fuel, rfl⟩ := Nat.exists_eq_succ_of_ne_zero (Nat.ne_zero_of_lt hfuel)
    obtain ⟨it', hnext, hat⟩ := h.next
    have herased := h.next_erase
    obtain ⟨helement, rest, hfrom, -⟩ := h
    have hne : it ≠ m.stop := by
      rintro rfl
      cases helement
    rw [rangeFor, if_neg hne, hfrom, List.head?_cons, Option.bind_some]
    by_cases hp : p e
    · rw [if_pos hp, herased, if_neg fun hall => hall e List.mem_cons_self hp]
      rfl
    · rw [if_neg hp, hnext, Option.bind_some, ih hat (Nat.lt_of_succ_lt_succ hfuel)]
      congr 1
      rw [List.forall_mem_cons, eq_true hp, true_and]

end UnorderedMap

/-! ## Section 5: `std::hash` -/

/-- `std::hash` of a key of `size` bytes on amd64: FNV-1a over its bytes, the low
    one first. -/
def fnv1a (size : Nat) (key : BitVec 64) : Nat :=
  ((List.range size).foldl
    (fun h i => (h ^^^ ((key >>> (8 * i)) &&& 0xff#64)) * 1099511628211#64)
    14695981039346656037#64).toNat

end Fennix.Std
