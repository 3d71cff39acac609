import Fennix.Framework.System
import Fennix.Std.UnorderedMap

/-! # Calls of an `unordered_map`

    What a map has after calls that change it, and what its counter and its iterators are
    after more of them.

    - `map_calls_right_iff`: the map is a finite map exactly if `operator[]` never adds the key
      that makes the map grow. The reference `bucket` is to the old buckets then, which are
      freed, and the value that is returned is a copy there.
    - `maps_right_iff`: the counter is not copied, moved or swapped with the elements, and
      `erase(it)` returns an iterator that stays in its bucket.
-/

namespace Fennix.Std.UnorderedMap

open Function (update update_apply)

variable {κ α : Type} {hash : κ → Nat} [DecidableEq κ]

/-! ## Section 1: A finite map -/

/-- `it->second = v` for the element of a key. -/
def assignValue (m : UnorderedMap hash α) (k : κ) (v : α) : UnorderedMap hash α where
  buckets := m.buckets.map (·.map fun e => if e.1 = k then (e.1, v) else e)
  elementsCount := m.elementsCount
  sound := by
    have hkey : Prod.fst ∘ (fun e : κ × α => if e.1 = k then (e.1, v) else e) = Prod.fst := by
      funext e
      simp only [Function.comp]
      split <;> rfl
    refine ⟨?_, ?_⟩
    · intro i b hb e he
      rw [List.getElem?_map] at hb
      obtain ⟨b', hb', rfl⟩ := Option.map_eq_some_iff.mp hb
      obtain ⟨e', he', rfl⟩ := List.mem_map.mp he
      rw [List.length_map, ← m.sound.placed i b' hb' e' he']
      exact congrArg (hash · % _) (congrFun hkey e')
    · rw [← List.map_flatten, List.map_map, hkey]
      exact m.sound.nodup

/-- One more key makes the map grow. -/
def full (m : UnorderedMap hash α) : Bool :=
  3 * m.buckets.length < 4 * (m.elementsCount + 1).toNat

/-- `operator[]`: the value that the reference is to; `none` if it is one in freed memory. -/
def index [Inhabited α] (m : UnorderedMap hash α) (k : κ) : Option (α × UnorderedMap hash α) :=
  match m.grown.lookup k with
  | some v => some (v, m.grown)
  | none => if m.grown.full then none else some (default, m.insert k default)

/-- A call, and for `operator[]` perhaps what is assigned to its result. -/
inductive Call (κ α : Type) where
  | index (k : κ) (assigned : Option α)
  | insert (k : κ) (v : α)
  | insertOrAssign (k : κ) (v : α)
  | find (k : κ)
  | at (k : κ)
  | erase (k : κ)

/-- The map after a call. `find` and `at` also return what there is for the key. -/
def call [Inhabited α] (m : UnorderedMap hash α) : Call κ α → Option (Option α × UnorderedMap hash α)
  | .index k assigned => (m.index k).map fun r =>
    (none, assigned.elim r.2 (r.2.assignValue k))
  | .insert k v => some (none, m.insert k v)
  | .insertOrAssign k v =>
    some (none, if m.grown.lookup k = none then m.grown.insert k v else m.grown.assignValue k v)
  | .find k | .at k => some (m.find k)
  | .erase k => some (none, m.erase k)

/-- The same for a finite map. -/
def mapCall [Inhabited α] (f : κ → Option α) : Call κ α → Option α × (κ → Option α)
  | .index k assigned =>
    (none, update f k (some (assigned.getD ((f k).getD default))))
  | .insert k v => (none, update f k (some ((f k).getD v)))
  | .insertOrAssign k v => (none, update f k (some v))
  | .find k | .at k => (f k, f)
  | .erase k => (none, update f k none)

/-- A map and the finite map that it should be, with the results of the last call. -/
structure Pair {κ : Type} (hash : κ → Nat) (α : Type) where
  map : UnorderedMap hash α
  spec : κ → Option α := fun _ => none
  result : Option α := none
  expected : Option α := none

def Pair.step [Inhabited α] (s : Pair hash α) (c : Call κ α) : Option (Pair hash α) :=
  (s.map.call c).map fun r => ⟨r.2, (mapCall s.spec c).2, r.1, (mapCall s.spec c).1⟩

/-- The map has what the finite map has, and the results were the same. -/
def Pair.Agrees (s : Pair hash α) : Prop := s.map.lookup = s.spec ∧ s.result = s.expected

/-- `operator[]` makes the map grow. -/
def Pair.Grows (s : Pair hash α) : Call κ α → Prop
  | .index k _ => s.map.grown.lookup k = none ∧ s.map.grown.full
  | _ => False

/-- A map with so many buckets. -/
def ofCount (count : Nat) : UnorderedMap hash α :=
  if h : 0 < count then empty.rehash count h else empty

variable {m : UnorderedMap hash α} {k : κ}

theorem lookup_assignValue (h : m.lookup k ≠ none) (v : α) :
    (m.assignValue k v).lookup = update m.lookup k (some v) := by
  obtain ⟨w, hw⟩ := Option.ne_none_iff_exists'.mp h
  funext k'
  apply Option.ext
  intro u
  have hentries : (m.assignValue k v).entries =
      m.entries.map fun e => if e.1 = k then (e.1, v) else e :=
    List.map_flatten.symm
  rw [lookup_eq_some_iff, hentries, List.mem_map, update_apply]
  split
  · rename_i hk
    subst hk
    constructor
    · rintro ⟨e, he, heq⟩
      split at heq
      · exact congrArg some (congrArg Prod.snd heq)
      · rename_i hne
        exact absurd (congrArg Prod.fst heq) hne
    · intro hu
      exact ⟨(k', w), lookup_eq_some_iff.mp hw, by simpa using hu⟩
  · rename_i hk
    rw [lookup_eq_some_iff]
    constructor
    · rintro ⟨e, he, heq⟩
      split at heq
      · rename_i hek
        exact absurd ((congrArg Prod.fst heq).symm.trans hek) hk
      · exact heq ▸ he
    · exact fun hu => ⟨(k', u), hu, if_neg hk⟩

theorem lookup_insert (m : UnorderedMap hash α) (k : κ) (v : α) :
    (m.insert k v).lookup = update m.lookup k (some ((m.lookup k).getD v)) := by
  funext k'
  rw [update_apply]
  cases h : m.lookup k with
  | none =>
    rw [(insert_of_none h v).1]
    rfl
  | some w =>
    rw [(insert_of_some (by rw [h]; exact Option.some_ne_none w) v).1]
    split
    · rename_i hk
      rw [hk, h]
      rfl
    · rfl

theorem index_cases [Inhabited α] (m : UnorderedMap hash α) (k : κ) :
    (m.grown.lookup k = none ∧ m.grown.full) ∧ m.index k = none ∨
      ¬ (m.grown.lookup k = none ∧ m.grown.full) ∧ ∃ v m', m.index k = some (v, m') ∧
        m'.lookup = update m.lookup k (some ((m.lookup k).getD default)) := by
  have hgrown : m.grown.lookup = m.lookup := funext m.lookup_grown
  unfold index
  rw [hgrown]
  cases hk : m.lookup k with
  | some v =>
    refine .inr ⟨by simp, v, m.grown, rfl, ?_⟩
    rw [hgrown, Option.getD_some, ← hk, Function.update_eq_self]
  | none =>
    by_cases hfull : m.grown.full
    · exact .inl ⟨⟨rfl, hfull⟩, if_pos hfull⟩
    · refine .inr ⟨fun h => hfull h.2, default, m.insert k default, if_neg hfull, ?_⟩
      rw [lookup_insert, hk]

theorem Pair.step_iff [Inhabited α] (s : Pair hash α) (c : Call κ α) (h : s.Agrees) :
    (∃ s', s.step c = some s' ∧ s'.Agrees) ↔ ¬ s.Grows c := by
  obtain ⟨hspec, -⟩ := h
  have hgrown : s.map.grown.lookup = s.map.lookup := funext s.map.lookup_grown
  unfold step Agrees Grows
  cases c with
  | index k assigned =>
    simp only [call, mapCall]
    obtain ⟨hgrows, hindex⟩ | ⟨hgrows, v, m', hindex, hlookup⟩ := s.map.index_cases k
    · simp [hindex, hgrows]
    · rw [hindex, ← hspec]
      refine iff_of_true ⟨_, rfl, ?_, rfl⟩ hgrows
      cases assigned with
      | none => exact hlookup
      | some w =>
        change (m'.assignValue k w).lookup = update s.map.lookup k (some w)
        rw [lookup_assignValue (by simp [hlookup]), hlookup, Function.update_idem]
  | insert k v => simp [call, mapCall, lookup_insert, hspec]
  | insertOrAssign k v =>
    by_cases hk : s.map.lookup k = none
    · simp [call, mapCall, lookup_insert, hgrown, ← hspec, hk]
    · simp [call, mapCall, hgrown, ← hspec, hk, lookup_assignValue (m := s.map.grown) (hgrown ▸ hk)]
  | find k | «at» k => simp [call, mapCall, find, hgrown, hspec]
  | erase k =>
    have herase : (s.map.erase k).lookup = update s.map.lookup k none := by
      funext k'
      rw [lookup_erase, update_apply]
    simp [call, mapCall, herase, hspec]

/-- The elements from an iterator on to `end`; `none` if there are not so few as `rounds`. -/
def visit (m : UnorderedMap hash α) : Nat → Iterator κ → Option (List (κ × α))
  | 0, _ => none
  | rounds + 1, it =>
    if it = m.stop then some []
    else
      (m.fromElement it).head?.bind fun e =>
        (m.next it).bind fun it' => (m.visit rounds it').map (e :: ·)

/-- `erase(it)`, with the iterator that it returns; `none` if `it` is at no element. -/
def eraseAt (m : UnorderedMap hash α) (it : Iterator κ) : Option (Iterator κ × UnorderedMap hash α) :=
  match m.fromElement it with
  | [] => none
  | e :: rest => some (⟨it.bucket, rest.head?.map Prod.fst⟩, m.erase e.1)

/-- The buckets of a map that was moved from. -/
def moved (m : UnorderedMap hash α) : UnorderedMap hash α := ⟨[], m.elementsCount, Buckets.sound_nil⟩

/-- `clear` -/
def clear (m : UnorderedMap hash α) : UnorderedMap hash α :=
  ⟨List.replicate m.buckets.length [], 0, Buckets.sound_replicate _⟩

/-- The constructors, the assignments and the other calls, for maps with numbers. -/
inductive Op (κ α : Type) where
  | insert (i : Nat) (k : κ) (v : α)
  | erase (i : Nat) (k : κ)
  | eraseAt (i : Nat) (it : Iterator κ)
  | copy (i j : Nat)
  | move (i j : Nat)
  | assign (i j : Nat)
  | moveAssign (i j : Nat)
  | clear (i : Nat)
  | swap (i j : Nat)

/-- All maps, and the iterators that `erase` returned and should have returned. -/
structure Maps {κ : Type} (hash : κ → Nat) (α : Type) where
  map : Nat → UnorderedMap hash α := fun _ => empty
  returned : Option (Iterator κ) := none
  following : Option (Iterator κ) := none

def Maps.step (s : Maps hash α) : Op κ α → Option (Maps hash α)
  | .insert i k v => some { map := update s.map i ((s.map i).insert k v) }
  | .erase i k => some { map := update s.map i ((s.map i).erase k) }
  | .eraseAt i it => ((s.map i).eraseAt it).map fun r =>
    ⟨update s.map i r.2, some r.1, (s.map i).next it⟩
  | .copy i j => some { map := update s.map i (empty.assign (s.map j)) }
  | .move i j => some { map := update (update s.map j (s.map j).moved) i (empty.assign (s.map j)) }
  | .assign i j => some { map := update s.map i ((s.map i).assign (s.map j)) }
  | .moveAssign i j =>
    if i = j then some { map := s.map }
    else some { map := update (update s.map j (s.map j).moved) i ((s.map i).assign (s.map j)) }
  | .clear i => some { map := update s.map i (s.map i).clear }
  | .swap i j =>
    let map := update s.map i ((s.map i).assign (s.map j))
    some { map := update map j ((s.map j).assign (s.map i)) }

/-- An iteration visits each element of the map once, and as many as `size` says. -/
def Counted (m : UnorderedMap hash α) : Prop :=
  ∃ es, (∀ rounds, es.length < rounds → m.visit rounds m.begin = some es) ∧
    (es.map Prod.fst).Nodup ∧ (∀ e, e ∈ es ↔ m.lookup e.1 = some e.2) ∧
    m.size = BitVec.ofNat 64 es.length

/-- So it is for all maps, and `erase` returned the iterator to what followed. -/
def Maps.Right (s : Maps hash α) : Prop := (∀ i, (s.map i).Counted) ∧ s.returned = s.following

/-- What sets a counter to a number that is not that of the elements, or erases the last
    element of a bucket (or none). -/
def Maps.Breaks (s : Maps hash α) : Op κ α → Prop
  | .copy _ j | .move _ j => (s.map j).size ≠ 0
  | .assign i j | .swap i j => (s.map i).size ≠ (s.map j).size
  | .moveAssign i j => i ≠ j ∧ ¬ ((s.map i).size = 0 ∧ (s.map j).size = 0)
  | .eraseAt i it => ((s.map i).fromElement it).length ≤ 1
  | _ => False

theorem At.visit {it : Iterator κ} {es : List (κ × α)} (h : m.At it es) {rounds : Nat}
    (hrounds : es.length < rounds) : m.visit rounds it = some es := by
  induction es generalizing it rounds with
  | nil =>
    obtain ⟨rounds, rfl⟩ := Nat.exists_eq_succ_of_ne_zero (Nat.ne_zero_of_lt hrounds)
    exact if_pos h
  | cons e es ih =>
    obtain ⟨rounds, rfl⟩ := Nat.exists_eq_succ_of_ne_zero (Nat.ne_zero_of_lt hrounds)
    obtain ⟨it', hnext, hat⟩ := h.next
    obtain ⟨helement, rest, hfrom, -⟩ := h
    have hne : it ≠ m.stop := by
      rintro rfl
      cases helement
    rw [UnorderedMap.visit, if_neg hne, hfrom, List.head?_cons, Option.bind_some, hnext,
      Option.bind_some, ih hat (Nat.lt_of_succ_lt_succ hrounds)]
    rfl

theorem counted_iff : m.Counted ↔ m.size = BitVec.ofNat 64 m.entries.length := by
  have hvisit : ∀ rounds, m.entries.length < rounds → m.visit rounds m.begin = some m.entries :=
    fun _ => m.at_begin.visit
  constructor
  · rintro ⟨es, hes, -, -, hsize⟩
    rwa [Option.some.inj ((hvisit (max es.length m.entries.length + 1) (by omega)).symm.trans
      (hes _ (by omega)))]
  · exact fun h => ⟨m.entries, hvisit, m.sound.nodup, fun _ => lookup_eq_some_iff.symm, h⟩

theorem Counted.erase (h : m.Counted) (k : κ) : (m.erase k).Counted := by
  rw [counted_iff] at h ⊢
  by_cases hk : m.lookup k = none
  · rwa [UnorderedMap.erase, if_pos hk]
  obtain ⟨v, hv⟩ := Option.ne_none_iff_exists'.mp hk
  have hnodup : ∀ m : UnorderedMap hash α, m.entries.Nodup := fun m => m.sound.nodup.of_map _
  have hgone : (k, v) ∉ (m.erase k).entries := by
    rw [← lookup_eq_some_iff, lookup_erase, if_pos rfl]
    exact nofun
  have hperm : ((k, v) :: (m.erase k).entries).Perm m.entries := by
    apply (List.perm_ext_iff_of_nodup (List.nodup_cons.mpr ⟨hgone, hnodup _⟩) (hnodup m)).mpr
    rintro ⟨k', w⟩
    rw [List.mem_cons, ← lookup_eq_some_iff, ← lookup_eq_some_iff, lookup_erase]
    by_cases hk' : k' = k
    · simp [hk', hv, eq_comm]
    · simp [hk']
  have hsize : (m.erase k).size = m.size - 1 := by
    rw [UnorderedMap.erase, if_neg hk]
    rfl
  rw [hsize, h, ← hperm.length_eq, List.length_cons, BitVec.ofNat_add]
  exact BitVec.add_sub_cancel _ _

theorem Counted.insert (h : m.Counted) (k : κ) (v : α) : (m.insert k v).Counted := by
  have hgrown := m.grown_spec.2.length_eq
  rw [counted_iff] at h ⊢
  unfold UnorderedMap.insert
  split
  · rename_i hnone
    rw [add_size, grown_size, h, (add_entries _ hnone).length_eq, List.length_cons, hgrown]
    exact (BitVec.ofNat_add ..).symm
  · rw [grown_size, h, hgrown]

/-- The iterator that `erase` returns stays in its bucket. -/
theorem eraseAt_iff (it : Iterator κ) :
    (∃ r, m.eraseAt it = some r ∧ some r.1 = m.next it) ↔ ¬ (m.fromElement it).length ≤ 1 := by
  have hafter : ∀ (bs : Buckets κ α) i, i ≤ (firstFrom bs i).bucket := by
    intro bs
    induction bs with
    | nil => exact fun i => le_rfl
    | cons b bs ih =>
      intro i
      cases b with
      | nil => exact (Nat.le_succ i).trans (ih (i + 1))
      | cons e b => exact le_rfl
  unfold eraseAt next
  cases hfrom : m.fromElement it with
  | nil => simp
  | cons e rest =>
    have helement : it.element ≠ none := by
      intro hnone
      have hnil : m.fromElement it = [] := List.dropWhile_eq_nil_iff.mpr (by simp [hnone])
      cases hnil.symm.trans hfrom
    cases rest with
    | nil =>
      have hbucket := hafter (m.buckets.drop (it.bucket + 1)) (it.bucket + 1)
      simp [helement]
      intro heq
      rw [← heq] at hbucket
      exact absurd hbucket (Nat.not_succ_le_self _)
    | cons d rest => simp [helement]

theorem forall_counted {f : Nat → UnorderedMap hash α} (hf : ∀ l, (f l).Counted) {i j : Nat}
    {n : UnorderedMap hash α} : (∀ l, (update (update f i m) j n l).Counted) ↔
      n.Counted ∧ (i ≠ j → m.Counted) := by
  constructor
  · intro h
    exact ⟨by simpa using h j, fun hne => by simpa [hne] using h i⟩
  · rintro ⟨hn, hm⟩ l
    by_cases hj : l = j
    · simpa [hj] using hn
    by_cases hi : l = i
    · subst hi
      simpa [hj] using hm hj
    · simpa [hi, hj] using hf l

theorem Maps.step_iff (s : Maps hash α) (op : Op κ α) (h : s.Right) :
    (∃ s', s.step op = some s' ∧ s'.Right) ↔ ¬ s.Breaks op := by
  obtain ⟨hcounted, -⟩ := h
  have hassign : ∀ (m : UnorderedMap hash α) j,
      (m.assign (s.map j)).Counted ↔ m.size = (s.map j).size := by
    intro m j
    rw [counted_iff, counted_iff.mp (hcounted j)]
    rfl
  have hmoved : ∀ j, (s.map j).moved.Counted ↔ (s.map j).size = 0 := fun j => counted_iff
  have hset : ∀ f : Nat → UnorderedMap hash α,
      (∃ s', some { map := f : Maps hash α } = some s' ∧ s'.Right) ↔ ∀ l, (f l).Counted := by
    simp [Right]
  have hone : ∀ i m, (∀ l, (update s.map i m l).Counted) ↔ m.Counted := by
    intro i m
    simpa using forall_counted hcounted (m := m) (i := i) (j := i) (n := m)
  have hcopy : ∀ j, (empty.assign (s.map j)).Counted ↔ (s.map j).size = 0 :=
    fun j => (hassign _ j).trans eq_comm
  cases op with
  | insert i k v => exact (hset _).trans ((hone _ _).trans (iff_of_true ((hcounted i).insert k v) id))
  | erase i k => exact (hset _).trans ((hone _ _).trans (iff_of_true ((hcounted i).erase k) id))
  | eraseAt i it =>
    rw [Breaks, ← eraseAt_iff]
    constructor
    · rintro ⟨s', hstep, hright⟩
      obtain ⟨r, hr, rfl⟩ := Option.map_eq_some_iff.mp hstep
      exact ⟨r, hr, hright.2⟩
    · rintro ⟨r, hr, hnext⟩
      refine ⟨⟨update s.map i r.2, some r.1, (s.map i).next it⟩, by rw [step, hr]; rfl,
        (hone i r.2).mpr ?_, hnext⟩
      unfold UnorderedMap.eraseAt at hr
      split at hr
      · cases hr
      · rw [← Option.some.inj hr]
        exact (hcounted i).erase _
  | copy i j => exact (hset _).trans ((hone _ _).trans ((hcopy j).trans not_not.symm))
  | move i j =>
    refine (hset _).trans ((forall_counted hcounted).trans ?_)
    rw [hcopy, hmoved, Breaks, not_not]
    exact and_iff_left_of_imp fun h _ => h
  | assign i j => exact (hset _).trans ((hone _ _).trans ((hassign _ j).trans not_not.symm))
  | moveAssign i j =>
    by_cases hij : i = j
    · rw [step, if_pos hij, hset]
      exact iff_of_true hcounted fun h => h.1 hij
    · rw [step, if_neg hij, hset, forall_counted hcounted, hassign, hmoved, Breaks]
      grind
  | clear i =>
    refine (hset _).trans ((hone _ _).trans (iff_of_true ?_ id))
    rw [counted_iff, entries, clear, List.flatten_replicate_nil]
    rfl
  | swap i j =>
    refine (hset _).trans ((forall_counted hcounted).trans ?_)
    rw [hassign, hassign, Breaks, not_not, eq_comm]
    exact and_iff_left_of_imp fun h _ => h

/-- From empty maps, along every sequence of calls: an iteration over a map visits each element
    once and as many as `size` says, and `erase` returns the iterator to the next element,
    exactly if no call is one of those of `Maps.Breaks`. -/
theorem maps_right_iff (hash : κ → Nat) (ops : List (Op κ α)) :
    (∀ earlier, earlier <+: ops → ∃ s : Maps hash α,
        earlier.foldlM Maps.step {} = some s ∧ s.Right) ↔
      ∀ earlier op (s : Maps hash α), earlier ++ [op] <+: ops →
        earlier.foldlM Maps.step {} = some s → ¬ s.Breaks op :=
  along_iff Maps.step_iff ⟨fun _ => counted_iff.mpr rfl, rfl⟩ ops

/-- A copy of a map with one element has the size 0. -/
theorem maps_wrong : ¬ ∀ earlier, earlier <+: [Op.insert 0 5 7, .copy 1 0] →
    ∃ s : Maps id Nat, earlier.foldlM Maps.step {} = some s ∧ s.Right := by
  intro h
  obtain ⟨s, hs, hright⟩ := h _ List.prefix_rfl
  cases hs
  have hsize := counted_iff.mp (hright.1 1)
  revert hsize
  decide +kernel

end Fennix.Std.UnorderedMap
