import Nanolibc.UnorderedMapRuns

set_option autoImplicit false

namespace Nanolibc.UnorderedMapModel
open Lib.Program Lib.ArrayHeap Lib.OwnedArray Lib.IndexChain VectorModel

variable {K V : Type} [BEq K] (T : Traits K V)

def Answers (s : Store K V) (m : UnorderedMap) (es : List (Entry K V)) (key : KeyRef K V) (k : K) :
    Prop :=
  ∃ m' entry s' e, m.index T key s = .ok ((m', entry), s') ∧
    m'.entryAt entry s' = .ok (e, s') ∧ e.first == k ∧
    ((∀ d ∈ es, ¬d.first == k) → e.first = k ∧ e.hash = T.hasher k) ∧
    m'.find T (.temp k) s' = .ok (entry, s')

/-- There is room for one more entry, or the key is not in the map and a new array can be had. -/
def EntrySafe (m : UnorderedMap) (es : List (Entry K V)) (key : KeyRef K V) : Prop :=
  es.length < m.entries.maxNitems ∨ (¬Own m key ∧ (es.length + 1) * T.entrySize ≤ 2 ^ 63)

def IndexSafe (m : UnorderedMap) (es : List (Entry K V)) (tb : List Index) (key : KeyRef K V)
    (k : K) : Prop :=
  (∃ e ∈ es, e.first == k) ∨
    ((tb.length ≤ 2 * es.length →
        2 * tb.length ≤ m.hashTable.maxNitems ∨ 2 * tb.length * 8 ≤ 2 ^ 63) ∧
      EntrySafe T m es key)

variable {T} {s : Store K V} {m : UnorderedMap} {es : List (Entry K V)} {tb : List Index}
  {key : KeyRef K V} {k : K}

section Stops

theorem wp_append_stops (c : Contents s.entries m.entries es) (held : KeyHeld s m es key k)
    (bare : ¬EntrySafe T m es key) :
    wp (m.append T key) (fun _ _ => False)
      (fun e => e = .dead ∨ 2 ^ 63 < (es.length + 1) * T.entrySize) s := by
  have full : ¬es.length < m.entries.maxNitems := fun room => bare (.inl room)
  have size := c.size
  have le := c.le_capacity
  simp only [UnorderedMap.append, wp_bind, onEntries, wp_zoom]
  rw [wp_loadKey (held.reads c), pushBackMove_temp]
  rcases Nat.lt_or_ge (2 ^ 63) ((es.length + 1) * T.entrySize) with large | small
  · rw [Vec.pushBack, Vec.reserve, wp_bind]
    have stops : wp (Vec._reserve (entryElement T) m.entries (m.entries.nitems + 1)
        m.entries.nitems) _ _ s.entries := wp_reserve_diverges (by omega) (by
      rw [size]
      exact large)
    exact wp_mono stops (fun _ _ impossible => impossible.elim) fun _ _ => .inr large
  · have own : Own m key := by
      by_contra outside
      exact bare (.inr ⟨outside, small⟩)
    cases key with
    | temp k' => exact own.elim
    | stored a i field =>
      obtain ⟨_, _, e, _, ⟨_, get⟩ | ⟨foreign, _⟩⟩ := held
      · obtain ⟨zs, _, _, holds, used⟩ := c.slot own get
        have cap := holds.capacity
        have pushed : wp _ _ (fun e : Fault => e = .dead ∨ 2 ^ 63 < (es.length + 1) * T.entrySize)
            s.entries := wp_pushBack (T := entryElement T)
          (x := entryOf T k T.value.dflt) holds fun _ => .inl (by
            rw [size]
            exact small)
        apply wp_post pushed
        rintro v' h' ⟨zs₁, dead, left, kept, room, _⟩
        have effect := left.effect
        rw [own] at effect
        have gone : h'.cells a = none := by
          apply effect.gone
          exact kept.replaced (by omega) (by omega) (by omega)
        simp only [loadKey, wp_bind, onEntries, wp_zoom]
        rw [wp_read_dead gone]
        exact .inl rfl
      · exact absurd own foreign

theorem wp_expandHashTable_stops (good : Good T s m es tb)
    (large : ¬(2 * tb.length ≤ m.hashTable.maxNitems ∨ 2 * tb.length * 8 ≤ 2 ^ 63)) :
    wp (m.expandHashTable T) (fun _ _ => False) (fun _ => True) s := by
  obtain ⟨shape, form, bytes⟩ := good
  have capacity := shape.table.le_capacity
  have twice : m.hashTable.nitems * 2 % 2 ^ 64 = 2 * tb.length := by
    rw [shape.table.size, Nat.mul_comm]
    exact Nat.mod_eq_of_lt (by omega)
  simp only [UnorderedMap.expandHashTable, wp_bind, onTables, wp_zoom, Vec.resize, Vec.reserve]
  rw [twice]
  have stops : wp (Vec._reserve (indexElement T) m.hashTable (2 * tb.length) m.hashTable.nitems)
      _ _ s.tables := wp_reserve_diverges (by omega) (by
    change 2 ^ 63 < 2 * tb.length * 8
    omega)
  apply wp_post stops
  intro _ _ impossible
  exact impossible.elim

theorem wp_index_stops (good : Good T s m es tb) (held : KeyHeld s m es key k)
    (bare : ¬IndexSafe T m es tb key k) :
    wp (m.index T key) (fun _ _ => False) (fun _ => True) s := by
  have absent : ∀ e ∈ es, ¬e.first == k := fun e mem equal => bare (.inl ⟨e, mem, equal⟩)
  have shape := good.shape
  have capacity := shape.table.le_capacity
  have load := good.form.load
  have bytes := good.bytes
  simp only [UnorderedMap.index, wp_bind]
  apply wp_post (wp_find shape good.form (held.reads shape.entries))
  rintro r s₁ ⟨rfl, ⟨e, get, equal⟩ | ⟨rfl, _⟩⟩
  · exact absurd equal (absent e (List.mem_of_getElem? get))
  · have twice : m.entries.nitems * 2 % 2 ^ 64 = 2 * es.length := by
      rw [shape.entries.size, Nat.mul_comm]
      exact Nat.mod_eq_of_lt (by omega)
    rw [if_neg (by rw [shape.size]; simp), twice, shape.table.size]
    apply wp_ite
    · intro full
      rw [wp_bind]
      by_cases table : 2 * tb.length ≤ m.hashTable.maxNitems ∨ 2 * tb.length * 8 ≤ 2 ^ 63
      · have expanded : wp (m.expandHashTable T) _ (fun _ => True) s₁ :=
          wp_expandHashTable good fun grows => .inl (by omega)
        apply wp_post (wp_and expanded wp_expandHashTable_apart)
        rintro m₁ s₂ ⟨⟨same, _, es₁, tb₁, shape₁, relinked, _⟩, apart⟩
        have held₁ := held.relinked apart same relinked
        have bare₁ : ¬EntrySafe T m₁ es₁ key := by
          intro safe
          unfold EntrySafe at safe
          rw [same, relinked.length, own_congr same] at safe
          exact bare (.inr ⟨fun _ => table, safe⟩)
        exact wp_mono (wp_append_stops shape₁.entries held₁ bare₁)
          (fun _ _ impossible => impossible.elim) fun _ _ => trivial
      · apply wp_post (wp_expandHashTable_stops good table)
        intro _ _ impossible
        exact impossible.elim
    · intro notFull
      have bare₁ : ¬EntrySafe T m es key :=
        fun safe => bare (.inr ⟨fun full => absurd full notFull, safe⟩)
      exact wp_mono (wp_append_stops shape.entries held bare₁)
        (fun _ _ impossible => impossible.elim) fun _ _ => trivial

end Stops

section Returns

theorem indexed_answers [EquivBEq K] {m' : UnorderedMap} {s' : Store K V} {entry : ℕ}
    {es' : List (Entry K V)} {tb' : List Index} (good : Good T s' m' es' tb')
    (indexed : Indexed T es k entry es') :
    ∃ e, m'.entryAt entry s' = .ok (e, s') ∧ e.first == k ∧
      ((∀ d ∈ es, ¬d.first == k) → e.first = k ∧ e.hash = T.hasher k) ∧
      m'.find T (.temp k) s' = .ok (entry, s') := by
  obtain ⟨e, get, equal, new⟩ : ∃ e, es'[entry]? = some e ∧ e.first == k ∧
      ((∀ d ∈ es, ¬d.first == k) → e.first = k ∧ e.hash = T.hasher k) := by
    rcases indexed with ⟨e, get, equal, rfl⟩ | ⟨_, rfl, relinked⟩
    · exact ⟨e, get, equal, fun absent => absurd equal (absent e (List.mem_of_getElem? get))⟩
    · have last : (es ++ [entryOf T k T.value.dflt])[es.length]? =
          some (entryOf T k T.value.dflt) := by simp
      obtain ⟨e, get, body⟩ := relinked.get last
      have first : e.first = k := congrArg (fun b => b.1) body
      have hash : e.hash = T.hasher k := congrArg (fun b => b.2.2) body
      exact ⟨e, get, by rw [first]; exact BEq.rfl, fun _ => ⟨first, hash⟩⟩
  have inside := (List.getElem?_eq_some_iff.mp get).choose
  have body : (es'.map Entry.body)[entry]? = some e.body := by
    rw [List.getElem?_map, get]
    rfl
  obtain ⟨r, run, ⟨d, at_r, equal'⟩ | ⟨_, missing⟩⟩ := find_ok good k
  · have body' : (es'.map Entry.body)[r]? = some d.body := by
      rw [List.getElem?_map, at_r]
      rfl
    have same : r = entry :=
      good.form.keyed.unique body' body (BEq.trans equal' (BEq.symm equal))
    rw [same] at run
    exact ⟨e, entryAt_ok good.shape get, equal, new, run⟩
  · exact absurd equal (missing e (List.mem_of_getElem? get))

end Returns

section Concrete

theorem stored_second {s : MapState ℕ ℕ} {es : List (Entry ℕ ℕ)} {tb : List Index}
    {capacity n k v hash : ℕ} {rest : List (ℕ × ℕ × ℕ)}
    (good : Good natTraits s.store s.map es tb) (same : s.map.entries = ⟨some 0, capacity, n⟩)
    (bodies : es.map Entry.body = (k, v, hash) :: rest) :
    KeyHeld s.store s.map es (.stored 0 0 Entry.second) v := by
  obtain ⟨zs, holds, _⟩ := good.shape.entries
  have buffer := holds.buffer
  rw [same] at buffer
  cases es with
  | nil => cases bodies
  | cons e es =>
    have first : e.body = (k, v, hash) := (List.cons.inj bodies).1
    refine ⟨?_, buffer.2, e, congrArg (fun b => b.2.1) first, .inl ⟨by rw [same], rfl⟩⟩
    intro d e' body
    exact congrArg (fun b => b.2.1) body

end Concrete

/-- `operator[]` with any live key answers for the value that the key had at the call exactly
when that value is present, or the hash table and the entries can grow as far as they have to and
the entries, if the key is among them, need not grow. -/
theorem index_key_iff [EquivBEq K] (T : Traits K V) (s : Store K V) (m : UnorderedMap)
    (es : List (Entry K V)) (tb : List Index) (key : KeyRef K V) (k : K) (good : Good T s m es tb)
    (held : KeyHeld s m es key k) : Answers T s m es key k ↔ IndexSafe T m es tb key k := by
  constructor
  · intro ⟨m', entry, s', e, run, _⟩
    by_contra bare
    exact wp_ok (wp_index_stops good held bare) run
  · intro safe
    have grows : (∀ e ∈ es, ¬e.first == k) → (tb.length ≤ 2 * es.length →
        2 * tb.length ≤ m.hashTable.maxNitems ∨ 2 * tb.length * 8 ≤ 2 ^ 63) ∧
        EntrySafe T m es key := by
      intro absent
      rcases safe with ⟨e, mem, equal⟩ | safe
      · exact absurd equal (absent e mem)
      · exact safe
    have indexed : wp (m.index T key) (fun r s' => ∃ es' tb', Good T s' r.1 es' tb' ∧
        Indexed T es k r.2 es') never s := by
      apply wp_indexHeld good held
      · intro absent
        exact (grows absent).2.imp_right fun outside => ⟨outside.1, .inl outside.2⟩
      · intro absent full more
        have table := (grows absent).1 full
        exact .inl (by omega)
    obtain ⟨⟨m', entry⟩, s', run, es', tb', good', result⟩ := wp_never.mp indexed
    obtain ⟨e, at_entry, equal, new, found⟩ := indexed_answers good' result
    exact ⟨m', entry, s', e, run, at_entry, equal, new, found⟩

theorem index_key_iff_room : ∃ (s : MapState ℕ ℕ) (es : List (Entry ℕ ℕ)) (tb : List Index),
    Good natTraits s.store s.map es tb ∧
    KeyHeld s.store s.map es (.stored 0 0 Entry.second) 5 ∧
    Answers natTraits s.store s.map es (.stored 0 0 Entry.second) 5 := by
  obtain ⟨s, es, tb, _, good, same, bodies⟩ := shown_good
    [.index 3 fun _ => 5] 2 1 [(3, 5, 0), (0, 0, 0)] (by decide +kernel)
  have held := stored_second good same bodies
  have count : es.length = 1 := by simpa using congrArg List.length bodies
  refine ⟨s, es, tb, good, held, ?_⟩
  exact (index_key_iff natTraits s.store s.map es tb _ 5 good held).mpr (.inr ⟨by
    have floor := good.form.floor
    omega, .inl (by rw [same]; dsimp only; omega)⟩)

/-- `m[m[3]]` where the two entries fill their array: the second hash reads the deleted array. -/
theorem index_key_lost : ∃ (s : MapState ℕ ℕ) (es : List (Entry ℕ ℕ)) (tb : List Index),
    Good natTraits s.store s.map es tb ∧
    KeyHeld s.store s.map es (.stored 0 0 Entry.second) 5 ∧
    ¬Answers natTraits s.store s.map es (.stored 0 0 Entry.second) 5 := by
  obtain ⟨s, es, tb, _, good, same, bodies⟩ := shown_good
    [.index 3 fun _ => 5, .index 6 id] 2 2 [(3, 5, 0), (6, 0, 0)] (by decide +kernel)
  have held := stored_second good same bodies
  have count : es.length = 2 := by simpa using congrArg List.length bodies
  refine ⟨s, es, tb, good, held, ?_⟩
  have bare : ¬IndexSafe natTraits s.map es tb (.stored 0 0 Entry.second) 5 := by
    rintro (⟨e, mem, equal⟩ | ⟨_, room | ⟨outside, _⟩⟩)
    · have body : e.body ∈ es.map Entry.body := List.mem_map_of_mem mem
      rw [bodies] at body
      have first : e.first = 5 := eq_of_beq equal
      simp [Entry.body, first] at body
    · rw [same, count] at room
      exact absurd room (by decide)
    · exact outside (congrArg Vec.data same)
  rintro ⟨m', entry, s', e, run, _⟩
  exact wp_ok (wp_index_stops good held bare) run

end Nanolibc.UnorderedMapModel
