import Nanolibc.UnorderedMapInvariant
import Nanolibc.VectorAliasing

set_option autoImplicit false

namespace Nanolibc.UnorderedMapModel
open Lib.Program Lib.ArrayHeap Lib.OwnedArray Lib.IndexChain VectorModel

variable {K V : Type}

def Own (m : UnorderedMap) : KeyRef K V → Prop
  | .temp _ => False
  | .stored a _ _ => m.entries.data = some a

/-- The key refers to a live object with the value `k`: one outside the maps, or the key or the
value of an entry of `m` or of another map. -/
def KeyHeld (s : Store K V) (m : UnorderedMap) (es : List (Entry K V)) : KeyRef K V → K → Prop
  | .temp k', k => k' = k
  | .stored a i field, k => (∀ d e : Entry K V, d.body = e.body → field d = field e) ∧
      a < s.entries.next ∧ ∃ e, field e = k ∧ ((m.entries.data = some a ∧ es[i]? = some e) ∨
        (m.entries.data ≠ some a ∧ ∃ ws, s.entries.cells a = some ws ∧ ws[i]? = some e))

def Apart (m : UnorderedMap) (s s' : Store K V) : Prop :=
  s'.entries.next = s.entries.next ∧
    ∀ a, m.entries.data ≠ some a → s'.entries.cells a = s.entries.cells a

section Frame

variable {s s' s'' : Store K V} {m : UnorderedMap} {i : ℕ}

theorem Apart.refl : Apart m s s := ⟨rfl, fun _ _ => rfl⟩

theorem Apart.trans (one : Apart m s s') (two : Apart m s' s'') : Apart m s s'' :=
  ⟨two.1.trans one.1, fun a other => (two.2 a other).trans (one.2 a other)⟩

theorem wp_bind_apart {β γ : Type} {p : MapProg K V β} {f : β → MapProg K V γ}
    (first : wp p (fun _ s' => Apart m s s') (fun _ => True) s)
    (rest : ∀ a t, wp (f a) (fun _ s' => Apart m t s') (fun _ => True) t) :
    wp (p >>= f) (fun _ s' => Apart m s s') (fun _ => True) s := by
  rw [wp_bind]
  apply wp_post first
  intro a t one
  apply wp_post (rest a t)
  intro _ u two
  exact one.trans two

theorem wp_onTables_apart {β : Type} {p : Method Index β} :
    wp (onTables p) (fun _ s' => Apart m s s') (fun _ => True) s := by
  rw [onTables, wp_zoom]
  exact wp_any fun _ _ => .refl

theorem wp_entryAt_apart :
    wp (m.entryAt i) (fun _ s' => Apart m s s') (fun _ => True) s := by
  rw [UnorderedMap.entryAt, onEntries, wp_zoom]
  apply wp_post wp_read_keeps
  intro _ h same
  rw [same]
  exact .refl

theorem wp_updateEntry_apart {f : Entry K V → Entry K V} :
    wp (m.updateEntry i f) (fun _ s' => Apart m s s') (fun _ => True) s := by
  apply wp_bind_apart wp_entryAt_apart
  intro e t
  rw [onEntries, wp_zoom]
  apply wp_post wp_write_keeps
  intro _ h kept
  exact kept

theorem wp_insertIntoHashTable_apart :
    wp (m.insertIntoHashTable i) (fun _ s' => Apart m s s') (fun _ => True) s := by
  apply wp_bind_apart wp_entryAt_apart
  intro e t
  apply wp_bind_apart wp_onTables_apart
  intro next t
  apply wp_bind_apart wp_updateEntry_apart
  intro _ t
  exact wp_onTables_apart

theorem wp_loop_apart {body : ℕ → MapProg K V Unit} (count start : ℕ)
    (step : ∀ i t, wp (body i) (fun _ s' => Apart m t s') (fun _ => True) t) :
    wp (loop count start body) (fun _ s' => Apart m s s') (fun _ => True) s := by
  apply wp_loop (fun _ t => Apart m s t) count start s .refl
  intro i t _ _ one
  apply wp_post (step i t)
  intro _ u two
  exact one.trans two

theorem wp_expandHashTable_apart [BEq K] {T : Traits K V} :
    wp (m.expandHashTable T) (fun _ s' => Apart m s s') (fun _ => True) s := by
  apply wp_bind_apart wp_onTables_apart
  intro table t
  apply wp_bind_apart (wp_loop_apart _ _ fun _ _ => wp_onTables_apart)
  intro _ t
  -- the map with the new table has the same entries
  have inserted : ∀ (i : ℕ) (u : Store K V),
      wp (UnorderedMap.insertIntoHashTable { m with hashTable := table } i)
        (fun _ s' => Apart m u s') (fun _ => True) u := fun _ _ => wp_insertIntoHashTable_apart
  apply wp_bind_apart (wp_loop_apart _ _ inserted)
  intro _ t
  exact .refl

end Frame

section Held

variable {s s' : Store K V} {m m' : UnorderedMap} {es es' : List (Entry K V)} {key : KeyRef K V}
  {k : K} {x : Entry K V} {bad : Fault → Prop}

theorem own_congr (same : m'.entries = m.entries) : Own m' key = Own m key := by
  cases key with
  | temp k' => rfl
  | stored a i field =>
    unfold Own
    rw [same]

theorem reads_stored {a i : ℕ} {ws : List (Entry K V)} {e : Entry K V} {field : Entry K V → K}
    (cell : s.entries.cells a = some ws) (get : ws[i]? = some e) :
    Reads s (.stored a i field) (field e) := by
  have read : wp (loadKey (.stored a i field)) (fun k' t => k' = field e ∧ t = s) never s := by
    simp only [loadKey, wp_bind, onEntries, wp_zoom]
    rw [wp_read cell get]
    exact ⟨rfl, rfl⟩
  obtain ⟨k', t, run, rfl, rfl⟩ := wp_never.mp read
  exact run

theorem KeyHeld.reads (held : KeyHeld s m es key k) (c : Contents s.entries m.entries es) :
    Reads s key k := by
  cases key with
  | temp k' =>
    cases held
    rfl
  | stored a i field =>
    obtain ⟨_, _, e, rfl, ⟨here, get⟩ | ⟨_, ws, cell, get⟩⟩ := held
    · obtain ⟨zs, cell, get', _⟩ := c.slot here get
      exact reads_stored cell get'
    · exact reads_stored cell get

/-- Relinking the entries of `m` does not change what the key refers to. -/
theorem KeyHeld.relinked (held : KeyHeld s m es key k) (apart : Apart m s s')
    (same : m'.entries = m.entries) (relinked : Relinked es es') : KeyHeld s' m' es' key k := by
  cases key with
  | temp k' => exact held
  | stored a i field =>
    obtain ⟨plain, live, e, value, place⟩ := held
    unfold KeyHeld
    rw [same]
    rcases place with ⟨here, get⟩ | ⟨foreign, ws, cell, get⟩
    · obtain ⟨e', get', body⟩ := relinked.get get
      exact ⟨plain, apart.1 ▸ live, e', (plain e' e body).trans value, .inl ⟨here, get'⟩⟩
    · exact ⟨plain, apart.1 ▸ live, e, value,
        .inr ⟨foreign, ws, (apart.2 a foreign).trans cell, get⟩⟩

theorem wp_pushHeld [BEq K] {T : Traits K V} (c : Contents s.entries m.entries es)
    (held : KeyHeld s m es key k)
    (fits : es.length < m.entries.maxNitems ∨
      (¬Own m key ∧ ((es.length + 1) * T.entrySize ≤ 2 ^ 63 ∨ bad .diverged))) :
    wp (Vec.pushBackMove (entryElement T) m.entries (.temp x)) (fun v' h' =>
      Contents h' v' (es ++ [x]) ∧ Reads ⟨h', s.tables⟩ key k) bad s.entries := by
  by_cases room : es.length < m.entries.maxNitems
  · apply wp_post (wp_pushRoom c room)
    intro v' h' ⟨pushed, data, next, others⟩
    refine ⟨pushed, ?_⟩
    have kept : KeyHeld ⟨h', s.tables⟩ ⟨v', m.hashTable⟩ (es ++ [x]) key k := by
      cases key with
      | temp k' => exact held
      | stored a i field =>
        obtain ⟨plain, live, e, value, place⟩ := held
        refine ⟨plain, next ▸ live, e, value, ?_⟩
        dsimp only
        rw [data]
        rcases place with ⟨here, get⟩ | ⟨foreign, ws, cell, get⟩
        · have inside := (List.getElem?_eq_some_iff.mp get).choose
          exact .inl ⟨here, (List.getElem?_append_left inside).trans get⟩
        · exact .inr ⟨foreign, ws, (others a foreign).trans cell, get⟩
    exact kept.reads pushed
  · obtain ⟨notOwn, fits⟩ := fits.resolve_left room
    have size := c.size
    have pushed : wp _ _ bad s.entries :=
      wp_pushItem (T := entryElement T) (x := x) c fun _ => fits
    obtain ⟨zs, holds, shown⟩ := c
    have effects : wp _ _ bad s.entries :=
      wp_pushBack (T := entryElement T) (x := x) holds fun _ => by
        rw [size]
        exact fits
    apply wp_post (wp_and pushed effects)
    intro v' h' ⟨contents, zs₁, dead, left, _⟩
    refine ⟨contents, ?_⟩
    cases key with
    | temp k' =>
      cases held
      rfl
    | stored a i field =>
      obtain ⟨_, live, e, rfl, ⟨here, _⟩ | ⟨foreign, ws, cell, get⟩⟩ := held
      · exact absurd here notOwn
      · exact reads_stored ((left.effect.other foreign live).trans cell) get

end Held

section Index

variable [BEq K] {T : Traits K V} {s : Store K V} {m m' : UnorderedMap} {es : List (Entry K V)}
  {tb : List Index} {key : KeyRef K V} {k : K} {bad : Fault → Prop}

/-- `operator[]` on an absent key, once there is room for it in the hash table, where the key is
still the same after the new entry is pushed. -/
theorem wp_append [PartialEquivBEq K] {es₀ : List (Entry K V)} (shape : Shape s m es tb)
    (keyed : Keyed T (es.map Entry.body)) (power : ∃ p, tb.length = 2 ^ p)
    (load : 2 * es.length + 2 ≤ tb.length) (floor : 32 ≤ tb.length)
    (threads : Threaded (fun i => i < es.length) es tb) (bytes : m.hashTable.maxNitems * 8 < 2 ^ 64)
    (relinked : Relinked es₀ es) (absent : ∀ e ∈ es₀, ¬e.first == k)
    (reads : Reads s key k)
    (pushes : wp (Vec.pushBackMove (entryElement T) m.entries (.temp (entryOf T k T.value.dflt)))
      (fun v' h' => Contents h' v' (es ++ [entryOf T k T.value.dflt]) ∧
        Reads ⟨h', s.tables⟩ key k) bad s.entries) :
    wp (m.append T key) (fun r s' => ∃ es' tb', Good T s' r.1 es' tb' ∧
      r.2 = es₀.length ∧ Relinked (es₀ ++ [entryOf T k T.value.dflt]) es') bad s := by
  have room : tb ≠ [] := by
    rintro rfl
    simp at load
  simp only [UnorderedMap.append, wp_bind, onEntries, wp_zoom]
  rw [wp_loadKey reads]
  apply wp_post pushes
  rintro entries h ⟨contents, again⟩
  rw [wp_loadKey again]
  have shape₁ : Shape ⟨h, s.tables⟩ { m with entries := entries }
      (es ++ [entryOf T k T.value.dflt]) tb := ⟨contents, shape.table⟩
  have last : UnorderedMap.endIt { m with entries := entries } - 1 = es.length := by
    rw [shape₁.size]
    simp
  have get : (es ++ [entryOf T k T.value.dflt])[es.length]? = some (entryOf T k T.value.dflt) := by
    simp
  rw [last]
  apply wp_post (wp_updateEntry shape₁ get)
  intro _ s₂ shape₂
  have same : (es ++ [entryOf T k T.value.dflt]).set es.length
      { entryOf T k T.value.dflt with hash := T.hasher k } =
      es ++ [entryOf T k T.value.dflt] := by
    rw [List.set_append_right _ _ (Nat.le_refl _), Nat.sub_self]
    rfl
  rw [same] at shape₂
  have threads₂ : Threaded (fun i => i < es.length) (es ++ [entryOf T k T.value.dflt]) tb := by
    refine threads.congr (fun _ => Iff.rfl) ?_ (fun _ => rfl) ?_
    · intro j hj
      unfold nextOf
      rw [List.getElem?_append_left hj]
    · intro j hj
      unfold bucketOf
      rw [List.getElem?_append_left hj]
  apply wp_post (wp_insertIntoHashTable shape₂ threads₂ get (Nat.lt_irrefl _) room)
  rintro _ s₃ ⟨es₃, tb₃, shape₃, relinked₃, length₃, threads₃⟩
  have grown : Relinked (es₀ ++ [entryOf T k T.value.dflt]) (es ++ [entryOf T k T.value.dflt]) := by
    unfold Relinked at relinked ⊢
    rw [List.map_append, List.map_append, relinked]
  have count : es₃.length = es.length + 1 := by
    rw [relinked₃.length]
    simp
  refine ⟨es₃, tb₃, ⟨shape₃, ?_, bytes⟩, relinked.length, grown.trans relinked₃⟩
  refine .of_keyed ?_ (length₃ ▸ power) (length₃ ▸ floor) (by omega) ?_
  · rw [grown.trans relinked₃, List.map_append]
    rw [relinked] at keyed
    refine ⟨?_, ?_⟩
    · intro b mem
      rcases List.mem_append.mp mem with old | new
      · exact keyed.1 b old
      · obtain rfl := List.mem_singleton.mp (by simpa using new)
        rfl
    · refine List.pairwise_append.mpr ⟨keyed.2, List.pairwise_singleton .., ?_⟩
      intro b old c new
      obtain ⟨e, mem, rfl⟩ := List.mem_map.mp old
      obtain rfl := List.mem_singleton.mp (by simpa using new)
      exact absent e mem
  · refine threads₃.congr ?_ (fun _ _ => rfl) (fun _ => rfl) (fun _ _ => rfl)
    intro j
    omega

def Indexed (T : Traits K V) (es : List (Entry K V)) (k : K) (entry : ℕ)
    (es' : List (Entry K V)) : Prop :=
  (∃ e, es[entry]? = some e ∧ e.first == k ∧ es' = es) ∨
    ((∀ e ∈ es, ¬e.first == k) ∧ entry = es.length ∧
      Relinked (es ++ [entryOf T k T.value.dflt]) es')

theorem wp_indexHeld [PartialEquivBEq K] (good : Good T s m es tb) (held : KeyHeld s m es key k)
    (fits : (∀ e ∈ es, ¬e.first == k) → es.length < m.entries.maxNitems ∨
      (¬Own m key ∧ ((es.length + 1) * T.entrySize ≤ 2 ^ 63 ∨ bad .diverged)))
    (fitsTable : (∀ e ∈ es, ¬e.first == k) → tb.length ≤ 2 * es.length →
      m.hashTable.maxNitems < 2 * tb.length → 2 * tb.length * 8 ≤ 2 ^ 63 ∨ bad .diverged) :
    wp (m.index T key) (fun r s' => ∃ es' tb', Good T s' r.1 es' tb' ∧
      Indexed T es k r.2 es') bad s := by
  obtain ⟨shape, form, bytes⟩ := good
  have capacity := shape.table.le_capacity
  have load := form.load
  have floor := form.floor
  obtain ⟨p, power⟩ := form.power
  simp only [UnorderedMap.index, wp_bind]
  have reads := held.reads shape.entries
  refine wp_post (wp_find shape form reads) ?_
  rintro r s₁ ⟨rfl, ⟨e, get, equal⟩ | ⟨rfl, absent⟩⟩
  · have here := (List.getElem?_eq_some_iff.mp get).choose
    rw [if_pos (shape.ne_end here), wp_pure]
    exact ⟨es, tb, ⟨shape, form, bytes⟩, .inl ⟨e, get, equal, rfl⟩⟩
  · have twice : m.entries.nitems * 2 % 2 ^ 64 = 2 * es.length := by
      rw [shape.entries.size, Nat.mul_comm]
      exact Nat.mod_eq_of_lt (by omega)
    rw [if_neg (by rw [shape.size]; simp), twice, shape.table.size]
    refine wp_ite ?_ ?_
    · intro full
      rw [wp_bind]
      have expanded := wp_expandHashTable ⟨shape, form, bytes⟩ (fitsTable absent full)
      apply wp_post (wp_and expanded wp_expandHashTable_apart)
      intro m₁ s₁ ⟨⟨same, bytes₁, es₁, tb₁, shape₁, relinked, length₁, threads₁⟩, apart⟩
      have count := relinked.length
      have held₁ := held.relinked apart same relinked
      have pushes : wp _ _ bad s₁.entries :=
        wp_pushHeld (T := T) (x := entryOf T k T.value.dflt) shape₁.entries held₁ (by
          rw [same, count, own_congr same]
          exact fits absent)
      refine wp_post (wp_append shape₁ (by rw [relinked]; exact form.keyed) ⟨p + 1, ?_⟩ ?_ ?_ ?_
        bytes₁ relinked absent (held₁.reads shape₁.entries) pushes) ?_
      · rw [length₁, power, pow_succ, Nat.mul_comm]
      · omega
      · omega
      · rw [count]
        exact threads₁
      · rintro r' s₂ ⟨es₂, tb₂, good₂, result, relinked₂⟩
        exact ⟨es₂, tb₂, good₂, .inr ⟨absent, result, relinked₂⟩⟩
    · intro notFull
      -- a power of two from 32 on is even, so one more entry still fits
      have even : ∃ q, tb.length = 2 * q := by
        cases p with
        | zero => simp at power; omega
        | succ p => exact ⟨2 ^ p, by rw [power, pow_succ, Nat.mul_comm]⟩
      refine wp_post (wp_append shape form.keyed ⟨p, power⟩ (by omega) floor form.threads bytes
        .refl absent reads (wp_pushHeld shape.entries held (fits absent))) ?_
      rintro r' s₂ ⟨es₂, tb₂, good₂, result, relinked₂⟩
      exact ⟨es₂, tb₂, good₂, .inr ⟨absent, result, relinked₂⟩⟩

theorem wp_index [PartialEquivBEq K] (good : Good T s m es tb)
    (fits : (es.length + 1) * T.entrySize ≤ 2 ^ 63 ∨ bad .diverged)
    (fitsTable : (es.length + 1) * 32 ≤ 2 ^ 63 ∨ bad .diverged) :
    wp (m.index T (.temp k)) (fun r s' => ∃ es' tb', Good T s' r.1 es' tb' ∧
      Indexed T es k r.2 es') bad s := by
  have held : KeyHeld s m es (.temp k) k := rfl
  have outside : ¬Own m (.temp k : KeyRef K V) := fun own => own
  apply wp_indexHeld good held
  · intro _
    exact .inr ⟨outside, fits⟩
  · intro _ full _
    exact fitsTable.imp_left fun small => by omega

end Index

end Nanolibc.UnorderedMapModel
