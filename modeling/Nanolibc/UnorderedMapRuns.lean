import Nanolibc.UnorderedMapKeys

set_option autoImplicit false

namespace Nanolibc.UnorderedMapModel
open Lib.Program Lib.ArrayHeap Lib.IndexChain VectorModel

structure MapState (K V : Type) where
  store : Store K V
  map : UnorderedMap

def MapState.init {K V : Type} : MapState K V := ⟨⟨.empty, .empty⟩, ⟨Vec.null, Vec.null⟩⟩

/-- A call; `write` is what the caller does to the `T&` that `operator[]` returns. -/
inductive Op (K V : Type) where
  | index (k : K) (write : V → V)
  | find (k : K)
  | erase (k : K)

variable {K V : Type} [BEq K] (T : Traits K V)

def onStore {β : Type} (p : MapProg K V β) : Prog (MapState K V) Fault β :=
  zoom MapState.store (fun s store => { s with store := store }) p

def step : Op K V → Prog (MapState K V) Fault Unit
  | .index k write => do
    let s ← get
    let r ← onStore (s.map.index T (.temp k))
    onStore (r.1.updateEntry r.2 fun e => { e with second := write e.second })
    modify fun s => { s with map := r.1 }
  | .find k => do
    let s ← get
    let _ ← onStore (s.map.find T (.temp k))
  | .erase k => do
    let s ← get
    let m ← onStore (s.map.erase T (.temp k))
    modify fun s => { s with map := m }

def execute (ops : List (Op K V)) : Prog (MapState K V) Fault Unit := do
  let m ← onStore (UnorderedMap.construct T)
  modify fun s => { s with map := m }
  runAll (step T) ops

def put (f : K → Option V) (k : K) (v : Option V) : K → Option V :=
  fun k' => if k == k' then v else f k'

def mapStep : Op K V → (K → Option V) → (K → Option V)
  | .index k write, f => put f k (some (write ((f k).getD T.value.dflt)))
  | .find _, f => f
  | .erase k, f => put f k none

def mapOf (ops : List (Op K V)) : K → Option V :=
  ops.foldl (fun f op => mapStep T op f) fun _ => none

def OutOfMemory (n : ℕ) (e : Fault) : Prop :=
  e = .diverged ∧ (2 ^ 62 < n * T.entrySize ∨ 2 ^ 62 < n * 32)

variable {T}

def Represents (f : K → Option V) (bodies : List (K × V × ℕ)) : Prop :=
  ∀ k v, f k = some v ↔ ∃ b ∈ bodies, b.1 == k ∧ b.2.1 = v

section Pure

variable {f : K → Option V} {as bs : List (K × V × ℕ)} {b : K × V × ℕ} {i j : ℕ} {k : K} {v : V}

theorem Keyed.unique [PartialEquivBEq K] (keyed : Keyed T bs) {a : K × V × ℕ}
    (at_i : bs[i]? = some a) (at_j : bs[j]? = some b) (same : a.1 == b.1) : i = j := by
  obtain ⟨hi, rfl⟩ := List.getElem?_eq_some_iff.mp at_i
  obtain ⟨hj, rfl⟩ := List.getElem?_eq_some_iff.mp at_j
  have apart := List.pairwise_iff_getElem.mp keyed.2
  rcases Nat.lt_trichotomy i j with lt | eq | gt
  · exact absurd same (apart i j hi hj lt)
  · exact eq
  · exact absurd (BEq.symm same) (apart j i hj hi gt)

theorem Represents.perm (rep : Represents f bs) (perm : as.Perm bs) : Represents f as := by
  intro k v
  rw [rep k v]
  simp only [perm.mem_iff]

theorem represents_append [EquivBEq K] (rep : Represents f bs) (absent : ∀ b ∈ bs, ¬b.1 == k)
    (h : ℕ) : Represents (put f k (some v)) (bs ++ [(k, v, h)]) := by
  intro k' v'
  unfold put
  by_cases same : k == k'
  · rw [if_pos same]
    constructor
    · intro here
      cases here
      exact ⟨(k, v, h), by simp, same, rfl⟩
    · rintro ⟨b, mem, equal, rfl⟩
      rcases List.mem_append.mp mem with old | new
      · exact absurd (BEq.trans equal (BEq.symm same)) (absent b old)
      · obtain rfl := List.mem_singleton.mp new
        rfl
  · rw [if_neg same, rep k' v']
    constructor
    · rintro ⟨b, mem, equal, value⟩
      exact ⟨b, List.mem_append_left _ mem, equal, value⟩
    · rintro ⟨b, mem, equal, value⟩
      rcases List.mem_append.mp mem with old | new
      · exact ⟨b, old, equal, value⟩
      · obtain rfl := List.mem_singleton.mp new
        exact absurd equal same

theorem represents_set [EquivBEq K] (rep : Represents f bs) (keyed : Keyed T bs)
    (get : bs[i]? = some b) (equal : b.1 == k) :
    Represents (put f k (some v)) (bs.set i (b.1, v, b.2.2)) := by
  have inside := (List.getElem?_eq_some_iff.mp get).choose
  intro k' v'
  unfold put
  by_cases same : k == k'
  · rw [if_pos same]
    have here : b.1 == k' := BEq.trans equal same
    constructor
    · intro value
      cases value
      exact ⟨_, List.mem_of_getElem? (List.getElem?_set_self inside), here, rfl⟩
    · rintro ⟨c, mem, equal', rfl⟩
      obtain ⟨j, at_j⟩ := List.mem_iff_getElem?.mp mem
      by_cases other : i = j
      · subst other
        rw [List.getElem?_set_self inside] at at_j
        cases at_j
        rfl
      · rw [List.getElem?_set_ne other] at at_j
        exact absurd (keyed.unique get at_j (BEq.trans here (BEq.symm equal'))) other
  · rw [if_neg same, rep k' v']
    have away : ∀ c : K × V × ℕ, c.1 = b.1 → ¬c.1 == k' := by
      intro c key equal'
      rw [key] at equal'
      exact same (BEq.trans (BEq.symm equal) equal')
    constructor
    · rintro ⟨c, mem, equal', value⟩
      obtain ⟨j, at_j⟩ := List.mem_iff_getElem?.mp mem
      by_cases other : i = j
      · subst other
        rw [get] at at_j
        cases at_j
        exact absurd equal' (away b rfl)
      · exact ⟨c, List.mem_of_getElem? ((List.getElem?_set_ne other).trans at_j), equal', value⟩
    · rintro ⟨c, mem, equal', value⟩
      obtain ⟨j, at_j⟩ := List.mem_iff_getElem?.mp mem
      by_cases other : i = j
      · subst other
        rw [List.getElem?_set_self inside] at at_j
        cases at_j
        exact absurd equal' (away (b.1, v, b.2.2) rfl)
      · rw [List.getElem?_set_ne other] at at_j
        exact ⟨c, List.mem_of_getElem? at_j, equal', value⟩

theorem represents_erase [EquivBEq K] (rep : Represents f bs) (keyed : Keyed T bs)
    (get : bs[i]? = some b) (equal : b.1 == k) :
    Represents (put f k none) (bs.eraseIdx i) := by
  intro k' v'
  unfold put
  simp only [List.mem_eraseIdx_iff_getElem?]
  by_cases same : k == k'
  · rw [if_pos same]
    have here : b.1 == k' := BEq.trans equal same
    constructor
    · intro value
      cases value
    rintro ⟨c, ⟨j, other, at_j⟩, equal', _⟩
    exact absurd (keyed.unique get at_j (BEq.trans here (BEq.symm equal'))).symm other
  · rw [if_neg same, rep k' v']
    constructor
    · rintro ⟨c, mem, equal', value⟩
      obtain ⟨j, at_j⟩ := List.mem_iff_getElem?.mp mem
      refine ⟨c, ⟨j, ?_, at_j⟩, equal', value⟩
      rintro rfl
      rw [get] at at_j
      cases at_j
      exact same (BEq.trans (BEq.symm equal) equal')
    · rintro ⟨c, ⟨j, _, at_j⟩, equal', value⟩
      exact ⟨c, List.mem_of_getElem? at_j, equal', value⟩

theorem represents_absent [EquivBEq K] (rep : Represents f bs) (absent : ∀ b ∈ bs, ¬b.1 == k) :
    put f k none = f := by
  funext k'
  unfold put
  split_ifs with same
  · cases here : f k' with
    | none => rfl
    | some v =>
      obtain ⟨b, mem, equal, _⟩ := (rep k' v).mp here
      exact absurd (BEq.trans equal (BEq.symm same)) (absent b mem)
  · rfl

theorem put_put (w : Option V) : put (put f k (some v)) k w = put f k w := by
  funext k'
  unfold put
  split_ifs <;> rfl

end Pure

section Steps

variable {s : MapState K V} {f : K → Option V} {es : List (Entry K V)} {tb : List Index} {n k : ℕ}

/-- The map at `s` represents `f`; `k` more calls bring it to at most `n` entries. -/
def Rel (T : Traits K V) (n k : ℕ) (s : MapState K V) (f : K → Option V) : Prop :=
  ∃ es tb, Good T s.store s.map es tb ∧ Represents f (es.map Entry.body) ∧ es.length + k ≤ n

theorem fits_of_le {entries : ℕ} (le : entries ≤ n) :
    (entries * T.entrySize ≤ 2 ^ 63 ∨ OutOfMemory T n .diverged) ∧
      (entries * 32 ≤ 2 ^ 63 ∨ OutOfMemory T n .diverged) := by
  have more := Nat.mul_le_mul_right T.entrySize le
  constructor
  · by_cases small : entries * T.entrySize ≤ 2 ^ 63
    · exact .inl small
    · exact .inr ⟨rfl, .inl (by omega)⟩
  · by_cases small : entries * 32 ≤ 2 ^ 63
    · exact .inl small
    · exact .inr ⟨rfl, .inr (by omega)⟩

theorem Good.write {s : Store K V} {m : UnorderedMap} {i : ℕ} {e : Entry K V}
    (good : Good T s m es tb) (get : es[i]? = some e) (write : V → V) (bad : Fault → Prop) :
    wp (m.updateEntry i fun e => { e with second := write e.second }) (fun _ s' =>
      Good T s' m (es.set i { e with second := write e.second }) tb) bad s := by
  obtain ⟨shape, form, bytes⟩ := good
  have inside := (List.getElem?_eq_some_iff.mp get).choose
  apply wp_post (wp_updateEntry shape get)
  intro _ s' shape'
  refine ⟨shape', ?_, bytes⟩
  have same : ∀ j : ℕ, ∃ v : V → V, (es.set i { e with second := write e.second })[j]? =
      (es[j]?).map fun d : Entry K V => { d with second := v d.second } := by
    intro j
    by_cases here : i = j
    · subst here
      exact ⟨write, by rw [List.getElem?_set_self inside, get]; rfl⟩
    · exact ⟨id, by rw [List.getElem?_set_ne here]; simp⟩
  refine .of_keyed (keyed_iff.mpr ⟨?_, ?_⟩) form.power form.floor ?_ ?_
  · intro e' mem
    obtain ⟨j, at_j⟩ := List.mem_iff_getElem?.mp mem
    obtain ⟨v, written⟩ := same j
    rw [at_j, eq_comm, Option.map_eq_some_iff] at written
    obtain ⟨d, at_d, rfl⟩ := written
    exact form.hashes d (List.mem_of_getElem? at_d)
  · rw [List.pairwise_iff_getElem]
    intro j l hj hl lt equal
    obtain ⟨v, written⟩ := same j
    obtain ⟨w, written'⟩ := same l
    rw [List.getElem?_eq_getElem hj, eq_comm, Option.map_eq_some_iff] at written
    rw [List.getElem?_eq_getElem hl, eq_comm, Option.map_eq_some_iff] at written'
    obtain ⟨d, at_d, eq⟩ := written
    obtain ⟨d', at_d', eq'⟩ := written'
    obtain ⟨lj, rfl⟩ := List.getElem?_eq_some_iff.mp at_d
    obtain ⟨ll, rfl⟩ := List.getElem?_eq_some_iff.mp at_d'
    rw [← eq, ← eq'] at equal
    exact List.pairwise_iff_getElem.mp form.distinct j l lj ll lt equal
  · rw [List.length_set]
    exact form.load
  · refine form.threads.congr ?_ ?_ (fun _ => rfl) ?_
    · intro j
      rw [List.length_set]
    · intro j _
      obtain ⟨v, written⟩ := same j
      unfold nextOf
      rw [written]
      cases es[j]? <;> rfl
    · intro j _
      obtain ⟨v, written⟩ := same j
      unfold bucketOf
      rw [written]
      cases es[j]? <;> rfl

theorem rel_step [EquivBEq K] (op : Op K V) (rel : Rel T n (k + 1) s f) :
    wp (step T op) (fun _ s' => Rel T n k s' (mapStep T op f)) (OutOfMemory T n) s := by
  obtain ⟨es, tb, good, rep, count⟩ := rel
  cases op with
  | index key write =>
    obtain ⟨fits, fitsTable⟩ := fits_of_le (T := T) (show es.length + 1 ≤ n by omega)
    simp only [step, onStore, wp_bind, wp_get, wp_zoom, wp_modify]
    apply wp_post (wp_index good fits fitsTable)
    rintro r s₁ ⟨es₁, tb₁, good₁, ⟨e, get, equal, same⟩ | ⟨absent, last, relinked⟩⟩
    · subst same
      apply wp_post (good₁.write get write _)
      intro _ s₂ good₂
      have body : (es₁.map Entry.body)[r.2]? = some e.body := by
        rw [List.getElem?_map, get]
        rfl
      have value : f key = some e.second :=
        (rep key e.second).mpr ⟨e.body, List.mem_of_getElem? body, equal, rfl⟩
      refine ⟨_, tb₁, good₂, ?_, by rw [List.length_set]; omega⟩
      have set := represents_set (v := write e.second) rep good.form.keyed body equal
      simp only [mapStep, value, Option.getD_some, List.map_set]
      exact set
    · have newBody : (es₁.map Entry.body)[r.2]? = some (key, T.value.dflt, T.hasher key) := by
        rw [relinked, last, List.map_append, List.getElem?_append_right (by simp)]
        simp [entryOf, Entry.body]
      obtain ⟨e, get, body⟩ := Option.map_eq_some_iff.mp (List.getElem?_map ▸ newBody)
      have second : e.second = T.value.dflt := congrArg (fun b => b.2.1) body
      apply wp_post (good₁.write get write _)
      intro _ s₂ good₂
      have absentBody : ∀ b ∈ es.map Entry.body, ¬b.1 == key := List.forall_mem_map.mpr absent
      have nothing : f key = none := by
        cases here : f key with
        | none => rfl
        | some v =>
          obtain ⟨b, mem, equal, _⟩ := (rep key v).mp here
          exact absurd equal (absentBody b mem)
      have appended := represents_append (v := T.value.dflt) rep absentBody (T.hasher key)
      have rep₁ : Represents (put f key (some T.value.dflt)) (es₁.map Entry.body) := by
        rw [relinked, List.map_append]
        exact appended
      have set := represents_set (v := write T.value.dflt) rep₁ good₁.form.keyed newBody
        BEq.rfl
      rw [put_put] at set
      refine ⟨_, tb₁, good₂, ?_, ?_⟩
      · simp only [mapStep, nothing, Option.getD_none, List.map_set]
        have same : Entry.body { e with second := write e.second } =
            (key, write T.value.dflt, T.hasher key) := by
          have := congrArg (fun b => b.1) body
          have := congrArg (fun b => b.2.2) body
          simp_all [Entry.body]
        rw [same]
        exact set
      · rw [List.length_set, relinked.length]
        simp only [List.length_append, List.length_singleton]
        omega
  | find key =>
    simp only [step, onStore, wp_bind, wp_get, wp_zoom, wp_pure]
    refine wp_post (wp_find good.shape good.form (k := key) rfl) ?_
    rintro _ s₁ ⟨rfl, _⟩
    exact ⟨es, tb, good, rep, by omega⟩
  | erase key =>
    simp only [step, onStore, wp_bind, wp_get, wp_zoom, wp_modify]
    apply wp_post (wp_erase good)
    rintro m s₁ ⟨es₁, tb₁, good₁, ⟨absent, rfl⟩ | ⟨i, e, get, equal, perm⟩⟩
    · refine ⟨es₁, tb₁, good₁, ?_, by omega⟩
      rw [mapStep, represents_absent rep (List.forall_mem_map.mpr absent)]
      exact rep
    · have body : (es.map Entry.body)[i]? = some e.body := by
        rw [List.getElem?_map, get]
        rfl
      refine ⟨es₁, tb₁, good₁, (represents_erase rep good.form.keyed body equal).perm perm, ?_⟩
      have size := perm.length_eq
      have shorter := List.length_eraseIdx_le (es.map Entry.body) i
      simp only [List.length_map] at size shorter
      omega

theorem rel_execute [EquivBEq K] (ops : List (Op K V)) :
    wp (execute T ops) (fun _ s => Rel T ops.length 0 s (mapOf T ops))
      (OutOfMemory T ops.length) MapState.init := by
  simp only [execute, onStore, wp_bind, wp_zoom, wp_modify]
  refine wp_post wp_construct ?_
  rintro m s ⟨tb, good⟩
  have start : Rel T ops.length ops.length ⟨s, m⟩ (fun _ => none) :=
    ⟨[], tb, good, fun k v => by simp, by simp⟩
  exact wp_follows (Rel T ops.length) (fun op k s f rel => rel_step op rel) ops _ _ start

theorem execute_good [EquivBEq K] {ops : List (Op K V)} {s : MapState K V}
    (run : execute T ops MapState.init = .ok ((), s)) :
    ∃ es tb, Good T s.store s.map es tb := by
  obtain ⟨es, tb, good, _⟩ := wp_ok (rel_execute ops) run
  exact ⟨es, tb, good⟩

theorem find_ok {s : Store K V} {m : UnorderedMap} (good : Good T s m es tb) (key : K) :
    ∃ r, m.find T (.temp key) s = .ok (r, s) ∧ Finds es key r := by
  have finds : wp (m.find T (.temp key)) _ never s := wp_find good.shape good.form rfl
  obtain ⟨r, s', run, rfl, found⟩ := wp_never.mp finds
  exact ⟨r, run, found⟩

/-- The invariant as the class itself relies on it: `find` ends for every key, and
`RemoveFromHashTable` takes exactly its entry off the lists, and after it any other. -/
structure Sound (T : Traits K V) (s : MapState K V) : Prop where
  find_ends : ∀ k, ∃ r, s.map.find T (.temp k) s.store = .ok (r, s.store)
  entries : ∃ es tb, Shape s.store s.map es tb ∧ WellFormed T es tb ∧
    ∀ i, i < es.length → wp (s.map.removeFromHashTable i) (fun _ s₁ =>
      LinkSpec s.map es tb (fun j => j < es.length ∧ j ≠ i) s₁ ∧
      ∀ i', i' < es.length → i' ≠ i → wp (s.map.removeFromHashTable i') (fun _ s₂ =>
        LinkSpec s.map es tb (fun j => (j < es.length ∧ j ≠ i) ∧ j ≠ i') s₂) never s₁)
      never s.store

theorem good_sound (good : Good T s.store s.map es tb) : Sound T s := by
  refine ⟨fun key => ?_, es, tb, good.shape, good.form, ?_⟩
  · obtain ⟨r, run, _⟩ := find_ok good key
    exact ⟨r, run⟩
  · intro i inside
    refine wp_post (wp_removeFromHashTable good.shape good.form.threads (fun _ h => h) inside
      good.form.room) ?_
    rintro _ s₁ ⟨es₁, tb₁, shape₁, relinked₁, length₁, threads₁⟩
    refine ⟨⟨es₁, tb₁, shape₁, relinked₁, length₁, threads₁⟩, ?_⟩
    intro i' inside' other
    have room₁ : tb₁ ≠ [] := by
      rw [← List.length_pos_iff, length₁]
      exact List.length_pos_iff.mpr good.form.room
    have bound : ∀ j, (j < es.length ∧ j ≠ i) → j < es₁.length := by
      intro j hj
      rw [relinked₁.length]
      exact hj.1
    apply wp_post (wp_removeFromHashTable shape₁ threads₁ bound ⟨inside', other⟩ room₁)
    rintro _ s₂ ⟨es₂, tb₂, shape₂, relinked₂, length₂, threads₂⟩
    exact ⟨es₂, tb₂, shape₂, relinked₁.trans relinked₂, length₂.trans length₁, threads₂⟩

/-- Every state that a run reaches is sound, and only memory can stop a run. -/
theorem runs_sound [EquivBEq K] (ops : List (Op K V)) :
    (∀ s, execute T ops MapState.init = .ok ((), s) → Sound T s) ∧
      ∀ e, execute T ops MapState.init = .error e → OutOfMemory T ops.length e := by
  obtain ⟨reached, stopped⟩ := wp_iff.mp (rel_execute (T := T) ops)
  refine ⟨?_, stopped⟩
  intro s run
  obtain ⟨es, tb, good, _⟩ := reached () s run
  exact good_sound good

end Steps

def natTraits : Traits ℕ ℕ where
  hasher := fun k => k % 3
  hasher_eq := by
    intro a b same
    rw [eq_of_beq same]
  key := intElement
  value := intElement
  entrySize := 32
  entrySize_pos := by decide
  stale := some

theorem runs_sound_nat :
    ∃ s, execute natTraits [.index 3 id, .index 6 (· + 7), .erase 3] MapState.init = .ok ((), s) ∧
      Sound natTraits s := by
  obtain ⟨reached, stopped⟩ :=
    runs_sound (T := natTraits) [.index 3 id, .index 6 (· + 7), .erase 3]
  cases run : execute natTraits [.index 3 id, .index 6 (· + 7), .erase 3] MapState.init with
  | ok r => exact ⟨r.2, rfl, reached r.2 run⟩
  | error e =>
    obtain ⟨_, large⟩ := stopped e run
    norm_num [natTraits] at large

def shown (ops : List (Op ℕ ℕ)) : Option (Vec × Option (List (ℕ × ℕ × ℕ))) :=
  match execute natTraits ops MapState.init with
  | .ok r => some (r.2.map.entries, (r.2.store.entries.cells 0).map fun es => es.map Entry.body)
  | .error _ => none

theorem shown_good (ops : List (Op ℕ ℕ)) (capacity n : ℕ) (bodies : List (ℕ × ℕ × ℕ))
    (seen : shown ops = some (⟨some 0, capacity, n⟩, some bodies)) : ∃ s es tb,
    execute natTraits ops MapState.init = .ok ((), s) ∧ Good natTraits s.store s.map es tb ∧
      s.map.entries = ⟨some 0, capacity, n⟩ ∧ es.map Entry.body = bodies.take n := by
  unfold shown at seen
  cases run : execute natTraits ops MapState.init with
  | error e =>
    rw [run] at seen
    cases seen
  | ok r =>
    rw [run] at seen
    obtain ⟨same, array⟩ := Prod.mk.inj (Option.some.inj seen)
    obtain ⟨zs, cell, rfl⟩ := Option.map_eq_some_iff.mp array
    obtain ⟨es, tb, good⟩ := execute_good run
    obtain ⟨zs', holds, rfl⟩ := good.shape.entries
    have buffer := holds.buffer
    rw [same] at buffer
    have array_eq : zs = zs' := Option.some.inj (cell.symm.trans buffer.1)
    refine ⟨r.2, _, tb, rfl, good, same, ?_⟩
    rw [same, array_eq, List.map_take]

end Nanolibc.UnorderedMapModel
