import Nanolibc.UnorderedMapRuns

set_option autoImplicit false

namespace Nanolibc.UnorderedMapModel
open Lib.Program Lib.ArrayHeap VectorModel

def UnorderedMap.moveAssign (this other : UnorderedMap) : UnorderedMap × UnorderedMap :=
  let entries := Vec.moveAssign this.entries other.entries
  let hashTable := Vec.moveAssign this.hashTable other.hashTable
  (⟨entries.1, hashTable.1⟩, ⟨entries.2, hashTable.2⟩)

variable {K V : Type} [BEq K] (T : Traits K V)

def Op.IsErase : Op K V → Prop
  | .erase _ => True
  | _ => False

def observe : Op K V → Prog (MapState K V) Fault (Option V)
  | .index k write => do
    let s ← get
    let r ← onStore (s.map.index T (.temp k))
    let e ← onStore (r.1.entryAt r.2)
    onStore (r.1.updateEntry r.2 fun e => { e with second := write e.second })
    modify fun s => { s with map := r.1 }
    return some e.second
  | .find k => do
    let s ← get
    let entry ← onStore (s.map.find T (.temp k))
    if entry = s.map.endIt then return none
    else do
      let e ← onStore (s.map.entryAt entry)
      return some e.second
  | .erase k => do
    let s ← get
    let m ← onStore (s.map.erase T (.temp k))
    modify fun s => { s with map := m }
    return none

def observeAll : List (Op K V) → Prog (MapState K V) Fault (List (Option V))
  | [] => pure []
  | op :: ops => do
    let seen ← observe T op
    let rest ← observeAll ops
    return seen :: rest

/-- The calls run on the map of `s` and show what they show on some valid map. -/
def Usable (s : MapState K V) (ops : List (Op K V)) : Prop :=
  ∃ s₀ es tb, Good T s₀.store s₀.map es tb ∧ ∃ seen t t₀,
    observeAll T ops s = .ok (seen, t) ∧ observeAll T ops s₀ = .ok (seen, t₀)

variable {T} {s : MapState K V} {op : Op K V} {ops : List (Op K V)}

section Erase

theorem observe_erase (empty : s.map.entries.nitems = 0) (erase : op.IsErase) :
    observe T op s = .ok (none, s) := by
  cases op with
  | erase k =>
    have idle : s.map.erase T (.temp k) = pure s.map := by
      rw [UnorderedMap.erase, if_pos empty]
    have run : wp (observe T (.erase k)) (fun seen t => seen = none ∧ t = s) never s := by
      simp only [observe, onStore, wp_bind, wp_get, wp_zoom, idle, wp_pure, wp_modify]
      exact ⟨trivial, trivial⟩
    obtain ⟨seen, t, here, rfl, rfl⟩ := wp_never.mp run
    exact here
  | index k write => exact erase.elim
  | find k => exact erase.elim

theorem observeAll_erase (empty : s.map.entries.nitems = 0) :
    ∀ {ops : List (Op K V)}, (∀ op ∈ ops, op.IsErase) →
      observeAll T ops s = .ok (ops.map fun _ => none, s) := by
  intro ops
  induction ops with
  | nil =>
    intro _
    rfl
  | cons op ops ih =>
    intro erases
    rw [observeAll, run_bind (observe_erase empty (erases op (List.mem_cons_self ..))),
      run_bind (ih fun op' mem => erases op' (List.mem_cons_of_mem _ mem))]
    rfl

end Erase

section Moved

theorem wp_find_aborts {m : UnorderedMap} {store : Store K V} {k : K}
    (none : m.hashTable.nitems = 0) :
    wp (m.find T (.temp k)) (fun _ _ => False) (fun e => e = .aborted) store := by
  have outside : ¬UnorderedMap.hashTableIndex m (T.hasher k) < m.hashTable.nitems := by
    rw [none]
    exact Nat.not_lt_zero _
  simp only [UnorderedMap.find, loadKey, wp_bind, wp_pure, onTables, wp_zoom, Vec.at_, outside,
    if_false, wp_throw]

theorem observe_aborts (none : s.map.hashTable.nitems = 0) (reads : ¬op.IsErase) :
    observe T op s = .error .aborted := by
  apply run_error
  cases op with
  | index k write =>
    simp only [observe, onStore, UnorderedMap.index, wp_bind, wp_get, wp_zoom]
    apply wp_post (wp_find_aborts none)
    intro _ _ impossible
    exact impossible.elim
  | find k =>
    simp only [observe, onStore, wp_bind, wp_get, wp_zoom]
    apply wp_post (wp_find_aborts none)
    intro _ _ impossible
    exact impossible.elim
  | erase k => exact absurd trivial reads

theorem observeAll_aborts (empty : s.map.entries.nitems = 0) (none : s.map.hashTable.nitems = 0) :
    ∀ {ops : List (Op K V)}, ¬(∀ op ∈ ops, op.IsErase) →
      observeAll T ops s = .error .aborted := by
  intro ops
  induction ops with
  | nil =>
    intro reads
    exact absurd (fun op mem => by cases mem) reads
  | cons op ops ih =>
    intro reads
    by_cases erase : op.IsErase
    · have later : ¬∀ op ∈ ops, op.IsErase :=
        fun erases => reads (List.forall_mem_cons.mpr ⟨erase, erases⟩)
      rw [observeAll, run_bind (observe_erase empty erase), run_bind_error (ih later)]
    · rw [observeAll, run_bind_error (observe_aborts none erase)]

theorem usable_iff (empty : s.map.entries.nitems = 0) (none : s.map.hashTable.nitems = 0) :
    Usable T s ops ↔ ∀ op ∈ ops, op.IsErase := by
  constructor
  · intro ⟨_, _, _, _, seen, t, _, run, _⟩
    by_contra reads
    rw [observeAll_aborts empty none reads] at run
    cases run
  · intro erases
    have constructed : wp (UnorderedMap.construct T) (fun m s' => ∃ tb, Good T s' m [] tb) never
        s.store := wp_construct
    obtain ⟨m, store, _, tb, good⟩ := wp_never.mp constructed
    have same := observeAll_erase (T := T) (s := ⟨store, m⟩) good.shape.entries.size erases
    exact ⟨⟨store, m⟩, [], tb, good, _, s, ⟨store, m⟩, observeAll_erase empty erases, same⟩

end Moved

/-- After `a = move(b)`, `a` is a valid map with the entries that `b` had, and later calls on `b`
run, and as they do on a valid map, exactly when all of them are `erase`. -/
theorem moved_map_iff (T : Traits K V) (store : Store K V) (a b : UnorderedMap)
    (es : List (Entry K V)) (tb : List Index) (good : Good T store b es tb) :
    Good T store (a.moveAssign b).1 es tb ∧
      ∀ ops, Usable T ⟨store, (a.moveAssign b).2⟩ ops ↔ ∀ op ∈ ops, op.IsErase := by
  constructor
  · exact good
  · intro ops
    exact usable_iff rfl rfl

theorem moved_map_iff_nat : ∃ (s : MapState ℕ ℕ) (es : List (Entry ℕ ℕ)) (tb : List Index),
    execute natTraits [.index 3 fun _ => 5] MapState.init = .ok ((), s) ∧
    Good natTraits s.store (UnorderedMap.moveAssign ⟨Vec.null, Vec.null⟩ s.map).1 es tb ∧
    Usable natTraits ⟨s.store, (UnorderedMap.moveAssign ⟨Vec.null, Vec.null⟩ s.map).2⟩
      [.erase 3] := by
  obtain ⟨s, es, tb, run, good, _⟩ := shown_good
    [.index 3 fun _ => 5] 2 1 [(3, 5, 0), (0, 0, 0)] (by decide +kernel)
  obtain ⟨moved, usable⟩ :=
    moved_map_iff natTraits s.store ⟨Vec.null, Vec.null⟩ s.map es tb good
  exact ⟨s, es, tb, run, moved, (usable _).mpr (by simp [Op.IsErase])⟩

/-- `find` on the map that was moved from fails the assertion of `vector::at`. -/
theorem moved_map_aborts : ∃ (s : MapState ℕ ℕ) (es : List (Entry ℕ ℕ)) (tb : List Index),
    Good natTraits s.store s.map es tb ∧
    observeAll natTraits [.find 3]
      ⟨s.store, (UnorderedMap.moveAssign ⟨Vec.null, Vec.null⟩ s.map).2⟩ = .error .aborted ∧
    ¬Usable natTraits ⟨s.store, (UnorderedMap.moveAssign ⟨Vec.null, Vec.null⟩ s.map).2⟩
      [.find 3] := by
  obtain ⟨s, es, tb, run, good, _⟩ := shown_good
    [.index 3 fun _ => 5] 2 1 [(3, 5, 0), (0, 0, 0)] (by decide +kernel)
  have reads : ¬∀ op ∈ [Op.find (V := ℕ) 3], op.IsErase := by simp [Op.IsErase]
  have moved : ¬Usable natTraits ⟨s.store, ⟨Vec.null, Vec.null⟩⟩ [.find 3] := by
    rw [usable_iff rfl rfl]
    exact reads
  exact ⟨s, es, tb, good, observeAll_aborts rfl rfl reads, moved⟩

end Nanolibc.UnorderedMapModel
