import Nanolibc.UnorderedMapRuns

set_option autoImplicit false

namespace Nanolibc.UnorderedMapModel
open Lib.Program Lib.ArrayHeap Lib.IndexChain VectorModel

variable {K V : Type} [BEq K] (T : Traits K V)

/-- What a caller sees of the map after `n` calls: the results of `find` and of `operator[]`, and
the entries from `begin()` to `end()`. -/
structure Behaves (n : ℕ) (s : MapState K V) (f : K → Option V) : Prop where
  find_absent : ∀ k, f k = none → s.map.find T (.temp k) s.store = .ok (s.map.endIt, s.store)
  find_present : ∀ k v, f k = some v → ∃ entry e,
    s.map.find T (.temp k) s.store = .ok (entry, s.store) ∧ entry < s.map.endIt ∧
    s.map.entryAt entry s.store = .ok (e, s.store) ∧ e.first == k ∧ e.second = v
  index_refers : ∀ k, wp (s.map.index T (.temp k)) (fun r s' => ∃ e,
    r.1.entryAt r.2 s' = .ok (e, s') ∧ e.first == k ∧
    e.second = (f k).getD T.value.dflt) (OutOfMemory T (n + 1)) s.store
  visits : ∃ es : List (Entry K V), es.length = s.map.endIt ∧
    (∀ i e, es[i]? = some e → s.map.entryAt i s.store = .ok (e, s.store)) ∧
    (∀ e ∈ es, f e.first = some e.second) ∧
    ∀ k v, f k = some v → ∃! i : ℕ, ∃ e, es[i]? = some e ∧ e.first == k

variable {T}

section

variable {s : MapState K V} {f : K → Option V} {es : List (Entry K V)} {n : ℕ}

theorem Represents.entry (rep : Represents f (es.map Entry.body)) {key : K} {v : V}
    (value : f key = some v) : ∃ e ∈ es, e.first == key ∧ e.second = v := by
  obtain ⟨b, mem, equal, second⟩ := (rep key v).mp value
  obtain ⟨e, inside, rfl⟩ := List.mem_map.mp mem
  exact ⟨e, inside, equal, second⟩

theorem Represents.value (rep : Represents f (es.map Entry.body)) {key : K} {e : Entry K V}
    (mem : e ∈ es) (equal : e.first == key) : f key = some e.second :=
  (rep key e.second).mpr ⟨e.body, List.mem_map_of_mem mem, equal, rfl⟩

theorem Represents.absent (rep : Represents f (es.map Entry.body)) {key : K}
    (missing : ∀ e ∈ es, ¬e.first == key) : f key = none := by
  cases value : f key with
  | none => rfl
  | some v =>
    obtain ⟨e, mem, equal, _⟩ := rep.entry value
    exact absurd equal (missing e mem)

theorem rel_behaves [EquivBEq K] (rel : Rel T n 0 s f) : Behaves T n s f := by
  obtain ⟨es, tb, good, rep, count⟩ := rel
  have size := good.shape.size
  refine ⟨?_, ?_, ?_, es, size.symm, fun i e get => entryAt_ok good.shape get, ?_, ?_⟩
  · intro key none
    obtain ⟨r, run, ⟨e, get, equal⟩ | ⟨rfl, _⟩⟩ := find_ok good key
    · have value := rep.value (List.mem_of_getElem? get) equal
      rw [none] at value
      cases value
    · rw [run, size]
  · intro key v value
    obtain ⟨r, run, ⟨e, get, equal⟩ | ⟨rfl, missing⟩⟩ := find_ok good key
    · have same := rep.value (List.mem_of_getElem? get) equal
      rw [value] at same
      cases same
      have inside := (List.getElem?_eq_some_iff.mp get).choose
      exact ⟨r, e, run, by omega, entryAt_ok good.shape get, equal, rfl⟩
    · rw [rep.absent missing] at value
      cases value
  · intro key
    obtain ⟨fits, fitsTable⟩ := fits_of_le (T := T) (show es.length + 1 ≤ n + 1 by omega)
    apply wp_post (wp_index good fits fitsTable)
    rintro r s₁ ⟨es₁, tb₁, good₁, ⟨e, get, equal, rfl⟩ | ⟨missing, last, relinked⟩⟩
    · refine ⟨e, entryAt_ok good₁.shape get, equal, ?_⟩
      rw [rep.value (List.mem_of_getElem? get) equal]
      rfl
    · have new : (es ++ [entryOf T key T.value.dflt])[r.2]? =
          some (entryOf T key T.value.dflt) := by
        rw [last]
        simp
      obtain ⟨e, get, body⟩ := relinked.get new
      have first : e.first = key := congrArg (fun b => b.1) body
      have second : e.second = T.value.dflt := congrArg (fun b => b.2.1) body
      refine ⟨e, entryAt_ok good₁.shape get, by rw [first]; exact BEq.rfl, ?_⟩
      rw [rep.absent missing, second]
      rfl
  · intro e mem
    exact rep.value mem BEq.rfl
  · intro key v value
    obtain ⟨e, mem, equal, _⟩ := rep.entry value
    obtain ⟨i, get⟩ := List.mem_iff_getElem?.mp mem
    refine ⟨i, ⟨e, get, equal⟩, ?_⟩
    rintro j ⟨d, at_j, equal'⟩
    refine good.form.keyed.unique (a := d.body) (b := e.body) ?_ ?_
      (BEq.trans equal' (BEq.symm equal))
    · rw [List.getElem?_map, at_j]
      rfl
    · rw [List.getElem?_map, get]
      rfl

end

/-- The map is the finite map of the calls made so far, in every state that a run reaches, and
only memory can stop a run. -/
theorem map_behaves [EquivBEq K] (ops : List (Op K V)) :
    (∀ s, execute T ops MapState.init = .ok ((), s) → Behaves T ops.length s (mapOf T ops)) ∧
      ∀ e, execute T ops MapState.init = .error e → OutOfMemory T ops.length e := by
  obtain ⟨reached, stopped⟩ := wp_iff.mp (rel_execute (T := T) ops)
  exact ⟨fun s run => rel_behaves (reached () s run), stopped⟩

theorem map_behaves_nat :
    ∃ s, execute natTraits [.index 3 id, .index 6 (· + 7), .erase 3] MapState.init = .ok ((), s) ∧
      Behaves natTraits 3 s (put (put (put (fun _ => none) 3 (some 0)) 6 (some 7)) 3 none) := by
  obtain ⟨reached, stopped⟩ :=
    map_behaves (T := natTraits) [.index 3 id, .index 6 (· + 7), .erase 3]
  cases run : execute natTraits [.index 3 id, .index 6 (· + 7), .erase 3] MapState.init with
  | ok r => exact ⟨r.2, rfl, reached r.2 run⟩
  | error e =>
    obtain ⟨_, large⟩ := stopped e run
    norm_num [natTraits] at large

end Nanolibc.UnorderedMapModel
