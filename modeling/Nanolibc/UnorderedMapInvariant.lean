import Mathlib.Data.List.Perm.Basic
import Mathlib.Tactic.NormNum
import Nanolibc.UnorderedMapMethods

set_option autoImplicit false

namespace Nanolibc.UnorderedMapModel
open Lib.Program Lib.ArrayHeap Lib.IndexChain VectorModel

variable {K V : Type} [BEq K] {T : Traits K V}

structure WellFormed (T : Traits K V) (es : List (Entry K V)) (tb : List Index) : Prop where
  power : ∃ p, tb.length = 2 ^ p
  floor : 32 ≤ tb.length
  load : 2 * es.length ≤ tb.length
  hashes : ∀ e ∈ es, e.hash = T.hasher e.first
  distinct : es.Pairwise fun d e => ¬d.first == e.first
  threads : Threaded (fun i => i < es.length) es tb

/-- A map between two calls; its hash table takes less than 2^64 bytes. -/
structure Good (T : Traits K V) (s : Store K V) (m : UnorderedMap) (es : List (Entry K V))
    (tb : List Index) : Prop where
  shape : Shape s m es tb
  form : WellFormed T es tb
  bytes : m.hashTable.maxNitems * 8 < 2 ^ 64

def Keyed (T : Traits K V) (bodies : List (K × V × ℕ)) : Prop :=
  (∀ b ∈ bodies, b.2.2 = T.hasher b.1) ∧ bodies.Pairwise fun a b => ¬a.1 == b.1

def Finds (es : List (Entry K V)) (k : K) (r : ℕ) : Prop :=
  (∃ e, es[r]? = some e ∧ e.first == k) ∨ (r = es.length ∧ ∀ e ∈ es, ¬e.first == k)

section Pure

variable {es es' : List (Entry K V)} {tb tb' : List Index}

theorem WellFormed.room (form : WellFormed T es tb) : tb ≠ [] := by
  rintro rfl
  have := form.floor
  simp at this

theorem keyed_iff : Keyed T (es.map Entry.body) ↔
    (∀ e ∈ es, e.hash = T.hasher e.first) ∧ es.Pairwise fun d e => ¬d.first == e.first := by
  unfold Keyed
  rw [List.forall_mem_map, List.pairwise_map]
  exact Iff.rfl

theorem WellFormed.keyed (form : WellFormed T es tb) : Keyed T (es.map Entry.body) :=
  keyed_iff.mpr ⟨form.hashes, form.distinct⟩

theorem Keyed.sublist {as bs : List (K × V × ℕ)} (keyed : Keyed T bs) (sub : as.Sublist bs) :
    Keyed T as :=
  ⟨fun a ha => keyed.1 a (sub.subset ha), keyed.2.sublist sub⟩

theorem Keyed.perm [PartialEquivBEq K] {as bs : List (K × V × ℕ)} (keyed : Keyed T bs)
    (perm : as.Perm bs) : Keyed T as := by
  refine ⟨fun a ha => keyed.1 a (perm.mem_iff.mp ha), ?_⟩
  refine (perm.pairwise_iff ?_).mpr keyed.2
  intro x y apart same
  exact apart (BEq.symm same)

theorem WellFormed.of_keyed (keyed : Keyed T (es.map Entry.body)) (power : ∃ p, tb.length = 2 ^ p)
    (floor : 32 ≤ tb.length) (load : 2 * es.length ≤ tb.length)
    (threads : Threaded (fun i => i < es.length) es tb) : WellFormed T es tb :=
  ⟨power, floor, load, (keyed_iff.mp keyed).1, (keyed_iff.mp keyed).2, threads⟩

end Pure

section Find

variable {s : Store K V} {m : UnorderedMap} {es : List (Entry K V)} {tb : List Index}
  {key : KeyRef K V} {k : K} {bad : Fault → Prop}

theorem wp_findLoop (shape : Shape s m es tb) (reads : Reads s key k) :
    ∀ {ys : List ℕ} {start : Index} {rounds : ℕ}, Chain (nextOf es) start ys →
      (∀ j ∈ ys, j < es.length) → ys.length < rounds →
      wp (m.findLoop key rounds (m.entryFromIndex start)) (fun r s' => s' = s ∧
        ((∃ e, es[r]? = some e ∧ e.first == k) ∨
          (r = es.length ∧ ∀ j ∈ ys, ∀ e, es[j]? = some e → ¬e.first == k))) bad s := by
  intro ys
  induction ys with
  | nil =>
    intro start rounds chain _ fuel
    obtain ⟨rounds, rfl⟩ : ∃ r, rounds = r + 1 := ⟨rounds - 1, by omega⟩
    cases chain
    simp only [UnorderedMap.findLoop, UnorderedMap.entryFromIndex, if_true, wp_pure]
    exact ⟨trivial, .inr ⟨shape.size, fun j hj => by cases hj⟩⟩
  | cons j ys ih =>
    intro start rounds chain bound fuel
    simp only [List.length_cons] at fuel
    obtain ⟨rounds, rfl⟩ : ∃ r, rounds = r + 1 := ⟨rounds - 1, by omega⟩
    obtain ⟨rfl, chain⟩ := chain
    have here : j < es.length := bound j (List.mem_cons_self ..)
    have get : es[j]? = some es[j] := List.getElem?_eq_getElem here
    have next : nextOf es j = es[j].next := nextOf_get get
    have notEnd : j ≠ m.endIt := shape.ne_end here
    simp only [UnorderedMap.findLoop, UnorderedMap.entryFromIndex, notEnd, if_false, wp_bind]
    rw [wp_entryAt shape get, wp_loadKey reads]
    by_cases found : es[j].first == k
    · rw [if_pos found, wp_pure]
      exact ⟨rfl, .inl ⟨_, get, found⟩⟩
    · rw [if_neg found, ← next]
      apply wp_post (ih chain (fun i hi => bound i (List.mem_cons_of_mem _ hi)) (by omega))
      rintro r s' ⟨same, result⟩
      refine ⟨same, result.imp_right ?_⟩
      rintro ⟨outside, rest⟩
      refine ⟨outside, ?_⟩
      intro i hi e at_i
      rcases List.mem_cons.mp hi with rfl | hi
      · rw [get] at at_i
        cases at_i
        exact found
      · exact rest i hi e at_i

theorem wp_find (shape : Shape s m es tb) (form : WellFormed T es tb) (reads : Reads s key k) :
    wp (m.find T key) (fun r s' => s' = s ∧ Finds es k r) bad s := by
  have inside := bucket_lt form.room (T.hasher k)
  simp only [UnorderedMap.find, wp_bind]
  rw [wp_loadKey reads, shape.hashTableIndex form.room, wp_tableAt shape inside]
  obtain ⟨l, thread⟩ := form.threads (bucket tb (T.hasher k))
  have short := thread_length thread (fun _ h => h)
  have capacity := shape.entries.le_capacity
  refine wp_post (wp_findLoop shape reads thread.chain (fun j hj => ((thread.mem j).mp hj).1) ?_) ?_
  · unfold UnorderedMap.rounds
    omega
  · rintro r s' ⟨same, result⟩
    refine ⟨same, result.imp_right ?_⟩
    rintro ⟨outside, missing⟩
    refine ⟨outside, ?_⟩
    -- an entry with this key would be in the list that was searched
    intro e mem equal
    obtain ⟨j, hj, rfl⟩ := List.getElem_of_mem mem
    have get : es[j]? = some es[j] := List.getElem?_eq_getElem hj
    have hash : bucketOf es tb j = bucket tb (T.hasher k) := by
      unfold bucketOf
      rw [get]
      simp only
      rw [form.hashes _ mem, T.hasher_eq _ _ equal]
    exact missing j ((thread.mem j).mpr ⟨hj, hash⟩) _ get equal

end Find

section Public

variable {s : Store K V} {m : UnorderedMap} {es : List (Entry K V)} {tb : List Index} {k : K}
  {bad : Fault → Prop}

theorem wp_construct :
    wp (UnorderedMap.construct T) (fun m s' => ∃ tb, Good T s' m [] tb) bad s := by
  simp only [UnorderedMap.construct, wp_bind, onTables, wp_zoom]
  have resized : wp (Vec.resize (indexElement T) Vec.null 32) _ bad s.tables :=
    wp_resizeItems (contents_null s.tables) fun _ => .inl (by norm_num [indexElement])
  have bytes : wp (Vec.resize (indexElement T) Vec.null 32) _ _ s.tables :=
    wp_resize_bytes (by norm_num [indexElement, Vec.null])
  apply wp_post (wp_and resized bytes)
  rintro table h ⟨contents, bytes⟩
  have shape : Shape ⟨s.entries, h⟩ ⟨Vec.null, table⟩ []
      (List.replicate 32 (indexElement T).dflt) :=
    ⟨contents_null s.entries, by simpa using contents⟩
  apply wp_post (wp_clearTable shape)
  intro _ s' cleared
  simp only [List.length_replicate] at cleared
  refine ⟨_, cleared, ?_, bytes⟩
  exact .of_keyed ⟨by simp, by simp⟩ ⟨5, rfl⟩ (by simp) (by simp)
    (threaded_none 32 (fun i => by simp))

theorem wp_expandHashTable (good : Good T s m es tb)
    (fits : m.hashTable.maxNitems < 2 * tb.length →
      2 * tb.length * 8 ≤ 2 ^ 63 ∨ bad .diverged) :
    wp (m.expandHashTable T) (fun m' s' => m'.entries = m.entries ∧
      m'.hashTable.maxNitems * 8 < 2 ^ 64 ∧ ∃ es' tb', Shape s' m' es' tb' ∧ Relinked es es' ∧
        tb'.length = 2 * tb.length ∧ Threaded (fun i => i < es.length) es' tb') bad s := by
  obtain ⟨shape, form, bytes⟩ := good
  have capacity := shape.table.le_capacity
  have floor := form.floor
  have twice : m.hashTable.nitems * 2 % 2 ^ 64 = 2 * tb.length := by
    rw [shape.table.size, Nat.mul_comm]
    exact Nat.mod_eq_of_lt (by omega)
  simp only [UnorderedMap.expandHashTable, wp_bind, onTables, wp_zoom]
  rw [twice]
  have resized := wp_resizeItems (T := indexElement T) shape.table fits
  have bytes' := wp_resize_bytes (T := indexElement T) (h := s.tables) (n := 2 * tb.length) bytes
  apply wp_post (wp_and resized bytes')
  rintro table h ⟨contents, bytes''⟩
  have shape₁ : Shape ⟨s.entries, h⟩ { m with hashTable := table } es _ :=
    ⟨shape.entries, contents⟩
  apply wp_post (wp_clearTable shape₁)
  intro _ s₂ shape₂
  have length : (tb.take (2 * tb.length) ++
      List.replicate (2 * tb.length - tb.length) (indexElement T).dflt).length =
      2 * tb.length := by
    simp only [List.length_append, List.length_take, List.length_replicate]
    omega
  rw [length] at shape₂
  have room : List.replicate (2 * tb.length) (none : Index) ≠ [] := by
    rw [← List.length_pos_iff, List.length_replicate]
    omega
  apply wp_post (wp_relinkAll shape₂ (threaded_none _ (fun i => by simp)) room)
  rintro _ s₃ ⟨es₃, tb₃, shape₃, relinked, length₃, threads⟩
  rw [List.length_replicate] at length₃
  exact ⟨rfl, bytes'', es₃, tb₃, shape₃, relinked, length₃, threads⟩

/-- Filling a hole with the last element and dropping that one is erasing up to order. -/
theorem relocated_perm {α : Type} {l : List α} {i : ℕ} {x z : α} (below : i + 1 < l.length)
    (last : l[l.length - 1]? = some z) :
    (((l.set (l.length - 1) x).set i z).dropLast).Perm (l.eraseIdx i) := by
  obtain ⟨xs, y, rfl⟩ : ∃ xs y, l = xs ++ [y] := by
    refine ⟨l.dropLast, l.getLast (by rintro rfl; simp at below), ?_⟩
    exact (List.dropLast_append_getLast _).symm
  simp only [List.length_append, List.length_singleton] at below last ⊢
  rw [List.getElem?_append_right (by omega)] at last
  simp only [Nat.add_sub_cancel, Nat.sub_self, List.getElem?_cons_zero, Option.some.injEq] at last
  subst last
  rw [List.set_append_right _ _ (by omega), List.set_append_left _ _ (by omega),
    List.dropLast_append_of_ne_nil (by simp), List.eraseIdx_append_of_lt_length (by omega)]
  simp only [Nat.add_sub_cancel, Nat.sub_self, List.set_cons_zero, List.dropLast_singleton,
    List.append_nil]
  exact (List.set_perm_cons_eraseIdx (by omega) y).trans
    (List.perm_append_singleton _ _).symm

/-- Entry `i` is off the lists; the last entry takes its place. -/
theorem wp_relocate {i : ℕ} (shape : Shape s m es tb) (room : tb ≠ [])
    (threads : Threaded (fun j => j < es.length ∧ j ≠ i) es tb) (below : i + 1 < es.length) :
    wp (m.relocate T (es.length - 1) i) (fun _ s' => ∃ es' tb', Shape s' m es' tb' ∧
      es'.length = es.length ∧ tb'.length = tb.length ∧
      (es'.dropLast.map Entry.body).Perm ((es.map Entry.body).eraseIdx i) ∧
      Threaded (fun j => j < es.length - 1) es' tb') bad s := by
  simp only [UnorderedMap.relocate, wp_bind]
  refine wp_post (wp_removeFromHashTable shape threads (fun j hj => hj.1)
    (⟨by omega, by omega⟩ : es.length - 1 < es.length ∧ es.length - 1 ≠ i) room) ?_
  rintro _ s₁ ⟨es₁, tb₁, shape₁, relinked₁, length₁, threads₁⟩
  have count₁ := relinked₁.length
  have inside : es.length - 1 < es₁.length := by omega
  obtain ⟨z, get⟩ : ∃ z, es₁[es.length - 1]? = some z := ⟨_, List.getElem?_eq_getElem inside⟩
  have room₁ : tb₁ ≠ [] := by
    rw [← List.length_pos_iff, length₁]
    exact List.length_pos_iff.mpr room
  simp only [onEntries, wp_zoom, moveOut, wp_bind]
  rw [wp_readItem shape₁.entries get]
  apply wp_post (wp_writeItem shape₁.entries inside)
  intro _ h contents
  simp only [wp_pure]
  apply wp_post (wp_writeItem contents (i := i) (by simp; omega))
  intro _ h' contents'
  have shape₂ : Shape ⟨h', s₁.tables⟩ m _ tb₁ := ⟨contents', shape₁.table⟩
  have threads₂ : Threaded (fun j => (j < es.length ∧ j ≠ i) ∧ j ≠ es.length - 1)
      ((es₁.set (es.length - 1) ((entryElement T).husk z)).set i z) tb₁ := by
    refine threads₁.congr (fun _ => Iff.rfl) ?_ (fun _ => rfl) ?_
    · rintro j ⟨⟨_, ni⟩, nl⟩
      unfold nextOf
      rw [List.getElem?_set_ne (Ne.symm ni), List.getElem?_set_ne (Ne.symm nl)]
    · rintro j ⟨⟨_, ni⟩, nl⟩
      unfold bucketOf
      rw [List.getElem?_set_ne (Ne.symm ni), List.getElem?_set_ne (Ne.symm nl)]
  refine wp_post (wp_insertIntoHashTable shape₂ threads₂
    (List.getElem?_set_self (by simp; omega)) (fun h => h.1.2 rfl) room₁) ?_
  rintro _ s₃ ⟨es₃, tb₃, shape₃, relinked₃, length₃, threads₃⟩
  have count₃ : es₃.length = es.length := by
    rw [relinked₃.length]
    simpa using count₁
  refine ⟨es₃, tb₃, shape₃, count₃, length₃.trans length₁, ?_, ?_⟩
  · rw [List.map_dropLast, relinked₃, List.map_set, List.map_set, ← relinked₁]
    have size : es.length - 1 = (es₁.map Entry.body).length - 1 := by
      rw [List.length_map, count₁]
    rw [size]
    refine relocated_perm (by rw [List.length_map]; omega) ?_
    rw [← size, List.getElem?_map, get]
    rfl
  · refine threads₃.congr ?_ (fun _ _ => rfl) (fun _ => rfl) (fun _ _ => rfl)
    intro j
    omega

def Erased (es : List (Entry K V)) (k : K) (es' : List (Entry K V)) : Prop :=
  ((∀ e ∈ es, ¬e.first == k) ∧ es' = es) ∨
    ∃ i e, es[i]? = some e ∧ e.first == k ∧
      (es'.map Entry.body).Perm ((es.map Entry.body).eraseIdx i)

theorem wp_erase [PartialEquivBEq K] (good : Good T s m es tb) :
    wp (m.erase T (.temp k)) (fun m' s' => ∃ es' tb', Good T s' m' es' tb' ∧ Erased es k es')
      bad s := by
  obtain ⟨shape, form, bytes⟩ := good
  have size := shape.entries.size
  have load := form.load
  unfold UnorderedMap.erase
  refine wp_ite ?_ ?_
  · intro none
    have empty : es = [] := List.eq_nil_of_length_eq_zero (by omega)
    subst empty
    exact ⟨[], tb, ⟨shape, form, bytes⟩, .inl ⟨by simp, rfl⟩⟩
  intro some_left
  rw [wp_bind]
  refine wp_post (wp_find shape form (k := k) rfl) ?_
  rintro i s₁ ⟨rfl, ⟨e, get, equal⟩ | ⟨rfl, absent⟩⟩
  · have here := (List.getElem?_eq_some_iff.mp get).choose
    rw [if_neg (shape.ne_end here), wp_bind]
    apply wp_post (wp_removeFromHashTable shape form.threads (fun _ h => h) here form.room)
    rintro _ s₁ ⟨es₁, tb₁, shape₁, relinked₁, length₁, threads₁⟩
    have count₁ := relinked₁.length
    have room₁ : tb₁ ≠ [] := by
      rw [← List.length_pos_iff, length₁]
      exact List.length_pos_iff.mpr form.room
    -- what both branches leave before the last entry is dropped
    suffices step : wp (m.fillHole T i) (fun _ s' => ∃ es' tb', Shape s' m es' tb' ∧
        es'.length = es.length ∧ tb'.length = tb.length ∧
          (es'.dropLast.map Entry.body).Perm ((es.map Entry.body).eraseIdx i) ∧
          Threaded (fun j => j < es.length - 1) es' tb') bad s₁ by
      rw [wp_bind]
      refine wp_post step ?_
      rintro _ s₂ ⟨es₂, tb₂, shape₂, count₂, length₂, perm, threads₂⟩
      simp only [wp_bind, onEntries, wp_zoom]
      refine wp_post (wp_popItem (T := entryElement T) shape₂.entries ?_) ?_
      · rintro rfl
        simp only [List.length_nil] at count₂
        omega
      · intro entries h contents
        refine ⟨es₂.dropLast, tb₂, ⟨⟨contents, shape₂.table⟩, ?_, bytes⟩,
          .inr ⟨i, e, get, equal, perm⟩⟩
        refine .of_keyed ((form.keyed.sublist (List.eraseIdx_sublist ..)).perm perm)
          (length₂ ▸ form.power) (length₂ ▸ form.floor) ?_
          (threads_dropLast threads₂ (by omega))
        rw [List.length_dropLast]
        omega
    rw [UnorderedMap.fillHole, shape.size]
    refine wp_ite ?_ ?_
    · intro notLast
      have others : Threaded (fun j => j < es₁.length ∧ j ≠ i) es₁ tb₁ := by
        simpa only [count₁] using threads₁
      have moved : wp (m.relocate T (es₁.length - 1) i) _ bad s₁ :=
        wp_relocate shape₁ room₁ others (by omega)
      rw [count₁] at moved
      refine wp_post moved ?_
      rintro _ s₂ ⟨es₂, tb₂, shape₂, count₂, length₂, perm, threads₂⟩
      refine ⟨es₂, tb₂, shape₂, count₂, length₂.trans length₁, ?_, threads₂⟩
      rw [← relinked₁]
      exact perm
    · intro last
      simp only [ne_eq, Decidable.not_not] at last
      refine ⟨es₁, tb₁, shape₁, count₁, length₁, ?_, ?_⟩
      · rw [List.map_dropLast, relinked₁, last, ← List.length_map (f := Entry.body),
          List.eraseIdx_length_sub_one]
      · refine threads₁.congr ?_ (fun _ _ => rfl) (fun _ => rfl) (fun _ _ => rfl)
        intro j
        omega
  · rw [if_pos shape.size.symm, wp_pure]
    exact ⟨es, tb, ⟨shape, form, bytes⟩, .inl ⟨absent, rfl⟩⟩

end Public

end Nanolibc.UnorderedMapModel
