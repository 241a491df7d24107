import Mathlib.Data.List.Perm.Subperm
import Nanolibc.UnorderedMapChains

set_option autoImplicit false

namespace Nanolibc.UnorderedMapModel
open Lib.Program Lib.ArrayHeap Lib.IndexChain VectorModel

variable {K V : Type}

/-- The lists hold the entries in `S'` after a method that began with `es` and `tb`. -/
def LinkSpec (m : UnorderedMap) (es : List (Entry K V)) (tb : List Index) (S' : ℕ → Prop)
    (s' : Store K V) : Prop :=
  ∃ es' tb', Shape s' m es' tb' ∧ Relinked es es' ∧ tb'.length = tb.length ∧ Threaded S' es' tb'

def Reads (s : Store K V) (key : KeyRef K V) (k : K) : Prop := loadKey key s = .ok (k, s)

section Private

variable {s : Store K V} {m : UnorderedMap} {es : List (Entry K V)} {tb : List Index}
  {S : ℕ → Prop} {i b : ℕ} {e : Entry K V} {key : KeyRef K V} {k : K} {bad : Fault → Prop}

theorem wp_loadKey {post : K → Store K V → Prop} (reads : Reads s key k) :
    wp (loadKey key) post bad s = post k s := by
  unfold wp
  rw [reads]

theorem wp_insertIntoHashTable (shape : Shape s m es tb) (threads : Threaded S es tb)
    (get : es[i]? = some e) (out : ¬S i) (room : tb ≠ []) :
    wp (m.insertIntoHashTable i) (fun _ s' => LinkSpec m es tb (fun j => S j ∨ j = i) s')
      bad s := by
  have inside := bucket_lt room e.hash
  simp only [UnorderedMap.insertIntoHashTable, wp_bind]
  rw [wp_entryAt shape get]
  rw [shape.hashTableIndex room, wp_tableAt shape inside]
  apply wp_post (wp_updateEntry shape get)
  intro _ s₁ shape₁
  apply wp_post (wp_tableSet shape₁ inside)
  intro _ s₂ shape₂
  exact ⟨_, _, shape₂, relinked_set get _, List.length_set .., threads.insert get out room⟩

/-- The walk of `RemoveFromHashTable` down the list `xs ++ ys`, with `ys` still ahead. -/
theorem wp_removeLoop (shape : Shape s m es tb) (threads : Threaded S es tb)
    (bound : ∀ j, S j → j < es.length) (inside : b < tb.length) :
    ∀ {ys xs : List ℕ} {start : Index} {rounds prevEntry : ℕ},
      Thread (nextOf es) (headOf tb) S (bucketOf es tb) b (xs ++ ys) →
      Chain (nextOf es) start ys → i ∈ ys → ys.length < rounds →
      prevEntry = xs.getLast?.getD m.endIt →
      wp (m.removeLoop i b rounds prevEntry (m.entryFromIndex start))
        (fun _ s' => LinkSpec m es tb (fun j => S j ∧ j ≠ i) s') bad s := by
  intro ys
  induction ys with
  | nil =>
    intro xs start rounds prevEntry _ _ mem
    cases mem
  | cons j ys ih =>
    intro xs start rounds prevEntry thread chain mem fuel prev
    obtain ⟨rounds, rfl⟩ : ∃ r, rounds = r + 1 := ⟨rounds - 1, by
      simp only [List.length_cons] at fuel
      omega⟩
    obtain ⟨rfl, chain⟩ := chain
    have visited : ∀ k ∈ xs ++ j :: ys, k < es.length :=
      fun k hk => bound k ((thread.mem k).mp hk).1
    have here : j < es.length := visited j (by simp)
    have get : es[j]? = some es[j] := List.getElem?_eq_getElem here
    have next : nextOf es j = es[j].next := nextOf_get get
    have notEnd : j ≠ m.endIt := shape.ne_end here
    simp only [UnorderedMap.removeLoop, UnorderedMap.entryFromIndex, notEnd, if_false]
    by_cases found : j = i
    · subst found
      have class_j : bucketOf es tb j = b := ((thread.mem j).mp (by simp)).2
      have gone : ¬(S j ∧ j ≠ j) := fun h => h.2 rfl
      simp only [if_true, wp_bind]
      rw [wp_entryAt shape get]
      cases last : xs.getLast? with
      | none =>
        have first := List.getLast?_eq_none_iff.mp last
        subst first
        rw [prev, last, Option.getD_none, if_pos rfl, wp_bind]
        apply wp_post (wp_tableSet shape inside)
        intro _ s₁ shape₁
        apply wp_post (wp_updateEntry shape₁ get)
        intro _ s₂ shape₂
        have removed := threads.remove_first get thread class_j inside
        exact ⟨_, _, shape₂, relinked_set get _, List.length_set .., removed.forget get gone none⟩
      | some p =>
        obtain ⟨ws, rfl⟩ := List.getLast?_eq_some_iff.mp last
        have before : p < es.length := visited p (by simp)
        have get_p : es[p]? = some es[p] := List.getElem?_eq_getElem before
        have prevNotEnd : p ≠ m.endIt := shape.ne_end before
        rw [prev, last, Option.getD_some, if_neg prevNotEnd, wp_bind]
        apply wp_post (wp_updateEntry shape get_p)
        intro _ s₁ shape₁
        have relinked := relinked_set get_p es[j].next
        obtain ⟨e', get', _⟩ := relinked.get get
        apply wp_post (wp_updateEntry shape₁ get')
        intro _ s₂ shape₂
        have around : Thread (nextOf es) (headOf tb) S (bucketOf es tb) b (ws ++ p :: j :: ys) := by
          simpa using thread
        have removed := threads.remove_after get get_p around class_j
        exact ⟨_, _, shape₂, relinked.trans (relinked_set get' _), rfl,
          removed.forget get' gone none⟩
    · have ahead : i ∈ ys := (List.mem_cons.mp mem).resolve_left (Ne.symm found)
      simp only [found, if_false, wp_bind]
      rw [wp_entryAt shape get, ← next]
      have passed : Thread (nextOf es) (headOf tb) S (bucketOf es tb) b (xs ++ [j] ++ ys) := by
        simpa using thread
      refine ih passed chain ahead ?_ (by simp)
      simp only [List.length_cons] at fuel
      omega

theorem thread_length {l : List ℕ} (thread : Thread (nextOf es) (headOf tb) S (bucketOf es tb) b l)
    (bound : ∀ j, S j → j < es.length) : l.length ≤ es.length := by
  have sub : l ⊆ List.range es.length :=
    fun j hj => List.mem_range.mpr (bound j ((thread.mem j).mp hj).1)
  have le := (List.subperm_of_subset thread.nodup sub).length_le
  simpa using le

theorem wp_removeFromHashTable (shape : Shape s m es tb) (threads : Threaded S es tb)
    (bound : ∀ j, S j → j < es.length) (mem : S i) (room : tb ≠ []) :
    wp (m.removeFromHashTable i) (fun _ s' => LinkSpec m es tb (fun j => S j ∧ j ≠ i) s')
      bad s := by
  have inEntries := bound i mem
  have get : es[i]? = some es[i] := List.getElem?_eq_getElem inEntries
  have inside := bucket_lt room es[i].hash
  have here : bucketOf es tb i = bucket tb es[i].hash := by
    unfold bucketOf
    rw [get]
  simp only [UnorderedMap.removeFromHashTable, wp_bind]
  rw [wp_entryAt shape get, shape.hashTableIndex room, wp_tableAt shape inside]
  obtain ⟨l, thread⟩ := threads (bucket tb es[i].hash)
  have short := thread_length thread bound
  have capacity := shape.entries.le_capacity
  have whole : Thread (nextOf es) (headOf tb) S (bucketOf es tb) (bucket tb es[i].hash)
      ([] ++ l) := thread
  refine wp_removeLoop shape threads bound inside whole thread.chain
    ((thread.mem i).mpr ⟨mem, here⟩) ?_ rfl
  unfold UnorderedMap.rounds
  omega

theorem wp_clearTable (shape : Shape s m es tb) :
    wp m.clearTable (fun _ s' => Shape s' m es (List.replicate tb.length none)) bad s := by
  let inv : ℕ → Store K V → Prop := fun i s' =>
    Shape s' m es (List.replicate i none ++ tb.drop i)
  have init : inv 0 s := by simpa only [inv, List.replicate_zero, List.drop_zero, List.nil_append]
  rw [UnorderedMap.clearTable, shape.table.size]
  refine wp_post (wp_loop inv tb.length 0 s init ?_) ?_
  · intro i s₁ _ hi shape₁
    have room : i < (List.replicate i none ++ tb.drop i).length := by
      simp only [List.length_append, List.length_replicate, List.length_drop]
      omega
    apply wp_post (wp_tableSet shape₁ room)
    intro _ s₂ shape₂
    rw [List.set_append_right _ _ (by simp), List.length_replicate, Nat.sub_self,
      List.drop_eq_getElem_cons (by omega), List.set_cons_zero] at shape₂
    simp only [inv, List.replicate_succ', List.append_assoc, List.singleton_append]
    exact shape₂
  · intro _ s₁ shape₁
    simpa only [inv, Nat.zero_add, List.drop_length, List.append_nil] using shape₁

theorem threaded_none (n : ℕ) (none : ∀ i, ¬S i) :
    Threaded S es (List.replicate n Option.none) := by
  have heads : headOf (List.replicate n Option.none) = fun _ => Option.none := by
    funext b
    unfold headOf
    rw [List.getElem?_replicate]
    split_ifs <;> rfl
  unfold Threaded
  rw [heads]
  exact threads_none none

theorem threads_dropLast {n : ℕ} (threads : Threaded (fun j => j < n) es tb)
    (count : es.length = n + 1) : Threaded (fun j => j < es.dropLast.length) es.dropLast tb := by
  refine threads.congr ?_ ?_ (fun _ => rfl) ?_
  · intro j
    rw [List.length_dropLast]
    omega
  · intro j hj
    unfold nextOf
    rw [List.getElem?_dropLast, if_pos (by omega)]
  · intro j hj
    unfold bucketOf
    rw [List.getElem?_dropLast, if_pos (by omega)]

theorem wp_relinkAll (shape : Shape s m es tb) (empty : Threaded (fun _ => False) es tb)
    (room : tb ≠ []) :
    wp (loop m.entries.nitems 0 fun i => m.insertIntoHashTable i)
      (fun _ s' => LinkSpec m es tb (fun j => j < es.length) s') bad s := by
  let inv : ℕ → Store K V → Prop := fun i s' => LinkSpec m es tb (fun j => j < i) s'
  have init : inv 0 s :=
    ⟨es, tb, shape, .refl, rfl, empty.congr (fun j => by simp) (fun _ _ => rfl) (fun _ => rfl)
      (fun _ _ => rfl)⟩
  rw [shape.entries.size]
  refine wp_post (wp_loop inv es.length 0 s init ?_) ?_
  · rintro i s₁ _ hi ⟨es₁, tb₁, shape₁, relinked₁, length₁, threads₁⟩
    have here : i < es₁.length := by
      rw [relinked₁.length]
      omega
    have room₁ : tb₁ ≠ [] := by
      rw [← List.length_pos_iff, length₁]
      exact List.length_pos_iff.mpr room
    refine wp_post (wp_insertIntoHashTable shape₁ threads₁ (List.getElem?_eq_getElem here)
      (Nat.lt_irrefl i) room₁) ?_
    rintro _ s₂ ⟨es₂, tb₂, shape₂, relinked₂, length₂, threads₂⟩
    refine ⟨es₂, tb₂, shape₂, relinked₁.trans relinked₂, length₂.trans length₁, ?_⟩
    refine threads₂.congr ?_ (fun _ _ => rfl) (fun _ => rfl) (fun _ _ => rfl)
    intro j
    omega
  · intro _ s₁ done
    simpa only [inv, Nat.zero_add] using done

theorem entryAt_ok (shape : Shape s m es tb) (get : es[i]? = some e) :
    m.entryAt i s = .ok (e, s) := by
  have run : wp (m.entryAt i) (fun e' s' => e' = e ∧ s' = s) never s := by
    rw [wp_entryAt shape get]
    exact ⟨rfl, rfl⟩
  obtain ⟨e', s', here, rfl, rfl⟩ := wp_never.mp run
  exact here

end Private

end Nanolibc.UnorderedMapModel
