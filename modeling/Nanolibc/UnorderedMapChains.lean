import Mathlib.Data.Nat.Bitwise
import Nanolibc.Lib.IndexChain
import Nanolibc.UnorderedMapModel
import Nanolibc.VectorContents

set_option autoImplicit false

namespace Nanolibc.UnorderedMapModel
open Lib.Program Lib.ArrayHeap Lib.IndexChain VectorModel

variable {K V : Type}

structure Shape (s : Store K V) (m : UnorderedMap) (es : List (Entry K V)) (tb : List Index) :
    Prop where
  entries : Contents s.entries m.entries es
  table : Contents s.tables m.hashTable tb

def nextOf (es : List (Entry K V)) (i : ℕ) : Index := (es[i]?).bind Entry.next

def headOf (tb : List Index) (b : ℕ) : Index := (tb[b]?).join

def bucket (tb : List Index) (hash : ℕ) : ℕ := hash &&& (tb.length - 1)

def bucketOf (es : List (Entry K V)) (tb : List Index) (i : ℕ) : ℕ :=
  match es[i]? with
  | none => 0
  | some e => bucket tb e.hash

/-- The lists of the hash table hold exactly the entries in `S`, each in the list of its hash. -/
def Threaded (S : ℕ → Prop) (es : List (Entry K V)) (tb : List Index) : Prop :=
  Threads (nextOf es) (headOf tb) S (bucketOf es tb)

def Entry.body (e : Entry K V) : K × V × ℕ := (e.first, e.second, e.hash)

def Relinked (es es' : List (Entry K V)) : Prop := es'.map Entry.body = es.map Entry.body

section Pure

variable {es es' es'' : List (Entry K V)} {tb tb' : List Index} {i b : ℕ} {e : Entry K V}
  {S S' : ℕ → Prop}

theorem bucket_lt (room : tb ≠ []) (hash : ℕ) : bucket tb hash < tb.length := by
  have pos := List.length_pos_iff.mpr room
  have le := Nat.and_le_right (n := hash) (m := tb.length - 1)
  unfold bucket
  omega

theorem Relinked.refl : Relinked es es := rfl

theorem Relinked.trans (one : Relinked es es') (two : Relinked es' es'') : Relinked es es'' :=
  Eq.trans two one

theorem Relinked.length (same : Relinked es es') : es'.length = es.length := by
  simpa only [List.length_map] using congrArg List.length same

theorem Relinked.get (same : Relinked es es') (get : es[i]? = some e) :
    ∃ e', es'[i]? = some e' ∧ e'.body = e.body := by
  have at_i := congrArg (fun l => l[i]?) same
  simp only [List.getElem?_map, get, Option.map_some] at at_i
  exact Option.map_eq_some_iff.mp at_i

theorem relinked_set (get : es[i]? = some e) (next : Index) :
    Relinked es (es.set i { e with next := next }) := by
  unfold Relinked
  rw [List.map_set]
  obtain ⟨inside, here⟩ := List.getElem?_eq_some_iff.mp get
  apply List.ext_getElem?
  intro j
  rw [List.getElem?_set]
  split_ifs with same room
  · subst same
    rw [List.getElem?_map, get]
    rfl
  · simp only [List.length_map] at room
    omega
  · rfl

theorem bucketOf_relinked (same : Relinked es es') (length : tb'.length = tb.length) (i : ℕ) :
    bucketOf es' tb' i = bucketOf es tb i := by
  unfold bucketOf bucket
  rw [length]
  cases get : es[i]? with
  | none =>
    have outside : es'[i]? = none := by
      rw [List.getElem?_eq_none_iff] at get ⊢
      rw [same.length]
      exact get
    rw [outside]
  | some e =>
    obtain ⟨e', get', body⟩ := same.get get
    have hash : e'.hash = e.hash := congrArg (fun p => p.2.2) body
    rw [get']
    simp only [hash]

theorem nextOf_get (get : es[i]? = some e) : nextOf es i = e.next := by
  rw [nextOf, get]
  rfl

theorem nextOf_set (get : es[i]? = some e) (next : Index) :
    nextOf (es.set i { e with next := next }) = Function.update (nextOf es) i next := by
  obtain ⟨inside, _⟩ := List.getElem?_eq_some_iff.mp get
  funext j
  unfold nextOf
  by_cases same : j = i
  · subst same
    rw [Function.update_self, List.getElem?_set_self inside]
    rfl
  · rw [Function.update_of_ne same, List.getElem?_set_ne (Ne.symm same)]

theorem headOf_set (inside : b < tb.length) (x : Index) :
    headOf (tb.set b x) = Function.update (headOf tb) b x := by
  funext j
  unfold headOf
  by_cases same : j = b
  · subst same
    rw [Function.update_self, List.getElem?_set_self inside]
    rfl
  · rw [Function.update_of_ne same, List.getElem?_set_ne (Ne.symm same)]

theorem headOf_get (inside : b < tb.length) : tb[b]? = some (headOf tb b) := by
  unfold headOf
  rw [List.getElem?_eq_getElem inside]
  rfl

theorem Threaded.forget (threads : Threaded S es tb) (get : es[i]? = some e) (out : ¬S i)
    (next : Index) : Threaded S (es.set i { e with next := next }) tb := by
  refine Threads.congr threads (fun _ => Iff.rfl) ?_ (fun _ => rfl) ?_
  · intro j hj
    rw [nextOf_set get]
    refine Function.update_of_ne ?_ _ _
    rintro rfl
    exact out hj
  · exact fun j _ => bucketOf_relinked (relinked_set get next) rfl j

theorem Threaded.insert (threads : Threaded S es tb) (get : es[i]? = some e) (out : ¬S i)
    (room : tb ≠ []) :
    Threaded (fun j => S j ∨ j = i)
      (es.set i { e with next := headOf tb (bucket tb e.hash) })
      (tb.set (bucket tb e.hash) (some i)) := by
  have here : bucketOf es tb i = bucket tb e.hash := by
    unfold bucketOf
    rw [get]
  have linked := Threads.link threads out
  rw [here] at linked
  refine Threads.congr linked (fun _ => Iff.rfl) ?_ ?_ ?_
  · exact fun j _ => congrFun (nextOf_set get _) j
  · exact fun j => congrFun (headOf_set (bucket_lt room e.hash) _) j
  · exact fun j _ => bucketOf_relinked (relinked_set get _) (List.length_set ..) j

theorem Threaded.remove_first {ys : List ℕ} (threads : Threaded S es tb) (get : es[i]? = some e)
    (thread : Thread (nextOf es) (headOf tb) S (bucketOf es tb) b (i :: ys))
    (here : bucketOf es tb i = b) (inside : b < tb.length) :
    Threaded (fun j => S j ∧ j ≠ i) es (tb.set b e.next) := by
  subst here
  have unlinked := Threads.unlink_first threads thread
  rw [nextOf_get get] at unlinked
  refine Threads.congr unlinked (fun _ => Iff.rfl) (fun _ _ => rfl) ?_ ?_
  · exact fun j => congrFun (headOf_set inside _) j
  · exact fun j _ => bucketOf_relinked .refl (List.length_set ..) j

theorem Threaded.remove_after {xs ys : List ℕ} {p : ℕ} {e' : Entry K V}
    (threads : Threaded S es tb) (get : es[i]? = some e) (before : es[p]? = some e')
    (thread : Thread (nextOf es) (headOf tb) S (bucketOf es tb) b (xs ++ p :: i :: ys))
    (here : bucketOf es tb i = b) :
    Threaded (fun j => S j ∧ j ≠ i) (es.set p { e' with next := e.next }) tb := by
  subst here
  have unlinked := Threads.unlink_after threads thread
  rw [nextOf_get get] at unlinked
  refine Threads.congr unlinked (fun _ => Iff.rfl) ?_ (fun _ => rfl) ?_
  · exact fun j _ => congrFun (nextOf_set before _) j
  · exact fun j _ => bucketOf_relinked (relinked_set before _) rfl j

end Pure

section Access

variable {s : Store K V} {m : UnorderedMap} {es : List (Entry K V)} {tb : List Index}
  {i b : ℕ} {e : Entry K V} {x : Index} {bad : Fault → Prop}

theorem Shape.size (shape : Shape s m es tb) : m.endIt = es.length := shape.entries.size

theorem Shape.ne_end (shape : Shape s m es tb) (inside : i < es.length) : i ≠ m.endIt := by
  rw [shape.size]
  exact Nat.ne_of_lt inside

theorem Shape.hashTableIndex (shape : Shape s m es tb) (room : tb ≠ []) (hash : ℕ) :
    m.hashTableIndex hash = bucket tb hash := by
  have pos := List.length_pos_iff.mpr room
  unfold UnorderedMap.hashTableIndex bucket
  rw [shape.table.size, if_neg (by omega)]

theorem wp_entryAt {post : Entry K V → Store K V → Prop} (shape : Shape s m es tb)
    (get : es[i]? = some e) : wp (m.entryAt i) post bad s = post e s := by
  simp only [UnorderedMap.entryAt, onEntries, wp_zoom]
  rw [wp_readItem shape.entries get]

theorem wp_tableAt {post : Index → Store K V → Prop} (shape : Shape s m es tb)
    (inside : b < tb.length) :
    wp (onTables (Vec.at_ m.hashTable b)) post bad s = post (headOf tb b) s := by
  simp only [onTables, wp_zoom]
  rw [wp_at shape.table (headOf_get inside)]

theorem wp_tableSet (shape : Shape s m es tb) (inside : b < tb.length) :
    wp (onTables (Vec.setAt m.hashTable b x)) (fun _ s' => Shape s' m es (tb.set b x)) bad s := by
  simp only [onTables, wp_zoom]
  exact wp_post (wp_setAt shape.table inside) (fun _ _ table => ⟨shape.entries, table⟩)

theorem wp_updateEntry {f : Entry K V → Entry K V} (shape : Shape s m es tb)
    (get : es[i]? = some e) :
    wp (m.updateEntry i f) (fun _ s' => Shape s' m (es.set i (f e)) tb) bad s := by
  obtain ⟨inside, _⟩ := List.getElem?_eq_some_iff.mp get
  simp only [UnorderedMap.updateEntry, wp_bind]
  rw [wp_entryAt shape get]
  simp only [onEntries, wp_zoom]
  exact wp_post (wp_writeItem shape.entries inside) (fun _ _ entries => ⟨entries, shape.table⟩)

end Access

end Nanolibc.UnorderedMapModel
