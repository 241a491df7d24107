import Nanolibc.UniquePtrModel
import Nanolibc.VectorOwnership

set_option autoImplicit false

namespace Nanolibc.UniquePtrModel
open Lib.Program Lib.ArrayHeap Lib.OwnedArray VectorModel
open Lib.ObjectPool hiding Holds Left create
open VectorSystem (Benign TargetOwnsNothing)

section Counting

variable {α : Type} {T : Element α} {q : α → Bool} {l zs zs₁ dead : List α} {n i it j : ℕ}
  {x : α}

theorem countP_split (get : l[i]? = some x) :
    l.countP q = (l.take i).countP q + [x].countP q + (l.drop (i + 1)).countP q := by
  obtain ⟨inside, rfl⟩ := List.getElem?_eq_some_iff.mp get
  have split : l = l.take i ++ ([l[i]] ++ l.drop (i + 1)) := by
    rw [List.singleton_append, ← List.drop_eq_getElem_cons inside, List.take_append_drop]
  have whole := congrArg (List.countP q) split
  rw [List.countP_append, List.countP_append] at whole
  omega

theorem countP_set (get : l[i]? = some x) (y : α) :
    (l.set i y).countP q + [x].countP q = l.countP q + [y].countP q := by
  obtain ⟨inside, _⟩ := List.getElem?_eq_some_iff.mp get
  have before := countP_split (q := q) get
  have after := countP_split (q := q) (List.getElem?_set_self (a := y) inside)
  rw [List.take_set_of_le (Nat.le_refl i), List.drop_set_of_lt (by omega : i < i + 1)] at after
  omega

theorem kept_countP (kept : Kept T n zs zs₁ dead) (inside : n ≤ zs.length)
    (blank : ∀ i, q (T.fresh i) = false) (gutted : ∀ x, q (T.husk x) = false) :
    zs₁.countP q + dead.countP q = zs.countP q := by
  rcases kept with ⟨rfl, rfl⟩ | ⟨m, larger, rfl, rfl⟩
  · rfl
  · have fresh : ∀ k, (((List.range m).map T.fresh).drop k).countP q = 0 := by
      intro k
      rw [List.countP_eq_zero]
      intro x mem
      obtain ⟨i, _, rfl⟩ := List.mem_map.mp (List.mem_of_mem_drop mem)
      simp [blank i]
    have husks : ((zs.take n).map T.husk).countP q = 0 := by
      rw [List.countP_eq_zero]
      intro x mem
      obtain ⟨y, _, rfl⟩ := List.mem_map.mp mem
      simp [gutted y]
    have length : (zs.take n).length = n := by simp [inside]
    have whole := congrArg (List.countP q) (List.take_append_drop n zs)
    rw [List.countP_append] at whole
    simp only [splice, List.take_zero, List.nil_append, List.countP_append, Nat.zero_add, fresh,
      husks, List.length_map, length]
    omega

theorem holed_countP (hole : α) (get : zs[it]? = some x) :
    (holed zs it j hole).countP q + [x].countP q = zs.countP q + [hole].countP q := by
  have split := countP_split (q := q) get
  have rest := congrArg (List.countP q) (List.take_append_drop j (zs.drop (it + 1)))
  rw [List.countP_append, List.drop_drop] at rest
  unfold holed
  rw [← List.singleton_append (l := zs.drop (it + 1 + j))]
  simp only [List.countP_append]
  omega

theorem grown_countP (kept : Kept T n zs zs₁ dead) (inside : n ≤ zs.length) (grown : zs₁ ≠ zs)
    (blank : ∀ i, q (T.fresh i) = false) : (zs₁.drop n).countP q = 0 := by
  rcases kept with ⟨same, _⟩ | ⟨m, larger, rfl, _⟩
  · exact absurd same grown
  · have length : (zs.take n).length = n := by simp [inside]
    rw [List.countP_eq_zero]
    intro x mem
    simp only [splice, List.take_zero, List.nil_append, Nat.zero_add, length] at mem
    rw [List.drop_left' length] at mem
    obtain ⟨i, _, rfl⟩ := List.mem_map.mp (List.mem_of_mem_drop mem)
    simp [blank i]

theorem splice_countP (q : α → Bool) (zs ys : List α) (n : ℕ) :
    (splice zs n ys).countP q + ((zs.drop n).take ys.length).countP q =
      zs.countP q + ys.countP q := by
  have first := congrArg (List.countP q) (List.take_append_drop n zs)
  have second := congrArg (List.countP q) (List.take_append_drop ys.length (zs.drop n))
  rw [List.countP_append] at first second
  rw [List.drop_drop] at second
  simp only [splice, List.countP_append]
  omega

end Counting

@[simp] theorem countP_null (o : ℕ) : [UniquePtr.null].countP (pointsTo o) = 0 := rfl

theorem count_ptr (p : UniquePtr) (o : ℕ) :
    p.ptr.toList.count o = [p].countP (pointsTo o) := by
  obtain ⟨ptr⟩ := p
  cases ptr with
  | none => rfl
  | some r => by_cases same : r = o <;> simp [pointsTo, same]

section Vectors

variable {s t : VectorSystem.System UniquePtr} {v i : ℕ} {vec : Vec}
  {zs lost gained : List UniquePtr}

theorem slots_eq (alive : Alive s v vec) (holds : Holds s.heap vec zs) : slots s v = zs := by
  unfold Alive at alive
  have buffer := holds.buffer
  cases here : vec.data with
  | none =>
    rw [here] at buffer
    simp only [slots, alive, here]
    exact buffer.symm
  | some a =>
    rw [here] at buffer
    simp only [slots, alive, here, Option.bind_some, buffer.1, Option.getD_some]

theorem size_eq (alive : Alive s v vec) : size s v = vec.nitems := by
  unfold Alive at alive
  simp only [size, alive]

/-- The owners and deletions before and after, but for what was overwritten and what came in. -/
def Balanced (s t : VectorSystem.System UniquePtr) (lost gained : List UniquePtr) : Prop :=
  ∀ o, t.heap.elements.countP (pointsTo o) + t.heap.destroyed.countP (pointsTo o) +
      lost.countP (pointsTo o) =
    s.heap.elements.countP (pointsTo o) + s.heap.destroyed.countP (pointsTo o) +
      gained.countP (pointsTo o)

theorem effect_balanced {p' : Option ℕ} {h' : Heap UniquePtr} {zs' dead : List UniquePtr}
    {vecs : List (Option Vec)} (holds : Holds s.heap vec zs)
    (effect : Effect s.heap vec.data h' p' zs' dead)
    (counts : ∀ o, zs'.countP (pointsTo o) + dead.countP (pointsTo o) +
      lost.countP (pointsTo o) = zs.countP (pointsTo o) + gained.countP (pointsTo o)) :
    Balanced s ⟨h', vecs⟩ lost gained := by
  intro o
  have elements := effect.countP holds.buffer (pointsTo o)
  have count := counts o
  simp only [effect.destroyed, List.countP_append]
  omega

theorem wp_update_balanced {m : Vec → Method UniquePtr Vec} (inv : Inv (vectorClass UniquePtr) s)
    (run : ∀ vec zs, Alive s v vec → Holds s.heap vec zs →
      wp (m vec) (fun vec' h' => ∃ zs' dead, Effect s.heap vec.data h' vec'.data zs' dead ∧
        ∀ o, zs'.countP (pointsTo o) + dead.countP (pointsTo o) + lost.countP (pointsTo o) =
          zs.countP (pointsTo o) + gained.countP (pointsTo o)) Benign s.heap) :
    wp (update v m) (fun _ t => Balanced s t lost gained) Benign s := by
  simp only [update, wp_bind]
  refine wp_object_or (fun _ => .inl rfl) ?_
  intro vec alive
  obtain ⟨zs, holds⟩ := inv.holds v vec alive
  simp only [wp_method]
  apply wp_post (run vec zs alive holds)
  rintro vec' h' ⟨zs', dead, effect, counts⟩
  exact effect_balanced holds effect counts

theorem diverges : Benign .diverged := .inr (.inr rfl)

theorem reserve_balanced (inv : Inv (vectorClass UniquePtr) s) (n : ℕ) :
    wp (VectorSystem.step uniquePtrElement (.reserve v n)) (fun _ t => Balanced s t [] [])
      Benign s := by
  refine wp_update_balanced inv ?_
  intro vec zs alive holds
  have used := holds.used_le
  apply wp_post (wp_reserve holds (by omega) (fun _ => .inr diverges))
  rintro vec' h' ⟨zs', dead, effect, kept, _⟩
  refine ⟨zs', dead, effect, ?_⟩
  intro o
  have moved := kept_countP (q := pointsTo o) kept (by omega) (fun _ => rfl) (fun _ => rfl)
  simpa using moved

/-- Whether `resize` overwrites an object depends on the buffer it has: a new one starts empty. -/
theorem resize_balanced (inv : Inv (vectorClass UniquePtr) s) (n : ℕ) :
    wp (update v fun vec => Vec.resize uniquePtrElement vec n)
      (fun _ t => Balanced s t
        (if n ≤ (slots s v).length then ((slots s v).drop (size s v)).take (n - size s v) else [])
        []) Benign s := by
  refine wp_update_balanced inv ?_
  intro vec zs alive holds
  have used := holds.used_le
  rw [slots_eq alive holds, size_eq alive]
  apply wp_post (wp_resizeSlots holds fun _ => .inr diverges)
  rintro vec' h' ⟨zs₁, dead, left, kept, room, _, idle⟩
  refine ⟨_, dead, left.effect, ?_⟩
  intro o
  have moved := kept_countP (q := pointsTo o) kept (by omega) (fun _ => rfl) (fun _ => rfl)
  have filled := splice_countP (pointsTo o) zs₁
    (List.replicate (n - vec.nitems) uniquePtrElement.dflt) vec.nitems
  have nulls : (List.replicate (n - vec.nitems) uniquePtrElement.dflt).countP (pointsTo o) = 0 := by
    rw [List.countP_replicate]
    rfl
  rw [List.length_replicate] at filled
  split_ifs with fits
  · rw [idle fits] at moved filled ⊢
    rw [List.countP_nil]
    omega
  · have grown : zs₁ ≠ zs := by
      rintro rfl
      omega
    have fresh := grown_countP (q := pointsTo o) kept (by omega) grown (fun _ => rfl)
    have part := (List.take_sublist (n - vec.nitems) (zs₁.drop vec.nitems)).countP_le
      (p := pointsTo o)
    rw [List.countP_nil]
    omega

theorem clear_balanced (inv : Inv (vectorClass UniquePtr) s) :
    wp (VectorSystem.step uniquePtrElement (.clear v)) (fun _ t => Balanced s t [] [])
      Benign s := by
  have cleared : wp (VectorSystem.step uniquePtrElement (.clear v)) _ Benign s :=
    resize_balanced inv 0
  refine wp_post cleared ?_
  intro _ t balanced
  simpa using balanced

theorem push_balanced (inv : Inv (vectorClass UniquePtr) s) (p : UniquePtr) :
    wp (VectorSystem.step uniquePtrElement (.pushBackMove v p))
      (fun _ t => Balanced s t ((slots s v)[size s v]?).toList [p]) Benign s := by
  refine wp_update_balanced inv ?_
  intro vec zs alive holds
  have used := holds.used_le
  rw [slots_eq alive holds, size_eq alive, pushBackMove_temp]
  apply wp_post (wp_pushBack holds fun _ => .inr diverges)
  rintro vec' h' ⟨zs₁, dead, left, kept, room, _, idle⟩
  refine ⟨_, dead, left.effect, ?_⟩
  intro o
  have moved := kept_countP (q := pointsTo o) kept (by omega) (fun _ => rfl) (fun _ => rfl)
  have get : zs₁[vec.nitems]? = some zs₁[vec.nitems] := List.getElem?_eq_getElem room
  have stored := countP_set (q := pointsTo o) get p
  by_cases fits : vec.nitems < zs.length
  · have slot : zs[vec.nitems]? = some zs₁[vec.nitems] := by rw [← get, idle fits]
    have same := congrArg (List.countP (pointsTo o)) (idle fits)
    rw [slot, Option.toList_some]
    omega
  · have grown : zs₁ ≠ zs := by
      rintro rfl
      omega
    have fresh := grown_countP (q := pointsTo o) kept (by omega) grown (fun _ => rfl)
    have split := countP_split (q := pointsTo o) (List.getElem?_eq_getElem room)
    rw [List.drop_eq_getElem_cons room, ← List.singleton_append, List.countP_append] at fresh
    rw [List.getElem?_eq_none (by omega), Option.toList_none, List.countP_nil]
    omega

theorem pop_balanced (inv : Inv (vectorClass UniquePtr) s) :
    wp (VectorSystem.step uniquePtrElement (.popBack v))
      (fun _ t => Balanced s t ((slots s v)[size s v - 1]?).toList []) Benign s := by
  refine wp_update_balanced inv ?_
  intro vec zs alive holds
  have used := holds.used_le
  rw [slots_eq alive holds, size_eq alive]
  by_cases items : vec.nitems = 0
  · simp only [Vec.popBack, items, if_true, wp_throw]
    exact .inr (.inl rfl)
  · apply wp_post (wp_popBack holds items)
    rintro vec' h' ⟨left, _⟩
    refine ⟨_, _, left.effect, ?_⟩
    intro o
    have get : zs[vec.nitems - 1]? = some zs[vec.nitems - 1] := List.getElem?_eq_getElem (by omega)
    have stored := countP_set (q := pointsTo o) get UniquePtr.null
    rw [get, List.countP_nil, Option.toList_some]
    exact stored

theorem erase_balanced (inv : Inv (vectorClass UniquePtr) s) (it : ℕ) :
    wp (VectorSystem.step uniquePtrElement (.erase v it))
      (fun _ t => Balanced s t ((slots s v)[it]?).toList []) Benign s := by
  refine wp_update_balanced inv ?_
  intro vec zs alive holds
  have used := holds.used_le
  rw [slots_eq alive holds]
  by_cases inside : it < vec.nitems
  · apply wp_post (wp_erase holds inside)
    rintro vec' h' ⟨hole, left, _, kind⟩
    refine ⟨_, _, left.effect, ?_⟩
    intro o
    have empty : [hole].countP (pointsTo o) = 0 := by
      rcases kind with rfl | ⟨x, rfl⟩ <;> rfl
    have get : zs[it]? = some zs[it] := List.getElem?_eq_getElem (by omega)
    have moved := holed_countP (q := pointsTo o) (j := vec.nitems - (it + 1)) hole get
    rw [get, List.countP_nil, Option.toList_some]
    omega
  · simp only [Vec.erase, inside, if_false, wp_throw]
    exact .inr (.inl rfl)

theorem destroy_balanced (inv : Inv (vectorClass UniquePtr) s) :
    wp (VectorSystem.step uniquePtrElement (.destroy v)) (fun _ t => Balanced s t [] [])
      Benign s := by
  simp only [VectorSystem.step, wp_bind]
  refine wp_object_or (fun _ => .inl rfl) ?_
  intro vec alive
  obtain ⟨zs, holds⟩ := inv.holds v vec alive
  simp only [wp_method]
  apply wp_post (wp_destroy holds)
  intro _ h' effect
  refine effect_balanced holds effect ?_
  intro o
  simp only [List.countP_nil]
  omega

structure VectorStep (s t : VectorSystem.System UniquePtr) (lost gained : List UniquePtr) :
    Prop where
  inv : Inv (vectorClass UniquePtr) t
  arrays : NoneLost (vectorClass UniquePtr) t
  balanced : Balanced s t lost gained

theorem wp_vectors {op : VectorSystem.Op UniquePtr} (inv : Inv (vectorClass UniquePtr) s)
    (arrays : NoneLost (vectorClass UniquePtr) s) (plain : TargetOwnsNothing s op)
    (balanced : wp (VectorSystem.step uniquePtrElement op)
      (fun _ t => Balanced s t lost gained) Benign s) :
    wp (VectorSystem.step uniquePtrElement op) (fun _ t => VectorStep s t lost gained)
      Benign s := by
  have change := VectorSystem.wp_step uniquePtrElement op inv VectorSystem.mayFault_benign
  apply wp_post (wp_and change balanced)
  rintro _ t ⟨changed, balance⟩
  exact ⟨VectorSystem.change_inv inv changed,
    (VectorSystem.change_noneLost inv arrays changed).mpr plain, balance⟩

end Vectors

def total (s : System) (o : ℕ) : ℕ := owners s o + deletions s o + s.released.count o

/-- The arrays are in order: each live one is that of one vector. -/
structure Sound (s : System) : Prop where
  inv : Inv (vectorClass UniquePtr) s.vectors
  arrays : NoneLost (vectorClass UniquePtr) s.vectors

section Places

variable {s s' : System} {place : Place} {p old : UniquePtr}

structure Stored (s : System) (place : Place) (old p : UniquePtr) (s' : System) : Prop where
  sound : Sound s'
  next : s'.next = s.next
  released : s'.released = s.released
  deletions : ∀ o, deletions s' o = deletions s o
  owners : ∀ o, owners s' o + [old].countP (pointsTo o) = owners s o + [p].countP (pointsTo o)
  value : ∀ q, value s' q = if q = place then some p else value s q

theorem Stored.total (stored : Stored s place old p s') (o : ℕ) :
    total s' o + [old].countP (pointsTo o) = total s o + [p].countP (pointsTo o) := by
  have owned := stored.owners o
  simp only [UniquePtrModel.total, stored.deletions, stored.released]
  omega

theorem value_item {v i : ℕ} {vec : Vec} {zs : List UniquePtr} (alive : Alive s.vectors v vec)
    (holds : Holds s.vectors.heap vec zs) :
    value s (.item v i) = if i < vec.nitems then zs[i]? else none := by
  simp only [value, size_eq alive, slots_eq alive holds]

theorem wp_load {post : UniquePtr → System → Prop} (sound : Sound s)
    (found : ∀ p, value s place = some p → post p s) : wp (load place) post Benign s := by
  cases place with
  | ptr i =>
    simp only [load, wp_bind, wp_get]
    cases get : s.ptrs[i]? with
    | none => exact .inl rfl
    | some slot =>
      cases slot with
      | none => exact .inl rfl
      | some p =>
        refine found p ?_
        simp only [value, get, Option.join_some]
  | item v i =>
    simp only [load, onVectors, wp_zoom, wp_bind]
    refine wp_object_or (fun _ => .inl rfl) ?_
    intro vec alive
    obtain ⟨zs, holds⟩ := sound.inv.holds v vec alive
    simp only [wp_method, Vec.at_]
    refine wp_ite ?_ ?_
    · intro inside
      have contents : Contents s.vectors.heap vec (zs.take vec.nitems) := ⟨zs, holds, rfl⟩
      have used : i < (zs.take vec.nitems).length := by rw [← contents.size]; exact inside
      have get : (zs.take vec.nitems)[i]? = some (zs.take vec.nitems)[i] :=
        List.getElem?_eq_getElem used
      rw [wp_readItem contents get]
      refine found _ ?_
      rw [value_item alive holds, if_pos inside, ← List.getElem?_take_of_lt inside, get]
    · intro _
      exact .inr (.inl rfl)

theorem slots_put {s : VectorSystem.System UniquePtr} {v w a : ℕ} {vec : Vec}
    {ys : List UniquePtr} (inv : Inv (vectorClass UniquePtr) s) (alive : Alive s v vec)
    (here : vec.data = some a) :
    slots ⟨s.heap.put a ys, s.objs⟩ w = if w = v then ys else slots s w := by
  by_cases same : w = v
  · subst same
    unfold Alive at alive
    simp only [slots, alive, here, Option.bind_some, Heap.put_self, Option.getD_some, if_true]
  · rw [if_neg same]
    unfold slots
    cases get : s.objs[w]? with
    | none => rfl
    | some slot =>
      cases slot with
      | none => rfl
      | some u =>
        cases data : u.data with
        | none => simp [data]
        | some b =>
          have apart : b ≠ a := by
            rintro rfl
            exact same (inv.apart w v u vec b get alive data here)
          simp [data, Heap.put_other s.heap ys apart]

theorem stored_item {v i a : ℕ} {vec : Vec} {zs : List UniquePtr} (sound : Sound s)
    (alive : Alive s.vectors v vec) (holds : Holds s.vectors.heap vec zs)
    (here : vec.data = some a) (used : i < vec.nitems) (get : zs[i]? = some old) :
    Stored s (.item v i) old p
      { s with vectors := ⟨s.vectors.heap.put a (zs.set i p), s.vectors.objs⟩ } := by
  have effect : Effect s.vectors.heap vec.data (s.vectors.heap.put a (zs.set i p)) vec.data
      (zs.set i p) [] := by
    rw [here]
    exact .inPlace a _
  have left : Left s.vectors.heap vec (s.vectors.heap.put a (zs.set i p)) vec (zs.set i p) [] :=
    ⟨effect, by rw [List.length_set, holds.capacity], holds.size_le⟩
  have inv := inv_update sound.inv alive holds left
  have arrays := noneLost_update sound.arrays alive left
  rw [set_alive alive] at inv arrays
  refine ⟨⟨inv, arrays⟩, rfl, rfl, fun _ => rfl, ?_, ?_⟩
  · intro o
    have elements := effect.countP holds.buffer (pointsTo o)
    have set := countP_set (q := pointsTo o) get p
    simp only [owners]
    omega
  · rintro (j | ⟨w, j⟩)
    · simp [value]
    · have sizes : size ⟨s.vectors.heap.put a (zs.set i p), s.vectors.objs⟩ w =
          size s.vectors w := rfl
      simp only [value, sizes, slots_put sound.inv alive here]
      by_cases same : w = v
      · subst same
        rw [if_pos rfl, slots_eq alive holds, size_eq alive]
        by_cases at_i : j = i
        · subst at_i
          obtain ⟨inside, _⟩ := List.getElem?_eq_some_iff.mp get
          simp [used, List.getElem?_set_self inside]
        · simp [at_i, List.getElem?_set_ne (Ne.symm at_i)]
      · simp [same]

/-- A store either raises a fault, where there is no such `unique_ptr`, or replaces it. -/
theorem wp_store {post : Unit → System → Prop} (sound : Sound s)
    (found : ∀ old s', value s place = some old → Stored s place old p s' → post () s') :
    wp (store place p) post Benign s := by
  cases place with
  | ptr i =>
    simp only [store, wp_bind, wp_get]
    cases get : s.ptrs[i]? with
    | none => exact .inl rfl
    | some slot =>
      cases slot with
      | none => exact .inl rfl
      | some old =>
        refine found old _ (by simp only [value, get, Option.join_some]) ?_
        refine ⟨⟨sound.inv, sound.arrays⟩, rfl, rfl, fun _ => rfl, ?_, ?_⟩
        · intro o
          have set := countP_set (q := (·.any (pointsTo o))) get (some p)
          have one : ∀ p : UniquePtr, [some p].countP (·.any (pointsTo o)) =
              [p].countP (pointsTo o) := fun p => by simp [List.countP_cons]
          rw [one, one] at set
          simp only [owners]
          omega
        · rintro (j | ⟨v, j⟩)
          · obtain ⟨inside, _⟩ := List.getElem?_eq_some_iff.mp get
            by_cases same : j = i
            · subst same
              simp [value, inside]
            · simp [value, List.getElem?_set_ne (Ne.symm same), same]
          · simp [value]
  | item v i =>
    simp only [store, onVectors, wp_zoom, wp_bind]
    refine wp_object_or (fun _ => .inl rfl) ?_
    intro vec alive
    obtain ⟨zs, holds⟩ := sound.inv.holds v vec alive
    simp only [wp_method, Vec.setAt]
    refine wp_ite ?_ ?_
    · intro inside
      have contents : Contents s.vectors.heap vec (zs.take vec.nitems) := ⟨zs, holds, rfl⟩
      obtain ⟨a, ys, here, cell, holds', _, used, room⟩ :=
        contents.cell (by rw [← contents.size]; exact inside)
      have get : ys[i]? = some ys[i] := List.getElem?_eq_getElem room
      rw [here, wp_write cell room]
      refine found ys[i] _ ?_ (stored_item sound alive holds' here used get)
      rw [value_item alive holds', if_pos used, get]
    · intro _
      exact .inr (.inl rfl)

end Places

structure Change (s : System) (op : Op) (s' : System) : Prop where
  sound : Sound s'
  next : s.next ≤ s'.next
  total : ∀ o, total s' o + (overwritten s op).countP (pointsTo o) =
    total s o + if s.next ≤ o ∧ o < s'.next then 1 else 0

section Steps

variable {s : System} {place : Place}

theorem wp_release {post : Option ℕ → System → Prop} (sound : Sound s)
    (found : ∀ p s', value s place = some p → Stored s place p .null s' → post p.ptr s') :
    wp (release place) post Benign s := by
  simp only [release, wp_bind, wp_pure]
  refine wp_load sound ?_
  intro p at_place
  refine wp_store sound ?_
  intro old s' same stored
  rw [at_place] at same
  cases same
  exact found p s' at_place stored

theorem total_deleted (p : UniquePtr) (o : ℕ) :
    total { s with deleted := p.ptr.toList ++ s.deleted } o =
      total s o + [p].countP (pointsTo o) := by
  have one := count_ptr p o
  simp only [total, owners, deletions, List.count_append]
  omega

theorem wp_reset {post : Unit → System → Prop} {ptr : Option ℕ} (sound : Sound s)
    (found : ∀ s', Sound s' → s'.next = s.next → value s' place = some ⟨ptr⟩ →
      (∀ o, total s' o = total s o + [UniquePtr.mk ptr].countP (pointsTo o)) → post () s') :
    wp (reset place ptr) post Benign s := by
  simp only [reset, wp_bind]
  refine wp_load sound ?_
  intro p at_place
  have deleted : wp (deleteObject p.ptr)
      (fun _ s₁ => s₁ = { s with deleted := p.ptr.toList ++ s.deleted }) Benign s := by
    cases here : p.ptr with
    | none => rfl
    | some o => rfl
  refine wp_post deleted ?_
  rintro _ s₁ rfl
  refine wp_store ⟨sound.inv, sound.arrays⟩ ?_
  intro old s' same stored
  have here : value s place = some old := same
  rw [at_place] at here
  cases here
  refine found s' stored.sound stored.next (by rw [stored.value, if_pos rfl]) ?_
  intro o
  have stores := stored.total o
  rw [total_deleted] at stores
  omega

theorem total_created (p : UniquePtr) (o : ℕ) :
    total { s with ptrs := s.ptrs ++ [some p] } o = total s o + [p].countP (pointsTo o) := by
  simp only [total, owners, deletions, List.countP_append, List.countP_singleton, Option.any_some]
  omega

theorem total_dropped {i : ℕ} (null : value s (.ptr i) = some ⟨none⟩) (o : ℕ) :
    total { s with ptrs := s.ptrs.set i none } o = total s o := by
  simp only [value, Option.join_eq_some_iff] at null
  have set := countP_set (q := (·.any (pointsTo o))) null none
  have empty : [some (UniquePtr.mk none)].countP (·.any (pointsTo o)) = 0 := rfl
  have none : [(none : Option UniquePtr)].countP (·.any (pointsTo o)) = 0 := rfl
  simp only [total, owners, deletions]
  omega

theorem total_vectors {t : VectorSystem.System UniquePtr} {lost gained : List UniquePtr}
    (balanced : Balanced s.vectors t lost gained) (o : ℕ) :
    total { s with vectors := t } o + lost.countP (pointsTo o) =
      total s o + gained.countP (pointsTo o) := by
  have balance := balanced o
  simp only [total, owners, deletions]
  omega

theorem countP_new (n o : ℕ) :
    [UniquePtr.mk (some n)].countP (pointsTo o) = if n ≤ o ∧ o < n + 1 then 1 else 0 := by
  by_cases same : n = o
  · subst same
    simp [pointsTo]
  · have apart : ¬(n ≤ o ∧ o < n + 1) := by omega
    rw [if_neg apart]
    simp [pointsTo, same]

theorem none_new {n m : ℕ} (o : ℕ) (same : m = n) :
    (if n ≤ o ∧ o < m then 1 else 0) = 0 := by
  rw [same]
  exact if_neg (by omega)

theorem wp_vectorStep {op : Op} {vop : VectorSystem.Op UniquePtr} (sound : Sound s)
    (plain : TargetOwnsNothing s.vectors vop)
    (balanced : wp (VectorSystem.step uniquePtrElement vop)
      (fun _ t => Balanced s.vectors t (overwritten s op) []) Benign s.vectors) :
    wp (onVectors (VectorSystem.step uniquePtrElement vop)) (fun _ s' => Change s op s')
      Benign s := by
  simp only [onVectors, wp_zoom]
  apply wp_post (wp_vectors sound.inv sound.arrays plain balanced)
  intro _ t step
  refine ⟨⟨step.inv, step.arrays⟩, Nat.le_refl _, ?_⟩
  intro o
  rw [none_new o rfl]
  exact total_vectors step.balanced o

theorem wp_step (op : Op) (sound : Sound s) :
    wp (step op) (fun _ s' => Change s op s') Benign s := by
  cases op with
  | null =>
    refine ⟨⟨sound.inv, sound.arrays⟩, Nat.le_refl _, ?_⟩
    intro o
    rw [none_new o rfl]
    exact total_created .null o
  | make =>
    refine ⟨⟨sound.inv, sound.arrays⟩, Nat.le_succ _, ?_⟩
    intro o
    rw [← countP_new s.next o]
    exact total_created ⟨some s.next⟩ o
  | moveConstruct other =>
    simp only [step, wp_bind]
    refine wp_release sound ?_
    intro p s₁ _ stored
    refine ⟨⟨stored.sound.inv, stored.sound.arrays⟩, stored.next.ge, ?_⟩
    intro o
    have taken := stored.total o
    have created := total_created (s := s₁) p o
    rw [none_new o stored.next, total_created]
    rw [countP_null] at taken
    simpa only [overwritten, List.countP_nil, Nat.add_zero] using taken
  | moveAssign this other =>
    simp only [step, wp_bind]
    refine wp_release sound ?_
    intro p s₁ _ stored
    refine wp_store stored.sound ?_
    intro old s₂ at_this stored₂
    refine ⟨stored₂.sound, (stored₂.next.trans stored.next).ge, ?_⟩
    intro o
    have taken := stored.total o
    have given := stored₂.total o
    rw [stored.value] at at_this
    rw [none_new o (stored₂.next.trans stored.next), overwritten]
    have whole : [UniquePtr.mk p.ptr].countP (pointsTo o) = [p].countP (pointsTo o) := rfl
    rw [countP_null] at taken
    split_ifs at at_this ⊢ with same
    · cases at_this
      rw [countP_null] at given
      rw [List.countP_nil]
      omega
    · rw [at_this, Option.toList_some]
      omega
  | reset this =>
    refine wp_reset sound ?_
    intro s' sound' next _ totals
    refine ⟨sound', next.ge, ?_⟩
    intro o
    rw [none_new o next]
    exact totals o
  | resetToNew this =>
    refine wp_reset ⟨sound.inv, sound.arrays⟩ ?_
    intro s' sound' next _ totals
    refine ⟨sound', by rw [next]; exact Nat.le_succ _, ?_⟩
    intro o
    rw [next, ← countP_new s.next o]
    exact totals o
  | release this =>
    simp only [step, wp_bind]
    refine wp_release sound ?_
    intro p s₁ _ stored
    refine ⟨⟨stored.sound.inv, stored.sound.arrays⟩, stored.next.ge, ?_⟩
    intro o
    have taken := stored.total o
    have one := count_ptr p o
    rw [countP_null] at taken
    have logged : total { s₁ with released := p.ptr.toList ++ s₁.released } o =
        total s₁ o + [p].countP (pointsTo o) := by
      simp only [total, owners, deletions, List.count_append]
      omega
    rw [none_new o stored.next]
    exact logged.trans taken
  | destroy i =>
    simp only [step, destroy, wp_bind]
    refine wp_reset sound ?_
    intro s₁ sound₁ next null totals
    refine ⟨⟨sound₁.inv, sound₁.arrays⟩, next.ge, ?_⟩
    intro o
    rw [none_new o next]
    exact (total_dropped null o).trans (totals o)
  | vector => exact wp_vectorStep sound trivial (fun o => rfl)
  | reserve v n => exact wp_vectorStep sound trivial (reserve_balanced sound.inv n)
  | resize v n => exact wp_vectorStep sound trivial (resize_balanced sound.inv n)
  | clear v => exact wp_vectorStep sound trivial (clear_balanced sound.inv)
  | popBack v => exact wp_vectorStep sound trivial (pop_balanced sound.inv)
  | erase v it => exact wp_vectorStep sound trivial (erase_balanced sound.inv it)
  | destroyVector v => exact wp_vectorStep sound trivial (destroy_balanced sound.inv)
  | pushBack v i =>
    simp only [step, wp_bind]
    refine wp_load sound ?_
    intro p at_i
    simp only [onVectors, wp_zoom]
    refine wp_post (wp_vectors sound.inv sound.arrays trivial (push_balanced sound.inv p)) ?_
    intro _ t pushed
    refine wp_store ⟨pushed.inv, pushed.arrays⟩ ?_
    intro old s₂ same stored
    have here : value s (.ptr i) = some old := same
    rw [at_i] at here
    cases here
    refine ⟨stored.sound, stored.next.ge, ?_⟩
    intro o
    have moved := total_vectors pushed.balanced o
    have emptied := stored.total o
    have null : [(UniquePtr.moveAssign .null p).2].countP (pointsTo o) = 0 := rfl
    rw [none_new o stored.next]
    simp only [overwritten]
    omega

end Steps

structure Inv (s : System) : Prop extends Sound s where
  total_le : ∀ o, total s o ≤ if o < s.next then 1 else 0

def Accounted (s : System) : Prop := ∀ o, o < s.next → total s o = 1

def OverwritesNothing (s : System) (op : Op) : Prop := ∀ p ∈ overwritten s op, p.ptr = none

structure Safe (s : System) : Prop where
  owner : ∀ o, owners s o ≤ 1
  kept : ∀ o, 0 < owners s o → deletions s o = 0
  once : ∀ o, deletions s o ≤ 1

def AllDestroyed (s : System) : Prop :=
  (∀ slot ∈ s.ptrs, slot = none) ∧ ∀ slot ∈ s.vectors.objs, slot = none

/-- With all `unique_ptr`s destroyed, every object not released was deleted exactly once. -/
def Settled (s : System) : Prop :=
  AllDestroyed s → ∀ o, o < s.next → o ∉ s.released → deletions s o = 1

def Disposes (s : System) : Op → Prop
  | .popBack v => ∀ t, step (.popBack v) s = .ok ((), t) →
    ∀ p ∈ overwritten s (.popBack v), ∀ o, p.ptr = some o → 0 < deletions t o
  | .erase v it => ∀ t, step (.erase v it) s = .ok ((), t) →
    ∀ p ∈ overwritten s (.erase v it), ∀ o, p.ptr = some o → 0 < deletions t o
  | _ => True

section Runs

variable {s s' : System} {op : Op}

theorem overwritesNothing_iff :
    OverwritesNothing s op ↔ ∀ o, (overwritten s op).countP (pointsTo o) = 0 := by
  unfold OverwritesNothing
  constructor
  · intro none o
    rw [List.countP_eq_zero]
    intro p mem
    simp [pointsTo, none p mem]
  · intro none p mem
    cases here : p.ptr with
    | none => rfl
    | some o =>
      have absent := List.countP_eq_zero.mp (none o) p mem
      simp [pointsTo, here] at absent

theorem disposes_of_overwritesNothing (none : OverwritesNothing s op) : Disposes s op := by
  have never : ∀ p ∈ overwritten s op, ∀ o, p.ptr = some o → False := by
    intro p mem o here
    rw [none p mem] at here
    cases here
  cases op with
  | popBack v => exact fun t _ p mem o here => (never p mem o here).elim
  | erase v it => exact fun t _ p mem o here => (never p mem o here).elim
  | _ => trivial

theorem inv_init : Inv System.init := by
  refine ⟨⟨inv_empty, noneLost_empty⟩, ?_⟩
  intro o
  have zero : total System.init o = 0 := rfl
  rw [zero]
  exact Nat.zero_le _

theorem change_inv (inv : Inv s) (change : Change s op s') : Inv s' := by
  refine ⟨change.sound, ?_⟩
  intro o
  have before := inv.total_le o
  have totals := change.total o
  have next : (s.next : ℕ) ≤ s'.next := change.next
  split_ifs at before totals ⊢ <;> omega

theorem change_accounted (inv : Inv s) (change : Change s op s') :
    Accounted s' ↔ Accounted s ∧ OverwritesNothing s op := by
  have next : (s.next : ℕ) ≤ s'.next := change.next
  rw [overwritesNothing_iff]
  constructor
  · intro after
    have both : ∀ o, (o < s.next → total s o = 1) ∧ (overwritten s op).countP (pointsTo o) = 0 := by
      intro o
      have before := inv.total_le o
      have totals := change.total o
      have accounted := after o
      split_ifs at before totals <;> omega
    exact ⟨fun o => (both o).1, fun o => (both o).2⟩
  · rintro ⟨before, nothing⟩ o below
    have accounted := before o
    have bound := inv.total_le o
    have totals := change.total o
    have zero := nothing o
    split_ifs at bound totals <;> omega

theorem step_change (inv : Inv s) (run : step op s = .ok ((), s')) : Change s op s' := by
  have changed := wp_ok (wp_step op inv.toSound) run
  exact changed

theorem inv_safe (inv : Inv s) : Safe s := by
  have le : ∀ o, owners s o + deletions s o ≤ 1 := by
    intro o
    have bound := inv.total_le o
    unfold total at bound
    split_ifs at bound <;> omega
  exact ⟨fun o => by have := le o; omega, fun o _ => by have := le o; omega,
    fun o => by have := le o; omega⟩

theorem owners_destroyed (sound : Sound s) (destroyed : AllDestroyed s) (o : ℕ) :
    owners s o = 0 := by
  have ptrs : s.ptrs.countP (·.any (pointsTo o)) = 0 := by
    rw [List.countP_eq_zero]
    intro slot mem
    rw [destroyed.1 slot mem]
    simp
  have arrays : s.vectors.heap.elements.countP (pointsTo o) = 0 := by
    rw [List.countP_eq_zero]
    intro p mem
    obtain ⟨a, _, here⟩ := List.mem_flatMap.mp mem
    cases cell : s.vectors.heap.cells a with
    | none => simp [cell] at here
    | some zs =>
      obtain ⟨v, vec, alive, _⟩ := sound.arrays a zs cell
      cases destroyed.2 _ (List.mem_of_getElem? alive)
  rw [owners, ptrs, arrays]

theorem settled_iff (inv : Inv s) (destroyed : AllDestroyed s) : Settled s ↔ Accounted s := by
  have none := owners_destroyed inv.toSound destroyed
  constructor
  · intro settled o below
    have bound := inv.total_le o
    rw [if_pos below] at bound
    have whole : total s o = deletions s o + s.released.count o := by
      rw [total, none, Nat.zero_add]
    by_cases released : o ∈ s.released
    · have := List.count_pos_iff.mpr released
      omega
    · have := settled destroyed o below released
      omega
  · intro accounted _ o below kept
    have whole := accounted o below
    rw [total, none, List.count_eq_zero.mpr kept] at whole
    omega

end Runs

/-- No object ever has two owners, is deleted twice or is deleted while it is owned. If no step of
a run overwrites a `unique_ptr` that owns an object, then whenever all `unique_ptr`s are destroyed
every object that was not released has been deleted exactly once, and `pop_back` and `erase`
dispose of what they remove; a run that destroys all of them and does overwrite one has lost an
object. -/
theorem objects_deleted_once (ops : List Op) :
    (∀ e, runAll step ops System.init = .error e → Benign e) ∧
    Throughout step Safe ops System.init ∧
    (Along step OverwritesNothing ops System.init →
      Throughout step Settled ops System.init ∧ Along step Disposes ops System.init) ∧
    ∀ s, runAll step ops System.init = .ok ((), s) → AllDestroyed s → Settled s →
      Along step OverwritesNothing ops System.init := by
  have stays : ∀ op s t, Inv s → step op s = .ok ((), t) → Inv t :=
    fun op s t inv run => change_inv inv (step_change inv run)
  have accounts : ∀ op s t, Inv s → step op s = .ok ((), t) →
      (Accounted t ↔ Accounted s ∧ OverwritesNothing s op) :=
    fun op s t inv run => change_accounted inv (step_change inv run)
  have fresh : Accounted System.init := fun o below => absurd below (Nat.not_lt_zero o)
  refine ⟨?_, ?_, ?_, ?_⟩
  · intro e run
    have kept : ∀ op s, Inv s → wp (step op) (fun _ t => Inv t) Benign s :=
      fun op s inv => wp_post (wp_step op inv.toSound) (fun _ _ change => change_inv inv change)
    exact wp_error (wp_runAll kept ops System.init inv_init) run
  · exact throughout_of_inv stays (fun s inv => inv_safe inv) ops System.init inv_init
  · intro along
    have accounted : Throughout step Accounted ops System.init :=
      (throughout_iff_along stays
        (fun op s t inv before run => by rw [accounts op s t inv run]; exact and_iff_right before)
        ops System.init inv_init fresh).mpr along
    refine ⟨throughout_mono stays ?_ ops System.init inv_init accounted,
      along_mono (fun s op => disposes_of_overwritesNothing) ops System.init along⟩
    intro s inv accounted destroyed
    exact (settled_iff inv destroyed).mpr accounted destroyed
  · intro s run destroyed settled
    have inv := throughout_end (throughout_of_inv stays (fun s inv => inv) ops _ inv_init) run
    have whole := end_iff_along stays accounts ops System.init s inv_init run
    exact (whole.mp ((settled_iff inv destroyed).mp settled)).2

theorem objects_deleted_once_push :
    Along step OverwritesNothing [.vector, .make, .pushBack 0 0, .destroyVector 0, .destroy 0]
        System.init ∧
      Throughout step Settled [.vector, .make, .pushBack 0 0, .destroyVector 0, .destroy 0]
        System.init := by
  have facts := (objects_deleted_once
    [.vector, .make, .pushBack 0 0, .destroyVector 0, .destroy 0]).2.2
  have along := facts.2 _ rfl ⟨by decide, by decide⟩ (fun _ => by decide)
  exact ⟨along, (facts.1 along).1⟩

/-- Neither the object of the item that `pop_back` removes, nor that of a `unique_ptr` that
another is assigned to by move, is ever deleted. -/
theorem overwritten_not_deleted :
    ¬Throughout step Settled
      [.vector, .make, .pushBack 0 0, .popBack 0, .destroyVector 0, .destroy 0] System.init ∧
    ¬Throughout step Settled
      [.make, .make, .moveAssign (.ptr 0) (.ptr 1), .destroy 0, .destroy 1] System.init := by
  constructor
  · intro settled
    have once := throughout_end settled rfl ⟨by decide, by decide⟩ 0 (by decide) (by decide)
    revert once
    decide
  · intro settled
    have once := throughout_end settled rfl ⟨by decide, by decide⟩ 0 (by decide) (by decide)
    revert once
    decide

end Nanolibc.UniquePtrModel
