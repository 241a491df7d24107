import Mathlib.Data.List.Pairwise
import Mathlib.Data.Nat.Notation

set_option autoImplicit false

namespace Lib.SeparateArrays

variable {α : Type}

abbrev Store (α : Type) := List (ℕ × List α)

namespace Store

def add (store : Store α) (p : ℕ) (xs : List α) : Store α :=
  if p = 0 then store else (p, xs) :: store

def remove (store : Store α) (p : ℕ) : Store α := store.eraseP fun e => e.1 = p

def put (store : Store α) (p : ℕ) (xs : List α) : Store α :=
  store.map fun e => if e.1 = p then (p, xs) else e

def extents (store : Store α) : List (ℕ × ℕ) := store.map fun e => (e.1, e.2.length)

end Store

def Part (store : Store α) (a : ℕ) (xs : List α) : Prop :=
  ∃ p front back, (p, front ++ xs ++ back) ∈ store ∧ a = p + front.length

def Replaced (store : Store α) (a : ℕ) (xs : List α) (store' : Store α) : Prop :=
  ∃ p front old back, (p, front ++ old ++ back) ∈ store ∧ a = p + front.length ∧
    old.length = xs.length ∧ store' = store.put p (front ++ xs ++ back)

/-- The arrays have elements and lie below `limit`, none in another. -/
structure Separate (limit : ℕ) (store : Store α) : Prop where
  below : ∀ e ∈ store, e.1 + e.2.length ≤ limit
  pairwise : store.Pairwise fun e f => e.1 + e.2.length ≤ f.1 ∨ f.1 + f.2.length ≤ e.1
  nonempty : ∀ e ∈ store, 0 < e.2.length

def cells (m : ℕ → α) (a n : ℕ) : List α := (List.range n).map fun i => m (a + i)

def Shown (m : ℕ → α) (store : Store α) : Prop := ∀ e ∈ store, cells m e.1 e.2.length = e.2

section Cells

variable {m t : ℕ → α} {a n k : ℕ}

@[simp] theorem cells_length (m : ℕ → α) (a n : ℕ) : (cells m a n).length = n := by
  rw [cells, List.length_map, List.length_range]

theorem cells_add : cells m a (n + k) = cells m a n ++ cells m (a + n) k := by
  rw [cells, List.range_add, List.map_append, List.map_map]
  refine congrArg (cells m a n ++ ·) (List.map_congr_left fun i _ => ?_)
  rw [Function.comp_apply, Nat.add_assoc]

theorem cells_congr (same : ∀ x, a ≤ x → x < a + n → t x = m x) : cells t a n = cells m a n :=
  List.map_congr_left fun i mem =>
    same (a + i) (Nat.le_add_right a i) (Nat.add_lt_add_left (List.mem_range.mp mem) a)

theorem cells_get {xs : List α} (shown : cells m a xs.length = xs) {i : ℕ} (less : i < xs.length) :
    m (a + i) = xs[i] := by
  have same := List.getElem_of_eq shown (by rwa [cells_length])
  rw [← same]
  simp [cells]

theorem cells_append {front xs back : List α}
    (shown : cells m a (front ++ xs ++ back).length = front ++ xs ++ back) :
    cells m a front.length = front ∧ cells m (a + front.length) xs.length = xs ∧
      cells m (a + front.length + xs.length) back.length = back := by
  rw [List.length_append, List.length_append, cells_add, cells_add, ← Nat.add_assoc] at shown
  obtain ⟨first, last⟩ := List.append_inj shown (by
    rw [List.length_append, cells_length, cells_length, List.length_append])
  obtain ⟨first, middle⟩ := List.append_inj first (cells_length ..)
  exact ⟨first, middle, last⟩

end Cells

section Stores

variable {m t : ℕ → α} {limit a p : ℕ} {store store' : Store α} {xs ys : List α}

theorem Separate.forall (separate : Separate limit store) {e f : ℕ × List α} (mem : e ∈ store)
    (mem' : f ∈ store) (other : e ≠ f) :
    e.1 + e.2.length ≤ f.1 ∨ f.1 + f.2.length ≤ e.1 := by
  have symmetric : Std.Symm fun e f : ℕ × List α =>
      e.1 + e.2.length ≤ f.1 ∨ f.1 + f.2.length ≤ e.1 := ⟨fun _ _ h => Or.symm h⟩
  exact separate.pairwise.forall mem mem' other

theorem Separate.unique (separate : Separate limit store) (mem : (p, xs) ∈ store)
    (mem' : (p, ys) ∈ store) : xs = ys := by
  by_contra other
  have apart := separate.forall mem mem' fun same => other (congrArg Prod.snd same)
  have some := separate.nonempty _ mem
  have some' := separate.nonempty _ mem'
  dsimp only at *
  omega

theorem Part.inside (separate : Separate limit store) (part : Part store a xs) :
    a + xs.length ≤ limit := by
  obtain ⟨p, front, back, mem, rfl⟩ := part
  have below := separate.below _ mem
  rw [List.length_append, List.length_append] at below
  dsimp only at below
  omega

theorem Replaced.inside (separate : Separate limit store) (replaced : Replaced store a xs store') :
    a + xs.length ≤ limit := by
  obtain ⟨p, front, old, back, mem, rfl, length, _⟩ := replaced
  rw [← length]
  exact Part.inside separate ⟨p, front, back, mem, rfl⟩

theorem Part.replaced (part : Part store a ys) (length : ys.length = xs.length) :
    ∃ store', Replaced store a xs store' := by
  obtain ⟨p, front, back, mem, rfl⟩ := part
  exact ⟨_, p, front, ys, back, mem, rfl, length, rfl⟩

theorem part_whole (mem : (p, xs) ∈ store) : Part store p xs :=
  ⟨p, [], [], by rwa [List.nil_append, List.append_nil], rfl⟩

theorem Shown.part (shown : Shown m store) (part : Part store a xs) :
    cells m a xs.length = xs := by
  obtain ⟨p, front, back, mem, rfl⟩ := part
  exact (cells_append (shown _ mem)).2.1

theorem Shown.congr (shown : Shown m store)
    (same : ∀ e ∈ store, ∀ x, e.1 ≤ x → x < e.1 + e.2.length → t x = m x) : Shown t store := by
  intro e mem
  rw [cells_congr (same e mem)]
  exact shown e mem

theorem Shown.remove (shown : Shown m store) (p : ℕ) : Shown m (store.remove p) :=
  fun e mem => shown e (List.mem_of_mem_eraseP mem)

theorem extents_remove (store : Store α) (p : ℕ) :
    (store.remove p).extents = store.extents.eraseP fun l => l.1 = p := by
  rw [Store.extents, Store.extents, List.eraseP_map]
  rfl

theorem Replaced.extents (separate : Separate limit store) (replaced : Replaced store a xs store') :
    store'.extents = store.extents := by
  obtain ⟨p, front, old, back, mem, rfl, length, rfl⟩ := replaced
  rw [Store.extents, Store.extents, Store.put, List.map_map]
  apply List.map_congr_left
  intro e there
  rw [Function.comp_apply]
  by_cases here : e.1 = p
  · have same : e.2 = front ++ old ++ back := by
      apply separate.unique (p := p) _ mem
      rwa [← here]
    rw [if_pos here, same, here]
    simp only [List.length_append, length]
  · rw [if_neg here]

theorem Shown.replaced (separate : Separate limit store) (shown : Shown m store)
    (replaced : Replaced store a xs store') (inside : cells t a xs.length = xs)
    (outside : ∀ x < limit, x < a ∨ a + xs.length ≤ x → t x = m x) : Shown t store' := by
  obtain ⟨p, front, old, back, mem, rfl, length, rfl⟩ := replaced
  intro e there
  obtain ⟨f, old_mem, rfl⟩ := List.mem_map.mp there
  have room := separate.below _ mem
  rw [List.length_append, List.length_append] at room
  dsimp only at room
  by_cases here : f.1 = p
  · obtain ⟨first, _, last⟩ := cells_append (shown _ mem)
    rw [if_pos here]
    dsimp only
    rw [List.length_append, List.length_append, cells_add, cells_add, ← Nat.add_assoc, inside]
    rw [length] at last
    have before : cells t p front.length = front := by
      rw [cells_congr fun x _ high => outside x (by omega) (.inl (by omega))]
      exact first
    have behind : cells t (p + front.length + xs.length) back.length = back := by
      rw [cells_congr fun x low high => outside x (by omega) (.inr (by omega))]
      exact last
    rw [before, behind]
  · rw [if_neg here]
    have other : f ≠ (p, front ++ old ++ back) := fun same => here (congrArg Prod.fst same)
    have apart := separate.forall old_mem mem other
    have below := separate.below f old_mem
    rw [List.length_append, List.length_append] at apart
    dsimp only at apart
    rw [cells_congr fun x low high => outside x (by omega) (by omega)]
    exact shown f old_mem

theorem replaced_add {old more : List α} (given : p ≠ 0)
    (separate : Separate limit (store.add p (old ++ more))) (length : old.length = xs.length) :
    Replaced (store.add p (old ++ more)) p xs (store.add p (xs ++ more)) := by
  rw [Store.add, if_neg given] at separate ⊢
  refine ⟨p, [], old, more, List.mem_cons_self, rfl, length, ?_⟩
  have others : store.map (fun e => if e.1 = p then (p, xs ++ more) else e) = store := by
    rw [List.map_congr_left, List.map_id]
    intro e mem
    have apart := (List.pairwise_cons.mp separate.pairwise).1 e mem
    have some := separate.nonempty _ List.mem_cons_self
    have some' := separate.nonempty e (List.mem_cons_of_mem _ mem)
    dsimp only at *
    rw [if_neg (by omega), id]
  rw [Store.add, if_neg given, Store.put, List.nil_append, List.map_cons, if_pos rfl, others]

theorem remove_add {q : ℕ} (other : q ≠ p) :
    (store.add q xs).remove p = (store.remove p).add q xs := by
  unfold Store.add
  by_cases null : q = 0
  · rw [if_pos null, if_pos null]
  · rw [if_neg null, if_neg null, Store.remove, List.eraseP_cons_of_neg (by simpa using other)]
    rfl

end Stores

end Lib.SeparateArrays
