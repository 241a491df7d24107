import Nanolibc.VectorInsert

set_option autoImplicit false

namespace Nanolibc.VectorModel
open Lib.Program Lib.ArrayHeap Lib.OwnedArray
open Lib.ObjectPool hiding Holds Left

variable {α : Type} {T : Element α} {h : Heap α} {v : Vec} {a i p : ℕ} {x y : α} {zs olds : List α}

def Appends (m : Method α Vec) (h : Heap α) (olds : List α) (x : α) : Prop :=
  ∃ v' h', m h = .ok (v', h') ∧ Contents h' v' (olds ++ [x])

section Full

/-- In a full vector the argument is read from the deleted array, unless the vector can grow no
more. -/
theorem wp_pushBack_own (holds : Holds h v zs) (here : v.data = some a) (some_slot : 0 < zs.length)
    (full : v.nitems = v.maxNitems) :
    wp (Vec.pushBack T v (.slot a i)) (fun _ _ => False)
      (fun e => e = .dead ∨ 2 ^ 63 < (v.nitems + 1) * T.size) h := by
  have cap := holds.capacity
  have size := holds.size_le
  rw [Vec.pushBack, Vec.reserve, wp_bind]
  apply wp_post (wp_reserve holds (by omega) fun _ => by
    rcases Nat.lt_or_ge (2 ^ 63) ((v.nitems + 1) * T.size) with large | small
    · exact .inr (.inr large)
    · exact .inl small)
  rintro v₁ h₁ ⟨zs₁, dead, effect, kept, _, cap₁, enough, _, _⟩
  rw [here] at effect
  have gone := effect.gone (kept.replaced (by omega) some_slot (by omega))
  rw [wp_bind, load, wp_read_dead gone]
  exact .inl rfl

theorem wp_insert_own (holds : Holds h v zs) (here : v.data = some a) (some_slot : 0 < zs.length)
    (inside : p ≤ v.nitems) (full : v.nitems = v.maxNitems) :
    wp (Vec.insert T v p (.slot a i)) (fun _ _ => False)
      (fun e => e = .dead ∨ 2 ^ 63 < (v.nitems + 1) * T.size) h := by
  have cap := holds.capacity
  rw [Vec.insert, wp_bind]
  apply wp_post (wp_insertHole holds inside Nat.one_pos fun _ => by
    rcases Nat.lt_or_ge (2 ^ 63) ((v.nitems + 1) * T.size) with large | small
    · exact .inr (.inr large)
    · exact .inl small)
  rintro r h₁ ⟨zs₁, dead, left, kept, room, _, _, _⟩
  have effect := left.effect
  rw [here] at effect
  have gone := effect.gone (kept.replaced (by omega) some_slot (by omega))
  rw [wp_bind, load, wp_read_dead gone]
  exact .inl rfl

end Full

section Room

theorem pushBack_of_load {r : Ref α} (room : v.nitems < v.maxNitems)
    (value : load r h = .ok (x, h)) :
    Vec.pushBack T v r h = Vec.pushBack T v (.temp x) h := by
  rw [Vec.pushBack, Vec.pushBack, Vec.reserve, Vec._reserve, if_pos (by omega), pure_bind,
    pure_bind, run_bind value]
  rfl

theorem insert_of_load {r : Ref α} {v₁ : Vec} {h₁ : Heap α} {ret : ℕ}
    (hole : Vec._insertHole T v p 1 h = .ok ((v₁, ret), h₁)) (value : load r h₁ = .ok (y, h₁)) :
    Vec.insert T v p r h = Vec.insert T v p (.temp y) h := by
  rw [Vec.insert, Vec.insert, run_bind hole, run_bind hole]
  dsimp only
  rw [run_bind value]
  rfl

theorem load_slot (cell : h.cells a = some zs) (get : zs[i]? = some x) :
    load (.slot a i) h = .ok (x, h) := by
  have loaded : wp (load (.slot a i)) (fun y t => y = x ∧ t = h) never h := by
    rw [load, wp_read cell get]
    exact ⟨rfl, rfl⟩
  obtain ⟨y, t, run, rfl, rfl⟩ := wp_never.mp loaded
  exact run

theorem Contents.slot (c : Contents h v olds) (here : v.data = some a)
    (element : olds[i]? = some x) : ∃ zs, h.cells a = some zs ∧ zs[i]? = some x ∧
      Holds h v zs ∧ i < v.nitems := by
  obtain ⟨inside, _⟩ := List.getElem?_eq_some_iff.mp element
  obtain ⟨b, zs, here', cell, holds, shown, used, _⟩ := c.cell inside
  rw [here] at here'
  cases here'
  rw [← shown, List.getElem?_take_of_lt used] at element
  exact ⟨zs, cell, element, holds, used⟩

theorem movedUp_get {s : ℕ} (below : p ≤ s) (room : s + 1 ≤ zs.length) (used : i < s) :
    (movedUp zs p s 1)[i]? = if i ≤ p then zs[i]? else zs[i - 1]? := by
  have part : ((zs.drop p).take (s - p)).length = s - p := by
    simp only [List.length_take, List.length_drop]
    omega
  rw [movedUp, splice_get (by omega), part]
  by_cases low : i ≤ p
  · rw [if_pos (by omega), if_pos low]
  · rw [if_neg (by omega), if_pos (by omega), if_neg low, List.getElem?_take_of_lt (by omega),
      List.getElem?_drop]
    congr 1
    omega

theorem wp_pushRoom (c : Contents h v olds) (room : olds.length < v.maxNitems)
    {bad : Fault → Prop} :
    wp (Vec.pushBackMove T v (.temp x)) (fun v' h' => Contents h' v' (olds ++ [x]) ∧
      v'.data = v.data ∧ h'.next = h.next ∧
      ∀ b, v.data ≠ some b → h'.cells b = h.cells b) bad h := by
  have size := c.size
  obtain ⟨zs, holds, shown⟩ := c
  have cap := holds.capacity
  have buffer := holds.buffer
  rw [pushBackMove_temp, Vec.pushBack, Vec.reserve, Vec._reserve, if_pos (by omega), pure_bind,
    load, pure_bind]
  obtain ⟨data, m, k⟩ := v
  dsimp only at size cap room buffer shown
  cases data with
  | none =>
    have empty : zs = [] := buffer
    rw [empty, List.length_nil] at cap
    omega
  | some a =>
    dsimp only
    rw [wp_bind, wp_write buffer.1 (by omega)]
    have stored : Holds (h.put a (zs.set k x)) ⟨some a, m, k + 1⟩ (zs.set k x) :=
      ⟨⟨Heap.put_self _ _ _, buffer.2⟩, by rw [List.length_set, cap], by dsimp only; omega⟩
    have kept : Kept T k zs zs [] := .inl ⟨rfl, rfl⟩
    refine ⟨⟨zs.set k x, stored, ?_⟩, rfl, rfl, ?_⟩
    · dsimp only
      rw [pushed_take kept (by omega) (by omega), shown]
    · intro b other
      exact Heap.put_other h _ fun same => other (congrArg some same.symm)

theorem pushBack_own_iff (c : Contents h v olds) (here : v.data = some a)
    (element : olds[i]? = some x) :
    Appends (Vec.pushBack T v (.slot a i)) h olds x ↔ olds.length < v.maxNitems := by
  obtain ⟨zs, cell, get, holds, used⟩ := c.slot here element
  have cap := holds.capacity
  have size := holds.size_le
  have count := c.size
  constructor
  · rintro ⟨v', h', run, _⟩
    by_contra full
    exact wp_ok (wp_pushBack_own holds here (by omega) (by omega)) run
  · intro room
    have pushed : wp _ _ never h := wp_pushRoom (T := T) (x := x) c room
    obtain ⟨v', h', run, after, _⟩ := wp_never.mp pushed
    refine ⟨v', h', ?_, after⟩
    rw [pushBack_of_load (by omega) (load_slot cell get), ← pushBackMove_temp]
    exact run

theorem hole_run (holds : Holds h v zs) (here : v.data = some a) (inside : p ≤ v.nitems)
    (room : v.nitems < v.maxNitems) : ∃ v₁ h₁, Vec._insertHole T v p 1 h = .ok ((v₁, p), h₁) ∧
      h₁.cells a = some (movedUp zs p v.nitems 1) := by
  have cap := holds.capacity
  have buffer := holds.buffer
  have moved : wp (Vec._insertHole T v p 1) (fun r h₁ => r.2 = p ∧
      h₁.cells a = some (movedUp zs p v.nitems 1)) never h := by
    rw [Vec._insertHole, if_pos inside, Vec._reserve, if_pos (by omega), pure_bind]
    rw [here] at buffer ⊢
    dsimp only
    apply wp_ite
    · intro _
      rw [wp_bind]
      apply wp_post (wp_moveUp buffer.1 inside Nat.one_pos (by omega))
      intro _ h₁ done
      rw [done]
      exact ⟨rfl, Heap.put_self _ _ _⟩
    · intro last
      have nothing : movedUp zs p v.nitems 1 = zs := by
        rw [movedUp, show v.nitems - p = 0 by omega, List.take_zero, splice_nil]
      rw [nothing]
      exact ⟨rfl, buffer.1⟩
  obtain ⟨⟨v₁, ret⟩, h₁, run, same, cell⟩ := wp_never.mp moved
  dsimp only at same
  rw [same] at run
  exact ⟨v₁, h₁, run, cell⟩

/-- Where the vector has room, the slot of an element `i > p` holds the element before it when the
slot is read. -/
theorem insert_own_stores (c : Contents h v olds) (here : v.data = some a) (used : i < olds.length)
    (inside : p ≤ olds.length) (room : olds.length < v.maxNitems)
    (before : olds[if i ≤ p then i else i - 1]? = some y) :
    Inserts (Vec.insert T v p (.slot a i)) h p olds [y] := by
  have count := c.size
  obtain ⟨zs, cell, get, holds, _⟩ := c.slot here before
  have cap := holds.capacity
  obtain ⟨v₁, h₁, hole, moved⟩ :=
    hole_run (T := T) holds here (show p ≤ v.nitems by omega) (by omega)
  have loaded : load (.slot a i) h₁ = .ok (y, h₁) := by
    apply load_slot moved
    rw [movedUp_get (by omega) (by omega) (by omega), ← get]
    by_cases low : i ≤ p
    · rw [if_pos low, if_pos low]
    · rw [if_neg low, if_neg low]
  have outside : Outside h v (.temp y) y := rfl
  have inserted : Inserts (Vec.insert T v p (.temp y)) h p olds [y] := by
    rw [insert_eq_range]
    exact (insertRange_iff c inside (.cons outside .nil) (List.cons_ne_nil _ _)).mpr (.inl room)
  unfold Inserts
  rw [insert_of_load hole loaded]
  exact inserted

theorem Inserts.unique {m : Method α (Vec × ℕ)} (one : Inserts m h p olds [x])
    (two : Inserts m h p olds [y]) : x = y := by
  obtain ⟨v', h', run, contents, _⟩ := one
  obtain ⟨v'', h'', run', contents', _⟩ := two
  rw [run] at run'
  cases run'
  simpa using contents.unique contents'

theorem insert_own_iff (c : Contents h v olds) (here : v.data = some a)
    (element : olds[i]? = some x) (inside : p ≤ olds.length) :
    Inserts (Vec.insert T v p (.slot a i)) h p olds [x] ↔
      olds.length < v.maxNitems ∧ (i ≤ p ∨ olds[i - 1]? = some x) := by
  obtain ⟨used, _⟩ := List.getElem?_eq_some_iff.mp element
  by_cases room : olds.length < v.maxNitems
  · obtain ⟨y, before⟩ : ∃ y, olds[if i ≤ p then i else i - 1]? = some y :=
      ⟨_, List.getElem?_eq_getElem (by split <;> omega)⟩
    have stores := insert_own_stores (T := T) c here used inside room before
    have value : Inserts (Vec.insert T v p (.slot a i)) h p olds [x] ↔ y = x := by
      constructor
      · intro also
        exact stores.unique also
      · intro same
        rw [← same]
        exact stores
    rw [value]
    by_cases low : i ≤ p
    · rw [if_pos low, element] at before
      cases before
      simp [room, low]
    · rw [if_neg low] at before
      rw [before]
      simp [room, low]
  · constructor
    · intro ⟨v', h', run, _⟩
      obtain ⟨zs, _, _, holds, _⟩ := c.slot here element
      have cap := holds.capacity
      have size := holds.size_le
      have count := c.size
      exact (wp_ok (wp_insert_own holds here (by omega) (by omega) (by omega)) run).elim
    · intro right
      exact absurd right.1 room

end Room

theorem pushBack_own_dead (c : Contents h v olds) (here : v.data = some a)
    (element : olds[i]? = some x) (full : v.nitems = v.maxNitems)
    (fits : (v.nitems + 1) * T.size ≤ 2 ^ 63) : Vec.pushBack T v (.slot a i) h = .error .dead := by
  obtain ⟨zs, _, _, holds, used⟩ := c.slot here element
  have cap := holds.capacity
  have reads := wp_pushBack_own (T := T) (i := i) holds here (by omega) full
  cases run : Vec.pushBack T v (.slot a i) h with
  | ok r => exact (wp_ok reads run).elim
  | error e =>
    rcases wp_error reads run with dead | large
    · rw [dead]
    · omega

/-- A vector's own element can be pushed exactly when the vector has room, and inserted when
moreover it is not above the hole or equals the element before it. -/
theorem own_element_iff (T : Element α) (h : Heap α) (v : Vec) (olds : List α) (a i p : ℕ) (x : α)
    (c : Contents h v olds) (here : v.data = some a) (element : olds[i]? = some x)
    (inside : p ≤ olds.length) :
    (Appends (Vec.pushBack T v (.slot a i)) h olds x ↔ olds.length < v.maxNitems) ∧
      (Inserts (Vec.insert T v p (.slot a i)) h p olds [x] ↔
        olds.length < v.maxNitems ∧ (i ≤ p ∨ olds[i - 1]? = some x)) :=
  ⟨pushBack_own_iff c here element, insert_own_iff c here element inside⟩

theorem own_element_iff_spare : ∃ v h,
    Vec.ofRange intElement [1, 2] Heap.empty = .ok (v, h) ∧ v.data = some 0 ∧
    Appends (Vec.pushBack intElement v (.slot 0 1)) h [1, 2] 2 ∧
    Inserts (Vec.insert intElement v 2 (.slot 0 1)) h 2 [1, 2] [2] := by
  obtain ⟨v, h, run, c⟩ := ofRange_int [1, 2] (by decide)
  have fields : (Vec.ofRange intElement [1, 2] Heap.empty).map Prod.fst = .ok ⟨some 0, 16, 2⟩ :=
    rfl
  rw [run] at fields
  cases fields
  obtain ⟨pushed, inserted⟩ :=
    own_element_iff intElement h _ [1, 2] 0 1 2 2 c rfl rfl (by decide)
  exact ⟨_, h, run, rfl, pushed.mpr (by decide), inserted.mpr (by decide)⟩

/-- The push of element 0 of a full `vector<int>` reads the deleted array; `v.insert(v.begin(),
v[1])` on `1, 2` inserts 1 instead of 2. -/
theorem own_element_lost :
    (∃ v h, Vec.ofRange intElement (List.range 16) Heap.empty = .ok (v, h) ∧
      Contents h v (List.range 16) ∧ v.data = some 0 ∧
      (Vec.pushBack intElement v (.slot 0 0) h).map Prod.fst = .error .dead ∧
      ¬Appends (Vec.pushBack intElement v (.slot 0 0)) h (List.range 16) 0) ∧
    ∃ v h, Vec.ofRange intElement [1, 2] Heap.empty = .ok (v, h) ∧ Contents h v [1, 2] ∧
      v.data = some 0 ∧ Inserts (Vec.insert intElement v 0 (.slot 0 1)) h 0 [1, 2] [1] ∧
      ¬Inserts (Vec.insert intElement v 0 (.slot 0 1)) h 0 [1, 2] [2] := by
  constructor
  · obtain ⟨v, h, run, c⟩ := ofRange_int (List.range 16) (by decide)
    have fields : (Vec.ofRange intElement (List.range 16) Heap.empty).map Prod.fst =
        .ok ⟨some 0, 16, 16⟩ := rfl
    rw [run] at fields
    cases fields
    have lost : ¬Appends (Vec.pushBack intElement ⟨some 0, 16, 16⟩ (.slot 0 0)) h
        (List.range 16) 0 := by
      rw [pushBack_own_iff c rfl rfl]
      decide
    have dead : Vec.pushBack intElement ⟨some 0, 16, 16⟩ (.slot 0 0) h = .error .dead :=
      pushBack_own_dead c rfl (x := 0) rfl rfl (by norm_num [intElement])
    exact ⟨_, h, run, c, rfl, by rw [dead]; rfl, lost⟩
  · obtain ⟨v, h, run, c⟩ := ofRange_int [1, 2] (by decide)
    have fields : (Vec.ofRange intElement [1, 2] Heap.empty).map Prod.fst =
        .ok ⟨some 0, 16, 2⟩ := rfl
    rw [run] at fields
    cases fields
    have lost : ¬Inserts (Vec.insert intElement ⟨some 0, 16, 2⟩ 0 (.slot 0 1)) h 0 [1, 2] [2] := by
      rw [insert_own_iff c rfl rfl (by decide)]
      decide
    have other : Inserts (Vec.insert intElement ⟨some 0, 16, 2⟩ 0 (.slot 0 1)) h 0 [1, 2] [1] :=
      insert_own_stores c rfl (by decide) (by decide) (by decide) rfl
    exact ⟨_, h, run, c, rfl, other, lost⟩

end Nanolibc.VectorModel
