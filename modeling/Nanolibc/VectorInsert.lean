import Mathlib.Data.List.Forall2
import Nanolibc.VectorContents

set_option autoImplicit false

namespace Nanolibc.VectorModel
open Lib.Program Lib.ArrayHeap Lib.OwnedArray
open Lib.ObjectPool hiding Holds Left

variable {α : Type} {T : Element α}

section Hole

variable {h : Heap α} {a p s n : ℕ} {v : Vec} {zs : List α} {bad : Fault → Prop}

def movedUp (zs : List α) (p s n : ℕ) : List α := splice zs (p + n) ((zs.drop p).take (s - p))

theorem movedUp_length (below : p ≤ s) (room : s + n ≤ zs.length) :
    (movedUp zs p s n).length = zs.length := by
  refine splice_length ?_
  simp only [List.length_take, List.length_drop]
  omega

/-- The loop goes down, so that each element is read before its slot is stored to. -/
theorem wp_moveUp (cell : h.cells a = some zs) (below : p ≤ s) (positive : 0 < n)
    (room : s + n ≤ zs.length) :
    wp (loop (s - p) 0 fun k => do
        let i := s + n - 1 - k
        let x ← read (some a) (i - n)
        write (some a) i x)
      (fun _ t => t = h.put a (movedUp zs p s n)) bad h := by
  let inv : ℕ → Heap α → Prop := fun k t => t = h.put a (movedUp zs (s - k) s n)
  have init : inv 0 h := by
    simp only [inv, movedUp, Nat.sub_zero, Nat.sub_self, List.take_zero, splice_nil]
    exact (Heap.put_cell h a zs cell).symm
  refine wp_post (wp_loop inv (s - p) 0 h init ?_) ?_
  · intro k t _ hk ht
    have low : s - (k + 1) + 1 = s - k := by omega
    have part : ((zs.drop (s - k)).take (s - (s - k))).length = k := by
      simp only [List.length_take, List.length_drop]
      omega
    have spare : s - (k + 1) + n + 1 + ((zs.drop (s - k)).take (s - (s - k))).length ≤
        zs.length := by omega
    have inside : s - (k + 1) < zs.length := by omega
    have here : t.cells a = some (movedUp zs (s - k) s n) := by rw [ht, Heap.put_self]
    have get : (movedUp zs (s - k) s n)[s - (k + 1)]? = some zs[s - (k + 1)] := by
      rw [movedUp, splice_get (by omega), if_pos (by omega), List.getElem?_eq_getElem inside]
    have next : zs[s - (k + 1)] :: (zs.drop (s - k)).take (s - (s - k)) =
        (zs.drop (s - (k + 1))).take (s - (s - (k + 1))) := by
      rw [List.drop_eq_getElem_cons inside, low, show s - (s - (k + 1)) = s - (s - k) + 1 by omega,
        List.take_succ_cons]
    have len : (movedUp zs (s - k) s n).length = zs.length := movedUp_length (by omega) room
    simp only [wp_bind, show s + n - 1 - k - n = s - (k + 1) by omega]
    rw [wp_read here get, wp_write here (by omega), ht, Heap.put_put]
    simp only [inv, movedUp]
    rw [show s + n - 1 - k = s - (k + 1) + n by omega, ← next, ← splice_set_before spare]
    congr 3
    omega
  · intro _ t ht
    simp only [inv, Nat.zero_add, show s - (s - p) = p by omega] at ht
    exact ht

theorem wp_insertHole (holds : Holds h v zs) (inside : p ≤ v.nitems) (positive : 0 < n)
    (fits : v.maxNitems < v.nitems + n → (v.nitems + n) * T.size ≤ 2 ^ 63 ∨ bad .diverged) :
    wp (Vec._insertHole T v p n) (fun r h' => ∃ zs₁ dead,
      Left h v h' r.1 (movedUp zs₁ p v.nitems n) dead ∧ Kept T p zs zs₁ dead ∧
      v.nitems + n ≤ zs₁.length ∧ (v.nitems + n ≤ zs.length → zs₁ = zs) ∧
      r.1.nitems = v.nitems + n ∧ r.2 = p) bad h := by
  have used := holds.used_le
  rw [Vec._insertHole, if_pos inside, wp_bind]
  apply wp_post (wp_reserve holds (by omega) fits)
  rintro v₁ h₁ ⟨zs₁, dead, effect, kept, same, cap₁, enough, _, idle⟩
  have after := effect.after holds.buffer
  have room : v.nitems + n ≤ zs₁.length := by omega
  obtain ⟨data, m, k⟩ := v₁
  simp only at effect same cap₁ enough after
  subst same
  cases data with
  | none =>
    have empty : zs₁ = [] := after
    subst empty
    simp at room
    omega
  | some a =>
    have left : Left h v (h₁.put a (movedUp zs₁ p v.nitems n)) ⟨some a, m, v.nitems + n⟩
        (movedUp zs₁ p v.nitems n) dead := by
      refine ⟨effect.store holds.buffer _, ?_, ?_⟩
      · rw [movedUp_length inside room, cap₁]
      · exact enough
    dsimp only
    refine wp_ite (fun _ => ?_) fun last => ?_
    · rw [wp_bind]
      apply wp_post (wp_moveUp after.1 inside positive room)
      rintro _ _ rfl
      exact ⟨zs₁, dead, left, kept, room, idle, rfl, rfl⟩
    · have nothing : movedUp zs₁ p v.nitems n = zs₁ := by
        rw [movedUp, show v.nitems - p = 0 by omega, List.take_zero, splice_nil]
      rw [nothing, Heap.put_cell h₁ a zs₁ after.1] at left
      rw [← nothing] at left
      exact ⟨zs₁, dead, left, kept, room, idle, rfl, rfl⟩

end Hole

def Outside (h : Heap α) (v : Vec) : Ref α → α → Prop
  | .temp y, x => y = x
  | .slot a i, x => v.data ≠ some a ∧ a < h.next ∧ ∃ ws, h.cells a = some ws ∧ ws[i]? = some x

def afterHole (T : Element α) (v : Vec) (olds : List α) (p n : ℕ) : List α :=
  if olds.length + n ≤ v.maxNitems then olds.drop p
  else ((List.range olds.length).drop p).map T.fresh

section Insertion

variable {h h' : Heap α} {v : Vec} {p n s : ℕ} {x : α} {r : Ref α} {range : List (Ref α)}
  {zs zs₁ dead olds news : List α} {bad : Fault → Prop}

theorem wp_load_outside {post : α → Heap α → Prop} {p' : Option ℕ} (outside : Outside h v r x)
    (effect : Effect h v.data h' p' zs dead) : wp (load r) post bad h' = post x h' := by
  cases r with
  | temp y =>
    cases outside
    rfl
  | slot a i =>
    obtain ⟨foreign, old, ws, cell, get⟩ := outside
    rw [load, wp_read ((effect.other foreign old).trans cell) get]

theorem inserted_take (kept : Kept T p zs zs₁ dead) (below : p ≤ s) (inside : p ≤ zs.length)
    (room : s + news.length ≤ zs₁.length) :
    (splice (movedUp zs₁ p s news.length) p news).take (s + news.length) =
      zs.take p ++ news ++ (zs₁.drop p).take (s - p) := by
  have low : (zs₁.take p).length = p := by
    simp only [List.length_take]
    omega
  have tail : ((zs₁.drop p).take (s - p)).length = s - p := by
    simp only [List.length_take, List.length_drop]
    omega
  have front : (zs₁.take (p + news.length)).length = p + news.length := by
    simp only [List.length_take]
    omega
  have upper : (movedUp zs₁ p s news.length).drop (p + news.length) =
      (zs₁.drop p).take (s - p) ++ zs₁.drop (p + news.length + (s - p)) := by
    rw [movedUp, splice, tail, List.append_assoc, List.drop_left' front]
  have lower : (movedUp zs₁ p s news.length).take p = zs.take p := by
    rw [movedUp, splice, List.append_assoc, List.take_append_of_le_length (by omega),
      List.take_take, Nat.min_eq_left (by omega), kept.take inside]
  have total : (zs.take p ++ news ++ (zs₁.drop p).take (s - p)).length = s + news.length := by
    rw [List.length_append, List.length_append, tail, List.length_take]
    omega
  rw [splice, lower, upper, ← List.append_assoc, ← total, List.take_left]

theorem tail_eq (kept : Kept T p zs zs₁ dead) (below : p ≤ s) (inside : s ≤ zs.length)
    (cap : zs.length = v.maxNitems) (room : s + n ≤ zs₁.length)
    (idle : s + n ≤ zs.length → zs₁ = zs) :
    (zs₁.drop p).take (s - p) = afterHole T v (zs.take s) p n := by
  have used : (zs.take s).length = s := by
    simp only [List.length_take]
    omega
  rw [afterHole, used]
  by_cases enough : s + n ≤ v.maxNitems
  · rw [if_pos enough, idle (by omega), List.drop_take]
  · rw [if_neg enough]
    rcases kept with ⟨rfl, _⟩ | ⟨m, _, rfl, _⟩
    · omega
    · have copied : (zs.take p).length = p := by
        simp only [List.length_take]
        omega
      rw [splice_length (by simp; omega), List.length_map, List.length_range] at room
      rw [splice, copied, List.take_zero, List.nil_append, Nat.zero_add, List.drop_left' copied,
        ← List.map_drop, ← List.map_take, ← List.drop_take, List.take_range,
        Nat.min_eq_left (by omega)]

theorem wp_insertRange (c : Contents h v olds) (inside : p ≤ olds.length)
    (outside : List.Forall₂ (Outside h v) range news) (nonempty : news ≠ [])
    (fits : v.maxNitems < olds.length + news.length →
      (olds.length + news.length) * T.size ≤ 2 ^ 63 ∨ bad .diverged) :
    wp (Vec.insertRange T v p range) (fun r h' => r.2 = p ∧
      Contents h' r.1 (olds.take p ++ news ++ afterHole T v olds p news.length)) bad h := by
  have same := c.size
  obtain ⟨zs, holds, rfl⟩ := c
  have size := holds.size_le
  have cap := holds.capacity
  have count := outside.length_eq
  have some_new : news.length ≠ 0 := by simpa using nonempty
  rw [← same] at inside fits
  rw [Vec.insertRange, count, if_neg some_new, wp_bind]
  apply wp_post (wp_insertHole holds inside (by omega) fits)
  rintro ⟨v₁, ret⟩ h₁ ⟨zs₁, dead, left, kept, room, idle, len, rfl⟩
  have effect := left.effect
  have cap₁ := left.capacity
  have long : (movedUp zs₁ ret v.nitems news.length).length = zs₁.length :=
    movedUp_length inside room
  have space : ret + news.length ≤ (movedUp zs₁ ret v.nitems news.length).length := by omega
  dsimp only at effect len cap₁ ⊢
  rw [wp_bind]
  refine wp_post (wp_storeSlots holds.buffer effect space ?_) ?_
  · intro a j y us t here hy within now
    have hj : j < news.length := (List.getElem?_eq_some_iff.mp hy).choose
    obtain ⟨_, each⟩ := List.forall₂_iff_get.mp outside
    have there := each j (by omega) hj
    have value : news.get ⟨j, hj⟩ = y := (List.getElem?_eq_some_iff.mp hy).choose_spec
    rw [value] at there
    have get : range[ret + j - ret]? = some (range.get ⟨j, by omega⟩) := by
      rw [Nat.add_sub_cancel_left]
      exact List.getElem?_eq_getElem _
    rw [here] at now ⊢
    simp only [get, wp_bind]
    rw [wp_load_outside there now, wp_write (now.after holds.buffer).1 within]
  · intro _ h₂ effect₂
    have done : Left h v h₂ v₁ (splice (movedUp zs₁ ret v.nitems news.length) ret news) dead :=
      ⟨effect₂, by rw [splice_length space, cap₁], left.size_le⟩
    refine ⟨rfl, _, done.holds holds, ?_⟩
    rw [len, inserted_take kept inside (by omega) room,
      tail_eq kept inside (by omega) cap room idle, List.take_take, Nat.min_eq_left inside]

theorem afterHole_eq_iff : afterHole T v olds p n = olds.drop p ↔
    olds.length + n ≤ v.maxNitems ∨
      ∀ k, p ≤ k → k < olds.length → olds[k]? = some (T.fresh k) := by
  by_cases enough : olds.length + n ≤ v.maxNitems
  · rw [afterHole, if_pos enough]
    simp [enough]
  · rw [afterHole, if_neg enough]
    simp only [enough, false_or]
    constructor
    · intro same k low high
      have value := congrArg (fun l : List α => l[k - p]?) same
      simp only [List.getElem?_map, List.getElem?_drop, show p + (k - p) = k by omega,
        List.getElem?_range high, Option.map_some] at value
      exact value.symm
    · intro same
      apply List.ext_getElem?
      intro i
      rw [List.getElem?_map, List.getElem?_drop, List.getElem?_drop]
      by_cases high : p + i < olds.length
      · rw [List.getElem?_range high, same (p + i) (Nat.le_add_right ..) high]
        rfl
      · rw [List.getElem?_eq_none (by simpa using high), List.getElem?_eq_none (by omega)]
        rfl

theorem Contents.unique {ws : List α} (one : Contents h v olds) (two : Contents h v ws) :
    olds = ws := by
  obtain ⟨zs, holds, rfl⟩ := one
  obtain ⟨zs', holds', rfl⟩ := two
  rw [buffer_unique holds.buffer holds'.buffer]

theorem wp_insertHole_diverges (inside : p ≤ v.nitems) (grows : v.maxNitems < v.nitems + n)
    (large : 2 ^ 63 < (v.nitems + n) * T.size) :
    wp (Vec._insertHole T v p n) (fun _ _ => False) (fun _ => True) h := by
  rw [Vec._insertHole, if_pos inside, wp_bind]
  exact wp_post (wp_reserve_diverges grows large) fun _ _ impossible => impossible.elim

theorem insert_eq_range : Vec.insert T v p r = Vec.insertRange T v p [r] := by
  simp [Vec.insert, Vec.insertRange, loop]

end Insertion

def Inserts (m : Method α (Vec × ℕ)) (h : Heap α) (p : ℕ) (olds news : List α) : Prop :=
  ∃ v' h', m h = .ok ((v', p), h') ∧ Contents h' v' (olds.take p ++ news ++ olds.drop p) ∧
    v'.nitems = olds.length + news.length

/-- The vector has room, or it can grow and the new array already has the elements from `p` on. -/
def KeepsTail (T : Element α) (v : Vec) (olds : List α) (p n : ℕ) : Prop :=
  olds.length + n ≤ v.maxNitems ∨ ((olds.length + n) * T.size ≤ 2 ^ 63 ∧
    ∀ k, p ≤ k → k < olds.length → olds[k]? = some (T.fresh k))

section Exact

variable {h : Heap α} {v : Vec} {p : ℕ} {range : List (Ref α)} {olds news : List α}

theorem insertRange_diverges (c : Contents h v olds) (inside : p ≤ olds.length)
    (outside : List.Forall₂ (Outside h v) range news) (nonempty : news ≠ [])
    (grows : v.maxNitems < olds.length + news.length)
    (large : 2 ^ 63 < (olds.length + news.length) * T.size) :
    ¬Inserts (Vec.insertRange T v p range) h p olds news := by
  have count := outside.length_eq
  have some_new : news.length ≠ 0 := by simpa using nonempty
  have diverges : wp (Vec.insertRange T v p range) (fun _ _ => False) (fun _ => True) h := by
    rw [← c.size] at inside grows large
    rw [Vec.insertRange, count, if_neg some_new, wp_bind]
    apply wp_post (wp_insertHole_diverges inside grows large)
    intro _ _ impossible
    exact impossible.elim
  rintro ⟨v', h', run, _⟩
  exact (wp_ok diverges run).elim

theorem inserts_iff_tail (c : Contents h v olds) (inside : p ≤ olds.length)
    (outside : List.Forall₂ (Outside h v) range news) (nonempty : news ≠ [])
    (runs : v.maxNitems < olds.length + news.length →
      (olds.length + news.length) * T.size ≤ 2 ^ 63) :
    Inserts (Vec.insertRange T v p range) h p olds news ↔
      afterHole T v olds p news.length = olds.drop p := by
  have inserted : wp (Vec.insertRange T v p range) (fun r h' => r.2 = p ∧
      Contents h' r.1 (olds.take p ++ news ++ afterHole T v olds p news.length)) never h :=
    wp_insertRange c inside outside nonempty fun grows => .inl (runs grows)
  obtain ⟨⟨v', ret⟩, h', run, rfl, after⟩ := wp_never.mp inserted
  constructor
  · rintro ⟨v'', h'', run', contents, _⟩
    rw [run] at run'
    cases run'
    exact List.append_cancel_left (after.unique contents)
  · intro same
    rw [same] at after
    refine ⟨v', h', run, after, ?_⟩
    rw [after.size]
    simp only [List.length_append, List.length_take, List.length_drop]
    omega

theorem insertRange_iff (c : Contents h v olds) (inside : p ≤ olds.length)
    (outside : List.Forall₂ (Outside h v) range news) (nonempty : news ≠ []) :
    Inserts (Vec.insertRange T v p range) h p olds news ↔
      KeepsTail T v olds p news.length := by
  by_cases enough : olds.length + news.length ≤ v.maxNitems
  · have grows : ¬v.maxNitems < olds.length + news.length := by omega
    rw [inserts_iff_tail c inside outside nonempty fun more => (grows more).elim,
      afterHole_eq_iff]
    exact ⟨fun _ => .inl enough, fun _ => .inl enough⟩
  · by_cases small : (olds.length + news.length) * T.size ≤ 2 ^ 63
    · rw [inserts_iff_tail c inside outside nonempty fun _ => small, afterHole_eq_iff, KeepsTail]
      simp only [enough, small, false_or, true_and]
    · have none : ¬Inserts (Vec.insertRange T v p range) h p olds news :=
        insertRange_diverges c inside outside nonempty (by omega) (by omega)
      rw [KeepsTail]
      simp only [none, enough, small, false_and, or_self]

end Exact

theorem ofRange_int (range : List ℕ) (fits : range.length * 4 ≤ 2 ^ 63) :
    ∃ v h, Vec.ofRange intElement range Heap.empty = .ok (v, h) ∧ Contents h v range := by
  have made : wp (Vec.ofRange intElement range) (fun v' h' => Contents h' v' range) never
      Heap.empty := by
    apply wp_post (wp_ofRange (.inl fits))
    rintro v' h' ⟨zs', dead, left, len, shown⟩
    exact ⟨zs', left.holds (vec_null _), by rw [len, shown]⟩
  exact wp_never.mp made

/-- Insertion of elements from outside the vector is right exactly when the vector has room for
them, or when it can grow and the new array happens to have the elements from `p` on, as it does
if there are none. -/
theorem insert_exact_iff (T : Element α) (h : Heap α) (v : Vec) (olds : List α) (p : ℕ)
    (c : Contents h v olds) (inside : p ≤ olds.length) :
    (∀ (range : List (Ref α)) (news : List α), List.Forall₂ (Outside h v) range news →
      news ≠ [] → (Inserts (Vec.insertRange T v p range) h p olds news ↔
        KeepsTail T v olds p news.length)) ∧
    ∀ (r : Ref α) (x : α), Outside h v r x →
      (Inserts (Vec.insert T v p r) h p olds [x] ↔ KeepsTail T v olds p 1) := by
  constructor
  · intro range news outside nonempty
    exact insertRange_iff c inside outside nonempty
  · intro r x outside
    rw [insert_eq_range]
    exact insertRange_iff c inside (.cons outside .nil) (List.cons_ne_nil _ _)

theorem insert_exact_iff_front : ∃ v h, Vec.ofRange intElement [1, 2] Heap.empty = .ok (v, h) ∧
    Inserts (Vec.insert intElement v 0 (.temp 7)) h 0 [1, 2] [7] := by
  obtain ⟨v, h, run, c⟩ := ofRange_int [1, 2] (by decide)
  have fields : (Vec.ofRange intElement [1, 2] Heap.empty).map Prod.fst = .ok ⟨some 0, 16, 2⟩ :=
    rfl
  rw [run] at fields
  cases fields
  exact ⟨_, h, run, ((insert_exact_iff intElement h _ [1, 2] 0 c (by decide)).2 (.temp 7) 7
    rfl).mpr (.inl (by decide))⟩

/-- A `vector<int>` of 16 elements is full; an insertion at the front loses them all. -/
theorem insert_front_loses : ∃ v h,
    Vec.ofRange intElement (List.range 16) Heap.empty = .ok (v, h) ∧
    Contents h v (List.range 16) ∧
    ¬Inserts (Vec.insert intElement v 0 (.temp 7)) h 0 (List.range 16) [7] := by
  obtain ⟨v, h, run, c⟩ := ofRange_int (List.range 16) (by decide)
  have fields : (Vec.ofRange intElement (List.range 16) Heap.empty).map Prod.fst =
      .ok ⟨some 0, 16, 16⟩ := rfl
  refine ⟨v, h, run, c, ?_⟩
  rw [run] at fields
  cases fields
  have outside : List.Forall₂ (Outside h ⟨some 0, 16, 16⟩) [.temp 7] [7] := .cons rfl .nil
  rw [insert_eq_range, insertRange_iff c (Nat.zero_le _) outside (by decide)]
  rintro (enough | ⟨_, same⟩)
  · exact absurd enough (by decide)
  · exact absurd (same 0 (Nat.le_refl _) (by decide)) (by decide)

end Nanolibc.VectorModel
