import Nanolibc.VectorMethods

set_option autoImplicit false

namespace Nanolibc.VectorModel
open Lib.Program Lib.ArrayHeap Lib.OwnedArray
open Lib.ObjectPool hiding Holds Left

variable {α : Type} {T : Element α}

section Slots

variable {zs zs₁ dead : List α} {n : ℕ}

theorem pushed_take {x : α} (kept : Kept T n zs zs₁ dead) (inside : n ≤ zs.length)
    (room : n < zs₁.length) : (zs₁.set n x).take (n + 1) = zs.take n ++ [x] := by
  rw [List.take_add_one, List.take_set_of_le (Nat.le_refl n), kept.take inside,
    List.getElem?_set_self room]
  rfl

theorem popped_take {x : α} (inside : n ≤ zs.length) :
    (zs.set (n - 1) x).take (n - 1) = (zs.take n).dropLast := by
  rw [List.take_set_of_le (Nat.le_refl _), List.dropLast_eq_take, List.take_take]
  congr 1
  simp only [List.length_take]
  omega

theorem erased_take {it : ℕ} {hole : α} (below : it < n) (inside : n ≤ zs.length) :
    (holed zs it (n - (it + 1)) hole).take (n - 1) = (zs.take n).eraseIdx it := by
  have low : (zs.take it).length = it := by simp; omega
  have mid : ((zs.drop (it + 1)).take (n - (it + 1))).length = n - (it + 1) := by simp; omega
  have whole : (zs.take it ++ (zs.drop (it + 1)).take (n - (it + 1))).length = n - 1 := by
    rw [List.length_append, low, mid]
    omega
  rw [List.eraseIdx_eq_take_drop_succ, List.take_take, Nat.min_eq_left (by omega),
    List.drop_take]
  unfold holed
  rw [← List.append_assoc, ← whole, List.take_left]

end Slots

def Contents (h : Heap α) (v : Vec) (xs : List α) : Prop :=
  ∃ zs, Holds h v zs ∧ zs.take v.nitems = xs

theorem contents_null (h : Heap α) : Contents h Vec.null [] := ⟨[], vec_null h, rfl⟩

section Items

variable {h : Heap α} {v : Vec} {xs : List α} {i : ℕ} {x : α} {bad : Fault → Prop}

theorem Contents.size (c : Contents h v xs) : v.nitems = xs.length := by
  obtain ⟨zs, holds, rfl⟩ := c
  have used := holds.used_le
  simp only [List.length_take]
  omega

theorem Contents.le_capacity (c : Contents h v xs) : xs.length ≤ v.maxNitems := by
  have size := c.size
  obtain ⟨zs, holds, _⟩ := c
  have := holds.size_le
  omega

theorem Contents.cell (c : Contents h v xs) (inside : i < xs.length) :
    ∃ a zs, v.data = some a ∧ h.cells a = some zs ∧ Holds h v zs ∧ zs.take v.nitems = xs ∧
      i < v.nitems ∧ i < zs.length := by
  have size := c.size
  obtain ⟨zs, holds, shown⟩ := c
  have le := holds.size_le
  have cap := holds.capacity
  have buffer := holds.buffer
  cases here : v.data with
  | none =>
    rw [here] at buffer
    have empty : zs = [] := buffer
    subst empty
    simp only [List.length_nil] at cap
    omega
  | some a =>
    rw [here] at buffer
    exact ⟨a, zs, rfl, buffer.1, holds, shown, by omega, by omega⟩

theorem wp_readItem {post : α → Heap α → Prop} (c : Contents h v xs) (get : xs[i]? = some x) :
    wp (read v.data i) post bad h = post x h := by
  obtain ⟨inside, _⟩ := List.getElem?_eq_some_iff.mp get
  obtain ⟨a, zs, here, cell, _, shown, used, _⟩ := c.cell inside
  rw [here]
  apply wp_read cell
  rw [← get, ← shown, List.getElem?_take_of_lt used]

theorem wp_writeItem (c : Contents h v xs) (inside : i < xs.length) :
    wp (write v.data i x) (fun _ h' => Contents h' v (xs.set i x)) bad h := by
  obtain ⟨a, zs, here, cell, holds, shown, used, room⟩ := c.cell inside
  have buffer := holds.buffer
  have stored : Buffer (h.put a (zs.set i x)) v.data (zs.set i x) := by
    rw [here] at buffer ⊢
    exact ⟨Heap.put_self _ _ _, buffer.2⟩
  rw [here, wp_write cell room]
  refine ⟨zs.set i x, ⟨stored, ?_, holds.size_le⟩, ?_⟩
  · rw [List.length_set, holds.capacity]
  · rw [List.take_set, shown]

theorem wp_at {post : α → Heap α → Prop} (c : Contents h v xs) (get : xs[i]? = some x) :
    wp (Vec.at_ v i) post bad h = post x h := by
  obtain ⟨inside, _⟩ := List.getElem?_eq_some_iff.mp get
  rw [Vec.at_, if_pos (by rw [c.size]; exact inside)]
  exact wp_readItem c get

theorem wp_setAt (c : Contents h v xs) (inside : i < xs.length) :
    wp (Vec.setAt v i x) (fun _ h' => Contents h' v (xs.set i x)) bad h := by
  rw [Vec.setAt, if_pos (by rw [c.size]; exact inside)]
  exact wp_writeItem c inside

theorem wp_pushItem (c : Contents h v xs)
    (fits : v.maxNitems < xs.length + 1 →
      (xs.length + 1) * T.size ≤ 2 ^ 63 ∨ bad .diverged) :
    wp (Vec.pushBackMove T v (.temp x)) (fun v' h' => Contents h' v' (xs ++ [x])) bad h := by
  rw [← c.size] at fits
  obtain ⟨zs, holds, shown⟩ := c
  have used := holds.used_le
  rw [pushBackMove_temp]
  apply wp_post (wp_pushBack holds fits)
  rintro v' h' ⟨zs₁, dead, left, kept, room, len, _⟩
  refine ⟨_, left.holds holds, ?_⟩
  rw [len, pushed_take kept (by omega) room, shown]

theorem wp_popItem (c : Contents h v xs) (items : xs ≠ []) :
    wp (Vec.popBack T v) (fun v' h' => Contents h' v' xs.dropLast) bad h := by
  have some_left : v.nitems ≠ 0 := by
    rw [c.size]
    simpa using items
  obtain ⟨zs, holds, shown⟩ := c
  have used := holds.used_le
  apply wp_post (wp_popBack holds some_left)
  rintro v' h' ⟨left, len⟩
  refine ⟨_, left.holds holds, ?_⟩
  rw [len, popped_take (by omega), shown]

theorem wp_resizeItems {n : ℕ} (c : Contents h v xs)
    (fits : v.maxNitems < n → n * T.size ≤ 2 ^ 63 ∨ bad .diverged) :
    wp (Vec.resize T v n) (fun v' h' =>
      Contents h' v' (xs.take n ++ List.replicate (n - xs.length) T.dflt)) bad h := by
  have size := c.size
  obtain ⟨zs, holds, shown⟩ := c
  apply wp_post (wp_resize holds fits)
  rintro v' h' ⟨zs', dead, left, len, kept⟩
  refine ⟨zs', left.holds holds, ?_⟩
  rw [len, kept, shown, size]

end Items

end Nanolibc.VectorModel
