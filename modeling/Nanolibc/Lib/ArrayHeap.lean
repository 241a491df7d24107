import Mathlib.Data.List.Basic
import Mathlib.Tactic.Ring
import Nanolibc.Lib.Program

set_option autoImplicit false

/-!
# A heap of arrays

Arrays are made by `alloc` and ended by `delete`; a pointer is `none` (NULL) or the number of an
array. Every access is checked: it faults on NULL, on an array that was deleted and past the end
of the array. The heap keeps the order of deletions and the elements they destroyed.
-/
namespace Lib.ArrayHeap
open Lib.Program

inductive Fault where
  | null
  | dead
  | bounds
  | noObject
  | aborted
  | diverged
  deriving DecidableEq, Repr

structure Heap (α : Type) where
  cells : ℕ → Option (List α)
  next : ℕ
  deleted : List ℕ
  destroyed : List α

variable {α : Type}

namespace Heap

def empty : Heap α := ⟨fun _ => none, 0, [], []⟩

def push (h : Heap α) (xs : List α) : Heap α :=
  { h with cells := Function.update h.cells h.next (some xs), next := h.next + 1 }

def put (h : Heap α) (a : ℕ) (xs : List α) : Heap α :=
  { h with cells := Function.update h.cells a (some xs) }

def release (h : Heap α) (a : ℕ) (xs : List α) : Heap α :=
  { h with
      cells := Function.update h.cells a none
      deleted := a :: h.deleted
      destroyed := xs ++ h.destroyed }

@[simp] theorem put_self (h : Heap α) (a : ℕ) (xs : List α) : (h.put a xs).cells a = some xs := by
  simp [put]

theorem put_other (h : Heap α) {a b : ℕ} (xs : List α) (hb : b ≠ a) :
    (h.put a xs).cells b = h.cells b := by
  simp [put, hb]

@[simp] theorem push_self (h : Heap α) (xs : List α) : (h.push xs).cells h.next = some xs := by
  simp [push]

theorem push_other (h : Heap α) {b : ℕ} (xs : List α) (hb : b ≠ h.next) :
    (h.push xs).cells b = h.cells b := by
  simp [push, hb]

@[simp] theorem release_self (h : Heap α) (a : ℕ) (xs : List α) :
    (h.release a xs).cells a = none := by
  simp [release]

theorem release_other (h : Heap α) {a b : ℕ} (xs : List α) (hb : b ≠ a) :
    (h.release a xs).cells b = h.cells b := by
  simp [release, hb]

@[simp] theorem put_put (h : Heap α) (a : ℕ) (xs ys : List α) :
    (h.put a xs).put a ys = h.put a ys := by
  simp [put]

@[simp] theorem push_put (h : Heap α) (xs ys : List α) : (h.push xs).put h.next ys = h.push ys := by
  simp [push, put]

theorem put_cell (h : Heap α) (a : ℕ) (xs : List α) (cell : h.cells a = some xs) :
    h.put a xs = h := by
  cases h with
  | mk cells next deleted destroyed =>
    simp only [put] at cell ⊢
    rw [← cell, Function.update_eq_self]

@[simp] theorem put_next (h : Heap α) (a : ℕ) (xs : List α) : (h.put a xs).next = h.next := rfl

@[simp] theorem push_next (h : Heap α) (xs : List α) : (h.push xs).next = h.next + 1 := rfl

@[simp] theorem release_next (h : Heap α) (a : ℕ) (xs : List α) :
    (h.release a xs).next = h.next := rfl

@[simp] theorem put_deleted (h : Heap α) (a : ℕ) (xs : List α) :
    (h.put a xs).deleted = h.deleted := rfl

@[simp] theorem push_deleted (h : Heap α) (xs : List α) : (h.push xs).deleted = h.deleted := rfl

@[simp] theorem release_deleted (h : Heap α) (a : ℕ) (xs : List α) :
    (h.release a xs).deleted = a :: h.deleted := rfl

@[simp] theorem put_destroyed (h : Heap α) (a : ℕ) (xs : List α) :
    (h.put a xs).destroyed = h.destroyed := rfl

@[simp] theorem push_destroyed (h : Heap α) (xs : List α) :
    (h.push xs).destroyed = h.destroyed := rfl

@[simp] theorem release_destroyed (h : Heap α) (a : ℕ) (xs : List α) :
    (h.release a xs).destroyed = xs ++ h.destroyed := rfl

/-- Nothing is stored at numbers not handed out yet, and the log of deletions is exactly the
arrays handed out and gone, each once. -/
structure Tidy (h : Heap α) : Prop where
  fresh : ∀ a, h.next ≤ a → h.cells a = none
  logged : ∀ a, a ∈ h.deleted ↔ a < h.next ∧ h.cells a = none
  once : h.deleted.Nodup

theorem tidy_empty : (empty : Heap α).Tidy where
  fresh := fun _ _ => rfl
  logged := by intro a; simp [empty]
  once := List.nodup_nil

namespace Tidy

variable {h : Heap α} {a : ℕ} {xs : List α}

theorem live_lt (t : h.Tidy) (cell : h.cells a = some xs) : a < h.next := by
  by_contra far
  rw [t.fresh a (by omega)] at cell
  cases cell

theorem put (t : h.Tidy) (ys : List α) (cell : h.cells a = some xs) : (h.put a ys).Tidy := by
  have old := t.live_lt cell
  refine ⟨?_, ?_, t.once⟩
  · intro b hb
    rw [put_other h ys (by rw [put_next] at hb; omega)]
    exact t.fresh b hb
  · intro b
    rw [put_deleted, put_next, t.logged b]
    by_cases same : b = a
    · subst same
      simp [cell]
    · rw [put_other h ys same]

theorem push (t : h.Tidy) (ys : List α) : (h.push ys).Tidy := by
  refine ⟨?_, ?_, t.once⟩
  · intro b hb
    rw [push_next] at hb
    rw [push_other h ys (by omega)]
    exact t.fresh b (by omega)
  · intro b
    rw [push_deleted, push_next, t.logged b]
    by_cases same : b = h.next
    · subst same
      simp
    · rw [push_other h ys same]
      constructor
      · rintro ⟨old, gone⟩
        exact ⟨by omega, gone⟩
      · rintro ⟨old, gone⟩
        exact ⟨by omega, gone⟩

theorem release (t : h.Tidy) (ys : List α) (cell : h.cells a = some xs) :
    (h.release a ys).Tidy := by
  have old := t.live_lt cell
  refine ⟨?_, ?_, ?_⟩
  · intro b hb
    rw [release_next] at hb
    rw [release_other h ys (by omega)]
    exact t.fresh b hb
  · intro b
    rw [release_deleted, release_next, List.mem_cons, t.logged b]
    by_cases same : b = a
    · subst same
      simp [old]
    · rw [release_other h ys same]
      simp [same]
  · rw [release_deleted, List.nodup_cons]
    refine ⟨?_, t.once⟩
    rw [t.logged a, cell]
    simp

end Tidy

def elements (h : Heap α) : List α := (List.range h.next).flatMap fun a => (h.cells a).getD []

section Elements

variable {h : Heap α} {a : ℕ} {xs : List α} {q : α → Bool}

theorem sum_range_update {f g : ℕ → ℕ} (same : ∀ b, b ≠ a → g b = f b) :
    ∀ {n : ℕ}, a < n →
      ((List.range n).map g).sum + f a = ((List.range n).map f).sum + g a := by
  have below : ∀ n, n ≤ a → (List.range n).map g = (List.range n).map f := by
    intro n far
    refine List.map_congr_left fun b hb => same b ?_
    have := List.mem_range.mp hb
    omega
  intro n
  induction n with
  | zero => intro inside; omega
  | succ n ih =>
    intro inside
    simp only [List.range_succ, List.map_append, List.sum_append, List.map_cons, List.map_nil,
      List.sum_singleton]
    by_cases last : a = n
    · subst last
      rw [below a (Nat.le_refl a)]
      omega
    · have rest := ih (by omega)
      have other := same n (Ne.symm last)
      omega

theorem countP_elements (h : Heap α) (q : α → Bool) :
    h.elements.countP q =
      ((List.range h.next).map fun a => ((h.cells a).getD []).countP q).sum := by
  unfold elements
  rw [List.countP_flatMap]
  rfl

theorem countP_put (cell : h.cells a = some xs) (old : a < h.next) (ys : List α) :
    (h.put a ys).elements.countP q + xs.countP q = h.elements.countP q + ys.countP q := by
  have change := sum_range_update (a := a) (f := fun b => ((h.cells b).getD []).countP q)
    (g := fun b => (((h.put a ys).cells b).getD []).countP q)
    (fun b other => by simp only [put_other h ys other]) old
  simpa only [countP_elements, put_next, put_self, cell, Option.getD_some] using change

theorem countP_push (h : Heap α) (xs : List α) :
    (h.push xs).elements.countP q = h.elements.countP q + xs.countP q := by
  have before : (List.range h.next).map (fun b => (((h.push xs).cells b).getD []).countP q) =
      (List.range h.next).map (fun b => ((h.cells b).getD []).countP q) := by
    refine List.map_congr_left fun b hb => ?_
    have := List.mem_range.mp hb
    rw [push_other h xs (by omega)]
  rw [countP_elements, countP_elements, push_next, List.range_succ, List.map_append, before]
  simp

theorem countP_release (cell : h.cells a = some xs) (old : a < h.next) (ds : List α) :
    (h.release a ds).elements.countP q + xs.countP q = h.elements.countP q := by
  have change := sum_range_update (a := a) (f := fun b => ((h.cells b).getD []).countP q)
    (g := fun b => (((h.release a ds).cells b).getD []).countP q)
    (fun b other => by simp only [release_other h ds other]) old
  simpa only [countP_elements, release_next, release_self, cell, Option.getD_some, Option.getD_none,
    List.countP_nil, Nat.add_zero] using change

end Elements

end Heap

def alloc (xs : List α) : Prog (Heap α) Fault ℕ := do
  let h ← get
  set (h.push xs)
  return h.next

def slots (p : Option ℕ) : Prog (Heap α) Fault (ℕ × List α) :=
  match p with
  | none => throw .null
  | some a => do
    let h ← get
    match h.cells a with
    | none => throw .dead
    | some xs => return (a, xs)

def read (p : Option ℕ) (i : ℕ) : Prog (Heap α) Fault α := do
  let (_, xs) ← slots p
  match xs[i]? with
  | none => throw .bounds
  | some x => return x

def write (p : Option ℕ) (i : ℕ) (x : α) : Prog (Heap α) Fault Unit := do
  let (a, xs) ← slots p
  if i < xs.length then modify (fun h => h.put a (xs.set i x)) else throw .bounds

def delete (p : Option ℕ) : Prog (Heap α) Fault Unit :=
  match p with
  | none => pure ()
  | some a => do
    let h ← get
    match h.cells a with
    | none => throw .dead
    | some xs => set (h.release a xs)

section Rules

variable {h : Heap α} {a i : ℕ} {x : α} {xs : List α} {bad : Fault → Prop}

@[simp] theorem wp_alloc {post : ℕ → Heap α → Prop} :
    wp (alloc xs) post bad h = post h.next (h.push xs) := rfl

theorem wp_slots {post : ℕ × List α → Heap α → Prop} (cell : h.cells a = some xs) :
    wp (slots (some a)) post bad h = post (a, xs) h := by
  simp only [slots, wp_bind, wp_get, cell, wp_pure]

theorem wp_read {post : α → Heap α → Prop} (cell : h.cells a = some xs) (get : xs[i]? = some x) :
    wp (read (some a) i) post bad h = post x h := by
  simp only [read, wp_bind, wp_slots cell, get, wp_pure]

theorem wp_write {post : Unit → Heap α → Prop} (cell : h.cells a = some xs) (hi : i < xs.length) :
    wp (write (some a) i x) post bad h = post () (h.put a (xs.set i x)) := by
  simp only [write, wp_bind, wp_slots cell, hi, if_true, wp_modify]

theorem wp_write_outside {post : Unit → Heap α → Prop} (cell : h.cells a = some xs)
    (far : xs.length ≤ i) : wp (write (some a) i x) post bad h = bad .bounds := by
  have outside : ¬i < xs.length := by omega
  simp only [write, wp_bind, wp_slots cell, outside, if_false, wp_throw]

theorem wp_read_dead {post : α → Heap α → Prop} (gone : h.cells a = none) :
    wp (read (some a) i) post bad h = bad .dead := by
  simp only [read, slots, wp_bind, wp_get, gone, wp_throw]

theorem wp_read_keeps {p : Option ℕ} :
    wp (read p i) (fun _ t => t = h) (fun _ => True) h := by
  cases p with
  | none => trivial
  | some a =>
    simp only [read, slots, wp_bind, wp_get]
    cases h.cells a with
    | none => trivial
    | some xs =>
      rw [wp_pure]
      cases xs[i]? with
      | none => trivial
      | some x => rfl

theorem wp_write_keeps {p : Option ℕ} :
    wp (write p i x) (fun _ t => t.next = h.next ∧ ∀ b, p ≠ some b → t.cells b = h.cells b)
      (fun _ => True) h := by
  cases p with
  | none => trivial
  | some a =>
    simp only [write, slots, wp_bind, wp_get]
    cases h.cells a with
    | none => trivial
    | some xs =>
      rw [wp_pure]
      apply wp_ite
      · intro _
        exact ⟨rfl, fun b other => Heap.put_other h _ fun same => other (congrArg some same.symm)⟩
      · intro _
        trivial

@[simp] theorem wp_delete_null {post : Unit → Heap α → Prop} :
    wp (delete none) post bad h = post () h := rfl

theorem wp_delete {post : Unit → Heap α → Prop} (cell : h.cells a = some xs) :
    wp (delete (some a)) post bad h = post () (h.release a xs) := by
  simp only [delete, wp_bind, wp_get, cell, wp_set]

end Rules

section Splice

/-- `zs` with `ys` stored from index `start` on. -/
def splice (zs : List α) (start : ℕ) (ys : List α) : List α :=
  zs.take start ++ ys ++ zs.drop (start + ys.length)

variable {zs ys : List α} {start : ℕ}

@[simp] theorem splice_nil : splice zs start [] = zs := by
  simp [splice]

theorem splice_length (room : start + ys.length ≤ zs.length) :
    (splice zs start ys).length = zs.length := by
  simp only [splice, List.length_append, List.length_take, List.length_drop]
  omega

theorem splice_get (room : start + ys.length ≤ zs.length) (i : ℕ) :
    (splice zs start ys)[i]? =
      if i < start then zs[i]? else if i < start + ys.length then ys[i - start]? else zs[i]? := by
  have hs : (zs.take start).length = start := by simp only [List.length_take]; omega
  unfold splice
  rw [List.append_assoc]
  split_ifs with low mid
  · rw [List.getElem?_append_left (by omega), List.getElem?_take_of_lt low]
  · rw [List.getElem?_append_right (by omega), hs, List.getElem?_append_left (by omega)]
  · rw [List.getElem?_append_right (by omega), hs, List.getElem?_append_right (by omega),
      List.getElem?_drop]
    congr 1
    omega

theorem splice_set {j : ℕ} {y : α} (room : start + ys.length ≤ zs.length) (hy : ys[j]? = some y) :
    (splice zs start (ys.take j)).set (start + j) y = splice zs start (ys.take (j + 1)) := by
  have hj : j < ys.length := (List.getElem?_eq_some_iff.mp hy).choose
  have short : (ys.take j).length = j := by simp only [List.length_take]; omega
  have short' : (ys.take (j + 1)).length = j + 1 := by simp only [List.length_take]; omega
  have len : (splice zs start (ys.take j)).length = zs.length := splice_length (by omega)
  apply List.ext_getElem?
  intro i
  rw [List.getElem?_set, splice_get (by omega), splice_get (by omega), short, short', len]
  by_cases here : start + j = i
  · subst here
    have inside : start + j < zs.length := by omega
    simp only [inside, if_true]
    rw [if_neg (by omega), if_pos (by omega), List.getElem?_take_of_lt (by omega)]
    rw [Nat.add_sub_cancel_left, hy]
  · rw [if_neg here]
    by_cases low : i < start
    · rw [if_pos low, if_pos low]
    · rw [if_neg low, if_neg low]
      by_cases mid : i < start + j
      · rw [if_pos mid, if_pos (by omega), List.getElem?_take_of_lt (by omega),
          List.getElem?_take_of_lt (by omega)]
      · rw [if_neg mid, if_neg (by omega)]

theorem splice_set_before {y : α} (room : start + 1 + ys.length ≤ zs.length) :
    (splice zs (start + 1) ys).set start y = splice zs start (y :: ys) := by
  have len : (splice zs (start + 1) ys).length = zs.length := splice_length room
  apply List.ext_getElem?
  intro i
  rw [List.getElem?_set, splice_get room, splice_get (by rw [List.length_cons]; omega), len,
    List.length_cons]
  by_cases here : start = i
  · subst here
    rw [if_pos rfl, if_pos (by omega), if_neg (Nat.lt_irrefl _), if_pos (by omega), Nat.sub_self]
    rfl
  · rw [if_neg here]
    by_cases low : i < start
    · rw [if_pos low, if_pos (by omega)]
    · rw [if_neg low, if_neg (by omega)]
      by_cases mid : i < start + 1 + ys.length
      · rw [if_pos mid, if_pos (by omega), show i - start = i - (start + 1) + 1 by omega]
        rfl
      · rw [if_neg mid, if_neg (by omega)]

theorem splice_append (xs : List α) :
    splice (xs ++ zs) xs.length ys = xs ++ ys ++ zs.drop ys.length := by
  simp [splice]

/-- A counted loop of stores leaves the stored elements spliced in. -/
theorem wp_store {h : Heap α} {a : ℕ} {bad : Fault → Prop} {body : ℕ → Prog (Heap α) Fault Unit}
    (cell : h.cells a = some zs) (room : start + ys.length ≤ zs.length)
    (hbody : ∀ j y t, ys[j]? = some y → t.cells a = some (splice zs start (ys.take j)) →
      t = h.put a (splice zs start (ys.take j)) →
      wp (body (start + j))
        (fun _ u => u = t.put a ((splice zs start (ys.take j)).set (start + j) y)) bad t) :
    wp (loop ys.length start body) (fun _ t => t = h.put a (splice zs start ys)) bad h := by
  let inv : ℕ → Heap α → Prop := fun i t => t = h.put a (splice zs start (ys.take (i - start)))
  have init : inv start h := by
    simp only [inv, Nat.sub_self, List.take_zero, splice_nil]
    exact (Heap.put_cell h a zs cell).symm
  refine wp_post (wp_loop inv ys.length start h init ?_) ?_
  · intro i t lo hi ht
    obtain ⟨j, rfl⟩ := Nat.exists_eq_add_of_le lo
    have hj : j < ys.length := by omega
    have hy : ys[j]? = some ys[j] := List.getElem?_eq_getElem hj
    simp only [inv, Nat.add_sub_cancel_left] at ht
    apply wp_post (hbody j ys[j] t hy (by rw [ht, Heap.put_self]) ht)
    intro _ u hu
    rw [hu, ht, Heap.put_put, splice_set room hy]
    have next : start + j + 1 - start = j + 1 := by omega
    simp only [inv, next]
  · intro _ t ht
    simpa only [inv, Nat.add_sub_cancel_left, List.take_length] using ht

end Splice

end Lib.ArrayHeap
