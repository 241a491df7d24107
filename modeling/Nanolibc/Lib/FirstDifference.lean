import Mathlib.Data.Int.Order.Basic
import Mathlib.Data.List.Basic
import Mathlib.Data.List.Lex
import Mathlib.Order.RelIso.Basic
import Mathlib.Tactic.Common

set_option autoImplicit false

namespace Lib.FirstDifference

variable {α : Type} [DecidableEq α]

def firstDifference (xs ys : List α) (n : ℕ) : Option (α × α) :=
  ((xs.take n).zip (ys.take n)).find? fun p => p.1 ≠ p.2

def difference (value : α → ℤ) (xs ys : List α) (n : ℕ) : ℤ :=
  match firstDifference xs ys n with
  | none => 0
  | some (x, y) => value x - value y

/-- The sign of the lexicographic comparison; a proper prefix is smaller. -/
def order (value : α → ℤ) (xs ys : List α) : ℤ :=
  let d := difference value xs ys (min xs.length ys.length)
  if d ≠ 0 then d.sign else ((xs.length : ℤ) - ys.length).sign

variable {x y : α} {xs ys zs ws : List α} {n : ℕ} {u v : α → ℤ}

@[simp] theorem firstDifference_zero : firstDifference xs ys 0 = none := rfl

@[simp] theorem difference_zero : difference v xs ys 0 = 0 := rfl

theorem firstDifference_cons : firstDifference (x :: xs) (y :: ys) (n + 1) =
    if x = y then firstDifference xs ys n else some (x, y) := by
  rw [firstDifference, List.take_succ_cons, List.take_succ_cons, List.zip_cons_cons,
    List.find?_cons]
  by_cases same : x = y <;> simp [same, firstDifference]

theorem difference_cons : difference v (x :: xs) (y :: ys) (n + 1) =
    if x = y then difference v xs ys n else v x - v y := by
  rw [difference, firstDifference_cons]
  by_cases same : x = y <;> simp [same, difference]

theorem difference_prefix (hx : xs <+: zs) (hy : ys <+: ws) (nx : n ≤ xs.length)
    (ny : n ≤ ys.length) : difference v zs ws n = difference v xs ys n := by
  obtain ⟨xs', rfl⟩ := hx
  obtain ⟨ys', rfl⟩ := hy
  rw [difference, difference, firstDifference, firstDifference, List.take_append_of_le_length nx,
    List.take_append_of_le_length ny]

theorem firstDifference_ne (here : firstDifference xs ys n = some (x, y)) : x ≠ y := by
  have found := List.find?_some here
  simpa using found

theorem difference_eq_zero (inj : Function.Injective v) :
    difference v xs ys n = 0 ↔ firstDifference xs ys n = none := by
  unfold difference
  cases here : firstDifference xs ys n with
  | none => simp
  | some p =>
    obtain ⟨x, y⟩ := p
    have apart : v x ≠ v y := fun same => firstDifference_ne here (inj same)
    constructor
    · intro zero
      have zero : v x - v y = 0 := zero
      omega
    · intro none_
      cases none_

theorem sign_difference_iff : (difference u xs ys n).sign = (difference v xs ys n).sign ↔
    ∀ p ∈ firstDifference xs ys n, (u p.1 - u p.2).sign = (v p.1 - v p.2).sign := by
  unfold difference
  cases firstDifference xs ys n with
  | none => simp
  | some p => simp

theorem order_iff (hu : Function.Injective u) (hv : Function.Injective v) :
    order u xs ys = order v xs ys ↔
      ∀ p ∈ firstDifference xs ys (min xs.length ys.length),
        (u p.1 - u p.2).sign = (v p.1 - v p.2).sign := by
  rw [← sign_difference_iff, order, order]
  by_cases same : firstDifference xs ys (min xs.length ys.length) = none
  · have zu := (difference_eq_zero hu).mpr same
    have zv := (difference_eq_zero hv).mpr same
    simp only [zu, zv, ne_eq, not_true_eq_false, if_false]
  · have zu := (difference_eq_zero hu).not.mpr same
    have zv := (difference_eq_zero hv).not.mpr same
    simp only [ne_eq, zu, zv, not_false_eq_true, if_true]

theorem order_nil_cons : order v [] (y :: ys) = -1 := by
  have shorter : (([] : List α).length : ℤ) - (y :: ys).length < 0 := by
    simp only [List.length_nil, List.length_cons]
    omega
  exact Int.sign_eq_neg_one_of_neg shorter

theorem order_cons_nil : order v (x :: xs) [] = 1 := by
  have longer : ((x :: xs).length : ℤ) - ([] : List α).length > 0 := by
    simp only [List.length_nil, List.length_cons]
    omega
  exact Int.sign_eq_one_of_pos longer

theorem order_cons (hv : Function.Injective v) : order v (x :: xs) (y :: ys) =
    if x = y then order v xs ys else (v x - v y).sign := by
  have sizes : min (x :: xs).length (y :: ys).length = min xs.length ys.length + 1 := by
    simp only [List.length_cons]
    omega
  have lengths : ((x :: xs).length : ℤ) - (y :: ys).length = xs.length - ys.length := by
    simp only [List.length_cons]
    omega
  rw [order, sizes, difference_cons, lengths]
  by_cases same : x = y
  · rw [if_pos same, if_pos same]
    rfl
  · have apart : v x - v y ≠ 0 := fun zero => same (hv (by omega))
    rw [if_neg same, if_neg same]
    simp only [apart, ne_eq, not_false_eq_true, if_true]

section Before

omit [DecidableEq α]

def Before (v : α → ℤ) : List α → List α → Prop := List.Lex fun x y => v x < v y

theorem before_isStrictTotalOrder (hv : Function.Injective v) :
    IsStrictTotalOrder (List α) (Before v) := by
  have elements : IsStrictTotalOrder α fun x y => v x < v y :=
    (RelEmbedding.preimage ⟨v, hv⟩ (fun i j : ℤ => i < j)).isStrictTotalOrder
  unfold Before
  exact { isStrictWeakOrder_of_isOrderConnected with }

theorem before_of_prefix (front : xs <+: ys) (proper : xs ≠ ys) : Before v xs ys := by
  obtain ⟨rest, rfl⟩ := front
  induction xs with
  | nil =>
    cases rest with
    | nil => exact (proper rfl).elim
    | cons y rest => exact .nil
  | cons x xs ih => exact .cons (ih fun same => proper (congrArg (List.cons x) same))

end Before

section Signs

instance (v : α → ℤ) : DecidableRel (Before v) :=
  inferInstanceAs (DecidableRel (List.Lex fun x y => v x < v y))

theorem order_swap (hv : Function.Injective v) : order v ys xs = -order v xs ys := by
  induction xs generalizing ys with
  | nil =>
    cases ys with
    | nil => rfl
    | cons y ys => rw [order_cons_nil, order_nil_cons]; rfl
  | cons x xs ih =>
    cases ys with
    | nil => rw [order_cons_nil, order_nil_cons]
    | cons y ys =>
      rw [order_cons hv, order_cons hv]
      by_cases same : x = y
      · rw [if_pos same, if_pos same.symm, ih]
      · rw [if_neg same, if_neg (Ne.symm same), ← Int.sign_neg, Int.neg_sub]

theorem order_neg_iff (hv : Function.Injective v) : order v xs ys < 0 ↔ Before v xs ys := by
  induction xs generalizing ys with
  | nil =>
    cases ys with
    | nil => exact ⟨fun less => (Int.lt_irrefl 0 less).elim, fun less => nomatch less⟩
    | cons y ys => exact ⟨fun _ => .nil, fun _ => by rw [order_nil_cons]; decide⟩
  | cons x xs ih =>
    cases ys with
    | nil => exact ⟨fun less => by rw [order_cons_nil] at less; omega, fun less => nomatch less⟩
    | cons y ys =>
      rw [order_cons hv, Before, List.cons_lex_cons_iff]
      by_cases same : x = y
      · subst same
        rw [if_pos rfl, ih]
        simp [Before]
      · rw [if_neg same, Int.sign_neg_iff]
        simp only [same, false_and, or_false]
        omega

theorem order_zero_iff (hv : Function.Injective v) : order v xs ys = 0 ↔ xs = ys := by
  have total := before_isStrictTotalOrder hv
  constructor
  · intro zero
    have forth : ¬Before v xs ys := by
      rw [← order_neg_iff hv]
      omega
    have back : ¬Before v ys xs := by
      rw [← order_neg_iff hv, order_swap hv]
      omega
    exact Std.Trichotomous.trichotomous xs ys forth back
  · intro same
    have swapped : order v xs ys = -order v ys xs := order_swap hv
    rw [same] at swapped ⊢
    omega

structure Places (v : α → ℤ) (r : ℤ) (xs ys : List α) : Prop where
  equal : r = 0 ↔ xs = ys
  less : r < 0 ↔ Before v xs ys
  more : 0 < r ↔ Before v ys xs

theorem places_of_sign (hv : Function.Injective v) {r : ℤ} (sign : r.sign = order v xs ys) :
    Places v r xs ys := by
  have swapped : order v ys xs = -order v xs ys := order_swap hv
  constructor
  · rw [← order_zero_iff hv, ← sign, Int.sign_eq_zero_iff_zero]
  · rw [← order_neg_iff hv, ← sign, Int.sign_neg_iff]
  · rw [← order_neg_iff hv, swapped, ← sign, Int.neg_neg_iff_pos, Int.sign_pos_iff]

end Signs

end Lib.FirstDifference
