import Mathlib.Data.List.Basic
import Mathlib.Data.Nat.Notation
import Mathlib.Order.Defs.Unbundled
import Mathlib.Tactic.Common

set_option autoImplicit false

namespace Lib.Position

variable {α : Type} {before : ℕ → ℕ → Prop} {p q : α → Prop} {x : α} {xs : List α} {o o' : Option ℕ}

/-- No element with `p` stands at a position `before` that of the result. -/
def PickAt (before : ℕ → ℕ → Prop) (p : α → Prop) (xs : List α) : Option ℕ → Prop
  | none => ∀ x ∈ xs, ¬p x
  | some k => (∃ x, xs[k]? = some x ∧ p x) ∧ ∀ j x, before j k → xs[j]? = some x → ¬p x

abbrev FirstAt (p : α → Prop) (xs : List α) (o : Option ℕ) : Prop := PickAt (· < ·) p xs o

abbrev LastAt (p : α → Prop) (xs : List α) (o : Option ℕ) : Prop := PickAt (· > ·) p xs o

theorem pickAt_none_iff (found : PickAt before p xs o) : o = none ↔ ∀ x ∈ xs, ¬p x := by
  cases o with
  | none => exact ⟨fun _ => found, fun _ => rfl⟩
  | some k =>
    obtain ⟨⟨x, get, holds⟩, _⟩ := found
    constructor
    · intro none_
      cases none_
    · intro nowhere
      exact (nowhere x (List.mem_of_getElem? get) holds).elim

theorem pickAt_congr (same : ∀ x ∈ xs, (p x ↔ q x)) (found : PickAt before p xs o) :
    PickAt before q xs o := by
  cases o with
  | none => exact fun x hx => (same x hx).not.mp (found x hx)
  | some k =>
    obtain ⟨⟨x, get, holds⟩, earlier⟩ := found
    refine ⟨⟨x, get, (same x (List.mem_of_getElem? get)).mp holds⟩, ?_⟩
    intro j y less get'
    exact (same y (List.mem_of_getElem? get')).not.mp (earlier j y less get')

theorem pickAt_snoc_iff (not : ¬p x) : PickAt before p (xs ++ [x]) o ↔ PickAt before p xs o := by
  have get : ∀ {k : ℕ} {y : α}, p y → ((xs ++ [x])[k]? = some y ↔ xs[k]? = some y) := by
    intro k y holds
    rw [List.getElem?_append]
    split_ifs with inside
    · exact Iff.rfl
    · rw [List.getElem?_eq_none (Nat.le_of_not_lt inside)]
      refine ⟨fun last => ?_, fun none_ => by cases none_⟩
      have here := List.mem_of_getElem? last
      rw [List.mem_singleton.mp here] at holds
      exact (not holds).elim
  cases o with
  | none => simp [PickAt, or_imp, forall_and, not]
  | some k =>
    have picked : (∃ y, (xs ++ [x])[k]? = some y ∧ p y) ↔ ∃ y, xs[k]? = some y ∧ p y :=
      exists_congr fun y => ⟨fun ⟨at_, holds⟩ => ⟨(get holds).mp at_, holds⟩,
        fun ⟨at_, holds⟩ => ⟨(get holds).mpr at_, holds⟩⟩
    have others : (∀ j y, before j k → (xs ++ [x])[j]? = some y → ¬p y) ↔
        ∀ j y, before j k → xs[j]? = some y → ¬p y :=
      forall₂_congr fun j y => imp_congr_right fun _ =>
        ⟨fun no at_ holds => no ((get holds).mpr at_) holds,
          fun no at_ holds => no ((get holds).mp at_) holds⟩
    exact and_congr picked others

theorem pickAt_unique [Std.Trichotomous before] (found : PickAt before p xs o)
    (found' : PickAt before p xs o') : o = o' := by
  cases o with
  | none => exact ((pickAt_none_iff found').mpr found).symm
  | some k =>
    cases o' with
    | none => exact (pickAt_none_iff found).mpr found'
    | some k' =>
      obtain ⟨⟨x, get, holds⟩, earlier⟩ := found
      obtain ⟨⟨x', get', holds'⟩, earlier'⟩ := found'
      have same : k = k' := Std.Trichotomous.trichotomous k k'
        (fun less => earlier' k x less get holds) (fun less => earlier k' x' less get' holds')
      rw [same]

theorem firstAt_cons_pos (holds : p x) : FirstAt p (x :: xs) (some 0) :=
  ⟨⟨x, rfl, holds⟩, fun _ _ less _ => (Nat.not_lt_zero _ less).elim⟩

theorem firstAt_cons_neg (not : ¬p x) (found : FirstAt p xs o) :
    FirstAt p (x :: xs) (o.map (· + 1)) := by
  cases o with
  | none =>
    intro y hy
    rcases List.mem_cons.mp hy with rfl | later
    · exact not
    · exact found y later
  | some k =>
    refine ⟨found.1, ?_⟩
    intro j y less get
    cases j with
    | zero =>
      cases get
      exact not
    | succ j => exact found.2 j y (Nat.lt_of_succ_lt_succ less) get

theorem lastAt_snoc_pos (holds : p x) : LastAt p (xs ++ [x]) (some xs.length) := by
  refine ⟨⟨x, List.getElem?_concat_length, holds⟩, ?_⟩
  intro j y later get
  have beyond : (xs ++ [x]).length ≤ j := by
    rw [List.length_append, List.length_singleton]
    exact later
  rw [List.getElem?_eq_none beyond] at get
  cases get

end Lib.Position
