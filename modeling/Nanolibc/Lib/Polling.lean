import Mathlib.Data.Nat.Find
import Mathlib.Data.Nat.Notation
import Mathlib.Tactic.Common

set_option autoImplicit false

namespace Lib.Polling

variable {α β : Type} {body : ℕ → Option α} {n k fuel : ℕ} {a b : α}

/-- The round that returned, and what; nothing when the rounds are spent. -/
def rounds (body : ℕ → Option α) : ℕ → ℕ → Option (ℕ × α)
  | 0, _ => none
  | fuel + 1, k =>
    match body k with
    | some a => some (k, a)
    | none => rounds body fuel (k + 1)

def First (body : ℕ → Option α) (n : ℕ) (a : α) : Prop :=
  body n = some a ∧ ∀ j, j < n → body j = none

theorem First.unique {m : ℕ} (first : First body n a) (first' : First body m b) :
    n = m ∧ a = b := by
  obtain ⟨here, before⟩ := first
  obtain ⟨here', before'⟩ := first'
  have same : n = m := by
    rcases Nat.lt_trichotomy n m with low | same | high
    · rw [before' n low] at here
      cases here
    · exact same
    · rw [before m high] at here'
      cases here'
  subst same
  exact ⟨rfl, Option.some.inj (here.symm.trans here')⟩

theorem first_exists (returned : body k = some a) : ∃ n b, First body n b := by
  have returns : ∃ n, (body n).isSome := ⟨k, by rw [returned]; rfl⟩
  obtain ⟨b, here⟩ := Option.isSome_iff_exists.mp (Nat.find_spec returns)
  refine ⟨Nat.find returns, b, here, ?_⟩
  intro j low
  exact Option.not_isSome_iff_eq_none.mp (Nat.find_min returns low)

theorem First.map {f : α → β} {body' : ℕ → Option β} (same : ∀ k, body' k = (body k).map f)
    (first : First body n a) : First body' n (f a) := by
  constructor
  · rw [same, first.1]
    rfl
  · intro j low
    rw [same, first.2 j low]
    rfl

theorem rounds_skip (before : ∀ j, k ≤ j → j < n → body j = none) (low : k ≤ n)
    (here : body n = some a) (enough : n < k + fuel) : rounds body fuel k = some (n, a) := by
  induction fuel generalizing k with
  | zero => omega
  | succ fuel ih =>
    unfold rounds
    by_cases last : k = n
    · subst last
      rw [here]
    · rw [before k (Nat.le_refl k) (by omega)]
      exact ih (fun j => fun up down => before j (by omega) down) (by omega) (by omega)

theorem rounds_of_first (first : First body n a) (enough : n < fuel) :
    rounds body fuel 0 = some (n, a) :=
  rounds_skip (fun j _ => first.2 j) (Nat.zero_le n) first.1 (by omega)

theorem rounds_some {r : ℕ × α} (run : rounds body fuel k = some r) :
    body r.1 = some r.2 ∧ ∀ j, k ≤ j → j < r.1 → body j = none := by
  induction fuel generalizing k with
  | zero => cases run
  | succ fuel ih =>
    unfold rounds at run
    cases here : body k with
    | some a =>
      rw [here] at run
      cases run
      exact ⟨here, fun j up down => absurd up (by omega)⟩
    | none =>
      rw [here] at run
      obtain ⟨found, before⟩ := ih run
      refine ⟨found, ?_⟩
      intro j up down
      by_cases first : j = k
      · rw [first, here]
      · exact before j (by omega) down

theorem first_of_rounds {r : ℕ × α} (run : rounds body fuel 0 = some r) :
    First body r.1 r.2 :=
  ⟨(rounds_some run).1, fun j => (rounds_some run).2 j (Nat.zero_le j)⟩

theorem rounds_none (never : ∀ k, body k = none) : rounds body fuel 0 = none := by
  cases run : rounds body fuel 0 with
  | none => rfl
  | some r =>
    have here := (first_of_rounds run).1
    rw [never] at here
    cases here

end Lib.Polling
