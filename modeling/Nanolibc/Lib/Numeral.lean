import Mathlib.Data.Nat.Digits.Lemmas
import Mathlib.Tactic.Ring

set_option autoImplicit false

namespace Lib.Numeral

/-- The value after the digits `ds`, where `acc` is the value before them. -/
def value (b : ℕ) : ℕ → List ℕ → ℕ
  | acc, [] => acc
  | acc, d :: ds => value b (acc * b + d) ds

variable {b acc d limit : ℕ} {ds : List ℕ}

theorem value_ofDigits : value b acc ds = acc * b ^ ds.length + Nat.ofDigits b ds.reverse := by
  induction ds generalizing acc with
  | nil => simp [value]
  | cons d ds ih =>
    rw [value, ih, List.reverse_cons, Nat.ofDigits_append, Nat.ofDigits_singleton,
      List.length_reverse, List.length_cons]
    ring

/-- One more digit passes the limit exactly when the value before it passes the quotient, or meets
it and the digit passes the remainder. -/
theorem cutoff_iff (hd : d < b) :
    limit < acc * b + d ↔ limit / b < acc ∨ acc = limit / b ∧ limit % b < d := by
  have hb : 0 < b := by omega
  have split := Nat.div_add_mod limit b
  have rem := Nat.mod_lt limit hb
  rcases Nat.lt_trichotomy acc (limit / b) with below | equal | above
  · have step : (acc + 1) * b ≤ limit / b * b := Nat.mul_le_mul_right b below
    rw [Nat.add_mul, Nat.one_mul, Nat.mul_comm (limit / b)] at step
    constructor
    · intro h
      omega
    · rintro (h | ⟨h, _⟩)
      · omega
      · omega
  · subst equal
    rw [Nat.mul_comm (limit / b)]
    constructor
    · intro h
      exact .inr ⟨rfl, by omega⟩
    · rintro (h | ⟨_, h⟩)
      · omega
      · omega
  · have step : (limit / b + 1) * b ≤ acc * b := Nat.mul_le_mul_right b above
    rw [Nat.add_mul, Nat.one_mul, Nat.mul_comm (limit / b)] at step
    exact ⟨fun _ => .inl above, fun _ => by omega⟩

def numeral (b n : ℕ) : List ℕ := if n = 0 then [0] else (Nat.digits b n).reverse

section Numerals

variable {n k : ℕ}

theorem value_numeral (b n : ℕ) : value b 0 (numeral b n) = n := by
  unfold numeral
  by_cases zero : n = 0
  · rw [if_pos zero, zero]
    simp [value]
  · rw [if_neg zero, value_ofDigits, List.reverse_reverse, Nat.ofDigits_digits, Nat.zero_mul,
      Nat.zero_add]

theorem numeral_lt (base : 1 < b) : ∀ d ∈ numeral b n, d < b := by
  intro d digit
  unfold numeral at digit
  by_cases zero : n = 0
  · rw [if_pos zero, List.mem_singleton] at digit
    omega
  · rw [if_neg zero] at digit
    exact Nat.digits_lt_base base (List.mem_reverse.mp digit)

theorem numeral_ne_nil (b n : ℕ) : numeral b n ≠ [] := by
  unfold numeral
  by_cases zero : n = 0
  · rw [if_pos zero]
    exact List.cons_ne_nil 0 []
  · rw [if_neg zero]
    exact fun empty => Nat.digits_ne_nil_iff_ne_zero.mpr zero (List.reverse_eq_nil_iff.mp empty)

theorem numeral_length (base : 1 < b) (some : 0 < k) (small : n < b ^ k) :
    (numeral b n).length ≤ k := by
  unfold numeral
  by_cases zero : n = 0
  · rw [if_pos zero]
    exact some
  · rw [if_neg zero, List.length_reverse]
    exact (Nat.digits_length_le_iff base n).mpr small

end Numerals

end Lib.Numeral
