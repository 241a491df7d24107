import Mathlib.Data.Nat.ModEq
import Mathlib.Data.Nat.Prime.Basic
import Mathlib.Data.List.Basic
import Mathlib.Logic.Function.Basic

set_option autoImplicit false

namespace Lib.Mixing

section Rounds

variable {σ α : Type} {round : σ → α → σ}

theorem foldl_injective (lossless : ∀ a, Function.Injective fun s => round s a) (xs : List α) :
    Function.Injective fun s => xs.foldl round s := by
  induction xs with
  | nil => exact Function.injective_id
  | cons a xs ih =>
    intro s t same
    exact lossless a (ih same)

theorem foldl_append_ne (lossless : ∀ a, Function.Injective fun s => round s a) {s : σ}
    {xs ys : List α} (apart : xs.foldl round s ≠ ys.foldl round s) (zs : List α) :
    (xs ++ zs).foldl round s ≠ (ys ++ zs).foldl round s := by
  rw [List.foldl_append, List.foldl_append]
  exact fun same => apart (foldl_injective lossless zs same)

/-- One differing element is enough where a round also keeps its elements apart. -/
theorem foldl_change_ne (lossless : ∀ a, Function.Injective fun s => round s a)
    (fed : ∀ s, Function.Injective (round s)) {s : σ} {a b : α} (xs zs : List α) (differ : a ≠ b) :
    (xs ++ a :: zs).foldl round s ≠ (xs ++ b :: zs).foldl round s := by
  rw [List.append_cons, List.append_cons xs b]
  apply foldl_append_ne lossless
  rw [List.foldl_append, List.foldl_append]
  exact fun same => differ (fed _ same)

end Rounds

section Words

variable {w : ℕ}

theorem mul_odd_injective {m : BitVec w} (odd : m.toNat % 2 = 1) :
    Function.Injective fun x => x * m := by
  intro x y same
  have coprime : Nat.gcd (2 ^ w) m.toNat = 1 :=
    Nat.Coprime.pow_left w (Nat.coprime_two_left.mpr (Nat.odd_iff.mpr odd))
  have products : x.toNat * m.toNat ≡ y.toNat * m.toNat [MOD 2 ^ w] := by
    have values := congrArg BitVec.toNat same
    rwa [BitVec.toNat_mul, BitVec.toNat_mul] at values
  have factors := Nat.ModEq.cancel_right_of_coprime coprime products
  apply BitVec.eq_of_toNat_eq
  rwa [Nat.ModEq, Nat.mod_eq_of_lt x.isLt, Nat.mod_eq_of_lt y.isLt] at factors

theorem xor_shift_injective {k : ℕ} (shifts : 0 < k) :
    Function.Injective fun x : BitVec w => x ^^^ (x >>> k) := by
  intro x y same
  have upper : ∀ n i : ℕ, w ≤ i + n → x.getLsbD i = y.getLsbD i := by
    intro n
    induction n with
    | zero =>
      intro i beyond
      rw [BitVec.getLsbD_of_ge x i beyond, BitVec.getLsbD_of_ge y i beyond]
    | succ n ih =>
      intro i reach
      have bit := congrArg (fun z => z.getLsbD i) same
      simp only [BitVec.getLsbD_xor, BitVec.getLsbD_ushiftRight] at bit
      rw [ih (k + i) (by omega)] at bit
      exact Bool.xor_left_inj.mp bit
  exact BitVec.eq_of_getLsbD_eq fun i _ => upper w i (by omega)

end Words

end Lib.Mixing
