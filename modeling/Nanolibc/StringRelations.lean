import Nanolibc.StringOrder

set_option autoImplicit false

namespace Nanolibc.StringModel
open Lib.Program Lib.ArrayHeap Lib.OwnedArray Lib.ObjectPool Lib.FirstDifference CString

inductive Relation where
  | eq | ne | le | ge | lt | gt

def Relation.test : Relation → ℤ → Bool
  | .eq, res => res = 0
  | .ne, res => res ≠ 0
  | .le, res => res ≤ 0
  | .ge, res => res ≥ 0
  | .lt, res => res < 0
  | .gt, res => res > 0

/-- The test of `s.compare(data)` in `data op s`. -/
def Relation.testMirrored : Relation → ℤ → Bool
  | .eq, res => res = 0
  | .ne, res => res ≠ 0
  | .le, res => res ≥ 0
  | .ge, res => res ≤ 0
  | .lt, res => res > 0
  | .gt, res => res < 0

def operator (op : Relation) (i j : ℕ) : Sys Bool := do
  let res ← compareAt i j
  return op.test res

/-- `operator op(const char* data, const string& s)`. The string made of `data` takes the next
number and is destroyed after the comparison. -/
def operatorCString (junk : ℕ → ℕ → UInt8) (op : Relation) (data : Bytes) (i : ℕ) : Sys Bool := do
  let pool ← get
  step junk (.ofCString data)
  let res ← compareAt i pool.objs.length
  step junk (.destroy pool.objs.length)
  return op.testMirrored res

def Relation.Holds : Relation → Bytes → Bytes → Prop
  | .eq, xs, ys => xs = ys
  | .ne, xs, ys => xs ≠ ys
  | .le, xs, ys => Before schar xs ys ∨ xs = ys
  | .ge, xs, ys => Before schar ys xs ∨ xs = ys
  | .lt, xs, ys => Before schar xs ys
  | .gt, xs, ys => Before schar ys xs

instance (op : Relation) (xs ys : Bytes) : Decidable (op.Holds xs ys) :=
  match op with
  | .eq => inferInstanceAs (Decidable (xs = ys))
  | .ne => inferInstanceAs (Decidable (xs ≠ ys))
  | .le => inferInstanceAs (Decidable (Before schar xs ys ∨ xs = ys))
  | .ge => inferInstanceAs (Decidable (Before schar ys xs ∨ xs = ys))
  | .lt => inferInstanceAs (Decidable (Before schar xs ys))
  | .gt => inferInstanceAs (Decidable (Before schar ys xs))

section Tests

variable {xs ys : Bytes} {r : ℤ}

theorem test_places (places : Places schar r xs ys) (op : Relation) :
    op.test r = decide (op.Holds xs ys) := by
  have equal := places.equal
  have less := places.less
  have more := places.more
  rw [Bool.eq_iff_iff, decide_eq_true_iff]
  cases op <;> simp only [Relation.test, Relation.Holds, decide_eq_true_iff, ne_eq, ← equal,
    ← less, ← more] <;> omega

theorem testMirrored_places (places : Places schar r xs ys) (op : Relation) :
    op.testMirrored r = decide (op.Holds ys xs) := by
  have equal := places.equal
  have less := places.less
  have more := places.more
  rw [Bool.eq_iff_iff, decide_eq_true_iff]
  cases op <;> simp only [Relation.testMirrored, Relation.Holds, decide_eq_true_iff, ne_eq,
    eq_comm (a := ys), ← equal, ← less, ← more] <;> omega

end Tests

section Operators

variable {junk : ℕ → ℕ → UInt8} {s : System} {ls : ListPool UInt8} {i j : ℕ} {xs ys : Bytes}

theorem compareAt_sign (left : Shows stringClass s i xs) (right : Shows stringClass s j ys) :
    ∃ r, compareAt i j s = .ok (r, s) ∧ r.sign = order schar xs ys := by
  have run : wp (compareAt i j) (fun r t => t = s ∧ r.sign = order schar xs ys) never s :=
    wp_compareAt left right
  obtain ⟨r, _, done, rfl, sign⟩ := wp_never.mp run
  exact ⟨r, done, sign⟩

theorem operator_eq (op : Relation) (left : Shows stringClass s i xs)
    (right : Shows stringClass s j ys) :
    operator op i j s = .ok (decide (op.Holds xs ys), s) := by
  obtain ⟨r, done, sign⟩ := compareAt_sign left right
  rw [operator, run_bind done, test_places (places_of_sign schar_injective sign) op]
  rfl

theorem operatorCString_eq (op : Relation) {data : Bytes} (ends : 0 ∈ data)
    (front : data.takeWhile (· ≠ 0) = xs) (small : xs.length + 1 < 2 ^ 64)
    (rel : Rel stringClass s ls) (right : contents ls i = some ys) :
    ∃ s', operatorCString junk op data i s = .ok (decide (op.Holds xs ys), s') ∧
      Rel stringClass s' (ls ++ [none]) := by
  subst front
  have made : wp (step junk (.ofCString data))
      (fun _ s' => Rel stringClass s' (ls ++ [some (data.takeWhile (· ≠ 0))])) never s :=
    wp_make rel small (wp_ofCString ends small)
  obtain ⟨⟨⟩, s₁, first, rel₁⟩ := wp_never.mp made
  obtain ⟨xs, front⟩ : ∃ xs, data.takeWhile (· ≠ 0) = xs := ⟨_, rfl⟩
  rw [front] at rel₁ ⊢
  have here : contents (ls ++ [some xs]) i = some ys := by
    rw [contents_append, if_neg (Nat.ne_of_lt (contents_lt right)), right]
  have last : contents (ls ++ [some xs]) ls.length = some xs := by
    rw [contents_append, if_pos rfl]
  obtain ⟨r, second, sign⟩ := compareAt_sign (rel₁.shown _ _ here) (rel₁.shown _ _ last)
  have gone : listStep (.destroy ls.length) (ls ++ [some xs]) = some (ls ++ [none]) := by
    simp [listStep, last]
  have dropped : wp (step junk (.destroy ls.length))
      (fun _ s' => Rel stringClass s' (ls ++ [none])) never s₁ :=
    step_simulates _ s₁ _ _ rel₁ gone
  obtain ⟨⟨⟩, s₂, third, rel₂⟩ := wp_never.mp dropped
  rw [← rel.length] at second third
  have start : (get : Sys System) s = .ok (s, s) := rfl
  refine ⟨s₂, ?_, rel₂⟩
  rw [operatorCString, run_bind start, run_bind first, run_bind second, run_bind third,
    testMirrored_places (places_of_sign schar_injective sign) op]
  rfl

end Operators

/-- `compare` decides one strict total order on the byte strings, in which a proper prefix comes
first, and every relational operator is the test of that order that its name says, for two strings
and for a C string on the left of a string. -/
theorem compare_total_order (junk : ℕ → ℕ → UInt8) :
    IsStrictTotalOrder Bytes (Before schar) ∧
    (∀ xs ys : Bytes, xs <+: ys → xs ≠ ys → Before schar xs ys) ∧
    (∀ (s : System) (i j : ℕ) (xs ys : Bytes), Shows stringClass s i xs →
      Shows stringClass s j ys →
      ∃ r r', compareAt i j s = .ok (r, s) ∧ compareAt j i s = .ok (r', s) ∧
        (r = 0 ↔ xs = ys) ∧ (r < 0 ↔ Before schar xs ys) ∧ r'.sign = -r.sign) ∧
    (∀ (op : Relation) (s : System) (i j : ℕ) (xs ys : Bytes), Shows stringClass s i xs →
      Shows stringClass s j ys → operator op i j s = .ok (decide (op.Holds xs ys), s)) ∧
    ∀ (op : Relation) (s : System) (ls : ListPool UInt8) (i : ℕ) (data ys : Bytes), 0 ∈ data →
      (data.takeWhile (· ≠ 0)).length + 1 < 2 ^ 64 → Rel stringClass s ls →
      contents ls i = some ys →
      ∃ s', operatorCString junk op data i s =
          .ok (decide (op.Holds (data.takeWhile (· ≠ 0)) ys), s') ∧
        Rel stringClass s' (ls ++ [none]) := by
  constructor
  · exact before_isStrictTotalOrder schar_injective
  constructor
  · intro xs ys front proper
    exact before_of_prefix front proper
  constructor
  · intro s i j xs ys left right
    obtain ⟨r, done, sign⟩ := compareAt_sign left right
    obtain ⟨r', done', sign'⟩ := compareAt_sign right left
    have places := places_of_sign schar_injective sign
    have swapped : order schar ys xs = -order schar xs ys := order_swap schar_injective
    exact ⟨r, r', done, done', places.equal, places.less, by rw [sign', swapped, sign]⟩
  constructor
  · intro op s i j xs ys left right
    exact operator_eq op left right
  · intro op s ls i data ys ends small rel right
    exact operatorCString_eq op ends rfl small rel right

theorem compare_total_order_ab :
    ∃ s, runAll (step fun _ _ => 7) [.ofData [97, 0] 2, .ofData [200] 1] System.init = .ok ((), s) ∧
      operator .gt 0 1 s = .ok (true, s) ∧
      ∃ s', operatorCString (fun _ _ => 7) .lt [97, 0] 0 s = .ok (true, s') ∧
        Rel stringClass s' [some [97, 0], some [200], none] := by
  obtain ⟨s, run, rel⟩ := run_simulates (fun _ _ => 7) [.ofData [97, 0] 2, .ofData [200] 1]
    [some [97, 0], some [200]] (by decide)
  obtain ⟨_, _, _, strings, cstrings⟩ := compare_total_order fun _ _ => 7
  exact ⟨s, run, strings .gt s 0 1 _ _ (rel.shown 0 _ rfl) (rel.shown 1 _ rfl),
    cstrings .lt s _ 0 [97, 0] _ (by decide) (by decide) rel rfl⟩

end Nanolibc.StringModel
