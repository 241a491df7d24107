import Nanolibc.VectorContents

set_option autoImplicit false

namespace Nanolibc.VectorModel
open Lib.Program Lib.ArrayHeap Lib.OwnedArray

/-- The loop with both of its variables on exit, `new_max_nitems` and `new_nbytes`, after at most
`rounds` tests of its condition. -/
def growExit (size n : ℕ) : ℕ → ℕ → Option (ℕ × ℕ)
  | 0, _ => none
  | rounds + 1, nbytes =>
    if nbytes / size < n then growExit size n rounds (nbytes * 2 % 2 ^ 64)
    else some (nbytes / size, nbytes)

def GrowsRight (size maxNitems n : ℕ) : Prop :=
  n ≤ maxNitems ∨ ∃ rounds m nbytes, growExit size n rounds 64 = some (m, nbytes) ∧
    n ≤ m ∧ m * size ≤ nbytes

section Loop

variable {size n m nbytes rounds : ℕ}

theorem growExit_fst : ∀ {rounds start : ℕ},
    (growExit size n rounds start).map Prod.fst = growLoop size n rounds start := by
  intro rounds
  induction rounds with
  | zero =>
    intro start
    rfl
  | succ rounds ih =>
    intro start
    rw [growExit, growLoop]
    split_ifs
    · exact ih
    · rfl

theorem growExit_fits : ∀ {rounds start : ℕ},
    growExit size n rounds start = some (m, nbytes) → n ≤ m ∧ m * size ≤ nbytes := by
  intro rounds
  induction rounds with
  | zero =>
    intro start exit
    cases exit
  | succ rounds ih =>
    intro start exit
    rw [growExit] at exit
    split_ifs at exit with small
    · exact ih exit
    · cases exit
      exact ⟨Nat.le_of_not_lt small, Nat.div_mul_le_self nbytes size⟩

/-- No number of rounds ends the loop where sixty do not. -/
theorem growExit_some_iff (positive : 0 < size) :
    (∃ rounds r, growExit size n rounds 64 = some r) ↔ n * size ≤ 2 ^ 63 := by
  constructor
  · intro ⟨rounds, ⟨m, nbytes⟩, exit⟩
    have loop : growLoop size n rounds 64 = some m := by
      rw [← growExit_fst, exit]
      rfl
    have small : m * size ≤ 2 ^ 63 := growLoop_le (e := 6) loop
    exact le_trans (Nat.mul_le_mul_right size (growLoop_enough loop)) small
  · intro fits
    obtain ⟨m, loop⟩ := (growLoop_some_iff positive).mpr fits
    rw [← growExit_fst, Option.map_eq_some_iff] at loop
    obtain ⟨r, exit, _⟩ := loop
    exact ⟨60, r, exit⟩

theorem growsRight_iff {maxNitems : ℕ} (positive : 0 < size) :
    GrowsRight size maxNitems n ↔ n ≤ maxNitems ∨ n * size ≤ 2 ^ 63 := by
  unfold GrowsRight
  apply or_congr_right
  rw [← growExit_some_iff positive]
  constructor
  · intro ⟨rounds, m, nbytes, exit, _⟩
    exact ⟨rounds, (m, nbytes), exit⟩
  · intro ⟨rounds, (m, nbytes), exit⟩
    exact ⟨rounds, m, nbytes, exit, growExit_fits exit⟩

end Loop

theorem reserve_ends_iff {α : Type} {T : Element α} {h : Heap α} {v : Vec} {zs : List α}
    {n copyOnly : ℕ} (holds : Holds h v zs) (copies : copyOnly ≤ v.nitems) :
    (∃ v' h', Vec._reserve T v n copyOnly h = .ok (v', h') ∧ n ≤ v'.maxNitems) ↔
      GrowsRight T.size v.maxNitems n := by
  have cap := holds.capacity
  have size := holds.size_le
  rw [growsRight_iff T.size_pos]
  constructor
  · intro ⟨v', h', run, _⟩
    by_contra large
    exact wp_ok (wp_reserve_diverges (by omega) (by omega)) run
  · intro ends
    have reserved : wp (Vec._reserve T v n copyOnly) (fun v' _ => n ≤ v'.maxNitems) never h := by
      apply wp_post (wp_reserve holds (by omega) fun more => .inl (by omega))
      intro v' h' ⟨_, _, _, _, _, _, enough, _⟩
      exact enough
    exact wp_never.mp reserved

/-- The loop of `_reserve` ends, with a capacity that is enough and fits in the bytes computed,
exactly when no growth is needed or the request takes at most 2^63 bytes; and so does `_reserve`
for every vector. -/
theorem grow_loop_iff (size maxNitems n : ℕ) (positive : 0 < size) :
    (GrowsRight size maxNitems n ↔ n ≤ maxNitems ∨ n * size ≤ 2 ^ 63) ∧
      (∀ rounds m nbytes, growExit size n rounds 64 = some (m, nbytes) →
        n ≤ m ∧ m * size ≤ nbytes) ∧
      ∀ (α : Type) (T : Element α) (h : Heap α) (v : Vec) (zs : List α), T.size = size →
        v.maxNitems = maxNitems → Holds h v zs →
        ((∃ v' h', Vec.reserve T v n h = .ok (v', h') ∧ n ≤ v'.maxNitems) ↔
          GrowsRight size maxNitems n) := by
  constructor
  · exact growsRight_iff positive
  · constructor
    · intro rounds m nbytes exit
      exact growExit_fits exit
    · intro α T h v zs same cap holds
      rw [← same, ← cap]
      exact reserve_ends_iff holds (Nat.le_refl _)

theorem grow_loop_iff_int : GrowsRight 4 0 1000 := by
  have exact := grow_loop_iff 4 0 1000 (by decide)
  exact exact.1.mpr (.inr (by norm_num))

/-- A byte vector asked for 2^63 + 1 elements never leaves the loop. -/
theorem grow_loop_endless : (∀ rounds, growExit 1 (2 ^ 63 + 1) rounds 64 = none) ∧
    ¬GrowsRight 1 0 (2 ^ 63 + 1) := by
  constructor
  · intro rounds
    cases exit : growExit 1 (2 ^ 63 + 1) rounds 64 with
    | none => rfl
    | some r =>
      have small := (growExit_some_iff Nat.one_pos).mp ⟨rounds, r, exit⟩
      norm_num at small
  · rw [growsRight_iff Nat.one_pos]
    norm_num

end Nanolibc.VectorModel
