import Mathlib.Data.List.Infix
import Mathlib.Data.Nat.Notation

set_option autoImplicit false

namespace Lib.Chunks

variable {α : Type} {n k q : ℕ} {xs ys : List α}

def chunk (n : ℕ) (xs : List α) (k : ℕ) : List α := (xs.drop (k * n)).take n

def count (n length : ℕ) : ℕ := (length + n - 1) / n

theorem chunk_length : (chunk n xs k).length = min n (xs.length - k * n) := by
  rw [chunk, List.length_take, List.length_drop]

theorem chunk_append (inside : (k + 1) * n ≤ xs.length) :
    chunk n (xs ++ ys) k = chunk n xs k := by
  have room : k * n + n ≤ xs.length := by rwa [Nat.succ_mul] at inside
  rw [chunk, chunk, List.drop_append_of_le_length (by omega),
    List.take_append_of_le_length (by rw [List.length_drop]; omega)]

theorem chunk_rest (last : xs.length ≤ (k + 1) * n) : chunk n xs k = xs.drop (k * n) := by
  rw [Nat.succ_mul] at last
  rw [chunk, List.take_of_length_le (by rw [List.length_drop]; omega)]

theorem flatten_chunks (q : ℕ) : ((List.range q).map (chunk n xs)).flatten = xs.take (q * n) := by
  induction q with
  | zero => simp
  | succ q ih =>
    rw [List.range_succ, List.map_append, List.flatten_append, ih, List.map_singleton,
      List.flatten_singleton, chunk, Nat.succ_mul, List.take_add]

theorem count_exact (positive : 0 < n) (whole : xs.length = q * n) : count n xs.length = q := by
  rw [count, whole]
  apply Nat.div_eq_of_lt_le
  · omega
  · rw [Nat.succ_mul]
    omega

theorem count_rest (low : q * n < xs.length) (high : xs.length ≤ (q + 1) * n) :
    count n xs.length = q + 1 := by
  rw [Nat.succ_mul] at high
  rw [count]
  apply Nat.div_eq_of_lt_le
  · rw [Nat.succ_mul]
    omega
  · rw [Nat.succ_mul, Nat.succ_mul]
    omega

theorem le_count_mul (positive : 0 < n) : xs.length ≤ count n xs.length * n := by
  have enough := Nat.lt_mul_div_succ (xs.length + n - 1) positive
  rw [count, Nat.mul_comm]
  rw [Nat.mul_succ] at enough
  omega

theorem flatten_all (positive : 0 < n) :
    ((List.range (count n xs.length)).map (chunk n xs)).flatten = xs := by
  rw [flatten_chunks, List.take_of_length_le (le_count_mul positive)]

theorem chunk_full (positive : 0 < n) (before : k + 1 < count n xs.length) :
    (chunk n xs k).length = n := by
  have most := Nat.div_mul_le_self (xs.length + n - 1) n
  have up : (k + 2) * n ≤ count n xs.length * n := Nat.mul_le_mul_right n before
  unfold count at up
  rw [Nat.add_mul, Nat.two_mul] at up
  rw [chunk_length]
  omega

theorem chunk_ne_nil (positive : 0 < n) (inside : k < count n xs.length) : chunk n xs k ≠ [] := by
  have most := Nat.div_mul_le_self (xs.length + n - 1) n
  have up : (k + 1) * n ≤ count n xs.length * n := Nat.mul_le_mul_right n inside
  unfold count at up
  rw [Nat.succ_mul] at up
  have length : (chunk n xs k).length = _ := chunk_length
  rw [← List.length_pos_iff]
  omega

section Taken

variable {pieces : List (List α × ℕ)}

def taken (pieces : List (List α × ℕ)) : List α := pieces.flatMap fun p => p.1.take p.2

/-- How far the pieces are taken without a gap. -/
def reached : List (List α × ℕ) → ℕ
  | [] => 0
  | (piece, m) :: rest => if piece.length ≤ m then piece.length + reached rest else m

def late : List (List α × ℕ) → List α
  | [] => []
  | (piece, m) :: rest => if piece.length ≤ m then late rest else taken rest

theorem taken_whole (whole : ∀ p ∈ pieces, p.1.length ≤ p.2) :
    taken pieces = (pieces.map Prod.fst).flatten := by
  rw [taken, ← List.flatMap_def]
  apply List.flatMap_congr
  intro p mem
  exact List.take_of_length_le (whole p mem)

theorem taken_length_le :
    ∀ pieces : List (List α × ℕ), (taken pieces).length ≤ (pieces.map Prod.fst).flatten.length := by
  intro pieces
  induction pieces with
  | nil => exact Nat.le_refl 0
  | cons p pieces ih =>
    rw [taken, List.flatMap_cons, List.map_cons, List.flatten_cons, List.length_append,
      List.length_append]
    exact Nat.add_le_add (List.length_take_le' ..) ih

theorem taken_of_length : ∀ {pieces : List (List α × ℕ)},
    (taken pieces).length = (pieces.map Prod.fst).flatten.length →
    taken pieces = (pieces.map Prod.fst).flatten := by
  intro pieces
  induction pieces with
  | nil =>
    intro _
    rfl
  | cons p pieces ih =>
    intro same
    have first : (p.1.take p.2).length ≤ p.1.length := List.length_take_le' ..
    have rest := taken_length_le pieces
    rw [taken, List.flatMap_cons, List.map_cons, List.flatten_cons, List.length_append,
      List.length_append] at same
    change _ + (taken pieces).length = _ at same
    have whole : p.1.take p.2 = p.1 := by
      rw [List.take_eq_self_iff]
      rw [List.length_take] at same first
      omega
    have others : taken pieces = _ := ih (by
      rw [whole] at same
      omega)
    rw [taken, List.flatMap_cons, whole, List.map_cons, List.flatten_cons, ← others, taken]

theorem taken_prefix_iff (pieces : List (List α × ℕ)) :
    taken pieces <+: (pieces.map Prod.fst).flatten ↔
      late pieces <+: (pieces.map Prod.fst).flatten.drop (reached pieces) := by
  induction pieces with
  | nil => simp [taken, late]
  | cons p pieces ih =>
    obtain ⟨piece, m⟩ := p
    have step : taken ((piece, m) :: pieces) = piece.take m ++ taken pieces := List.flatMap_cons
    rw [step, List.map_cons, List.flatten_cons, late, reached]
    dsimp only
    by_cases whole : piece.length ≤ m
    · rw [if_pos whole, if_pos whole, List.take_of_length_le whole, List.prefix_append_right_inj,
        ih, List.drop_length_add_append]
    · have split : piece ++ (pieces.map Prod.fst).flatten =
          piece.take m ++ (piece ++ (pieces.map Prod.fst).flatten).drop m := by
        rw [List.drop_append_of_le_length (by omega), ← List.append_assoc, List.take_append_drop]
      rw [if_neg whole, if_neg whole]
      conv_lhs => rw [split]
      rw [List.prefix_append_right_inj]

end Taken

end Lib.Chunks
