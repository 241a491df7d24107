import Nanolibc.CStringOrder
import Nanolibc.StringRefinement

set_option autoImplicit false

namespace Nanolibc.StringModel
open Lib.Program Lib.ArrayHeap Lib.OwnedArray Lib.ObjectPool Lib.FirstDifference CString

def compareAt (i j : ℕ) : Sys ℤ := do
  let this ← object i
  let other ← object j
  method (Str.compare this other)

section Compare

variable {s : System} {h : Heap UInt8} {v w : Str} {xs ys : Bytes} {i j n : ℕ} {bad : Fault → Prop}

theorem wp_view {p : Pointer} (reads : Reads h p xs) (bytes : xs ≠ []) :
    wp p.view (fun zs t => t = h ∧ xs <+: zs) bad h := by
  match p with
  | .client object => exact ⟨rfl, reads⟩
  | .array none _ => exact (bytes reads).elim
  | .array (some a) offset =>
    obtain ⟨zs, cell, _, front⟩ := reads
    rw [Pointer.view, wp_bind, wp_slots cell]
    exact ⟨rfl, front⟩

theorem wp_memcmp {p q : Pointer} (left : Reads h p xs) (right : Reads h q ys) (positive : n ≠ 0)
    (hx : n ≤ xs.length) (hy : n ≤ ys.length) :
    wp (memcmp p q n) (fun r t => t = h ∧ r = difference schar xs ys n) bad h := by
  have first : xs ≠ [] := fun empty => by simp [empty] at hx; omega
  have second : ys ≠ [] := fun empty => by simp [empty] at hy; omega
  rw [memcmp, wp_bind]
  apply wp_post (wp_view left first)
  rintro zs _ ⟨rfl, front⟩
  rw [wp_bind]
  apply wp_post (wp_view right second)
  rintro ws _ ⟨rfl, front'⟩
  rw [memcmp_eq (hx.trans front.length_le) (hy.trans front'.length_le), wp_lift_ok]
  exact ⟨rfl, difference_prefix front front' hx hy⟩

theorem wp_compareSizes : wp (if difference schar xs ys (min xs.length ys.length) ≠ 0 then
      pure (difference schar xs ys (min xs.length ys.length))
    else if xs.length < ys.length then pure (-1) else if xs.length > ys.length then pure 1
    else pure 0) (fun r t => t = h ∧ r.sign = order schar xs ys) bad h := by
  rw [order]
  by_cases zero : difference schar xs ys (min xs.length ys.length) = 0
  · rw [zero]
    simp only [ne_eq, not_true_eq_false, if_false]
    rcases Nat.lt_trichotomy xs.length ys.length with less | same | more
    · have negative : (xs.length : ℤ) - ys.length < 0 := by omega
      rw [if_pos less, Int.sign_eq_neg_one_of_neg negative]
      exact ⟨rfl, rfl⟩
    · rw [same, if_neg (Nat.lt_irrefl _), if_neg (Nat.lt_irrefl _), Int.sub_self]
      exact ⟨rfl, rfl⟩
    · have positive : (xs.length : ℤ) - ys.length > 0 := by omega
      rw [if_neg (Nat.lt_asymm more), if_pos more, Int.sign_eq_one_of_pos positive]
      exact ⟨rfl, rfl⟩
  · simp only [ne_eq, zero, not_false_eq_true, if_true]
    exact ⟨rfl, rfl⟩

theorem wp_compare (left : Holds stringClass h v (image xs))
    (right : Holds stringClass h w (image ys)) (kv : Keeps v xs) (kw : Keeps w ys) :
    wp (Str.compare v w) (fun r t => t = h ∧ r.sign = order schar xs ys) bad h := by
  simp only [Str.compare, Str.compareData, kv.size, kw.size, ← Nat.min_def]
  apply wp_ite
  · intro positive
    rw [wp_bind]
    apply wp_post (wp_memcmp (reads_front left kv (List.prefix_refl xs))
      (reads_front right kw (List.prefix_refl ys)) positive (Nat.min_le_left ..)
      (Nat.min_le_right ..))
    rintro r _ ⟨rfl, rfl⟩
    exact wp_compareSizes
  · intro nothing
    have sizes : wp _ (fun (r : ℤ) t => t = h ∧ r.sign = order schar xs ys) bad h := wp_compareSizes
    rw [not_not.mp nothing] at sizes
    exact sizes

theorem wp_compareAt (left : Shows stringClass s i xs) (right : Shows stringClass s j ys) :
    wp (compareAt i j) (fun r t => t = s ∧ r.sign = order schar xs ys) bad s := by
  obtain ⟨v, zs, alive, holds, shown⟩ := left
  obtain ⟨w, ws, alive', holds', shown'⟩ := right
  obtain ⟨kv, rfl⟩ := keeps_of_holds holds shown
  obtain ⟨kw, rfl⟩ := keeps_of_holds holds' shown'
  rw [compareAt, wp_bind, wp_object alive, wp_bind, wp_object alive', wp_method]
  apply wp_post (wp_compare holds holds' kv kw)
  rintro r _ ⟨rfl, sign⟩
  exact ⟨rfl, sign⟩

end Compare

section Agreement

variable {s t junk junk' xs ys : Bytes} {n i j : ℕ} {p : System}

theorem memcmp_unsigned_iff (hs : n ≤ s.length) (ht : n ≤ t.length) :
    (∃ r, CString.memcmp s t n = .ok r ∧ r.sign = (difference uchar s t n).sign) ↔
      SameSide s t n := by
  rw [← sameSide_iff, memcmp_eq hs ht]
  simp

theorem memcmp_strncmp_iff (hs : n ≤ s.length) (ht : n ≤ t.length)
    (nonzero : ∀ c ∈ s.take n, c ≠ 0) :
    (∃ r q, CString.memcmp s t n = .ok r ∧ strncmp s t n = .ok q ∧ r.sign = q.sign) ↔
      SameSide s t n := by
  rw [← sameSide_iff, memcmp_eq hs ht, strncmp_difference hs ht nonzero]
  simp

theorem compare_strcmp_iff (left : Shows stringClass p i xs) (right : Shows stringClass p j ys)
    (hx : ∀ c ∈ xs, c ≠ 0) (hy : ∀ c ∈ ys, c ≠ 0) :
    (∃ r q, compareAt i j p = .ok (r, p) ∧ strcmp (xs ++ 0 :: junk) (ys ++ 0 :: junk') = .ok q ∧
      r.sign = q.sign) ↔ SameSide xs ys (min xs.length ys.length) := by
  obtain ⟨q, run, sign⟩ := strcmp_order junk junk' hx hy
  have compared : wp (compareAt i j) (fun r t => t = p ∧ r.sign = order schar xs ys) never p :=
    wp_compareAt left right
  obtain ⟨r, _, run', rfl, sign'⟩ := wp_never.mp compared
  rw [← sameSide_order_iff, run', run]
  constructor
  · rintro ⟨_, _, ⟨⟩, ⟨⟩, same⟩
    rw [← sign, ← sign', same]
  · intro same
    exact ⟨r, q, rfl, rfl, by rw [sign, sign', same]⟩

end Agreement

/-- `memcmp` has the sign of the unsigned comparison, and that of `strncmp` where there is no NUL,
and strings are ordered as by `strcmp`, exactly where the first bytes to differ are on the same
side of 128. -/
theorem comparisons_agree_iff (s t : Bytes) :
    (∀ n, n ≤ s.length → n ≤ t.length →
      ((∃ r, CString.memcmp s t n = .ok r ∧ r.sign = (difference uchar s t n).sign) ↔
        SameSide s t n) ∧
      ((∀ c ∈ s.take n, c ≠ 0) → (∀ c ∈ t.take n, c ≠ 0) →
        ((∃ r q, CString.memcmp s t n = .ok r ∧ strncmp s t n = .ok q ∧ r.sign = q.sign) ↔
          SameSide s t n))) ∧
    ∀ (p : System) (i j : ℕ) (junk junk' : Bytes), Shows stringClass p i s →
      Shows stringClass p j t → (∀ c ∈ s, c ≠ 0) → (∀ c ∈ t, c ≠ 0) →
      ((∃ r q, compareAt i j p = .ok (r, p) ∧
          strcmp (s ++ 0 :: junk) (t ++ 0 :: junk') = .ok q ∧ r.sign = q.sign) ↔
        SameSide s t (min s.length t.length)) := by
  constructor
  · intro n hs ht
    exact ⟨memcmp_unsigned_iff hs ht, fun nonzero _ => memcmp_strncmp_iff hs ht nonzero⟩
  · intro p i j junk junk' left right hs ht
    exact compare_strcmp_iff left right hs ht

theorem comparisons_agree_iff_ab :
    (∃ r q, CString.memcmp [97, 98] [97, 97] 2 = .ok r ∧ strncmp [97, 98] [97, 97] 2 = .ok q ∧
      r.sign = q.sign) ∧
    ∃ p, runAll (step fun _ _ => 7) [.filled 1 97, .filled 2 98] System.init = .ok ((), p) ∧
      ∃ r q, compareAt 0 1 p = .ok (r, p) ∧ strcmp [97, 0] [98, 98, 0] = .ok q ∧
        r.sign = q.sign := by
  constructor
  · apply (((comparisons_agree_iff [97, 98] [97, 97]).1 2 (by decide) (by decide)).2 (by simp)
      (by simp)).mpr
    rintro q ⟨⟩
    decide
  · obtain ⟨p, run, rel⟩ := run_simulates (fun _ _ => 7)
      [.filled 1 97, .filled 2 98] [some [97], some [98, 98]] (by decide)
    refine ⟨p, run, ((comparisons_agree_iff [97] [98, 98]).2 p 0 1 [] [] (rel.shown 0 [97] rfl)
      (rel.shown 1 [98, 98] rfl) (by simp) (by simp)).mpr ?_⟩
    rintro q ⟨⟩
    decide

/-- The bytes 0x80 and 0x01. -/
theorem memcmp_signed :
    (¬∃ r, CString.memcmp [128] [1] 1 = .ok r ∧ r.sign = (difference uchar [128] [1] 1).sign) ∧
    ¬∃ r q, CString.memcmp [128] [1] 1 = .ok r ∧ strncmp [128] [1] 1 = .ok q ∧
      r.sign = q.sign := by
  constructor
  · rintro ⟨r, ⟨⟩, sign⟩
    exact absurd sign (by decide)
  · rintro ⟨r, q, ⟨⟩, ⟨⟩, sign⟩
    exact absurd sign (by decide)

end Nanolibc.StringModel
