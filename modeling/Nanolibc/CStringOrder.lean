import Nanolibc.CString
import Nanolibc.Lib.FirstDifference

set_option autoImplicit false

namespace Nanolibc.CString
open Lib.ArrayHeap Lib.FirstDifference

def uchar (c : UInt8) : ℤ := c.toNat

/-- The first bytes to differ, if any, are both below 128 or both not. -/
def SameSide (s t : Bytes) (n : ℕ) : Prop :=
  ∀ p ∈ firstDifference s t n, (p.1.toNat < 128 ↔ p.2.toNat < 128)

section Values

variable {c d : UInt8}

theorem uchar_injective : Function.Injective uchar := by
  intro c d same
  exact UInt8.toNat_inj.mp (Int.ofNat_inj.mp same)

theorem schar_injective : Function.Injective schar := by
  intro c d same
  have hc := c.toNat_lt
  have hd := d.toNat_lt
  unfold schar at same
  apply UInt8.toNat_inj.mp
  split_ifs at same <;> omega

/-- Signed and unsigned bytes are ordered alike on each side of 128, and the other way across. -/
theorem sign_iff_side : (schar c - schar d).sign = (uchar c - uchar d).sign ↔
    (c.toNat < 128 ↔ d.toNat < 128) := by
  have hc := c.toNat_lt
  have hd := d.toNat_lt
  unfold schar uchar
  by_cases low : c.toNat < 128 <;> by_cases low' : d.toNat < 128
  · simp [low, low']
  · have above : (c.toNat : ℤ) - ((d.toNat : ℤ) - 256) > 0 := by omega
    have below : (c.toNat : ℤ) - d.toNat < 0 := by omega
    simp [low, low', Int.sign_eq_one_of_pos above, Int.sign_eq_neg_one_of_neg below]
  · have below : (c.toNat : ℤ) - 256 - d.toNat < 0 := by omega
    have above : (c.toNat : ℤ) - d.toNat > 0 := by omega
    simp [low, low', Int.sign_eq_one_of_pos above, Int.sign_eq_neg_one_of_neg below]
  · have same : (c.toNat : ℤ) - 256 - ((d.toNat : ℤ) - 256) = c.toNat - d.toNat := by omega
    simp [low, low', same]

theorem sameSide_iff {s t : Bytes} {n : ℕ} :
    (difference schar s t n).sign = (difference uchar s t n).sign ↔ SameSide s t n := by
  rw [sign_difference_iff]
  exact forall₂_congr fun _ _ => sign_iff_side

theorem sameSide_order_iff {s t : Bytes} :
    order schar s t = order uchar s t ↔ SameSide s t (min s.length t.length) := by
  rw [order_iff schar_injective uchar_injective]
  exact forall₂_congr fun _ _ => sign_iff_side

end Values

section Comparisons

variable {s t junk junk' : Bytes} {n : ℕ}

theorem memcmp_eq (hs : n ≤ s.length) (ht : n ≤ t.length) :
    memcmp s t n = .ok (difference schar s t n) := by
  induction n generalizing s t with
  | zero => rw [memcmp]; rfl
  | succ n ih =>
    match s, t with
    | [], _ => simp at hs
    | _ :: _, [] => simp at ht
    | c :: s, d :: t =>
      rw [memcmp, difference_cons]
      by_cases same : c = d
      · rw [if_neg (not_not.mpr same), if_pos same]
        exact ih (Nat.le_of_succ_le_succ hs) (Nat.le_of_succ_le_succ ht)
      · rw [if_pos same, if_neg same]
        rfl

theorem strncmp_difference (hs : n ≤ s.length) (ht : n ≤ t.length)
    (nonzero : ∀ c ∈ s.take n, c ≠ 0) : strncmp s t n = .ok (difference uchar s t n) := by
  induction n generalizing s t with
  | zero => rw [strncmp]; rfl
  | succ n ih =>
    match s, t with
    | [], _ => simp at hs
    | _ :: _, [] => simp at ht
    | c :: s, d :: t =>
      have first : c ≠ 0 := nonzero c (by simp)
      rw [strncmp, difference_cons]
      by_cases same : c = d
      · rw [if_neg (not_or.mpr ⟨first, not_not.mpr same⟩), if_pos same]
        refine ih (Nat.le_of_succ_le_succ hs) (Nat.le_of_succ_le_succ ht) fun b hb => nonzero b ?_
        rw [List.take_succ_cons]
        exact List.mem_cons_of_mem c hb
      · rw [if_pos (.inr same), if_neg same]
        rfl

theorem uchar_pos {c : UInt8} (nonzero : c ≠ 0) : 0 < uchar c := by
  have some : c.toNat ≠ 0 := fun zero => nonzero (UInt8.toNat_inj.mp zero)
  unfold uchar
  omega

theorem strcmp_order (junk junk' : Bytes) (hs : ∀ c ∈ s, c ≠ 0) (ht : ∀ c ∈ t, c ≠ 0) :
    ∃ r, strcmp (s ++ 0 :: junk) (t ++ 0 :: junk') = .ok r ∧ r.sign = order uchar s t := by
  induction s generalizing t with
  | nil =>
    cases t with
    | nil => exact ⟨0, rfl, rfl⟩
    | cons d t =>
      have below : 0 - uchar d < 0 := by
        have := uchar_pos (ht d (List.mem_cons_self ..))
        omega
      refine ⟨0 - uchar d, rfl, ?_⟩
      rw [order_nil_cons, Int.sign_eq_neg_one_of_neg below]
  | cons c s ih =>
    have first : c ≠ 0 := hs c (List.mem_cons_self ..)
    cases t with
    | nil =>
      have above : uchar c - 0 > 0 := by
        have := uchar_pos first
        omega
      refine ⟨uchar c - 0, ?_, ?_⟩
      · rw [List.cons_append, List.nil_append, strcmp, if_pos (.inr first)]
        rfl
      · rw [order_cons_nil, Int.sign_eq_one_of_pos above]
    | cons d t =>
      rw [List.cons_append, List.cons_append, strcmp, order_cons uchar_injective]
      by_cases same : c = d
      · rw [if_neg (not_or.mpr ⟨first, not_not.mpr same⟩), if_pos same]
        exact ih (fun b hb => hs b (List.mem_cons_of_mem c hb))
          (fun b hb => ht b (List.mem_cons_of_mem d hb))
      · rw [if_pos (.inr same), if_neg same]
        exact ⟨_, rfl, rfl⟩

end Comparisons

end Nanolibc.CString
