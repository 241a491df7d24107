import Nanolibc.CStringOrder
import Nanolibc.Ctype
import Nanolibc.Lib.Program

set_option autoImplicit false

namespace Nanolibc.CString
open Lib.ArrayHeap Lib.FirstDifference Lib.Program Ctype

section Model

/-- A macro that works through the global `nnlc_ctype_temp`, the state here. The argument is an
`unsigned char`. -/
def tolower (c : UInt8) : Prog ℤ Fault ℤ := do
  set (c.toNat : ℤ)
  let nnlcCtypeTemp ← get
  if isupper (UInt8.ofInt nnlcCtypeTemp) then
    return nnlcCtypeTemp - (ch 'A').toNat + (ch 'a').toNat
  else return nnlcCtypeTemp

/-- The characters are `unsigned int` and so is their difference, until it is returned. -/
def strcasecmp : Bytes → Bytes → Prog ℤ Fault ℤ
  | p :: s1, q :: s2 => do
    let c1 ← tolower p
    let c2 ← tolower q
    let c1 := UInt32.ofInt c1
    let c2 := UInt32.ofInt c2
    if c1 = 0 ∨ c1 ≠ c2 then return (c1 - c2).toInt32.toInt else strcasecmp s1 s2
  | _, _ => throw .bounds

def strncasecmp : Bytes → Bytes → ℕ → Prog ℤ Fault ℤ
  | _, _, 0 => return 0
  | p :: s1, q :: s2, n + 1 => do
    let c1 ← tolower p
    let c2 ← tolower q
    let c1 := UInt8.ofInt c1
    let c2 := UInt8.ofInt c2
    if c1 = 0 ∨ c1 ≠ c2 then return (c1.toNat : ℤ) - c2.toNat else strncasecmp s1 s2 n
  | _, _, _ + 1 => throw .bounds

end Model

/-- An ASCII upper-case letter becomes the lower-case one. -/
def lower (c : UInt8) : UInt8 := if 65 ≤ c.toNat ∧ c.toNat ≤ 90 then c + 32 else c

section Lowering

variable {c d : UInt8} {temp : ℤ} {post : ℤ → ℤ → Prop} {bad : Fault → Prop} {s t : Bytes} {n : ℕ}

theorem lower_toNat (c : UInt8) :
    (lower c).toNat = if 65 ≤ c.toNat ∧ c.toNat ≤ 90 then c.toNat + 32 else c.toNat := by
  unfold lower
  split_ifs with upper
  · have gap : (32 : UInt8).toNat = 32 := rfl
    rw [UInt8.toNat_add, gap]
    exact Nat.mod_eq_of_lt (by omega)
  · rfl

theorem lower_eq_zero : lower c = 0 ↔ c = 0 := by
  rw [← UInt8.toNat_inj, ← UInt8.toNat_inj, lower_toNat]
  split_ifs with upper
  · simp only [UInt8.toNat_ofNat]
    omega
  · rfl

theorem ofInt_toNat (c : UInt8) : UInt8.ofInt c.toNat = c := by
  have small := c.toNat_lt
  apply UInt8.toNat_inj.mp
  simp only [UInt8.ofInt, UInt8.toNat_ofNat']
  omega

theorem wp_tolower : wp (tolower c) post bad temp = post (lower c).toNat c.toNat := by
  have letter := isupper_iff c
  have value := lower_toNat c
  simp only [tolower, wp_bind, wp_set, wp_get, ofInt_toNat]
  by_cases upper : 65 ≤ c.toNat ∧ c.toNat ≤ 90
  · rw [if_pos upper] at value
    have moved : (c.toNat : ℤ) - (ch 'A').toNat + (ch 'a').toNat = (c.toNat + 32 : ℕ) := by
      have first : (ch 'A').toNat = 65 := rfl
      have first' : (ch 'a').toNat = 97 := rfl
      omega
    rw [if_pos (letter.mpr upper), wp_pure, moved, value]
  · rw [if_neg upper] at value
    rw [if_neg fun is => upper (letter.mp is), wp_pure, value]

/-- In `unsigned int` the difference wraps around, and comes back when it is returned. -/
theorem unsigned_difference (c d : UInt8) :
    (UInt32.ofInt c.toNat - UInt32.ofInt d.toNat).toInt32.toInt = (c.toNat : ℤ) - d.toNat := by
  have hc := c.toNat_lt
  have hd := d.toNat_lt
  change (UInt32.ofInt c.toNat - UInt32.ofInt d.toNat).toBitVec.toInt = _
  rw [BitVec.toInt_eq_toNat_bmod, UInt32.toNat_toBitVec, UInt32.toNat_sub]
  simp only [UInt32.ofInt, UInt32.toNat_ofNat', Int.bmod]
  split_ifs <;> omega

theorem ofInt_injective {c d : UInt8} (same : UInt32.ofInt c.toNat = UInt32.ofInt d.toNat) :
    c = d := by
  have hc := c.toNat_lt
  have hd := d.toNat_lt
  have values := congrArg UInt32.toNat same
  simp only [UInt32.ofInt, UInt32.toNat_ofNat'] at values
  apply UInt8.toNat_inj.mp
  omega

theorem wp_strcasecmp :
    wp (strcasecmp s t) (fun r _ => strcmp (s.map lower) (t.map lower) = .ok r)
      (fun e => strcmp (s.map lower) (t.map lower) = .error e) temp := by
  induction s generalizing t temp with
  | nil => exact rfl
  | cons p s ih =>
    cases t with
    | nil => exact rfl
    | cons q t =>
      simp only [strcasecmp, wp_bind, wp_tolower, List.map_cons, strcmp]
      have nul : UInt32.ofInt (lower p).toNat = 0 ↔ lower p = 0 :=
        ⟨fun zero => ofInt_injective zero, fun zero => by rw [zero]; rfl⟩
      have differ : UInt32.ofInt (lower p).toNat ≠ UInt32.ofInt (lower q).toNat ↔
          lower p ≠ lower q :=
        not_congr ⟨ofInt_injective, fun same => by rw [same]⟩
      by_cases stop : lower p = 0 ∨ lower p ≠ lower q
      · rw [if_pos ((or_congr nul differ).mpr stop), if_pos stop, wp_pure, unsigned_difference]
        rfl
      · rw [if_neg fun ends => stop ((or_congr nul differ).mp ends), if_neg stop]
        exact ih

theorem wp_strncasecmp :
    wp (strncasecmp s t n) (fun r _ => strncmp (s.map lower) (t.map lower) n = .ok r)
      (fun e => strncmp (s.map lower) (t.map lower) n = .error e) temp := by
  induction n generalizing s t temp with
  | zero =>
    rw [strncasecmp, strncmp]
    exact rfl
  | succ n ih =>
    cases s with
    | nil => exact rfl
    | cons p s =>
      cases t with
      | nil => exact rfl
      | cons q t =>
        simp only [strncasecmp, wp_bind, wp_tolower, List.map_cons, strncmp, ofInt_toNat]
        by_cases stop : lower p = 0 ∨ lower p ≠ lower q
        · rw [if_pos stop, if_pos stop]
          exact rfl
        · rw [if_neg stop, if_neg stop]
          exact ih

end Lowering

section Reach

variable {a b s t x y : Bytes} {n : ℕ} {r : ℤ}

theorem strcmp_prefix (hs : x <+: s) (ht : y <+: t) (run : strcmp x y = .ok r) :
    strcmp s t = .ok r := by
  obtain ⟨s', rfl⟩ := hs
  obtain ⟨t', rfl⟩ := ht
  induction x generalizing y with
  | nil => cases run
  | cons c x ih =>
    cases y with
    | nil => cases run
    | cons d y =>
      rw [List.cons_append, List.cons_append, strcmp]
      rw [strcmp] at run
      by_cases stop : c = 0 ∨ c ≠ d
      · rwa [if_pos stop] at run ⊢
      · rw [if_neg stop] at run ⊢
        exact ih run

theorem strncmp_prefix (hs : x <+: s) (ht : y <+: t) (run : strncmp x y n = .ok r) :
    strncmp s t n = .ok r := by
  obtain ⟨s', rfl⟩ := hs
  obtain ⟨t', rfl⟩ := ht
  induction n generalizing x y with
  | zero =>
    rw [strncmp] at run ⊢
    exact run
  | succ n ih =>
    cases x with
    | nil => cases run
    | cons c x =>
      cases y with
      | nil => cases run
      | cons d y =>
        rw [List.cons_append, List.cons_append, strncmp]
        rw [strncmp] at run
        by_cases stop : c = 0 ∨ c ≠ d
        · rwa [if_pos stop] at run ⊢
        · rw [if_neg stop] at run ⊢
          exact ih run

theorem strcmp_reach (hs : ∀ c ∈ a, c ≠ 0) :
    strcmp ((a ++ [0]).take (min a.length b.length + 1))
      ((b ++ [0]).take (min a.length b.length + 1)) = strcmp (a ++ [0]) (b ++ [0]) := by
  induction a generalizing b with
  | nil => cases b <;> rfl
  | cons c a ih =>
    cases b with
    | nil =>
      have first : c ≠ 0 := hs c (List.mem_cons_self ..)
      simp [strcmp, first]
    | cons d b =>
      have size : min (c :: a).length (d :: b).length = min a.length b.length + 1 := by
        rw [List.length_cons, List.length_cons, Nat.add_min_add_right]
      rw [size, List.cons_append, List.cons_append, List.take_succ_cons, List.take_succ_cons,
        strcmp, strcmp, ih fun e he => hs e (List.mem_cons_of_mem c he)]

/-- `strncmp` is `strcmp` on the truncated strings, and stops after `n` bytes as well. -/
theorem strncmp_reach (hs : ∀ c ∈ a, c ≠ 0) :
    strncmp ((a ++ [0]).take (min n (min a.length b.length + 1)))
      ((b ++ [0]).take (min n (min a.length b.length + 1))) n =
        strcmp (a.take n ++ [0]) (b.take n ++ [0]) := by
  induction n generalizing a b with
  | zero =>
    rw [strncmp]
    rfl
  | succ n ih =>
    rw [Nat.add_min_add_right]
    cases a with
    | nil => cases b <;> simp [strcmp, strncmp]
    | cons c a =>
      cases b with
      | nil =>
        have first : c ≠ 0 := hs c (List.mem_cons_self ..)
        simp [strcmp, strncmp, first]
      | cons d b =>
        have size : min (c :: a).length (d :: b).length = min a.length b.length + 1 := by
          rw [List.length_cons, List.length_cons, Nat.add_min_add_right]
        rw [size, List.cons_append, List.cons_append, List.take_succ_cons, List.take_succ_cons,
          List.take_succ_cons, List.take_succ_cons, List.cons_append, List.cons_append, strcmp,
          strncmp, ih fun e he => hs e (List.mem_cons_of_mem c he)]

end Reach

section Comparisons

def Text.truncate (t : Text) (n : ℕ) : Text :=
  ⟨t.bytes.take n, fun c hc => t.nonzero c (List.mem_of_mem_take hc)⟩

theorem map_lower_nonzero (t : Text) : ∀ c ∈ t.bytes.map lower, c ≠ 0 := by
  intro c hc
  obtain ⟨d, hd, rfl⟩ := List.mem_map.mp hc
  exact fun zero => t.nonzero d hd (lower_eq_zero.mp zero)

def Text.lowered (t : Text) : Text := ⟨t.bytes.map lower, map_lower_nonzero t⟩

theorem lowered_buffer (t : Text) : t.buffer.map lower = t.lowered.buffer := by
  rw [Text.buffer, List.map_append]
  rfl

def reach (a b : Text) : ℕ := min a.bytes.length b.bytes.length + 1

/-- The comparison answers `r` in all objects that begin with the first `k` bytes of the strings,
so also in those that end there. -/
def Compares (compare : Bytes → Bytes → Except Fault ℤ) (a b : Text) (k : ℕ) (r : ℤ) : Prop :=
  ∀ s t, a.buffer.take k <+: s → b.buffer.take k <+: t → compare s t = .ok r

variable {a b : Text} {n k : ℕ} {r temp : ℤ}

theorem lowered_reach : reach a.lowered b.lowered = reach a b := by
  simp [reach, Text.lowered]

theorem prefix_lowered {s : Bytes} (front : a.buffer.take k <+: s) :
    a.lowered.buffer.take k <+: s.map lower := by
  rw [← lowered_buffer, ← List.map_take]
  exact front.map lower

theorem compares_strcmp (run : strcmp a.buffer b.buffer = .ok r) :
    Compares strcmp a b (reach a b) r := by
  intro s t hs ht
  have stops := strcmp_reach (b := b.bytes) a.nonzero
  exact strcmp_prefix hs ht (stops.trans run)

theorem compares_strncmp (run : strcmp (a.truncate n).buffer (b.truncate n).buffer = .ok r) :
    Compares (strncmp · · n) a b (min n (reach a b)) r := by
  intro s t hs ht
  have stops := strncmp_reach (b := b.bytes) (n := n) a.nonzero
  exact strncmp_prefix hs ht (stops.trans run)

theorem run'_ok {p : Prog ℤ Fault ℤ} {answer : Except Fault ℤ}
    (run : wp p (fun r _ => answer = .ok r) (fun e => answer = .error e) temp) :
    p.run' temp = answer := by
  change (p temp).map Prod.fst = answer
  unfold wp at run
  cases ran : p temp with
  | ok result =>
    rw [ran] at run
    exact run.symm
  | error e =>
    rw [ran] at run
    exact run.symm

theorem strcasecmp_eq (s t : Bytes) :
    (strcasecmp s t).run' temp = strcmp (s.map lower) (t.map lower) :=
  run'_ok wp_strcasecmp

theorem strncasecmp_eq (s t : Bytes) :
    (strncasecmp s t n).run' temp = strncmp (s.map lower) (t.map lower) n :=
  run'_ok wp_strncasecmp

theorem strcmp_places (a b : Text) :
    ∃ r, strcmp a.buffer b.buffer = .ok r ∧ Places uchar r a.bytes b.bytes := by
  obtain ⟨r, run, sign⟩ := strcmp_order [] [] a.nonzero b.nonzero
  exact ⟨r, run, places_of_sign uchar_injective sign⟩

end Comparisons

/-- `strcmp` orders strings by their unsigned bytes, `strncmp` is `strcmp` of the truncated
strings, and the two that ignore case are these on the lowered strings, whatever the global holds.
All read up to the first NUL of either string at most, and the bounded ones `n` bytes at most. -/
theorem string_comparisons (a b : Text) (n : ℕ) (temp : ℤ) :
    (∃ r, Compares strcmp a b (reach a b) r ∧ Places uchar r a.bytes b.bytes) ∧
    (∃ r, Compares (strncmp · · n) a b (min n (reach a b)) r ∧
      strcmp (a.truncate n).buffer (b.truncate n).buffer = .ok r) ∧
    (∃ r, Compares (fun s t => (strcasecmp s t).run' temp) a b (reach a b) r ∧
      strcmp a.lowered.buffer b.lowered.buffer = .ok r) ∧
    ∃ r, Compares (fun s t => (strncasecmp s t n).run' temp) a b (min n (reach a b)) r ∧
      (strcasecmp (a.truncate n).buffer (b.truncate n).buffer).run' temp = .ok r := by
  constructor
  · obtain ⟨r, run, places⟩ := strcmp_places a b
    exact ⟨r, compares_strcmp run, places⟩
  constructor
  · obtain ⟨r, run, _⟩ := strcmp_places (a.truncate n) (b.truncate n)
    exact ⟨r, compares_strncmp run, run⟩
  constructor
  · obtain ⟨r, run, _⟩ := strcmp_places a.lowered b.lowered
    have lowered := compares_strcmp run
    rw [lowered_reach] at lowered
    refine ⟨r, ?_, run⟩
    intro s t hs ht
    exact (strcasecmp_eq s t).trans (lowered _ _ (prefix_lowered hs) (prefix_lowered ht))
  · obtain ⟨r, run, _⟩ := strcmp_places (a.lowered.truncate n) (b.lowered.truncate n)
    have lowered := compares_strncmp run
    rw [lowered_reach] at lowered
    refine ⟨r, ?_, ?_⟩
    · intro s t hs ht
      exact (strncasecmp_eq s t).trans (lowered _ _ (prefix_lowered hs) (prefix_lowered ht))
    · rw [strcasecmp_eq, lowered_buffer, lowered_buffer]
      simpa only [Text.lowered, Text.truncate, Text.buffer, List.map_take] using run

end Nanolibc.CString
