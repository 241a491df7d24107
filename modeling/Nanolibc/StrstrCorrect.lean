import Nanolibc.CString
import Mathlib.Order.Monotone.Basic
import Mathlib.Data.Nat.Find

set_option autoImplicit false

namespace Nanolibc.StrstrCorrect
open Lib.ArrayHeap CString

/-- The loop at `h`, a suffix of the haystack at distance `i`; `n` is the suffix of the needle
to match next and `found` where the match began. -/
def scan (needle : Bytes) : Bytes → ℕ → Bytes → Option ℕ → Except Fault (Option ℕ)
  | [], _, _, _ => throw .bounds
  | c :: h, i, n, found =>
    if c = 0 then pure none
    else do
      let d ← charAt n 0
      let mismatch := found ≠ none ∧ c ≠ d
      let found := if mismatch then none else found
      let n := if mismatch then needle else n
      let d ← charAt n 0
      if c = d then do
        let found := if found = none then some i else found
        let n := n.drop 1
        let d ← charAt n 0
        if d = 0 then pure found else scan needle h (i + 1) n found
      else scan needle h (i + 1) n found

def strstr (haystack needle : Bytes) : Except Fault (Option ℕ) := do
  let d ← charAt needle 0
  if d = 0 then pure (some 0) else scan needle haystack 0 needle none

def Occurs (s t : Bytes) (p : ℕ) : Prop := p ≤ s.length ∧ t <+: s.drop p

def Leftmost (s t : Bytes) : Option ℕ → Prop
  | none => ∀ p, ¬Occurs s t p
  | some p => Occurs s t p ∧ ∀ q, q < p → ¬Occurs s t q

def common : Bytes → Bytes → ℕ
  | a :: s, b :: t => if a = b then common s t + 1 else 0
  | _, _ => 0

/-- Where matches are tried: after one that fits for `k` bytes, `k` bytes further on. -/
def tries (s t : Bytes) : ℕ → ℕ
  | 0 => 0
  | j + 1 => tries s t j + max 1 (common (s.drop (tries s t j)) t)

section Common

variable {s t : Bytes} {k p q : ℕ}

theorem common_le : common s t ≤ t.length := by
  induction s generalizing t with
  | nil => simp [common]
  | cons a s ih =>
    cases t with
    | nil => simp [common]
    | cons b t =>
      rw [common]
      split
      · have := ih (t := t)
        rw [List.length_cons]
        omega
      · omega

theorem common_eq_length : common s t = t.length ↔ t <+: s := by
  induction s generalizing t with
  | nil => cases t <;> simp [common]
  | cons a s ih =>
    cases t with
    | nil => simp [common]
    | cons b t =>
      rw [common, List.cons_prefix_cons]
      split
      · rename_i same
        rw [List.length_cons, Nat.add_right_cancel_iff, ih]
        exact ⟨fun h => ⟨same.symm, h⟩, fun h => h.2⟩
      · rename_i differ
        simp only [List.length_cons]
        constructor
        · intro h
          omega
        · rintro ⟨same, _⟩
          exact (differ same.symm).elim

theorem common_next (within : k ≤ common s t) {c d : UInt8} (hc : s[k]? = some c)
    (hd : t[k]? = some d) : c = d ↔ k + 1 ≤ common s t := by
  induction k generalizing s t with
  | zero =>
    cases s with
    | nil => cases hc
    | cons a s =>
      cases t with
      | nil => cases hd
      | cons b t =>
        cases hc
        cases hd
        rw [common]
        split <;> simp_all
  | succ k ih =>
    cases s with
    | nil => cases hc
    | cons a s =>
      cases t with
      | nil => cases hd
      | cons b t =>
        rw [common] at within ⊢
        split at within
        · rw [if_pos ‹_›]
          rw [ih (by omega) hc hd]
          omega
        · omega

end Common

section Tries

variable {s t : Bytes} {p q : ℕ}

def Tried (s t : Bytes) (p : ℕ) : Prop := ∃ j, tries s t j = p

theorem tries_strictMono (s t : Bytes) : StrictMono (tries s t) := by
  refine strictMono_nat_of_lt_succ fun j => ?_
  rw [tries]
  omega

theorem Tried.next (tried : Tried s t p) : Tried s t (p + max 1 (common (s.drop p) t)) := by
  obtain ⟨j, rfl⟩ := tried
  exact ⟨j + 1, rfl⟩

/-- Nothing is tried between a position and the next one. -/
theorem Tried.gap (one : Tried s t p) (two : Tried s t q) (above : p < q) :
    p + max 1 (common (s.drop p) t) ≤ q := by
  obtain ⟨j, rfl⟩ := one
  obtain ⟨k, rfl⟩ := two
  have order : j < k := (tries_strictMono s t).lt_iff_lt.mp above
  have next : tries s t (j + 1) ≤ tries s t k := (tries_strictMono s t).monotone order
  exact next

end Tries

/-- What the loop knows at distance `i`: the match tried at `p` fits so far for `k` bytes, and no
match tried before it was an occurrence. -/
structure At (s t : Bytes) (i p k : ℕ) : Prop where
  here : i = p + k
  inside : i ≤ s.length
  short : k < t.length
  tried : Tried s t p
  fits : k ≤ common (s.drop p) t
  before : ∀ q, q < p → Tried s t q → ¬Occurs s t q

def FirstTried (s t : Bytes) : Option ℕ → Prop
  | none => ∀ q, Tried s t q → ¬Occurs s t q
  | some p => Tried s t p ∧ Occurs s t p ∧ ∀ q, q < p → Tried s t q → ¬Occurs s t q

def foundAt (p k : ℕ) : Option ℕ := if k = 0 then none else some p

section Loop

variable {s t h junk : Bytes} {i p k : ℕ} {c d : UInt8}

theorem occurs_iff : Occurs s t p ↔ p ≤ s.length ∧ common (s.drop p) t = t.length := by
  rw [Occurs, common_eq_length]

theorem At.start (nonempty : t ≠ []) : At s t 0 0 0 where
  here := rfl
  inside := Nat.zero_le _
  short := List.length_pos_iff.mpr nonempty
  tried := ⟨0, rfl⟩
  fits := Nat.zero_le _
  before := fun q below => by omega

theorem At.next_byte (state : At s t i p k) (rest : s.drop i = c :: h) :
    (s.drop p)[k]? = some c := by
  rw [List.getElem?_drop, ← state.here, ← List.head?_drop, rest]
  rfl

theorem At.room (rest : s.drop i = c :: h) : i + 1 ≤ s.length := by
  have size := congrArg List.length rest
  rw [List.length_drop, List.length_cons] at size
  omega

theorem At.ended (state : At s t i p k) (rest : s.drop i = []) : FirstTried s t none := by
  intro q tried occurs
  by_cases below : q < p
  · exact state.before q below tried occurs
  · have size := occurs.2.length_le
    have ended := List.drop_eq_nil_iff.mp rest
    have place := state.here
    have short := state.short
    rw [List.length_drop] at size
    omega

theorem At.needle_byte (state : At s t i p k) : ∃ d, t[k]? = some d :=
  ⟨t.get ⟨k, state.short⟩, List.getElem?_eq_getElem state.short⟩

theorem At.advance (state : At s t i p k) (rest : s.drop i = c :: h) (hd : t[k]? = some c)
    (more : k + 1 < t.length) : At s t (i + 1) p (k + 1) where
  here := by rw [state.here, Nat.add_assoc]
  inside := At.room rest
  short := more
  tried := state.tried
  fits := (common_next state.fits (state.next_byte rest) hd).mp rfl
  before := state.before

theorem At.complete (state : At s t i p k) (rest : s.drop i = c :: h) (hd : t[k]? = some c)
    (last : k + 1 = t.length) : FirstTried s t (some p) := by
  have fits := (common_next state.fits (state.next_byte rest) hd).mp rfl
  have place := state.here
  have room := state.inside
  refine ⟨state.tried, occurs_iff.mpr ⟨by omega, ?_⟩, state.before⟩
  have bound : common (s.drop p) t ≤ t.length := common_le
  omega

theorem At.stuck (state : At s t i p k) (rest : s.drop i = c :: h) (hd : t[k]? = some d)
    (differ : c ≠ d) : common (s.drop p) t = k ∧ ¬Occurs s t p := by
  have stops := (common_next state.fits (state.next_byte rest) hd).not.mp differ
  have fits := state.fits
  have short := state.short
  have exact : common (s.drop p) t = k := by omega
  refine ⟨exact, fun occurs => ?_⟩
  have whole := (occurs_iff.mp occurs).2
  omega

/-- The scan goes on at the next tried position. -/
theorem At.retry (state : At s t i p k) (rest : s.drop i = c :: h) (hd : t[k]? = some d)
    (differ : c ≠ d) {j : ℕ} (next : j = p + max 1 k) : At s t j j 0 := by
  obtain ⟨exact, no⟩ := state.stuck rest hd differ
  have room := At.room rest
  have place := state.here
  have short := state.short
  refine ⟨rfl, by omega, by omega, ?_, Nat.zero_le _, fun q below tried => ?_⟩
  · have tried := state.tried.next
    rw [exact] at tried
    rw [next]
    exact tried
  · rcases Nat.lt_trichotomy q p with less | same | above
    · exact state.before q less tried
    · rw [same]
      exact no
    · have gap := state.tried.gap tried above
      rw [exact] at gap
      omega

end Loop

section Scan

variable {needle n h t junk : Bytes} {i p k : ℕ} {c d e : UInt8} {found : Option ℕ}

theorem scan_end : scan needle (0 :: h) i n found = .ok none := by
  rw [scan, if_pos rfl]
  rfl

theorem scan_match (nonzero : c ≠ 0) (same : charAt n 0 = .ok c) :
    scan needle (c :: h) i n found =
      (charAt (n.drop 1) 0 >>= fun d =>
        if d = 0 then pure (some (found.getD i))
        else scan needle h (i + 1) (n.drop 1) (some (found.getD i))) := by
  rw [scan, if_neg nonzero, same, ok_bind]
  cases found <;> simp [same]

/-- A byte that ends a match is looked at once more, as the first of a new one. -/
theorem scan_mismatch (nonzero : c ≠ 0) (read : charAt n 0 = .ok d) (differ : c ≠ d)
    (first : charAt needle 0 = .ok e) :
    scan needle (c :: h) i n (some p) = scan needle (c :: h) i needle none := by
  rw [scan, scan, if_neg nonzero, if_neg nonzero, read, first]
  simp [differ, first]

theorem scan_skip (nonzero : c ≠ 0) (read : charAt n 0 = .ok d) (differ : c ≠ d) :
    scan needle (c :: h) i n none = scan needle h (i + 1) n none := by
  rw [scan, if_neg nonzero, read]
  simp [read, differ]

theorem charAt_inside (hd : t[k]? = some d) : charAt ((t ++ 0 :: junk).drop k) 0 = .ok d := by
  have inside : k < t.length := (List.getElem?_eq_some_iff.mp hd).1
  rw [charAt, List.getElem?_drop, Nat.add_zero, List.getElem?_append_left inside, hd]
  rfl

theorem charAt_end (last : k = t.length) : charAt ((t ++ 0 :: junk).drop k) 0 = .ok 0 := by
  rw [last, List.drop_left]
  rfl

end Scan

def Finds (s t junk junk' h : Bytes) (i p k : ℕ) : Prop :=
  ∃ r, scan (t ++ 0 :: junk') (h ++ 0 :: junk) i ((t ++ 0 :: junk').drop k) (foundAt p k) =
    .ok r ∧ FirstTried s t r

section Steps

variable {s t h junk junk' : Bytes} {i p k : ℕ} {c : UInt8}

theorem finds_fit (nonzero : ∀ b ∈ t, b ≠ 0) (hc : c ≠ 0) (state : At s t i p k)
    (rest : s.drop i = c :: h) (same : t[k]? = some c)
    (next : ∀ p k, At s t (i + 1) p k → Finds s t junk junk' h (i + 1) p k) :
    Finds s t junk junk' (c :: h) i p k := by
  have begun : (foundAt p k).getD i = p := by
    unfold foundAt
    split
    · rename_i zero
      rw [Option.getD_none, state.here, zero, Nat.add_zero]
    · rfl
  rw [Finds, List.cons_append, scan_match hc (charAt_inside same), begun, List.drop_drop]
  by_cases last : k + 1 = t.length
  · rw [charAt_end last]
    exact ⟨some p, rfl, state.complete rest same last⟩
  · have short := state.short
    have after := state.advance rest same (by omega)
    obtain ⟨d, hd⟩ := after.needle_byte
    rw [charAt_inside hd, ok_bind, if_neg (nonzero d (List.mem_of_getElem? hd))]
    exact next p (k + 1) after

theorem finds_fresh (nonzero : ∀ b ∈ t, b ≠ 0) (hc : c ≠ 0) (state : At s t i p 0)
    (rest : s.drop i = c :: h)
    (next : ∀ p k, At s t (i + 1) p k → Finds s t junk junk' h (i + 1) p k) :
    Finds s t junk junk' (c :: h) i p 0 := by
  obtain ⟨d, hd⟩ := state.needle_byte
  by_cases same : c = d
  · exact finds_fit nonzero hc state rest (same ▸ hd) next
  · have place := state.here
    have skip : scan (t ++ 0 :: junk') (c :: (h ++ 0 :: junk)) i ((t ++ 0 :: junk').drop 0) none =
        scan (t ++ 0 :: junk') (h ++ 0 :: junk) (i + 1) ((t ++ 0 :: junk').drop 0) none :=
      scan_skip hc (charAt_inside hd) same
    rw [Finds, foundAt, if_pos rfl, List.cons_append, skip]
    exact next (i + 1) 0 (state.retry rest hd same (by omega))

/-- A byte that ends a match leaves `h` as it is: the case where no match has begun. -/
theorem finds_step (nonzero : ∀ b ∈ t, b ≠ 0) (hc : c ≠ 0) (state : At s t i p k)
    (rest : s.drop i = c :: h)
    (next : ∀ p k, At s t (i + 1) p k → Finds s t junk junk' h (i + 1) p k) :
    Finds s t junk junk' (c :: h) i p k := by
  obtain ⟨d, hd⟩ := state.needle_byte
  by_cases same : c = d
  · exact finds_fit nonzero hc state rest (same ▸ hd) next
  · by_cases zero : k = 0
    · subst zero
      exact finds_fresh nonzero hc state rest next
    · have place := state.here
      have restart : At s t i i 0 := state.retry rest hd same (by omega)
      have fresh : Finds s t junk junk' (c :: h) i i 0 := finds_fresh nonzero hc restart rest next
      obtain ⟨e, first⟩ := restart.needle_byte
      have again : scan (t ++ 0 :: junk') (c :: (h ++ 0 :: junk)) i ((t ++ 0 :: junk').drop k)
          (some p) = scan (t ++ 0 :: junk') (c :: (h ++ 0 :: junk)) i (t ++ 0 :: junk') none :=
        scan_mismatch hc (charAt_inside hd) same (charAt_inside first)
      rw [Finds, foundAt, if_neg zero, List.cons_append, again]
      exact fresh

theorem scan_first (haystack : ∀ b ∈ s, b ≠ 0) (nonzero : ∀ b ∈ t, b ≠ 0) (state : At s t i p k)
    (rest : s.drop i = h) : Finds s t junk junk' h i p k := by
  induction h generalizing i p k with
  | nil => exact ⟨none, scan_end, state.ended rest⟩
  | cons c h ih =>
    have hc : c ≠ 0 := haystack c (List.mem_of_mem_drop (rest ▸ List.mem_cons_self ..))
    have rest' : s.drop (i + 1) = h := by
      rw [← List.drop_drop, rest, List.drop_one, List.tail_cons]
    apply finds_step nonzero hc state rest
    intro p k state'
    exact ih state' rest'

theorem strstr_first (junk junk' : Bytes) (haystack : ∀ b ∈ s, b ≠ 0) (nonzero : ∀ b ∈ t, b ≠ 0)
    (nonempty : t ≠ []) :
    ∃ r, strstr (s ++ 0 :: junk) (t ++ 0 :: junk') = .ok r ∧ FirstTried s t r := by
  have start := At.start (s := s) nonempty
  obtain ⟨d, hd⟩ := start.needle_byte
  have read : charAt (t ++ 0 :: junk') 0 = .ok d := charAt_inside hd
  rw [strstr, read, ok_bind, if_neg (nonzero d (List.mem_of_getElem? hd))]
  exact scan_first haystack nonzero start rfl

end Steps

theorem leftmost_exists (s t : Bytes) : ∃ r, Leftmost s t r := by
  classical
  by_cases occurs : ∃ p, Occurs s t p
  · exact ⟨some (Nat.find occurs), Nat.find_spec occurs, fun q => Nat.find_min occurs⟩
  · exact ⟨none, not_exists.mp occurs⟩

theorem leftmost_unique {s t : Bytes} {p q : ℕ} (one : Leftmost s t (some p))
    (two : Leftmost s t (some q)) : p = q := by
  rcases Nat.lt_trichotomy p q with less | same | more
  · exact (two.2 p less one.1).elim
  · exact same
  · exact (one.2 q more two.1).elim

theorem FirstTried.leftmost_iff {s t : Bytes} {r : Option ℕ} (first : FirstTried s t r) :
    Leftmost s t r ↔ ∀ p, Leftmost s t (some p) → Tried s t p := by
  constructor
  · intro leftmost p here
    cases r with
    | none => exact (leftmost p here.1).elim
    | some q =>
      rw [leftmost_unique here leftmost]
      exact first.1
  · intro tried
    obtain ⟨answer, leftmost⟩ := leftmost_exists s t
    cases answer with
    | none =>
      cases r with
      | none => exact leftmost
      | some q => exact (leftmost q first.2.1).elim
    | some p =>
      have tried := tried p leftmost
      cases r with
      | none => exact (first p tried leftmost.1).elim
      | some q =>
        have same : q = p := by
          rcases Nat.lt_trichotomy q p with less | same | more
          · exact (leftmost.2 q less first.2.1).elim
          · exact same
          · exact (first.2.2 p more tried leftmost.1).elim
        rw [same]
        exact leftmost

/-- The scan finds the leftmost occurrence exactly when that is one of the positions it tries, so
when no occurrence begins inside a partial match that the scan has to give up. -/
theorem strstr_leftmost_iff (s t junk junk' : Bytes) (haystack : ∀ b ∈ s, b ≠ 0)
    (needle : ∀ b ∈ t, b ≠ 0) :
    (∃ r, strstr (s ++ 0 :: junk) (t ++ 0 :: junk') = .ok r ∧ Leftmost s t r) ↔
      ∀ p, Leftmost s t (some p) → Tried s t p := by
  by_cases empty : t = []
  · subst empty
    have start : Leftmost s [] (some 0) :=
      ⟨⟨Nat.zero_le _, List.nil_prefix⟩, fun q below => by omega⟩
    constructor
    · intro _ p leftmost
      rw [leftmost_unique leftmost start]
      exact ⟨0, rfl⟩
    · intro _
      exact ⟨some 0, rfl, start⟩
  · obtain ⟨r, run, first⟩ := strstr_first junk junk' haystack needle empty
    rw [← first.leftmost_iff, run]
    constructor
    · rintro ⟨_, ⟨⟩, leftmost⟩
      exact leftmost
    · intro leftmost
      exact ⟨r, rfl, leftmost⟩

theorem strstr_leftmost_overlap :
    (∀ p, Leftmost [97, 97, 98] [97, 98] (some p) → Tried [97, 97, 98] [97, 98] p) ∧
      strstr [97, 97, 98, 0] [97, 98, 0] = .ok (some 1) := by
  refine ⟨(strstr_leftmost_iff [97, 97, 98] [97, 98] [] [] (by simp) (by simp)).mp
    ⟨some 1, rfl, ⟨by decide, by decide⟩, ?_⟩, rfl⟩
  intro q below occurs
  obtain rfl : q = 0 := by omega
  exact absurd occurs.2 (by decide)

/-- `"aab"` occurs in `"aaab"` at 1 and is not found. -/
theorem strstr_misses :
    ¬∃ r, strstr [97, 97, 97, 98, 0] [97, 97, 98, 0] = .ok r ∧
      Leftmost [97, 97, 97, 98] [97, 97, 98] r := by
  rintro ⟨r, run, leftmost⟩
  have null : strstr [97, 97, 97, 98, 0] [97, 97, 98, 0] = .ok none := rfl
  rw [null] at run
  cases run
  exact leftmost 1 ⟨by decide, by decide⟩

end Nanolibc.StrstrCorrect
