import Mathlib.Tactic.NormNum
import Nanolibc.Lib.Numeral
import Nanolibc.StrtoxModel

set_option autoImplicit false

namespace Nanolibc.StrtoxModel
open Lib.ArrayHeap Lib.Numeral CString Ctype

def digitVal (c : UInt8) : Option ℕ :=
  if ch '0' ≤ c ∧ c ≤ ch '9' then some (c.toNat - (ch '0').toNat)
  else if ch 'a' ≤ c ∧ c ≤ ch 'z' then some (c.toNat - (ch 'a').toNat + 10)
  else if ch 'A' ≤ c ∧ c ≤ ch 'Z' then some (c.toNat - (ch 'A').toNat + 10)
  else none

def isDigit (base : ℕ) (c : UInt8) : Bool := (digitVal c).any (· < base)

structure Subject where
  negative : Bool
  base : ℕ
  prefixed : Bool
  afterSign : Bytes
  digits : Bytes
  rest : Bytes

def afterSign (s : Bytes) : Bytes :=
  if s.head? = some (ch '+') ∨ s.head? = some (ch '-') then s.tail else s

def hasPrefix (s : Bytes) : Prop := [ch '0', ch 'x'] <+: s ∨ [ch '0', ch 'X'] <+: s

instance (s : Bytes) : Decidable (hasPrefix s) := inferInstanceAs (Decidable (_ ∨ _))

def prefixed (base : ℕ) (numeral : Bytes) : Bool :=
  decide ((base = 0 ∨ base = 16) ∧ hasPrefix numeral)

def actualBase (base : ℕ) (numeral : Bytes) : ℕ :=
  if prefixed base numeral then 16
  else if base ≠ 0 then base
  else if numeral.head? = some (ch '0') then 8
  else 10

def afterPrefix (base : ℕ) (numeral : Bytes) : Bytes :=
  if prefixed base numeral then numeral.drop 2 else numeral

def subject (s : Bytes) (base : ℕ) : Subject :=
  let blanks := s.dropWhile isspace
  let numeral := afterSign blanks
  { negative := blanks.head? = some (ch '-')
    base := actualBase base numeral
    prefixed := prefixed base numeral
    afterSign := numeral
    digits := (afterPrefix base numeral).takeWhile (isDigit (actualBase base numeral))
    rest := (afterPrefix base numeral).dropWhile (isDigit (actualBase base numeral)) }

def Subject.magnitude (t : Subject) : ℕ :=
  Nat.ofDigits t.base (t.digits.filterMap digitVal).reverse

def Subject.value (t : Subject) : ℤ := if t.negative then -t.magnitude else t.magnitude

def Variant.saturated : Variant → Subject → ℤ
  | .signed, t =>
    if -2 ^ 63 ≤ t.value ∧ t.value ≤ 2 ^ 63 - 1 then t.value
    else if t.negative then -2 ^ 63
    else 2 ^ 63 - 1
  | .unsigned, t => if t.magnitude ≤ 2 ^ 64 - 1 then t.value % 2 ^ 64 else 2 ^ 64 - 1

/-- The bytes from the end of the digits, from the prefix's `x`, or from the start. -/
def Subject.endc (t : Subject) (nptr : Bytes) : Bytes :=
  if t.digits ≠ [] then t.rest ++ [0]
  else if t.prefixed then t.afterSign.drop 1 ++ [0]
  else nptr

section Scanning

variable {s : Bytes} {c : UInt8}

theorem skipSpaces_eq (t : ∀ c ∈ s, c ≠ 0) :
    skipSpaces (s ++ [0]) = .ok (s.dropWhile isspace ++ [0]) := by
  induction s with
  | nil => rfl
  | cons c s ih =>
    have nonzero := t c (List.mem_cons_self ..)
    rw [List.cons_append, skipSpaces, List.dropWhile_cons]
    by_cases blank : isspace c
    · rw [if_pos ⟨nonzero, blank⟩, if_pos blank]
      exact ih (fun d hd => t d (List.mem_cons_of_mem _ hd))
    · rw [if_neg (fun h => blank h.2), if_neg blank]
      rfl

theorem readSign_eq :
    readSign (s ++ [0]) = .ok (!decide (s.head? = some (ch '-')), afterSign s ++ [0]) := by
  cases s with
  | nil => rfl
  | cons c s =>
    rw [List.cons_append, readSign]
    unfold afterSign
    by_cases plus : c = ch '+'
    · subst plus
      rfl
    · by_cases minus : c = ch '-'
      · subst minus
        rfl
      · simp [plus, minus]

theorem strncmp_pair {x y : UInt8} (hx : x ≠ 0) (hy : y ≠ 0) :
    ∃ r, strncmp (s ++ [0]) [x, y, 0] 2 = .ok r ∧ (r = 0 ↔ [x, y] <+: s) := by
  have differ : ∀ c d : UInt8, c ≠ d → (c.toNat : ℤ) - d.toNat ≠ 0 := by
    intro c d apart equal
    exact apart (UInt8.toNat_inj.mp (by omega))
  match s with
  | [] =>
    refine ⟨_, rfl, ?_⟩
    simpa using differ 0 x (Ne.symm hx)
  | [c] =>
    by_cases first : c = x
    · subst first
      refine ⟨((0 : UInt8).toNat : ℤ) - y.toNat, ?_, ?_⟩
      · simp [strncmp, hx]
      · simpa using differ 0 y (Ne.symm hy)
    · refine ⟨(c.toNat : ℤ) - x.toNat, ?_, ?_⟩
      · simp [strncmp, first]
      · simpa [first, Ne.symm first] using differ c x first
  | c :: d :: s =>
    by_cases first : c = x
    · subst first
      by_cases second : d = y
      · subst second
        refine ⟨0, ?_, ?_⟩
        · simp [strncmp, hx, hy]
        · simp
      · refine ⟨(d.toNat : ℤ) - y.toNat, ?_, ?_⟩
        · simp [strncmp, hx, second]
        · simpa [second, Ne.symm second] using differ d y second
    · refine ⟨(c.toNat : ℤ) - x.toNat, ?_, ?_⟩
      · simp [strncmp, first]
      · simpa [first, Ne.symm first] using differ c x first

theorem hexPrefix_eq : hexPrefix (s ++ [0]) = .ok (decide (hasPrefix s)) := by
  obtain ⟨lower, runLower, isLower⟩ := strncmp_pair (s := s) (x := ch '0') (y := ch 'x')
    (by decide) (by decide)
  obtain ⟨upper, runUpper, isUpper⟩ := strncmp_pair (s := s) (x := ch '0') (y := ch 'X')
    (by decide) (by decide)
  have either : hasPrefix s ↔ lower = 0 ∨ upper = 0 := by
    rw [isLower, isUpper]
    rfl
  unfold hexPrefix
  simp only [runLower, runUpper, either]
  by_cases l : lower = 0
  · simp [l]
  · simp [l, beq_eq_decide]

theorem digitOf_eq {base : ℕ} (high : base ≤ 36) :
    digitOf base c = (digitVal c).filter (· < base) := by
  have bound := c.toNat_lt
  have zero : schar (ch '0') = 48 := rfl
  have lower : schar (ch 'a') = 97 := rfl
  have upper : schar (ch 'A') = 65 := rfl
  have codes : (ch '0').toNat = 48 ∧ (ch '9').toNat = 57 ∧ (ch 'a').toNat = 97 ∧
      (ch 'z').toNat = 122 ∧ (ch 'A').toNat = 65 ∧ (ch 'Z').toNat = 90 :=
    ⟨rfl, rfl, rfl, rfl, rfl, rfl⟩
  unfold digitOf digitVal
  simp only [UInt8.le_iff_toNat_le, zero, lower, upper, codes]
  unfold schar
  generalize c.toNat = n at *
  by_cases digit : 48 ≤ n ∧ n ≤ 57
  · rw [if_pos digit]
    simp only [Option.filter_some, decide_eq_true_eq]
    split_ifs <;> (try simp only [Option.some.injEq]) <;> omega
  · rw [if_neg digit]
    by_cases small : 97 ≤ n ∧ n ≤ 122
    · rw [if_pos small]
      simp only [Option.filter_some, decide_eq_true_eq]
      split_ifs <;> (try simp only [Option.some.injEq]) <;> omega
    · rw [if_neg small]
      by_cases capital : 65 ≤ n ∧ n ≤ 90
      · rw [if_pos capital]
        simp only [Option.filter_some, decide_eq_true_eq]
        split_ifs <;> (try simp only [Option.some.injEq]) <;> omega
      · rw [if_neg capital]
        simp only [Option.filter_none]
        split_ifs <;> first | rfl | omega

end Scanning

section Digits

variable {s : Bytes} {base limit v d : ℕ} {scan : Scan}

def Counts (limit v : ℕ) (scan : Scan) : Prop :=
  if limit < v then scan.overflow = true else scan.overflow = false ∧ scan.absval = v

theorem counts_zero (limit : ℕ) (endc : Bytes) : Counts limit 0 ⟨0, false, endc⟩ := by
  simp [Counts]

theorem counts_next (small : limit < 2 ^ 64) (hd : d < base) (counts : Counts limit v scan)
    (endc : Bytes) :
    Counts limit (v * base + d) (scan.next base (limit / base) (limit % base) d endc) := by
  have cut : limit < v * base + d ↔ _ := cutoff_iff hd
  unfold Counts at counts ⊢
  by_cases above : limit < v
  · have grows : v ≤ v * base := Nat.le_mul_of_pos_right v (by omega)
    rw [if_pos above] at counts
    rw [if_pos (by omega), Scan.next, if_pos counts]
    exact counts
  · rw [if_neg above] at counts
    obtain ⟨fits, absval⟩ := counts
    have running : ¬scan.overflow = true := by simp [fits]
    by_cases passes : limit < v * base + d
    · rw [if_pos passes, Scan.next, if_neg running, absval]
      rcases cut.mp passes with above | ⟨equal, digit⟩
      · rw [if_pos above]
      · rw [if_neg (by omega), if_pos ⟨equal, digit⟩]
    · have low : ¬v > limit / base := fun h => passes (cut.mpr (.inl h))
      have last : ¬(v = limit / base ∧ d > limit % base) := fun h => passes (cut.mpr (.inr h))
      rw [if_neg passes, Scan.next, if_neg running, absval, if_neg low, if_neg last]
      refine ⟨fits, ?_⟩
      rw [Nat.mod_eq_of_lt (show v * base < 2 ^ 64 by omega),
        Nat.mod_eq_of_lt (show v * base + d < 2 ^ 64 by omega)]

theorem next_endc (endc : Bytes) : (scan.next base v limit d endc).endc = endc := by
  unfold Scan.next
  split_ifs <;> rfl

theorem digitLoop_eq (high : base ≤ 36) (small : limit < 2 ^ 64) (t : ∀ c ∈ s, c ≠ 0)
    (counts : Counts limit v scan) :
    ∃ scan', digitLoop base (limit / base) (limit % base) (s ++ [0]) scan = .ok scan' ∧
      Counts limit (value base v ((s.takeWhile (isDigit base)).filterMap digitVal)) scan' ∧
      scan'.endc = if s.takeWhile (isDigit base) ≠ [] then s.dropWhile (isDigit base) ++ [0]
        else scan.endc := by
  induction s generalizing v scan with
  | nil => exact ⟨scan, rfl, counts, rfl⟩
  | cons c s ih =>
    rw [List.cons_append, digitLoop, if_neg (t c (List.mem_cons_self ..)), digitOf_eq high,
      List.takeWhile_cons, List.dropWhile_cons]
    cases digit : (digitVal c).filter (· < base) with
    | none =>
      have stops : ¬isDigit base c := by
        unfold isDigit
        cases val : digitVal c with
        | none => simp
        | some d => simpa [val] using digit
      rw [if_neg stops, if_neg stops]
      exact ⟨scan, rfl, counts, by simp⟩
    | some d =>
      obtain ⟨val, below⟩ := Option.filter_eq_some_iff.mp digit
      have goes : isDigit base c := by
        unfold isDigit
        rw [val]
        exact below
      have hd : d < base := by simpa using below
      obtain ⟨scan', run, counts', endc⟩ := ih (fun c hc => t c (List.mem_cons_of_mem _ hc))
        (counts_next small hd counts (s ++ [0]))
      rw [if_pos goes, if_pos goes, List.filterMap_cons_some val]
      refine ⟨scan', run, counts', ?_⟩
      rw [endc, next_endc, if_pos (List.cons_ne_nil _ _)]
      split_ifs with more
      · rfl
      · have none := List.takeWhile_append_dropWhile (p := isDigit base) (l := s)
        rw [Decidable.not_not.mp more, List.nil_append] at none
        rw [none]

end Digits

theorem prefix_length {s : Bytes} (h : hasPrefix s) : 2 ≤ s.length := by
  rcases h with h | h
  · exact h.length_le
  · exact h.length_le

theorem detectBase_eq (base : ℕ) (numeral nptr : Bytes) :
    detectBase base (numeral ++ [0]) nptr =
      .ok ⟨actualBase base numeral, afterPrefix base numeral ++ [0],
        if prefixed base numeral then numeral.drop 1 ++ [0] else nptr⟩ := by
  unfold detectBase actualBase afterPrefix prefixed
  by_cases auto : base = 0 ∨ base = 16
  · rw [if_pos auto, hexPrefix_eq]
    by_cases hex : hasPrefix numeral
    · have long := prefix_length hex
      simp [auto, hex, List.drop_append_of_le_length long,
        List.drop_append_of_le_length (show 1 ≤ numeral.length by omega)]
    · rcases auto with rfl | rfl
      · cases numeral with
        | nil => simp [hex]; decide
        | cons c numeral =>
          by_cases octal : c = ch '0'
          · subst octal
            simp [hex]
          · simp [hex, octal]
      · simp [hex]
  · rw [if_neg auto]
    simp [not_or.mp auto]

theorem Subject.magnitude_eq (t : Subject) :
    t.magnitude = Lib.Numeral.value t.base 0 (t.digits.filterMap digitVal) := by
  rw [value_ofDigits, Nat.zero_mul, Nat.zero_add, Subject.magnitude]

theorem Counts.cases {limit v : ℕ} {scan : Scan} (counts : Counts limit v scan) :
    limit < v ∧ scan.overflow = true ∨ v ≤ limit ∧ scan.overflow = false ∧ scan.absval = v := by
  unfold Counts at counts
  by_cases above : limit < v
  · rw [if_pos above] at counts
    exact .inl ⟨above, counts⟩
  · rw [if_neg above] at counts
    exact .inr ⟨by omega, counts⟩

theorem limit_lt (v : Variant) (positive : Bool) : v.limit positive < 2 ^ 64 := by
  cases v <;> cases positive <;> decide

/-- The conversions after the loop give the saturated value. -/
theorem returned_eq (v : Variant) (t : Subject) {scan : Scan}
    (counts : Counts (v.limit (!t.negative)) t.magnitude scan) :
    v.returned (absResult v (!t.negative) scan) = v.saturated t := by
  unfold absResult Variant.saturated Subject.value
  cases v with
  | signed =>
    cases sign : t.negative with
    | false =>
      have limit : Variant.signed.limit (!t.negative) = 2 ^ 63 - 1 := by rw [sign]; rfl
      rw [limit] at counts
      rcases counts.cases with ⟨above, overflow⟩ | ⟨fits, overflow, absval⟩
      · simp [sign, overflow, Variant.returned, Variant.intMax]
        omega
      · simp [sign, overflow, absval, Variant.returned]
        omega
    | true =>
      have limit : Variant.signed.limit (!t.negative) = 2 ^ 63 := by rw [sign]; rfl
      rw [limit] at counts
      rcases counts.cases with ⟨above, overflow⟩ | ⟨fits, overflow, absval⟩
      · simp [sign, overflow, Variant.returned]
        omega
      · simp [sign, overflow, absval, Variant.returned]
        omega
  | unsigned =>
    have limit : Variant.unsigned.limit (!t.negative) = 2 ^ 64 - 1 := by
      cases t.negative <;> rfl
    rw [limit] at counts
    rcases counts.cases with ⟨above, overflow⟩ | ⟨fits, overflow, absval⟩
    · simp [overflow, Variant.returned, Variant.intMax]
      omega
    · cases sign : t.negative with
      | false =>
        simp [sign, overflow, absval, Variant.returned]
        omega
      | true =>
        simp [sign, overflow, absval, Variant.returned]
        omega

def expected (v : Variant) (t : Text) (endptr : Bool) (base : ℤ) : Result :=
  if base = 0 ∨ (2 ≤ base ∧ base ≤ 36) then
    let read := subject t.bytes base.toNat
    ⟨v.saturated read, if endptr then some (read.endc t.buffer) else none⟩
  else ⟨0, none⟩

theorem afterSign_suffix (s : Bytes) : afterSign s <:+ s := by
  unfold afterSign
  split_ifs
  · exact List.tail_suffix _
  · exact List.suffix_refl _

theorem afterPrefix_suffix (base : ℕ) (s : Bytes) : afterPrefix base s <:+ s := by
  unfold afterPrefix
  split_ifs
  · exact List.drop_suffix 2 _
  · exact List.suffix_refl _

theorem afterPrefix_nonzero (t : Text) (base : ℕ) :
    ∀ c ∈ afterPrefix base (afterSign (t.bytes.dropWhile isspace)), c ≠ 0 := by
  have part := (afterPrefix_suffix base _).trans
    ((afterSign_suffix (t.bytes.dropWhile isspace)).trans (List.dropWhile_suffix _))
  exact fun c mem => t.nonzero c (part.subset mem)

theorem endc_text (t : Text) (base : ℕ) :
    ∃ t' : Text, (subject t.bytes base).endc t.buffer = t'.buffer := by
  unfold Subject.endc
  split_ifs
  · refine ⟨⟨(subject t.bytes base).rest, ?_⟩, rfl⟩
    exact fun c mem => afterPrefix_nonzero t base c ((List.dropWhile_suffix _).subset mem)
  · refine ⟨⟨(subject t.bytes base).afterSign.drop 1, ?_⟩, rfl⟩
    have part := (afterSign_suffix (t.bytes.dropWhile isspace)).trans (List.dropWhile_suffix _)
    exact fun c mem => t.nonzero c (part.subset (List.mem_of_mem_drop mem))
  · exact ⟨t, rfl⟩

/-- All four functions return the saturated value and store the end pointer; nothing past the
NUL is read. -/
theorem strtox_eq (v : Variant) (t : Text) (endptr : Bool) (base : ℤ) :
    strtox v t.buffer endptr base = .ok (expected v t endptr base) := by
  unfold strtox expected
  by_cases valid : base = 0 ∨ (2 ≤ base ∧ base ≤ 36)
  · rw [if_neg (not_not_intro valid), if_pos valid]
    have high : actualBase base.toNat (afterSign (t.bytes.dropWhile isspace)) ≤ 36 := by
      unfold actualBase
      split_ifs <;> omega
    have blanks : skipSpaces t.buffer = .ok _ := skipSpaces_eq t.nonzero
    rw [blanks, ok_bind, readSign_eq, ok_bind]
    simp only
    rw [detectBase_eq, ok_bind]
    simp only
    obtain ⟨scan, run, counts, endc⟩ := digitLoop_eq high
      (limit_lt v (!decide ((t.bytes.dropWhile isspace).head? = some (ch '-'))))
      (afterPrefix_nonzero t base.toNat) (counts_zero _ _)
    rw [run, ok_bind, pure_ok]
    have magnitude := (subject t.bytes base.toNat).magnitude_eq
    have same : scan.endc = (subject t.bytes base.toNat).endc t.buffer := endc
    have counted : Counts (v.limit (!(subject t.bytes base.toNat).negative))
        (subject t.bytes base.toNat).magnitude scan := by
      rw [magnitude]
      exact counts
    rw [same, ← returned_eq v _ counted]
    rfl
  · rw [if_pos valid, if_neg valid]
    rfl

theorem atol_eq (t : Text) : atol t.buffer = .ok (expected .signed t false 10).value := by
  unfold atol strtol
  rw [strtox_eq]
  rfl

end Nanolibc.StrtoxModel
