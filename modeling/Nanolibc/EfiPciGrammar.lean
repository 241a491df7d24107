import Mathlib.Data.List.TakeWhile
import Nanolibc.EfiPciResources

set_option autoImplicit false

namespace Nanolibc.EfiPciModel
open Lib.ArrayHeap CString Ctype StrtoxModel

def isSeparator (c : UInt8) : Bool := c == ch ':' || c == ch '.'

def fields (locator : Bytes) : List Bytes := locator.splitOnP isSeparator

def hexValue (field : Bytes) : ℕ := (subject field 16).magnitude

def saturatedHex (field : Bytes) : ℕ := min (hexValue field) (2 ^ 64 - 1)

def locate : List ℕ → Option GglPciLocator
  | [bus, device, function] => some ⟨0, bus, device, function⟩
  | [domain, bus, device, function] => some ⟨domain, bus, device, function⟩
  | _ => none

def Accepted (numbers : List ℕ) (location : GglPciLocator) : Prop :=
  ∃ found, locate numbers = some found ∧ checked found = some location

def Plain (field : Bytes) : Prop := field ≠ [] ∧ ∀ c ∈ field, isxdigit c = true

def Prefixed (field : Bytes) : Prop :=
  ∃ x digits, (x = ch 'x' ∨ x = ch 'X') ∧ Plain digits ∧ field = ch '0' :: x :: digits

def Numeral (field : Bytes) : Prop := Plain field ∨ Prefixed field

/-- `00:00.0` and `0000:00:00.0`, with the numbers of the locator. -/
inductive Form : Bytes → List Bytes → Prop
  | short (bus device function : Bytes) :
      Form (bus ++ ch ':' :: (device ++ ch '.' :: function)) [bus, device, function]
  | long (domain bus device function : Bytes) :
      Form (domain ++ ch ':' :: (bus ++ ch ':' :: (device ++ ch '.' :: function)))
        [domain, bus, device, function]

section Digits

variable {s f rest : Bytes} {c : UInt8}

theorem isxdigit_reads (c : UInt8) (hex : isxdigit c = true) :
    isspace c = false ∧ c ≠ ch '+' ∧ c ≠ ch '-' ∧ c ≠ ch 'x' ∧ c ≠ ch 'X' ∧
      isSeparator c = false := by
  have table : ∀ n : Fin 256, isxdigit (UInt8.ofNat n) = true →
      isspace (UInt8.ofNat n) = false ∧ UInt8.ofNat n ≠ ch '+' ∧ UInt8.ofNat n ≠ ch '-' ∧
        UInt8.ofNat n ≠ ch 'x' ∧ UInt8.ofNat n ≠ ch 'X' ∧
        isSeparator (UInt8.ofNat n) = false := by
    decide +kernel
  have entry := table ⟨c.toNat, c.toNat_lt⟩
  rw [UInt8.ofNat_toNat] at entry
  exact entry hex

theorem isDigit_hex (c : UInt8) : isDigit 16 c = isxdigit c := by
  have table : ∀ n : Fin 256, isDigit 16 (UInt8.ofNat n) = isxdigit (UInt8.ofNat n) := by
    decide +kernel
  have entry := table ⟨c.toNat, c.toNat_lt⟩
  rwa [UInt8.ofNat_toNat] at entry

theorem subject_hex (hex : isxdigit c = true) : subject (c :: s) 16 =
    { negative := false
      base := 16
      prefixed := decide (hasPrefix (c :: s))
      afterSign := c :: s
      digits := (afterPrefix 16 (c :: s)).takeWhile isxdigit
      rest := (afterPrefix 16 (c :: s)).dropWhile isxdigit } := by
  obtain ⟨space, plus, minus, _⟩ := isxdigit_reads c hex
  have digit : isDigit 16 = isxdigit := funext isDigit_hex
  have blanks : (c :: s).dropWhile isspace = c :: s :=
    List.dropWhile_cons_of_neg (by simp [space])
  have unsigned : afterSign (c :: s) = c :: s := by simp [afterSign, plus, minus]
  have base : actualBase 16 (c :: s) = 16 := by simp [actualBase]
  have negative : decide ((c :: s).head? = some (ch '-')) = false := by simp [minus]
  have hexPrefixed : prefixed 16 (c :: s) = decide (hasPrefix (c :: s)) := by simp [prefixed]
  simp only [subject, blanks, unsigned, base, negative, hexPrefixed, digit]

theorem hasPrefix_iff : hasPrefix s ↔ ∃ x rest, (x = ch 'x' ∨ x = ch 'X') ∧
    s = ch '0' :: x :: rest := by
  constructor
  · rintro (⟨rest, rfl⟩ | ⟨rest, rfl⟩)
    · exact ⟨_, rest, .inl rfl, rfl⟩
    · exact ⟨_, rest, .inr rfl, rfl⟩
  · rintro ⟨x, rest, rfl | rfl, rfl⟩
    · exact .inl ⟨rest, rfl⟩
    · exact .inr ⟨rest, rfl⟩

theorem afterPrefix_long {x : UInt8} (capital : x = ch 'x' ∨ x = ch 'X') :
    afterPrefix 16 (ch '0' :: x :: rest) = rest := by
  have long : hasPrefix (ch '0' :: x :: rest) := hasPrefix_iff.mpr ⟨x, rest, capital, rfl⟩
  simp [afterPrefix, prefixed, long]

theorem afterPrefix_bare (bare : ¬hasPrefix s) : afterPrefix 16 s = s := by
  simp [afterPrefix, prefixed, bare]

def Stops (rest : Bytes) : Prop := ∀ c ∈ rest.head?, isSeparator c = true

theorem Stops.takeWhile (stops : Stops rest) : rest.takeWhile isxdigit = [] := by
  cases rest with
  | nil => rfl
  | cons c rest =>
    have separator := stops c rfl
    apply List.takeWhile_cons_of_neg
    intro hex
    rw [(isxdigit_reads c hex).2.2.2.2.2] at separator
    cases separator

theorem Stops.dropWhile (stops : Stops rest) : rest.dropWhile isxdigit = rest := by
  calc
    rest.dropWhile isxdigit = rest.takeWhile isxdigit ++ rest.dropWhile isxdigit := by
      rw [stops.takeWhile, List.nil_append]
    _ = rest := List.takeWhile_append_dropWhile

end Digits

section Numerals

variable {f rest : Bytes}

theorem Plain.cons (plain : Plain f) : ∃ c s, f = c :: s ∧ isxdigit c = true := by
  obtain ⟨some, digits⟩ := plain
  obtain ⟨c, s, rfl⟩ := List.exists_cons_of_ne_nil some
  exact ⟨c, s, rfl, digits c (List.mem_cons_self ..)⟩

theorem Numeral.cons (numeral : Numeral f) : ∃ c s, f = c :: s ∧ isxdigit c = true := by
  rcases numeral with plain | ⟨x, digits, _, _, rfl⟩
  · exact plain.cons
  · exact ⟨_, _, rfl, by decide⟩

theorem Plain.not_prefixed (plain : Plain f) : ¬Prefixed f := by
  rintro ⟨x, digits, capital, _, rfl⟩
  have letter := plain.2 x (by simp)
  obtain ⟨_, _, _, lower, upper, _⟩ := isxdigit_reads x letter
  exact capital.elim lower upper

theorem Numeral.no_separator (numeral : Numeral f) : ∀ c ∈ f, isSeparator c = false := by
  have digits : ∀ ds : Bytes, Plain ds → ∀ c ∈ ds, isSeparator c = false :=
    fun ds plain c mem => (isxdigit_reads c (plain.2 c mem)).2.2.2.2.2
  rcases numeral with plain | ⟨x, ds, capital, plain, rfl⟩
  · exact digits f plain
  · intro c mem
    rcases List.mem_cons.mp mem with rfl | mem
    · decide
    · rcases List.mem_cons.mp mem with rfl | mem
      · rcases capital with rfl | rfl <;> decide
      · exact digits ds plain c mem

theorem Plain.bare (plain : Plain f) (stops : Stops rest) : ¬hasPrefix (f ++ rest) := by
  intro long
  obtain ⟨x, t, capital, whole⟩ := hasPrefix_iff.mp long
  obtain ⟨c, s, rfl, _⟩ := plain.cons
  have tail : s ++ rest = x :: t := List.tail_eq_of_cons_eq whole
  cases s with
  | nil =>
    have separator := stops x (by rw [show rest = x :: t from tail]; rfl)
    rcases capital with rfl | rfl <;> exact absurd separator (by decide)
  | cons y s =>
    obtain rfl : y = x := List.head_eq_of_cons_eq tail
    obtain ⟨_, _, _, lower, upper, _⟩ := isxdigit_reads y (plain.2 y (by simp))
    exact capital.elim lower upper

theorem Numeral.digits (numeral : Numeral f) : ∃ ds, Plain ds ∧ (Plain f → ds = f) ∧
    ∀ rest, Stops rest → afterPrefix 16 (f ++ rest) = ds ++ rest := by
  rcases numeral with plain | ⟨x, ds, capital, plain, rfl⟩
  · exact ⟨f, plain, fun _ => rfl, fun rest stops => afterPrefix_bare (plain.bare stops)⟩
  · refine ⟨ds, plain, ?_, fun rest _ => afterPrefix_long capital⟩
    intro whole
    exact (whole.not_prefixed ⟨x, ds, capital, plain, rfl⟩).elim

theorem Numeral.subject_eq (numeral : Numeral f) : ∃ ds, Plain ds ∧ (Plain f → ds = f) ∧
    ∀ rest, Stops rest → subject (f ++ rest) 16 =
      ⟨false, 16, decide (hasPrefix (f ++ rest)), f ++ rest, ds, rest⟩ := by
  obtain ⟨ds, plain, same, behind⟩ := numeral.digits
  obtain ⟨c, s, rfl, hex⟩ := numeral.cons
  refine ⟨ds, plain, same, ?_⟩
  intro rest stops
  rw [List.cons_append, subject_hex hex, ← List.cons_append, behind rest stops,
    List.takeWhile_append_of_pos plain.2, List.dropWhile_append_of_pos plain.2,
    stops.takeWhile, stops.dropWhile, List.append_nil]

theorem hexValue_plain (plain : Plain f) :
    hexValue f = Nat.ofDigits 16 (f.filterMap digitVal).reverse := by
  obtain ⟨ds, _, same, read⟩ := Numeral.subject_eq (.inl plain)
  have whole := read [] (by simp [Stops])
  rw [List.append_nil] at whole
  rw [hexValue, whole, Subject.magnitude, same plain]

theorem item_numeral {t u : Text} (numeral : Numeral f) (whole : t.bytes = f ++ u.bytes)
    (stops : Stops u.bytes) : item t.buffer = .ok (saturatedHex f, some u.buffer) := by
  obtain ⟨ds, plain, _, read⟩ := numeral.subject_eq
  have alone := read [] (by simp [Stops])
  rw [List.append_nil] at alone
  rw [item_eq, whole, read u.bytes stops, saturatedHex, hexValue, alone]
  have ends : (⟨false, 16, decide (hasPrefix (f ++ u.bytes)), f ++ u.bytes, ds, u.bytes⟩ :
      Subject).endc t.buffer = u.buffer := if_pos plain.1
  have value : ∀ n : ℕ, (if n ≤ 2 ^ 64 - 1 then (n : ℤ) % 2 ^ 64 else 2 ^ 64 - 1).toNat =
      min n (2 ^ 64 - 1) := by
    intro n
    split_ifs <;> omega
  rw [ends]
  congr 2
  exact value _

theorem plain_takeWhile (s : Bytes) (digits : s.takeWhile isxdigit ≠ []) :
    Plain (s.takeWhile isxdigit) :=
  ⟨digits, fun _ => List.mem_takeWhile_imp⟩

theorem numeral_split {t u : Text} {c : UInt8} {n : ℕ} (first : charAt t.buffer 0 = .ok c)
    (hex : isxdigit c = true) (run : item t.buffer = .ok (n, some u.buffer))
    (stops : Stops u.bytes) : ∃ f, Numeral f ∧ t.bytes = f ++ u.bytes := by
  obtain ⟨bytes, nonzero⟩ := t
  cases bytes with
  | nil =>
    cases first
    exact absurd hex (by decide)
  | cons c' s =>
    obtain rfl : c' = c := by
      cases first
      rfl
    rw [item_eq] at run
    have endc : (subject (c' :: s) 16).endc (c' :: s ++ [0]) = u.bytes ++ [0] :=
      Option.some.inj (Prod.mk.inj (Except.ok.inj run)).2
    rw [subject_hex hex, Subject.endc] at endc
    dsimp only at endc
    by_cases long : hasPrefix (c' :: s)
    · obtain ⟨x, rest, capital, whole⟩ := hasPrefix_iff.mp long
      simp only [whole, afterPrefix_long capital] at endc
      by_cases digits : rest.takeWhile isxdigit = []
      · -- the conversion stops at the letter of the prefix
        rw [if_neg (not_not_intro digits), if_pos (by simpa [whole] using long)] at endc
        have letter : x :: rest = u.bytes := List.append_cancel_right endc
        have separator := stops x (by rw [← letter]; rfl)
        rcases capital with rfl | rfl <;> exact absurd separator (by decide)
      · rw [if_pos digits] at endc
        refine ⟨ch '0' :: x :: rest.takeWhile isxdigit,
          .inr ⟨x, _, capital, plain_takeWhile rest digits, rfl⟩, ?_⟩
        rw [← List.append_cancel_right endc, List.cons_append, List.cons_append,
          List.takeWhile_append_dropWhile]
        exact whole
    · have digits : (c' :: s).takeWhile isxdigit ≠ [] := by
        rw [List.takeWhile_cons_of_pos hex]
        exact List.cons_ne_nil _ _
      rw [afterPrefix_bare long, if_pos digits] at endc
      refine ⟨(c' :: s).takeWhile isxdigit, .inl (plain_takeWhile _ digits), ?_⟩
      rw [← List.append_cancel_right endc, List.takeWhile_append_dropWhile]

/-- A number of the locator: the test for a digit, `strtoul`, and what is done with the rest. -/
theorem field_iff {β : Type} {t : Text} {k : ℕ → Bytes → Except Fault (Option β)} {x : β}
    (stops : ∀ n (u : Text), k n u.buffer = .ok (some x) → Stops u.bytes) :
    (do
      let digit ← charAt t.buffer 0
      if !isxdigit digit then pure none
      else do
        let items ← item t.buffer
        match items.2 with
        | none => pure none
        | some p => k items.1 p) = .ok (some x) ↔
      ∃ f, ∃ u : Text, Numeral f ∧ t.bytes = f ++ u.bytes ∧
        k (saturatedHex f) u.buffer = .ok (some x) := by
  constructor
  · intro run
    obtain ⟨c, first, _⟩ := charAt_zero t
    obtain ⟨n, u, converted⟩ := item_ok t
    rw [first, ok_bind, converted, ok_bind] at run
    by_cases hex : isxdigit c = true
    · rw [if_neg (by simp [hex])] at run
      have ends := stops n u run
      obtain ⟨f, numeral, whole⟩ := numeral_split first hex converted ends
      have value := (item_numeral numeral whole ends).symm.trans converted
      obtain rfl : saturatedHex f = n := (Prod.mk.inj (Except.ok.inj value)).1
      exact ⟨f, u, numeral, whole, run⟩
    · rw [if_pos (by simpa using hex)] at run
      cases run
  · rintro ⟨f, u, numeral, whole, run⟩
    obtain ⟨c, s, rfl, hex⟩ := numeral.cons
    have first : charAt t.buffer 0 = .ok c := by
      rw [Text.buffer, whole]
      rfl
    rw [first, ok_bind, if_neg (by simp [hex]), item_numeral numeral whole (stops _ u run), ok_bind]
    exact run

end Numerals

section Stages

variable {t : Text} {c : UInt8} {a b d : ℕ} {location : GglPciLocator}

theorem buffer_cons {u : Text} (split : t.bytes = c :: u.bytes) : t.buffer = c :: u.buffer := by
  rw [Text.buffer, split]
  rfl

theorem first_iff (nonzero : c ≠ 0) :
    charAt t.buffer 0 = .ok c ↔ ∃ u : Text, t.bytes = c :: u.bytes := by
  constructor
  · intro first
    obtain ⟨c', first', rest⟩ := charAt_zero t
    obtain rfl : c = c' := Except.ok.inj (first.symm.trans first')
    obtain ⟨u, split⟩ := rest nonzero
    exact ⟨u, List.append_cancel_right (split : t.bytes ++ [0] = c :: u.bytes ++ [0])⟩
  · rintro ⟨u, split⟩
    rw [buffer_cons split]
    rfl

theorem last_iff {β : Type} {t : Text} {r : Option β} {x : β} :
    (do
      let c ← charAt t.buffer 0
      if c ≠ 0 then pure none else pure r) = .ok (some x) ↔ t.bytes = [] ∧ r = some x := by
  obtain ⟨bytes, nonzero⟩ := t
  cases bytes with
  | nil =>
    change Except.ok r = .ok (some x) ↔ _
    simp
  | cons c rest =>
    have other : c ≠ 0 := nonzero c (List.mem_cons_self ..)
    change (if c ≠ 0 then Except.ok none else Except.ok r) = .ok (some x) ↔ _
    rw [if_pos other]
    simp

theorem lastField_iff {β : Type} {t : Text} {r : ℕ → Option β} {x : β} :
    (do
      let digit ← charAt t.buffer 0
      if !isxdigit digit then pure none
      else do
        let items ← item t.buffer
        match items.2 with
        | none => pure none
        | some p => do
          let c ← charAt p 0
          if c ≠ 0 then pure none else pure (r items.1)) = .ok (some x) ↔
      Numeral t.bytes ∧ r (saturatedHex t.bytes) = some x := by
  refine (field_iff (k := fun n p => do
    let c ← charAt p 0
    if c ≠ 0 then pure none else pure (r n)) ?_).trans ?_
  · intro n u run
    rw [(last_iff.mp run).1]
    simp [Stops]
  · constructor
    · rintro ⟨f, u, numeral, whole, run⟩
      obtain ⟨ended, value⟩ := last_iff.mp run
      rw [ended, List.append_nil] at whole
      rw [whole]
      exact ⟨numeral, value⟩
    · rintro ⟨numeral, value⟩
      exact ⟨t.bytes, ⟨[], by simp⟩, numeral, (List.append_nil _).symm, last_iff.mpr ⟨rfl, value⟩⟩

theorem parseFunction_iff : parseFunction a b d t.buffer = .ok (some location) ↔
    ∃ u : Text, t.bytes = ch '.' :: u.bytes ∧ Numeral u.bytes ∧
      checked ⟨a, b, d, saturatedHex u.bytes⟩ = some location := by
  have behind : ∀ u : Text, t.bytes = ch '.' :: u.bytes →
      (parseFunction a b d t.buffer = .ok (some location) ↔
        Numeral u.bytes ∧ checked ⟨a, b, d, saturatedHex u.bytes⟩ = some location) := by
    intro u split
    rw [parseFunction, (first_iff (by decide)).mpr ⟨u, split⟩, ok_bind,
      if_neg (not_not_intro rfl), buffer_cons split]
    exact lastField_iff (t := u) (r := fun n => checked ⟨a, b, d, n⟩)
  constructor
  · intro run
    obtain ⟨dot, first, _⟩ := charAt_zero t
    by_cases isDot : dot = ch '.'
    · obtain ⟨u, split⟩ := (first_iff (by decide)).mp (isDot ▸ first)
      exact ⟨u, split, (behind u split).mp run⟩
    · rw [parseFunction, first, ok_bind, if_pos isDot] at run
      cases run
  · rintro ⟨u, split, rest⟩
    exact (behind u split).mpr rest

theorem parseRest_iff : parseRest a b t.buffer = .ok (some location) ↔
    (∃ u : Text, t.bytes = ch '.' :: u.bytes ∧ Numeral u.bytes ∧
      checked ⟨0, a, b, saturatedHex u.bytes⟩ = some location) ∨
    ∃ u : Text, t.bytes = ch ':' :: u.bytes ∧ ∃ f, ∃ v : Text, Numeral f ∧
      u.bytes = f ++ v.bytes ∧
      parseFunction a b (saturatedHex f) v.buffer = .ok (some location) := by
  have short : ∀ u : Text, t.bytes = ch '.' :: u.bytes →
      (parseRest a b t.buffer = .ok (some location) ↔
        Numeral u.bytes ∧ checked ⟨0, a, b, saturatedHex u.bytes⟩ = some location) := by
    intro u split
    rw [parseRest, (first_iff (by decide)).mpr ⟨u, split⟩, ok_bind, if_neg (by decide),
      if_neg (by decide), buffer_cons split]
    simp only [if_true]
    exact lastField_iff (t := u) (r := fun n => checked ⟨0, a, b, n⟩)
  have long : ∀ u : Text, t.bytes = ch ':' :: u.bytes →
      (parseRest a b t.buffer = .ok (some location) ↔ ∃ f, ∃ v : Text, Numeral f ∧
        u.bytes = f ++ v.bytes ∧
        parseFunction a b (saturatedHex f) v.buffer = .ok (some location)) := by
    intro u split
    rw [parseRest, (first_iff (by decide)).mpr ⟨u, split⟩, ok_bind, if_neg (by decide),
      if_neg (by decide), buffer_cons split]
    simp only [show ch ':' ≠ ch '.' by decide, if_false]
    refine field_iff (t := u) (k := fun n p => parseFunction a b n p) ?_
    intro n v run
    obtain ⟨w, dot, _⟩ := parseFunction_iff.mp run
    simp [Stops, dot, isSeparator]
  constructor
  · intro run
    obtain ⟨separator, first, _⟩ := charAt_zero t
    by_cases isDot : separator = ch '.'
    · obtain ⟨u, split⟩ := (first_iff (by decide)).mp (isDot ▸ first)
      exact .inl ⟨u, split, (short u split).mp run⟩
    · by_cases isColon : separator = ch ':'
      · obtain ⟨u, split⟩ := (first_iff (by decide)).mp (isColon ▸ first)
        exact .inr ⟨u, split, (long u split).mp run⟩
      · rw [parseRest, first, ok_bind, if_pos (show _ ∧ _ from ⟨isColon, isDot⟩), ite_self] at run
        cases run
  · rintro (⟨u, split, rest⟩ | ⟨u, split, rest⟩)
    · exact (short u split).mpr rest
    · exact (long u split).mpr rest

theorem parsePciAddress_numbers : parsePciAddress (some t.buffer) = .ok (some location) ↔
    ∃ f g, ∃ u v w : Text, Numeral f ∧ t.bytes = f ++ u.bytes ∧ u.bytes = ch ':' :: v.bytes ∧
      Numeral g ∧ v.bytes = g ++ w.bytes ∧
      parseRest (saturatedHex f) (saturatedHex g) w.buffer = .ok (some location) := by
  let second (n : ℕ) (p : Bytes) : Except Fault (Option GglPciLocator) := do
    let colon ← charAt p 0
    if colon ≠ ch ':' then pure none
    else do
      let digit ← charAt p 1
      if !isxdigit digit then pure none
      else do
        let items1 ← item (p.drop 1)
        match items1.2 with
        | none => pure none
        | some p => parseRest n items1.1 p
  have behind : ∀ n, ∀ u v : Text, u.bytes = ch ':' :: v.bytes →
      (second n u.buffer = .ok (some location) ↔ ∃ g, ∃ w : Text, Numeral g ∧
        v.bytes = g ++ w.bytes ∧ parseRest n (saturatedHex g) w.buffer = .ok (some location)) := by
    intro n u v split
    simp only [second]
    rw [(first_iff (by decide)).mpr ⟨v, split⟩, ok_bind, if_neg (not_not_intro rfl),
      buffer_cons split]
    refine field_iff (t := v) (k := fun m p => parseRest n m p) ?_
    intro m w run
    rcases parseRest_iff.mp run with ⟨x, separator, _⟩ | ⟨x, separator, _⟩
    all_goals simp [Stops, separator, isSeparator]
  have colon : ∀ n, ∀ u : Text, second n u.buffer = .ok (some location) →
      ∃ v : Text, u.bytes = ch ':' :: v.bytes := by
    intro n u run
    obtain ⟨c, first, _⟩ := charAt_zero u
    by_cases isColon : c = ch ':'
    · exact (first_iff (by decide)).mp (isColon ▸ first)
    · simp only [second, first, ok_bind, ne_eq, isColon, not_false_eq_true, if_true] at run
      cases run
  have first := field_iff (t := t) (k := second) (x := location) (by
    intro n u run
    obtain ⟨v, split⟩ := colon n u run
    simp [Stops, split, isSeparator])
  refine Iff.trans first ?_
  constructor
  · rintro ⟨f, u, numeral, whole, run⟩
    obtain ⟨v, split⟩ := colon _ u run
    obtain ⟨g, w, numeral', whole', rest⟩ := (behind _ u v split).mp run
    exact ⟨f, g, u, v, w, numeral, whole, split, numeral', whole', rest⟩
  · rintro ⟨f, g, u, v, w, numeral, whole, split, numeral', whole', rest⟩
    exact ⟨f, u, numeral, whole, (behind _ u v split).mpr ⟨g, w, numeral', whole', rest⟩⟩

theorem text_behind {f s : Bytes} (whole : t.bytes = f ++ s) : ∃ u : Text, u.bytes = s :=
  ⟨⟨s, fun c mem => t.nonzero c (whole ▸ List.mem_append_right f mem)⟩, rfl⟩

theorem text_tail {s : Bytes} (split : t.bytes = c :: s) : ∃ u : Text, u.bytes = s :=
  text_behind (f := [c]) split

theorem parsePciAddress_iff : parsePciAddress (some t.buffer) = .ok (some location) ↔
    ∃ numbers, Form t.bytes numbers ∧ (∀ f ∈ numbers, Numeral f) ∧
      Accepted (numbers.map saturatedHex) location := by
  rw [parsePciAddress_numbers]
  constructor
  · rintro ⟨f, g, u, v, w, first, whole, colon, second, whole', run⟩
    rw [whole, colon, whole']
    rcases parseRest_iff.mp run with ⟨x, dot, third, found⟩ | ⟨x, colon', h, y, third, whole'', run⟩
    · rw [dot]
      exact ⟨_, .short f g x.bytes, by simp [first, second, third], _, rfl, found⟩
    · obtain ⟨z, dot, fourth, found⟩ := parseFunction_iff.mp run
      rw [colon', whole'', dot]
      exact ⟨_, .long f g h z.bytes, by simp [first, second, third, fourth], _, rfl, found⟩
  · rintro ⟨numbers, form, numerals, location', located, found⟩
    generalize text : t.bytes = s at form
    cases form with
    | short bus device function =>
      obtain ⟨u, colon⟩ := text_behind text
      obtain ⟨v, second⟩ := text_tail colon
      obtain ⟨w, dot⟩ := text_behind second
      obtain ⟨x, third⟩ := text_tail dot
      cases located
      refine ⟨bus, device, u, v, w, numerals _ (by simp), by rw [colon], by rw [colon, second],
        numerals _ (by simp), by rw [second, dot], parseRest_iff.mpr (.inl ⟨x, ?_, ?_, ?_⟩)⟩
      · rw [dot, third]
      · exact third ▸ numerals function (by simp)
      · exact third ▸ found
    | long domain bus device function =>
      obtain ⟨u, colon⟩ := text_behind text
      obtain ⟨v, second⟩ := text_tail colon
      obtain ⟨w, colon'⟩ := text_behind second
      obtain ⟨x, third⟩ := text_tail colon'
      obtain ⟨y, dot⟩ := text_behind third
      obtain ⟨z, fourth⟩ := text_tail dot
      cases located
      refine ⟨domain, bus, u, v, w, numerals _ (by simp), by rw [colon], by rw [colon, second],
        numerals _ (by simp), by rw [second, colon'], parseRest_iff.mpr (.inr ⟨x, ?_, device, y,
          numerals _ (by simp), ?_, parseFunction_iff.mpr ⟨z, ?_, ?_, ?_⟩⟩)⟩
      · rw [colon', third]
      · rw [third, dot]
      · rw [dot, fourth]
      · exact fourth ▸ numerals function (by simp)
      · exact fourth ▸ found

theorem fields_form {s : Bytes} {numbers : List Bytes} (form : Form s numbers)
    (numerals : ∀ f ∈ numbers, Numeral f) : fields s = numbers := by
  have cut : ∀ f ∈ numbers, ∀ rest, ∀ c, isSeparator c = true →
      fields (f ++ c :: rest) = f :: fields rest := fun f mem rest c separator =>
    List.splitOnP_append_cons_of_forall_mem (numerals f mem).no_separator c separator rest
  have last : ∀ f ∈ numbers, fields f = [f] := fun f mem =>
    List.splitOnP_eq_singleton (numerals f mem).no_separator
  cases form with
  | short bus device function =>
    rw [cut bus (by simp) _ _ (by decide), cut device (by simp) _ _ (by decide),
      last function (by simp)]
  | long domain bus device function =>
    rw [cut domain (by simp) _ _ (by decide), cut bus (by simp) _ _ (by decide),
      cut device (by simp) _ _ (by decide), last function (by simp)]

theorem parsePciAddress_some (run : parsePciAddress (some t.buffer) = .ok (some location)) :
    Accepted ((fields t.bytes).map saturatedHex) location := by
  obtain ⟨numbers, form, numerals, accepted⟩ := parsePciAddress_iff.mp run
  rwa [fields_form form numerals]

end Stages

end Nanolibc.EfiPciModel
