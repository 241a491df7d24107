import Nanolibc.EfiPciRanges

set_option autoImplicit false

namespace Nanolibc.EfiPciModel
open Lib.ArrayHeap CString Ctype StrtoxModel

def plainValue (field : Bytes) : ℕ := Nat.ofDigits 16 (field.filterMap digitVal).reverse

/-- The text has one of the two formats, and is this location. -/
def Formats (s : Bytes) (location : GglPciLocator) : Prop :=
  ∃ numbers, Form s numbers ∧ (∀ f ∈ numbers, Plain f) ∧
    locate (numbers.map plainValue) = some location

/-- What is accepted has a format and is stored as it says, and all in range is accepted. -/
structure ParsesFormats (t : Text) : Prop where
  sound : ∀ location, parsePciAddress (some t.buffer) = .ok (some location) →
    Formats t.bytes location
  complete : ∀ location, Formats t.bytes location → InRange location →
    parsePciAddress (some t.buffer) = .ok (some location)

def AcceptedPrefix (s : Bytes) : Prop :=
  ∃ numbers, Form s numbers ∧ (∀ f ∈ numbers, Numeral f) ∧ (∃ f ∈ numbers, Prefixed f) ∧
    ∃ location, Accepted (numbers.map saturatedHex) location

section Check

variable {n k w : ℕ} {numbers : List ℕ} {location found : GglPciLocator}

theorem clear_mask (small : n < 2 ^ k) : n &&& ((2 ^ w - 1) <<< k) = 0 := by
  apply Nat.eq_of_testBit_eq
  intro i
  rw [Nat.testBit_and, Nat.zero_testBit, Nat.testBit_shiftLeft]
  by_cases low : i < k
  · simp [Nat.not_le_of_lt low]
  · have high : n < 2 ^ i := Nat.lt_of_lt_of_le small (Nat.pow_le_pow_right (by decide) (by omega))
    rw [Nat.testBit_lt_two_pow high, Bool.false_and]

theorem checked_inRange (range : InRange location) : checked location = some location := by
  obtain ⟨domain, bus, device, function⟩ := range
  have domain' : location.domain &&& 0xffff0000 = 0 := clear_mask (k := 16) (w := 16) (by omega)
  have bus' : location.bus &&& 0xffffff00 = 0 := clear_mask (k := 8) (w := 24) (by omega)
  have device' : location.device &&& 0xffffff00 = 0 := clear_mask (k := 8) (w := 24) (by omega)
  have function' : location.function &&& 0xfffffff8 = 0 := clear_mask (k := 3) (w := 29) (by omega)
  simp [checked, domain', bus', device', function']

theorem located_small (located : locate numbers = some location) (range : InRange location) :
    ∀ n ∈ numbers, n ≤ 0xffff := by
  obtain ⟨domain, bus, device, function⟩ := range
  unfold locate at located
  split at located
  · cases located
    dsimp only at domain bus device function
    simp
    omega
  · cases located
    dsimp only at domain bus device function
    simp
    omega
  · cases located

theorem accepted_unsaturated (accepted : Accepted numbers location) :
    ∀ n ∈ numbers, n ≠ 2 ^ 64 - 1 := by
  obtain ⟨found, located, passed⟩ := accepted
  have unsaturated : found.domain ≠ 2 ^ 64 - 1 ∧ found.bus ≠ 2 ^ 64 - 1 ∧
      found.device ≠ 2 ^ 64 - 1 ∧ found.function ≠ 2 ^ 64 - 1 := by
    unfold checked at passed
    split_ifs at passed with domain bus device function
    constructor
    · intro saturated
      exact domain (by rw [saturated]; decide)
    constructor
    · intro saturated
      exact bus (by rw [saturated]; decide)
    constructor
    · intro saturated
      exact device (by rw [saturated]; decide)
    · intro saturated
      exact function (by rw [saturated]; decide)
  unfold locate at located
  split at located
  · cases located
    simpa using unsaturated
  · cases located
    simpa using unsaturated
  · cases located

end Check

section Formats

variable {t : Text} {location : GglPciLocator}

/-- An accepted locator of plain numbers is stored exactly. -/
theorem formats_of_plain {s : Bytes} {numbers : List Bytes} (form : Form s numbers)
    (plain : ∀ f ∈ numbers, Plain f) (accepted : Accepted (numbers.map saturatedHex) location) :
    Formats s location := by
  have exact : numbers.map saturatedHex = numbers.map plainValue := by
    apply List.map_congr_left
    intro f mem
    have below := accepted_unsaturated accepted _ (List.mem_map_of_mem mem)
    rw [saturatedHex] at below ⊢
    rw [plainValue, ← hexValue_plain (plain f mem)]
    omega
  obtain ⟨found, located, passed⟩ := accepted
  obtain ⟨rfl, _⟩ := checked_some passed
  exact ⟨numbers, form, plain, exact ▸ located⟩

theorem parses_of_formats (formats : Formats t.bytes location) (range : InRange location) :
    parsePciAddress (some t.buffer) = .ok (some location) := by
  obtain ⟨numbers, form, plain, located⟩ := formats
  have small := located_small located range
  have exact : numbers.map saturatedHex = numbers.map plainValue := by
    apply List.map_congr_left
    intro f mem
    have below := small _ (List.mem_map_of_mem mem)
    rw [plainValue, ← hexValue_plain (plain f mem)] at below ⊢
    rw [saturatedHex]
    omega
  apply parsePciAddress_iff.mpr
  exact ⟨numbers, form, fun f mem => .inl (plain f mem), location, exact ▸ located,
    checked_inRange range⟩

theorem form_unique {s : Bytes} {numbers numbers' : List Bytes} (form : Form s numbers)
    (numerals : ∀ f ∈ numbers, Numeral f) (form' : Form s numbers')
    (numerals' : ∀ f ∈ numbers', Numeral f) : numbers = numbers' :=
  (fields_form form numerals).symm.trans (fields_form form' numerals')

end Formats

theorem not_parses {t : Text} (accepted : AcceptedPrefix t.bytes) : ¬ParsesFormats t := by
  intro parses
  obtain ⟨numbers, form, numerals, ⟨f, mem, long⟩, location, accepted⟩ := accepted
  have run := parsePciAddress_iff.mpr ⟨numbers, form, numerals, accepted⟩
  obtain ⟨numbers', form', plain, _⟩ := parses.sound location run
  obtain rfl := form_unique form numerals form' (fun f mem => .inl (plain f mem))
  exact (plain f mem).not_prefixed long

/-- The function reads the two formats and nothing else, except where a locator that passes the
check has a number with a prefix. -/
theorem parsePciAddress_formats_iff (t : Text) : ParsesFormats t ↔ ¬AcceptedPrefix t.bytes := by
  constructor
  · intro parses accepted
    exact not_parses accepted parses
  · intro none
    constructor
    · intro location run
      obtain ⟨numbers, form, numerals, accepted⟩ := parsePciAddress_iff.mp run
      apply formats_of_plain form _ accepted
      intro f mem
      apply (numerals f mem).resolve_right
      intro long
      exact none ⟨numbers, form, numerals, ⟨f, mem, long⟩, location, accepted⟩
    · intro location formats range
      exact parses_of_formats formats range

/-- `0x10:00.0` is bus 16. -/
theorem parsePciAddress_takes_prefix :
    parsePciAddress (some [48, 120, 49, 48, 58, 48, 48, 46, 48, 0]) = .ok (some ⟨0, 16, 0, 0⟩) ∧
      ¬ParsesFormats ⟨[48, 120, 49, 48, 58, 48, 48, 46, 48], by simp⟩ := by
  constructor
  · decide +kernel
  · apply not_parses
    have zeros : Plain [48, 48] := ⟨by simp, by decide +kernel⟩
    have zero : Plain [48] := ⟨by simp, by decide +kernel⟩
    have long : Prefixed [48, 120, 49, 48] :=
      ⟨120, [49, 48], .inl rfl, ⟨by simp, by decide +kernel⟩, rfl⟩
    refine ⟨_, .short [48, 120, 49, 48] [48, 48] [48], ?_, ⟨_, List.mem_cons_self .., long⟩,
      ⟨0, 16, 0, 0⟩, ⟨0, 16, 0, 0⟩, by decide +kernel, by decide +kernel⟩
    simp [Numeral, zeros, zero, long]

end Nanolibc.EfiPciModel
