import Nanolibc.EfiPciGrammar

set_option autoImplicit false

namespace Nanolibc.EfiPciModel
open Lib.ArrayHeap CString Ctype StrtoxModel

structure InRange (location : GglPciLocator) : Prop where
  domain : location.domain ≤ 0xffff
  bus : location.bus ≤ 0xff
  device : location.device ≤ 0xff
  function : location.function ≤ 7

section Validity

variable {x k w : ℕ} {numbers : List ℕ} {location found : GglPciLocator}

theorem below_mask (width : k + w = 32) (clear : x &&& ((2 ^ w - 1) <<< k) = 0)
    (small : x < 2 ^ 32) : x < 2 ^ k := by
  have shifted : (x &&& ((2 ^ w - 1) <<< k)) >>> k = 0 := by rw [clear, Nat.zero_shiftRight]
  rw [Nat.shiftRight_and_distrib, Nat.shiftLeft_shiftRight, Nat.and_two_pow_sub_one_eq_mod,
    Nat.shiftRight_eq_div_pow] at shifted
  have bound : x < 2 ^ k * 2 ^ w := by rwa [← Nat.pow_add, width]
  have quotient : x / 2 ^ k < 2 ^ w := Nat.div_lt_of_lt_mul bound
  rw [Nat.mod_eq_of_lt quotient] at shifted
  exact Nat.lt_of_div_eq_zero (Nat.two_pow_pos k) shifted

/-- The check looks at the low 32 bits only. -/
theorem checked_some (passed : checked found = some location) : found = location ∧
    (location.domain < 2 ^ 32 → location.domain < 2 ^ 16) ∧
    (location.bus < 2 ^ 32 → location.bus < 2 ^ 8) ∧
    (location.device < 2 ^ 32 → location.device < 2 ^ 8) ∧
    (location.function < 2 ^ 32 → location.function < 2 ^ 3) := by
  unfold checked at passed
  split_ifs at passed with domain bus device function
  cases passed
  constructor
  · rfl
  constructor
  · exact below_mask (w := 16) rfl (not_not.mp domain)
  constructor
  · exact below_mask (w := 24) rfl (not_not.mp bus)
  constructor
  · exact below_mask (w := 24) rfl (not_not.mp device)
  · exact below_mask (w := 29) rfl (not_not.mp function)

theorem accepted_inRange_iff (accepted : Accepted numbers location) :
    InRange location ↔ ∀ n ∈ numbers, n < 2 ^ 32 := by
  obtain ⟨found, located, passed⟩ := accepted
  obtain ⟨rfl, domain, bus, device, function⟩ := checked_some passed
  have ranges : InRange found ↔ found.domain < 2 ^ 32 ∧ found.bus < 2 ^ 32 ∧
      found.device < 2 ^ 32 ∧ found.function < 2 ^ 32 := by
    constructor
    · rintro ⟨_, _, _, _⟩
      omega
    · intro small
      constructor <;> omega
  rw [ranges]
  unfold locate at located
  split at located
  · cases located
    simp
  · cases located
    simp
  · cases located

theorem saturatedHex_lt (field : Bytes) :
    saturatedHex field < 2 ^ 32 ↔ hexValue field < 2 ^ 32 := by
  unfold saturatedHex
  omega

end Validity

/-- The location of an accepted locator is in range exactly when each of its hexadecimal numbers
is below 2^32. -/
theorem parsePciAddress_inRange_iff (t : Text) (location : GglPciLocator)
    (run : parsePciAddress (some t.buffer) = .ok (some location)) :
    InRange location ↔ ∀ field ∈ fields t.bytes, hexValue field < 2 ^ 32 := by
  rw [accepted_inRange_iff (parsePciAddress_some run), List.forall_mem_map]
  simp only [saturatedHex_lt]

theorem parsePciAddress_inRange_iff_1f :
    InRange ⟨0, 0, 31, 3⟩ ↔
      ∀ field ∈ fields [48, 48, 58, 49, 102, 46, 51], hexValue field < 2 ^ 32 :=
  parsePciAddress_inRange_iff ⟨[48, 48, 58, 49, 102, 46, 51], by simp⟩ ⟨0, 0, 31, 3⟩
    (by decide +kernel)

/-- `100000000:00:00.0`. -/
theorem parsePciAddress_out_of_range :
    parsePciAddress (some [49, 48, 48, 48, 48, 48, 48, 48, 48, 58, 48, 48, 58, 48, 48, 46, 48, 0]) =
        .ok (some ⟨2 ^ 32, 0, 0, 0⟩) ∧
      ¬InRange ⟨2 ^ 32, 0, 0, 0⟩ := by
  constructor
  · decide +kernel
  · intro range
    exact absurd range.domain (by decide)

end Nanolibc.EfiPciModel
