import Mathlib.Data.Nat.Notation
import Mathlib.Tactic.Common

set_option autoImplicit false

namespace Nanolibc.Ctype

def NNLC_ISSPACE : ℕ := 0x400
def NNLC_ISUPPER : ℕ := 0x800
def NNLC_ISXDIGIT : ℕ := 0x1000

def nnlcCtypeTable : List ℕ :=
  [0x14, 0x14, 0x14, 0x14, 0x14, 0x14, 0x14, 0x14,
   0x14, 0x41c, 0x414, 0x414, 0x414, 0x414, 0x14, 0x14,
   0x14, 0x14, 0x14, 0x14, 0x14, 0x14, 0x14, 0x14,
   0x14, 0x14, 0x14, 0x14, 0x14, 0x14, 0x14, 0x14,
   0x50c, 0x344, 0x344, 0x344, 0x344, 0x344, 0x344, 0x344,
   0x344, 0x344, 0x344, 0x344, 0x344, 0x344, 0x344, 0x344,
   0x1165, 0x1165, 0x1165, 0x1165, 0x1165, 0x1165, 0x1165, 0x1165,
   0x1165, 0x1165, 0x344, 0x344, 0x344, 0x344, 0x344, 0x344,
   0x344, 0x1947, 0x1947, 0x1947, 0x1947, 0x1947, 0x1947, 0x947,
   0x947, 0x947, 0x947, 0x947, 0x947, 0x947, 0x947, 0x947,
   0x947, 0x947, 0x947, 0x947, 0x947, 0x947, 0x947, 0x947,
   0x947, 0x947, 0x947, 0x344, 0x344, 0x344, 0x344, 0x344,
   0x344, 0x11c7, 0x11c7, 0x11c7, 0x11c7, 0x11c7, 0x11c7, 0x1c7,
   0x1c7, 0x1c7, 0x1c7, 0x1c7, 0x1c7, 0x1c7, 0x1c7, 0x1c7,
   0x1c7, 0x1c7, 0x1c7, 0x1c7, 0x1c7, 0x1c7, 0x1c7, 0x1c7,
   0x1c7, 0x1c7, 0x1c7, 0x344, 0x344, 0x344, 0x344, 0x14]

def hasFlag (flag : ℕ) (c : UInt8) : Bool := nnlcCtypeTable.getD c.toNat 0 &&& flag != 0

def isspace (c : UInt8) : Bool := hasFlag NNLC_ISSPACE c

def isupper (c : UInt8) : Bool := hasFlag NNLC_ISUPPER c

def isxdigit (c : UInt8) : Bool := hasFlag NNLC_ISXDIGIT c

theorem isupper_iff (c : UInt8) : isupper c = true ↔ 65 ≤ c.toNat ∧ c.toNat ≤ 90 := by
  have table : ∀ n : Fin 256, hasFlag NNLC_ISUPPER (UInt8.ofNat n) = true ↔
      65 ≤ n.val ∧ n.val ≤ 90 := by
    decide +kernel
  have entry := table ⟨c.toNat, c.toNat_lt⟩
  rwa [UInt8.ofNat_toNat] at entry

end Nanolibc.Ctype
