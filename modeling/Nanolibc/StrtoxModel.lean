import Nanolibc.CString
import Nanolibc.Ctype

set_option autoImplicit false

namespace Nanolibc.StrtoxModel
open Lib.ArrayHeap CString Ctype

inductive Variant where
  | signed
  | unsigned
  deriving DecidableEq

def Variant.intMax : Variant → ℕ
  | .signed => 2 ^ 63 - 1
  | .unsigned => 2 ^ 64 - 1

/-- `max_unshifted_absval` before its division by the base; `-(unsigned)_STRTOX_INTMIN` is 2^63. -/
def Variant.limit : Variant → Bool → ℕ
  | .signed, false => 2 ^ 63
  | v, _ => v.intMax

def Variant.returned : Variant → ℕ → ℤ
  | .signed, absval => if absval < 2 ^ 63 then absval else absval - 2 ^ 64
  | .unsigned, absval => absval

def skipSpaces : Bytes → Except Fault Bytes
  | [] => throw .bounds
  | c :: s => if c ≠ 0 ∧ isspace c then skipSpaces s else pure (c :: s)

def readSign : Bytes → Except Fault (Bool × Bytes)
  | [] => throw .bounds
  | c :: s =>
    if c = ch '+' then pure (true, s)
    else if c = ch '-' then pure (false, s)
    else pure (true, c :: s)

def hexPrefix (s : Bytes) : Except Fault Bool := do
  let lower ← strncmp s [ch '0', ch 'x', 0] 2
  if lower = 0 then pure true
  else do
    let upper ← strncmp s [ch '0', ch 'X', 0] 2
    return upper == 0

structure Start where
  base : ℕ
  s : Bytes
  endc : Bytes

def detectBase (base : ℕ) (s endc : Bytes) : Except Fault Start := do
  let hex ← if base = 0 ∨ base = 16 then hexPrefix s else pure false
  if hex then pure ⟨16, s.drop 2, s.drop 1⟩
  else if base = 16 then pure ⟨16, s, endc⟩
  else if base = 0 then
    match s with
    | [] => throw .bounds
    | c :: _ => if c = ch '0' then pure ⟨8, s, endc⟩ else pure ⟨10, s, endc⟩
  else pure ⟨base, s, endc⟩

def digitOf (base : ℕ) (c : UInt8) : Option ℕ :=
  let dtop := if base ≤ 10 then schar (ch '0') + base - 1 else schar (ch '0') + 9
  let ltop := if base ≤ 10 then 0 else schar (ch 'a') + (base - 10) - 1
  let utop := if base ≤ 10 then 0 else schar (ch 'A') + (base - 10) - 1
  if schar (ch '0') ≤ schar c ∧ schar c ≤ dtop then some (schar c - schar (ch '0')).toNat
  else if schar (ch 'a') ≤ schar c ∧ schar c ≤ ltop then
    some (10 + (schar c - schar (ch 'a'))).toNat
  else if schar (ch 'A') ≤ schar c ∧ schar c ≤ utop then
    some (10 + (schar c - schar (ch 'A'))).toNat
  else none

structure Scan where
  absval : ℕ
  overflow : Bool
  endc : Bytes

/-- One digit; `maxAbsval` and `maxLastDigit` are the limit divided by the base. -/
def Scan.next (base maxAbsval maxLastDigit : ℕ) (scan : Scan) (digit : ℕ) (endc : Bytes) : Scan :=
  if scan.overflow then { scan with endc := endc }
  else if scan.absval > maxAbsval then { scan with overflow := true, endc := endc }
  else if scan.absval = maxAbsval ∧ digit > maxLastDigit then
    { scan with overflow := true, endc := endc }
  else { scan with absval := (scan.absval * base % 2 ^ 64 + digit) % 2 ^ 64, endc := endc }

def digitLoop (base maxAbsval maxLastDigit : ℕ) : Bytes → Scan → Except Fault Scan
  | [], _ => throw .bounds
  | c :: s, scan =>
    if c = 0 then pure scan
    else
      match digitOf base c with
      | none => pure scan
      | some digit =>
        digitLoop base maxAbsval maxLastDigit s (scan.next base maxAbsval maxLastDigit digit s)

def absResult (v : Variant) (positive : Bool) (scan : Scan) : ℕ :=
  if scan.overflow then
    if v = .signed ∧ !positive then 2 ^ 63 else v.intMax
  else if !positive then (2 ^ 64 - scan.absval) % 2 ^ 64
  else scan.absval

/-- The returned value, and what is stored in `*endptr`, if anything. -/
structure Result where
  value : ℤ
  endptr : Option Bytes
  deriving DecidableEq

def strtox (v : Variant) (nptr : Bytes) (endptr : Bool) (base : ℤ) : Except Fault Result :=
  if ¬(base = 0 ∨ (2 ≤ base ∧ base ≤ 36)) then pure ⟨0, none⟩
  else do
    let s ← skipSpaces nptr
    let signed ← readSign s
    let start ← detectBase base.toNat signed.2 nptr
    let limit := v.limit signed.1
    let scan ← digitLoop start.base (limit / start.base) (limit % start.base) start.s
      ⟨0, false, start.endc⟩
    return ⟨v.returned (absResult v signed.1 scan), if endptr then some scan.endc else none⟩

def strtol := strtox .signed
def strtoll := strtox .signed
def strtoul := strtox .unsigned
def strtoull := strtox .unsigned

def atol (nptr : Bytes) : Except Fault ℤ := Result.value <$> strtol nptr false 10

end Nanolibc.StrtoxModel
