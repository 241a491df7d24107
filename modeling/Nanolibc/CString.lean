import Nanolibc.Lib.ArrayHeap

set_option autoImplicit false

/-!
# C strings

A `const char*` is the list of the bytes from it to the end of its object; reading past the end
is a fault. `char` is signed, as on the x86-64 targets. A returned pointer is its distance from
the string.
-/
namespace Nanolibc.CString
open Lib.ArrayHeap

abbrev Bytes := List UInt8

structure Text where
  bytes : Bytes
  nonzero : ∀ c ∈ bytes, c ≠ 0

def Text.buffer (t : Text) : Bytes := t.bytes ++ [0]

def Text.has (t : Text) (c : UInt8) : Bool := decide (c ∈ t.bytes)

def ch (c : Char) : UInt8 := c.toUInt8

def schar (c : UInt8) : ℤ := if c.toNat < 128 then c.toNat else c.toNat - 256

@[simp] theorem ok_bind {α β : Type} (a : α) (f : α → Except Fault β) :
    (Except.ok a >>= f) = f a := rfl

@[simp] theorem pure_ok {α : Type} (a : α) : (pure a : Except Fault α) = .ok a := rfl

def charAt (p : Bytes) (i : ℕ) : Except Fault UInt8 :=
  match p[i]? with
  | none => throw .bounds
  | some c => pure c

def strlen : Bytes → Except Fault ℕ
  | [] => throw .bounds
  | c :: s =>
    if c ≠ 0 then do
      let i ← strlen s
      return i + 1
    else pure 0

/-- The bytes are compared as `char`, the other comparisons take them as `unsigned char`. -/
def memcmp : Bytes → Bytes → ℕ → Except Fault ℤ
  | _, _, 0 => pure 0
  | c1 :: s1, c2 :: s2, n + 1 =>
    if c1 ≠ c2 then pure (schar c1 - schar c2) else memcmp s1 s2 n
  | _, _, _ + 1 => throw .bounds

def strcmp : Bytes → Bytes → Except Fault ℤ
  | c1 :: s1, c2 :: s2 =>
    if c1 = 0 ∨ c1 ≠ c2 then pure ((c1.toNat : ℤ) - c2.toNat) else strcmp s1 s2
  | _, _ => throw .bounds

def strncmp : Bytes → Bytes → ℕ → Except Fault ℤ
  | _, _, 0 => pure 0
  | c1 :: s1, c2 :: s2, n + 1 =>
    if c1 = 0 ∨ c1 ≠ c2 then pure ((c1.toNat : ℤ) - c2.toNat) else strncmp s1 s2 n
  | _, _, _ + 1 => throw .bounds

/-- `for (a = accept; *a != '\0'; ++a) if (*p == *a) break;`: whether it stops before the NUL. -/
def scanSet (c : UInt8) : Bytes → Except Fault Bool
  | [] => throw .bounds
  | a :: accept =>
    if a = 0 then pure false
    else if c = a then pure true
    else scanSet c accept

def strspn : Bytes → Bytes → Except Fault ℕ
  | [], _ => throw .bounds
  | c :: s, accept =>
    if c = 0 then pure 0
    else do
      let accepted ← scanSet c accept
      if accepted then do
        let count ← strspn s accept
        return count + 1
      else pure 0

def strpbrk : Bytes → Bytes → Except Fault (Option ℕ)
  | [], _ => throw .bounds
  | c :: s, accept =>
    if c = 0 then pure none
    else do
      let accepted ← scanSet c accept
      if accepted then pure (some 0)
      else do
        let found ← strpbrk s accept
        return found.map (· + 1)

def rawmemchr : Bytes → UInt8 → Except Fault ℕ
  | [], _ => throw .bounds
  | d :: s, c =>
    if d ≠ c then do
      let count ← rawmemchr s c
      return count + 1
    else pure 0

section Scans

variable {c : UInt8} {s junk : Bytes}

theorem scanSet_eq (d : Text) : c ≠ 0 → scanSet c d.buffer = .ok (d.has c) := by
  intro hc
  obtain ⟨bytes, nonzero⟩ := d
  unfold Text.buffer Text.has
  simp only
  induction bytes with
  | nil => rfl
  | cons a bytes ih =>
    rw [List.cons_append, scanSet, if_neg (nonzero a (List.mem_cons_self ..))]
    by_cases same : c = a
    · subst same
      simp
    · rw [if_neg same, ih (fun c hc => nonzero c (List.mem_cons_of_mem _ hc))]
      simp [same]

theorem strspn_eq (t : ∀ c ∈ s, c ≠ 0) (d : Text) :
    strspn (s ++ 0 :: junk) d.buffer = .ok (s.takeWhile d.has).length := by
  induction s with
  | nil => rfl
  | cons c s ih =>
    have nonzero := t c (List.mem_cons_self ..)
    rw [List.cons_append, strspn, if_neg nonzero, scanSet_eq d nonzero, ok_bind,
      ih (fun c hc => t c (List.mem_cons_of_mem _ hc)), List.takeWhile_cons]
    cases d.has c <;> rfl

theorem strpbrk_eq (t : ∀ c ∈ s, c ≠ 0) (d : Text) :
    strpbrk (s ++ 0 :: junk) d.buffer =
      .ok (if s.dropWhile (!d.has ·) = [] then none else some (s.takeWhile (!d.has ·)).length) := by
  induction s with
  | nil => rfl
  | cons c s ih =>
    have nonzero := t c (List.mem_cons_self ..)
    rw [List.cons_append, strpbrk, if_neg nonzero, scanSet_eq d nonzero, ok_bind,
      ih (fun c hc => t c (List.mem_cons_of_mem _ hc)), List.takeWhile_cons, List.dropWhile_cons]
    cases d.has c with
    | true => simp
    | false =>
      simp only [Bool.not_false, Bool.false_eq_true, if_true, if_false, ok_bind, pure_ok]
      split_ifs <;> rfl

theorem rawmemchr_eq (t : ∀ c ∈ s, c ≠ 0) : rawmemchr (s ++ 0 :: junk) 0 = .ok s.length := by
  induction s with
  | nil => rfl
  | cons c s ih =>
    rw [List.cons_append, rawmemchr, if_pos (t c (List.mem_cons_self ..)),
      ih (fun c hc => t c (List.mem_cons_of_mem _ hc))]
    rfl

theorem takeWhile_text {α : Type} [DecidableEq α] {z : α} {text : List α}
    (nonzero : ∀ c ∈ text, c ≠ z) (rest : List α) :
    (text ++ z :: rest).takeWhile (· ≠ z) = text := by
  have all : ∀ c ∈ text, decide (c ≠ z) = true := fun c hc => decide_eq_true (nonzero c hc)
  rw [List.takeWhile_append_of_pos all, List.takeWhile_cons_of_neg (by simp), List.append_nil]

theorem strlen_eq (ends : 0 ∈ s) : strlen s = .ok (s.takeWhile (· ≠ 0)).length := by
  induction s with
  | nil => cases ends
  | cons c s ih =>
    by_cases nul : c = 0
    · subst nul
      rfl
    · have rest := ih ((List.mem_cons.mp ends).resolve_left (Ne.symm nul))
      rw [strlen, if_pos nul, rest, List.takeWhile_cons, if_pos (by simpa using nul)]
      rfl

end Scans

end Nanolibc.CString
