import Mathlib.Data.List.TakeWhile
import Nanolibc.StdioFormat
import Nanolibc.StringRelations
import Nanolibc.StrtoxCorrect

set_option autoImplicit false

namespace Nanolibc.StringModel
open Lib.Program Lib.ArrayHeap Lib.FlatMemory Lib.OwnedArray Lib.ObjectPool Lib.Numeral
open StdioModel StrtoxModel CString Ctype

/-- The stack where `to_string` is called, and the address of its `buf[32]`. -/
structure Frame where
  stack : Memory
  buf : ℕ
  room : buf + 32 ≤ 2 ^ 64

section Model

-- `formatted` is what `tfp_format` makes of a format and one argument of 64 bits.
variable (formatted : Bytes → ℕ → Bytes) (junk : ℕ → ℕ → UInt8)

def sprintf (str : ℕ) (format : Bytes) (arg : ℕ) : Prog Memory Fault Int32 :=
  vsprintf str (formatted format arg)

def percentU : Bytes := [ch '%', ch 'u', 0]

def toString (frame : Frame) (val : ℕ) : Method Str := do
  let (_, stack) ← lift (sprintf formatted frame.buf percentU val frame.stack)
  Str.ofCString junk ((span frame.buf 32).map stack.bytes)

def makeString (frame : Frame) (val : ℕ) : Sys Unit := do
  let v ← method (toString formatted junk frame val)
  create v

def readString (i : ℕ) : Sys ℤ := do
  let v ← object i
  let text ← method (Str.dataPtr v).view
  let result ← method (lift (strtoul text false 10))
  return result.value

end Model

def digit (d : ℕ) : UInt8 := UInt8.ofNat ((ch '0').toNat + d)

def decimal (n : ℕ) : Bytes := (numeral 10 n).map digit

section Decimal

variable {n : ℕ} {c : UInt8}

theorem digit_reads : ∀ d < 10, digitVal (digit d) = some d ∧ isspace (digit d) = false ∧
    digit d ≠ 0 ∧ digit d ≠ ch '+' ∧ digit d ≠ ch '-' := by decide

theorem of_decimal (h : c ∈ decimal n) : ∃ d < 10, digit d = c := by
  obtain ⟨d, here, same⟩ := List.mem_map.mp h
  exact ⟨d, numeral_lt (by decide) d here, same⟩

theorem decimal_nonzero : ∀ c ∈ decimal n, c ≠ 0 := by
  intro c h
  obtain ⟨d, small, rfl⟩ := of_decimal h
  exact (digit_reads d small).2.2.1

theorem decimal_ne_nil (n : ℕ) : decimal n ≠ [] := by
  intro empty
  exact numeral_ne_nil 10 n (List.map_eq_nil_iff.mp empty)

theorem decimal_length (small : n < 2 ^ 32) : (decimal n).length ≤ 10 := by
  rw [decimal, List.length_map]
  exact numeral_length (by decide) (by decide) (by omega)

theorem decimal_digits (n : ℕ) : (decimal n).filterMap digitVal = numeral 10 n := by
  have every : ∀ d ∈ numeral 10 n, d < 10 := numeral_lt (by decide)
  unfold decimal
  generalize numeral 10 n = ds at every ⊢
  induction ds with
  | nil => rfl
  | cons d ds ih =>
    have first := (digit_reads d (every d (List.mem_cons_self ..))).1
    rw [List.map_cons, List.filterMap_cons_some first,
      ih fun e he => every e (List.mem_cons_of_mem d he)]

theorem decimal_injective : Function.Injective decimal := by
  intro n k same
  rw [← value_numeral 10 n, ← value_numeral 10 k, ← decimal_digits, ← decimal_digits, same]

theorem subject_decimal (n : ℕ) :
    (subject (decimal n) 10).negative = false ∧ (subject (decimal n) 10).magnitude = n := by
  obtain ⟨c, cs, here⟩ := List.exists_cons_of_ne_nil (decimal_ne_nil n)
  obtain ⟨d, small, first⟩ := of_decimal (n := n) (c := c) (by rw [here]; exact List.mem_cons_self)
  obtain ⟨_, space, _, plus, minus⟩ := digit_reads d small
  rw [first] at space plus minus
  have blanks : (decimal n).dropWhile isspace = decimal n := by
    rw [here, List.dropWhile_cons_of_neg (by simp [space])]
  have unsigned : afterSign (decimal n) = decimal n := by
    rw [here, afterSign, if_neg (by simp [plus, minus])]
  have unprefixed : prefixed 10 (decimal n) = false := by simp [prefixed]
  have base : actualBase 10 (decimal n) = 10 := by simp [actualBase, unprefixed]
  have digits : ∀ e ∈ decimal n, isDigit 10 e = true := by
    intro e he
    obtain ⟨d, small, rfl⟩ := of_decimal he
    rw [isDigit, (digit_reads d small).1]
    simpa using small
  have whole : (decimal n).takeWhile (isDigit 10) = decimal n :=
    List.takeWhile_eq_self_iff.mpr digits
  constructor
  · simp only [subject, blanks]
    simp only [here, List.head?_cons, Option.some.injEq, minus, decide_false]
  · rw [Subject.magnitude_eq]
    simp only [subject, blanks, unsigned, base, afterPrefix, unprefixed, Bool.false_eq_true,
      if_false, whole, decimal_digits, value_numeral]

theorem strtoul_decimal (small : n < 2 ^ 64) :
    strtoul (decimal n ++ [0]) false 10 = .ok ⟨n, none⟩ := by
  have run : strtoul (decimal n ++ [0]) false 10 = .ok (expected .unsigned _ false 10) :=
    strtox_eq .unsigned ⟨decimal n, decimal_nonzero⟩ false 10
  obtain ⟨positive, magnitude⟩ := subject_decimal n
  have value : Variant.unsigned.saturated (subject (decimal n) 10) = n := by
    simp only [Variant.saturated, Subject.value, positive, magnitude, Bool.false_eq_true, if_false]
    rw [if_pos (by omega)]
    omega
  have base : Int.toNat 10 = 10 := rfl
  rw [run, expected, if_pos (by omega)]
  simp only [base, value, Bool.false_eq_true, if_false]

end Decimal

section Conversion

variable {formatted : Bytes → ℕ → Bytes} {junk : ℕ → ℕ → UInt8} {frame : Frame} {val i n : ℕ}
  {s : System} {ls : ListPool UInt8} {h : Heap UInt8} {out : Bytes} {bad : Fault → Prop}

theorem buf_written (frame : Frame) (short : out.length < 32) : ∃ rest,
    (span frame.buf 32).map (frame.stack.writeAll frame.buf (out ++ [0])).bytes =
      out ++ 0 :: rest := by
  have room := frame.room
  have length : (out ++ [0]).length = out.length + 1 := by
    rw [List.length_append, List.length_singleton]
  have front : out ++ [0] <+:
      (span frame.buf 32).map (frame.stack.writeAll frame.buf (out ++ [0])).bytes := by
    rw [List.prefix_iff_getElem?]
    intro i hi
    have here : (out ++ [0])[i]? = some (out ++ [0])[i] := List.getElem?_eq_getElem hi
    have inside : i < 32 := by omega
    have address : (frame.buf + i) % 2 ^ 64 = frame.buf + i := Nat.mod_eq_of_lt (by omega)
    have get : (span frame.buf 32)[i]? = some (frame.buf + i) := by
      rw [span, List.getElem?_map, List.getElem?_range inside, Option.map_some, address]
    rw [List.getElem?_map, get, Option.map_some, writeAll_inside (by omega) here]
  obtain ⟨rest, whole⟩ := front
  exact ⟨rest, by rw [← whole, List.append_assoc, List.singleton_append]⟩

theorem wp_toString (short : out.length < 32) (nonzero : ∀ c ∈ out, c ≠ 0)
    (printed : formatted percentU val = out) :
    wp (toString formatted junk frame val) (fun v t => (v, t) = built h out) bad h := by
  have call : wp (vsprintf frame.buf out) _ never frame.stack := wp_vsprintf (by omega)
  obtain ⟨r, stack, run, rfl, rfl⟩ := wp_never.mp call
  obtain ⟨rest, buf⟩ := buf_written frame short
  have text : (out ++ 0 :: rest).takeWhile (· ≠ 0) = out := takeWhile_text nonzero rest
  have ends : 0 ∈ out ++ 0 :: rest := by simp
  rw [toString, sprintf, printed, run, wp_bind, wp_lift_ok]
  dsimp only
  rw [buf]
  have made : wp (Str.ofCString junk (out ++ 0 :: rest)) _ bad h :=
    wp_ofCString ends (by rw [text]; omega)
  rwa [text] at made

theorem wp_makeString (junk : ℕ → ℕ → UInt8) (frame : Frame)
    (printed : formatted percentU val = decimal n) (small : n < 2 ^ 32)
    (rel : Rel stringClass s ls) :
    wp (makeString formatted junk frame val)
      (fun _ t => Rel stringClass t (ls ++ [some (decimal n)])) never s := by
  have short := decimal_length small
  exact wp_make rel (by omega) (wp_toString (by omega) decimal_nonzero printed)

theorem readString_eq (shows : Shows stringClass s i (decimal n)) (small : n < 2 ^ 64) :
    readString i s = .ok ((n : ℤ), s) := by
  obtain ⟨v, zs, alive, holds, shown⟩ := shows
  obtain ⟨keeps, rfl⟩ := keeps_of_holds holds shown
  have run : wp (readString i) (fun r t => r = (n : ℤ) ∧ t = s) never s := by
    have buffer : Buffer s.heap v.data (image (decimal n)) := holds.buffer
    rw [readString, wp_bind, wp_object alive, wp_bind, wp_method]
    cases here : v.data with
    | none => exact (decimal_ne_nil n (keeps.null_iff.mp here)).elim
    | some a =>
      rw [here, image_ne_nil (decimal_ne_nil n)] at buffer
      simp only [Str.dataPtr, here, Pointer.view, wp_bind, wp_slots buffer.1, wp_pure,
        List.drop_zero, wp_method, strtoul_decimal small, wp_lift_ok, and_self]
  obtain ⟨_, _, done, rfl, rfl⟩ := wp_never.mp run
  exact done

end Conversion

/-- With `%u` printing the low 32 bits, two numbers become their decimal numerals, which `strtoul`
reads back and which differ where the numbers do, exactly when both are below 2^32. -/
theorem toString_iff (formatted : Bytes → ℕ → Bytes)
    (prints : ∀ val, val < 2 ^ 64 → formatted percentU val = decimal (val % 2 ^ 32))
    (junk : ℕ → ℕ → UInt8) (frame frame' : Frame) (v w : ℕ) (hv : v < 2 ^ 64) (hw : w < 2 ^ 64)
    (s : System) (ls : ListPool UInt8) (rel : Rel stringClass s ls) :
    ∃ t xs ys m n, (do
        makeString formatted junk frame v
        makeString formatted junk frame' w) s = .ok ((), t) ∧
      Rel stringClass t (ls ++ [some xs, some ys]) ∧
      readString ls.length t = .ok (m, t) ∧ readString (ls.length + 1) t = .ok (n, t) ∧
      (xs = ys ↔ v % 2 ^ 32 = w % 2 ^ 32) ∧
      (xs = decimal v ∧ m = v ∧ ys = decimal w ∧ n = w ∧ (v ≠ w → xs ≠ ys) ↔
        v < 2 ^ 32 ∧ w < 2 ^ 32) := by
  have low : ∀ val : ℕ, val % 2 ^ 32 < 2 ^ 32 := fun val => Nat.mod_lt val (by decide)
  obtain ⟨⟨⟩, s₁, first, rel₁⟩ := wp_never.mp
    (wp_makeString junk frame (prints v hv) (low v) rel)
  obtain ⟨⟨⟩, s₂, second, rel₂⟩ := wp_never.mp
    (wp_makeString junk frame' (prints w hw) (low w) rel₁)
  rw [List.append_assoc, List.singleton_append] at rel₂
  have left : contents (ls ++ [some (decimal (v % 2 ^ 32)), some (decimal (w % 2 ^ 32))])
      ls.length = some (decimal (v % 2 ^ 32)) := by simp [contents]
  have right : contents (ls ++ [some (decimal (v % 2 ^ 32)), some (decimal (w % 2 ^ 32))])
      (ls.length + 1) = some (decimal (w % 2 ^ 32)) := by simp [contents]
  have readLeft := readString_eq (rel₂.shown _ _ left) (by omega)
  have readRight := readString_eq (rel₂.shown _ _ right) (by omega)
  have same : decimal (v % 2 ^ 32) = decimal (w % 2 ^ 32) ↔ v % 2 ^ 32 = w % 2 ^ 32 :=
    decimal_injective.eq_iff
  refine ⟨s₂, _, _, _, _, (run_bind first).trans second, rel₂, readLeft, readRight, same, ?_⟩
  simp only [decimal_injective.eq_iff, ne_eq]
  omega

def printLow (format : Bytes) (arg : ℕ) : Bytes :=
  if format = percentU then decimal (arg % 2 ^ 32) else []

def sevens : Frame := ⟨⟨fun _ => 7, [], []⟩, 4096, by decide⟩

theorem toString_iff_42 : ∃ t xs ys m n, (do
      makeString printLow (fun _ _ => 7) sevens 42
      makeString printLow (fun _ _ => 7) sevens (2 ^ 32 + 42)) System.init = .ok ((), t) ∧
    Rel stringClass t ([] ++ [some xs, some ys]) ∧
    readString 0 t = .ok (m, t) ∧ readString 1 t = .ok (n, t) ∧
    (xs = ys ↔ 42 % 2 ^ 32 = (2 ^ 32 + 42) % 2 ^ 32) ∧
    (xs = decimal 42 ∧ m = (42 : ℕ) ∧ ys = decimal (2 ^ 32 + 42) ∧ n = (2 ^ 32 + 42 : ℕ) ∧
      (42 ≠ 2 ^ 32 + 42 → xs ≠ ys) ↔ 42 < 2 ^ 32 ∧ 2 ^ 32 + 42 < 2 ^ 32) :=
  toString_iff printLow (fun _ _ => if_pos rfl) _ sevens sevens 42 (2 ^ 32 + 42) (by decide)
    (by decide) System.init [] rel_empty

/-- 2^32 becomes `"0"`. -/
theorem toString_drops_high : ∃ t,
    makeString printLow (fun _ _ => 7) sevens (2 ^ 32) System.init = .ok ((), t) ∧
      Rel stringClass t [some [ch '0']] ∧ [ch '0'] ≠ decimal (2 ^ 32) ∧
      readString 0 t = .ok (0, t) := by
  have zero : decimal 0 = [ch '0'] := rfl
  have printed : printLow percentU (2 ^ 32) = decimal 0 := rfl
  obtain ⟨⟨⟩, t, run, rel⟩ := wp_never.mp
    (wp_makeString (fun _ _ => 7) sevens printed (by decide) rel_empty)
  have apart : decimal 0 ≠ decimal (2 ^ 32) := decimal_injective.ne (by decide)
  have shown := rel.shown 0 (decimal 0) rfl
  rw [List.nil_append, zero] at rel
  exact ⟨t, run, rel, zero ▸ apart, readString_eq shown (by decide)⟩

end Nanolibc.StringModel
