import Mathlib.Data.List.Induction
import Mathlib.Tactic.Ring
import Nanolibc.Lib.Program

set_option autoImplicit false

/-!
# A flat byte memory

Addresses are taken modulo 2^64 and no access faults; the memory keeps the addresses read and
written, the latest first. A word is eight bytes, the least significant one first.
-/
namespace Lib.FlatMemory
open Lib.Program

structure Memory where
  bytes : ℕ → UInt8
  reads : List ℕ
  writes : List ℕ

def span (a n : ℕ) : List ℕ := (List.range n).map fun i => (a + i) % 2 ^ 64

def offset (a x : ℕ) : ℕ := (x + 2 ^ 64 - a) % 2 ^ 64

def byte (v i : ℕ) : UInt8 := UInt8.ofNat (v / 256 ^ i)

def ofBytes : List UInt8 → ℕ
  | [] => 0
  | b :: bs => b.toNat + 256 * ofBytes bs

def word (bytes : ℕ → UInt8) (a : ℕ) : ℕ := ofBytes ((span a 8).map bytes)

namespace Memory

def read (m : Memory) (a : ℕ) : Memory := { m with reads := a % 2 ^ 64 :: m.reads }

def write (m : Memory) (a : ℕ) (b : UInt8) : Memory :=
  { m with
      bytes := Function.update m.bytes (a % 2 ^ 64) b
      writes := a % 2 ^ 64 :: m.writes }

def readWord (m : Memory) (a : ℕ) : Memory := { m with reads := span a 8 ++ m.reads }

def writeWord (m : Memory) (a v : ℕ) : Memory :=
  { m with
      bytes := fun x => if x < 2 ^ 64 ∧ offset a x < 8 then byte v (offset a x) else m.bytes x
      writes := span a 8 ++ m.writes }

end Memory

variable {ε : Type}

def load (a : ℕ) : Prog Memory ε UInt8 := do
  let m ← get
  set (m.read a)
  return m.bytes (a % 2 ^ 64)

def store (a : ℕ) (b : UInt8) : Prog Memory ε Unit := modify fun m => m.write a b

def loadWord (a : ℕ) : Prog Memory ε ℕ := do
  let m ← get
  set (m.readWord a)
  return word m.bytes a

def storeWord (a v : ℕ) : Prog Memory ε Unit := modify fun m => m.writeWord a v

section Rules

variable {m : Memory} {a v : ℕ} {b : UInt8} {bad : ε → Prop}

@[simp] theorem wp_load {post : UInt8 → Memory → Prop} :
    wp (load a) post bad m = post (m.bytes (a % 2 ^ 64)) (m.read a) := rfl

@[simp] theorem wp_store {post : Unit → Memory → Prop} :
    wp (store a b) post bad m = post () (m.write a b) := rfl

@[simp] theorem wp_loadWord {post : ℕ → Memory → Prop} :
    wp (loadWord a) post bad m = post (word m.bytes a) (m.readWord a) := rfl

@[simp] theorem wp_storeWord {post : Unit → Memory → Prop} :
    wp (storeWord a v) post bad m = post () (m.writeWord a v) := rfl

end Rules

section Words

theorem span_succ (a n : ℕ) : span a (n + 1) = span a n ++ [(a + n) % 2 ^ 64] := by
  simp [span, List.range_succ]

theorem mem_span {a n x : ℕ} (room : a + n ≤ 2 ^ 64) : x ∈ span a n ↔ a ≤ x ∧ x < a + n := by
  simp only [span, List.mem_map, List.mem_range]
  constructor
  · rintro ⟨i, hi, rfl⟩
    rw [Nat.mod_eq_of_lt (by omega)]
    omega
  · rintro ⟨low, high⟩
    exact ⟨x - a, by omega, by rw [Nat.mod_eq_of_lt (by omega)]; omega⟩

theorem offset_eq {a x : ℕ} (low : a ≤ x) (high : x < 2 ^ 64) : offset a x = x - a := by
  unfold offset
  omega

theorem ofBytes_byte : ∀ n v : ℕ, ofBytes ((List.range n).map (byte v)) = v % 256 ^ n := by
  intro n
  induction n with
  | zero =>
    intro v
    simp [ofBytes, Nat.mod_one]
  | succ n ih =>
    intro v
    have low : (byte v 0).toNat = v % 256 := by simp [byte]
    have rest : (List.range n).map (fun i => byte v (i + 1)) =
        (List.range n).map (byte (v / 256)) := by
      refine List.map_congr_left fun i _ => ?_
      rw [byte, byte, Nat.pow_succ', Nat.div_div_eq_div_mul]
    rw [List.range_succ_eq_map, List.map_cons, List.map_map, ofBytes, low]
    change v % 256 + 256 * ofBytes ((List.range n).map (fun i => byte v (i + 1))) = _
    rw [rest, ih, Nat.pow_succ', Nat.mod_mul]

theorem byte_ofBytes (bytes : List UInt8) :
    (List.range bytes.length).map (byte (ofBytes bytes)) = bytes := by
  induction bytes with
  | nil => rfl
  | cons b bytes ih =>
    have small := b.toNat_lt
    have low : byte (ofBytes (b :: bytes)) 0 = b := by
      apply UInt8.toNat_inj.mp
      rw [byte, ofBytes, Nat.pow_zero, Nat.div_one, UInt8.toNat_ofNat']
      omega
    have rest : (List.range bytes.length).map (fun i => byte (ofBytes (b :: bytes)) (i + 1)) =
        (List.range bytes.length).map (byte (ofBytes bytes)) := by
      refine List.map_congr_left fun i _ => ?_
      have quotient : ofBytes (b :: bytes) / 256 = ofBytes bytes := by
        rw [ofBytes]
        omega
      rw [byte, byte, Nat.pow_succ', ← Nat.div_div_eq_div_mul, quotient]
    rw [List.length_cons, List.range_succ_eq_map, List.map_cons, List.map_map, low]
    exact congrArg (List.cons b) (rest.trans ih)

theorem word_congr {f g : ℕ → UInt8} {a : ℕ} (room : a + 8 ≤ 2 ^ 64)
    (same : ∀ x, a ≤ x → x < a + 8 → f x = g x) : word f a = word g a := by
  unfold word
  congr 1
  refine List.map_congr_left fun x hx => ?_
  obtain ⟨low, high⟩ := (mem_span room).mp hx
  exact same x low high

theorem word_writeWord (m : Memory) {a v : ℕ} (room : a + 8 ≤ 2 ^ 64) (small : v < 2 ^ 64) :
    word (m.writeWord a v).bytes a = v := by
  have bytes : (span a 8).map (m.writeWord a v).bytes = (List.range 8).map (byte v) := by
    rw [span, List.map_map]
    refine List.map_congr_left fun i hi => ?_
    have hi' := List.mem_range.mp hi
    have here : (a + i) % 2 ^ 64 = a + i := Nat.mod_eq_of_lt (by omega)
    have far : offset a (a + i) = i := by rw [offset_eq (by omega) (by omega)]; omega
    simp only [Function.comp_apply, Memory.writeWord, here, far]
    rw [if_pos ⟨by omega, hi'⟩]
  rw [word, bytes, ofBytes_byte]
  exact Nat.mod_eq_of_lt small

theorem writeWord_outside (m : Memory) {a v x : ℕ} (room : a + 8 ≤ 2 ^ 64)
    (out : x < a ∨ a + 8 ≤ x) : (m.writeWord a v).bytes x = m.bytes x := by
  simp only [Memory.writeWord]
  refine if_neg ?_
  rintro ⟨high, near⟩
  unfold offset at near
  omega

end Words

section Texts

def Memory.writeAll (m : Memory) (a : ℕ) (text : List UInt8) : Memory :=
  text.zipIdx.foldl (fun t c => t.write (a + c.2) c.1) m

variable {m : Memory} {a : ℕ} {text : List UInt8} {c : UInt8}

@[simp] theorem writeAll_nil : m.writeAll a [] = m := rfl

theorem writeAll_snoc :
    m.writeAll a (text ++ [c]) = (m.writeAll a text).write (a + text.length) c := by
  rw [Memory.writeAll, List.zipIdx_append, List.foldl_append, Nat.zero_add]
  rfl

theorem writeAll_cons :
    m.writeAll a (c :: text) = (m.write a c).writeAll (a + 1) text := by
  induction text using List.reverseRecOn with
  | nil => rfl
  | append_singleton text d ih =>
    rw [← List.cons_append, writeAll_snoc, writeAll_snoc, ih, List.length_cons, Nat.add_assoc,
      Nat.add_comm 1]

theorem writeAll_writes :
    (m.writeAll a text).writes = (span a text.length).reverse ++ m.writes := by
  induction text using List.reverseRecOn with
  | nil => rfl
  | append_singleton text c ih =>
    rw [writeAll_snoc, List.length_append, List.length_singleton, span_succ, List.reverse_append]
    exact congrArg (List.cons _) ih

theorem writeAll_reads : (m.writeAll a text).reads = m.reads := by
  induction text using List.reverseRecOn with
  | nil => rfl
  | append_singleton text c ih =>
    rw [writeAll_snoc]
    exact ih

theorem offset_add {i : ℕ} (base : a < 2 ^ 64) (small : i < 2 ^ 64) :
    offset a ((a + i) % 2 ^ 64) = i := by
  unfold offset
  omega

theorem writeAll_bytes (base : a < 2 ^ 64) (room : text.length ≤ 2 ^ 64) (x : ℕ) :
    (m.writeAll a text).bytes x =
      if x < 2 ^ 64 then (text[offset a x]?).getD (m.bytes x) else m.bytes x := by
  induction text using List.reverseRecOn with
  | nil => simp
  | append_singleton text c ih =>
    rw [List.length_append, List.length_singleton] at room
    have here : x = (a + text.length) % 2 ^ 64 ↔ x < 2 ^ 64 ∧ offset a x = text.length := by
      unfold offset
      omega
    rw [writeAll_snoc, Memory.write]
    simp only [Function.update_apply, here, ih (by omega)]
    by_cases inside : x < 2 ^ 64
    · rw [if_pos inside, if_pos inside]
      by_cases last : offset a x = text.length
      · rw [if_pos ⟨inside, last⟩, last, List.getElem?_append_right (Nat.le_refl _), Nat.sub_self]
        rfl
      · rw [if_neg fun both => last both.2]
        by_cases low : offset a x < text.length
        · rw [List.getElem?_append_left low]
        · rw [List.getElem?_eq_none (by omega),
            List.getElem?_eq_none (by rw [List.length_append, List.length_singleton]; omega)]
    · rw [if_neg inside, if_neg inside, if_neg fun both => inside both.1]

theorem writeAll_inside (room : a + text.length ≤ 2 ^ 64) {i : ℕ} {b : UInt8}
    (here : text[i]? = some b) : (m.writeAll a text).bytes (a + i) = b := by
  have small : i < text.length := (List.getElem?_eq_some_iff.mp here).choose
  have far : offset a (a + i) = i := by
    rw [offset_eq (by omega) (by omega), Nat.add_sub_cancel_left]
  rw [writeAll_bytes (by omega) (by omega), if_pos (by omega), far, here]
  rfl

theorem writeAll_outside (room : a + text.length ≤ 2 ^ 64) {x : ℕ}
    (out : x < a ∨ a + text.length ≤ x) : (m.writeAll a text).bytes x = m.bytes x := by
  by_cases empty : text = []
  · subst empty
    rfl
  · have some := List.length_pos_iff.mpr empty
    rw [writeAll_bytes (by omega) (by omega)]
    by_cases inside : x < 2 ^ 64
    · have beyond : text.length ≤ offset a x := by
        unfold offset
        omega
      rw [if_pos inside, List.getElem?_eq_none beyond]
      rfl
    · exact if_neg inside

end Texts

section Blocks

variable {m : Memory} {a : ℕ} {bad : ε → Prop}

def loadAll : ℕ → ℕ → Prog Memory ε (List UInt8)
  | _, 0 => return []
  | a, n + 1 => do
    let b ← load a
    let rest ← loadAll (a + 1) n
    return b :: rest

def storeAll : ℕ → List UInt8 → Prog Memory ε Unit
  | _, [] => return
  | a, b :: text => do
    store a b
    storeAll (a + 1) text

def Memory.readAll (m : Memory) (a n : ℕ) : Memory :=
  { m with reads := (span a n).reverse ++ m.reads }

theorem span_cons (a n : ℕ) : span a (n + 1) = a % 2 ^ 64 :: span (a + 1) n := by
  simp [span, List.range_succ_eq_map, Nat.add_assoc, Nat.add_comm 1]

@[simp] theorem wp_loadAll {n : ℕ} {post : List UInt8 → Memory → Prop} :
    wp (loadAll a n) post bad m = post ((span a n).map m.bytes) (m.readAll a n) := by
  induction n generalizing a m post with
  | zero => rfl
  | succ n ih =>
    simp [loadAll, ih, Memory.read, Memory.readAll, span_cons]

@[simp] theorem wp_storeAll {text : List UInt8} {post : Unit → Memory → Prop} :
    wp (storeAll a text) post bad m = post () (m.writeAll a text) := by
  induction text generalizing a m with
  | nil => rfl
  | cons b text ih => simp [storeAll, ih, writeAll_cons]

end Blocks

section Alignment

theorem and_clear_low {x k : ℕ} (small : x < 2 ^ 64) (hk : k ≤ 64) :
    x &&& (2 ^ 64 - 2 ^ k) = x / 2 ^ k * 2 ^ k := by
  have mask : 2 ^ 64 - 2 ^ k = (2 ^ (64 - k) - 1) * 2 ^ k := by
    rw [Nat.sub_mul, ← Nat.pow_add, Nat.sub_add_cancel hk, Nat.one_mul]
  rw [mask]
  refine Nat.eq_of_testBit_eq fun i => ?_
  rw [Nat.testBit_and, Nat.testBit_mul_two_pow, Nat.testBit_mul_two_pow,
    Nat.testBit_two_pow_sub_one, Nat.testBit_div_two_pow]
  by_cases low : k ≤ i
  · rw [Nat.sub_add_cancel low]
    by_cases high : i - k < 64 - k
    · simp [low, high]
    · have beyond : x.testBit i = false :=
        Nat.testBit_lt_two_pow
          (Nat.lt_of_lt_of_le small (Nat.pow_le_pow_right (by omega) (by omega)))
      simp [beyond]
  · simp [low]

end Alignment

end Lib.FlatMemory
