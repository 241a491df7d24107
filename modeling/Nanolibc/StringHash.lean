import Nanolibc.CStringOrder
import Nanolibc.Lib.Mixing
import Nanolibc.StringRefinement

set_option autoImplicit false

namespace Nanolibc.StringModel
open Lib.Program Lib.ArrayHeap Lib.OwnedArray Lib.ObjectPool Lib.Mixing CString

/-- `h += value; h *= 413679843u; h ^= h >> 16;`. -/
def mix (h value : UInt64) : UInt64 :=
  let h := h + value
  let h := h * 413679843
  h ^^^ (h >>> 16)

def hashSize (value : UInt64) : UInt64 := mix 0xdeadbeef value

def signExtend (c : UInt8) : UInt64 := UInt64.ofInt (schar c)

def hashString (str : Str) : Method UInt64 := do
  let (_, h) ← withLocal 0xdeadbeef (loop str.size 0 fun i => do
    let c ← zoom Prod.snd (fun s heap => (s.1, heap)) (loadByte (.array str.data 0) i)
    modify fun s => (mix s.1 (signExtend c), s.2))
  return h

def hashAt (i : ℕ) : Sys UInt64 := do
  let str ← object i
  method (hashString str)

def hashBytes (xs : Bytes) : UInt64 := xs.foldl (fun h c => mix h (signExtend c)) 0xdeadbeef

section Round

theorem xor_shift_16_injective : Function.Injective fun h : UInt64 => h ^^^ (h >>> 16) := by
  intro h k same
  have shift : Function.Injective fun x : BitVec 64 => x ^^^ (x >>> 16) :=
    xor_shift_injective (by decide)
  have bits := congrArg UInt64.toBitVec same
  simp only [UInt64.toBitVec_xor, UInt64.toBitVec_shiftRight] at bits
  exact UInt64.toBitVec_inj.mp (shift bits)

theorem mul_413679843_injective : Function.Injective fun h : UInt64 => h * 413679843 := by
  intro h k same
  have factor : Function.Injective fun x : BitVec 64 => x * 413679843#64 :=
    mul_odd_injective (by decide)
  have bits := congrArg UInt64.toBitVec same
  simp only [UInt64.toBitVec_mul] at bits
  exact UInt64.toBitVec_inj.mp (factor bits)

theorem mix_eq_iff {h k v w : UInt64} : mix h v = mix k w ↔ h + v = k + w := by
  constructor
  · intro same
    exact mul_413679843_injective (xor_shift_16_injective same)
  · intro same
    rw [mix, mix, same]

theorem mix_state_injective (v : UInt64) : Function.Injective fun h => mix h v := by
  intro h k same
  exact UInt64.add_left_inj v |>.mp (mix_eq_iff.mp same)

theorem mix_value_injective (h : UInt64) : Function.Injective (mix h) := by
  intro v w same
  exact UInt64.add_right_inj h |>.mp (mix_eq_iff.mp same)

theorem signExtend_injective : Function.Injective signExtend := by
  intro c d same
  have values := congrArg UInt64.toNat same
  have hc := c.toNat_lt
  have hd := d.toNat_lt
  apply schar_injective
  simp only [signExtend, UInt64.ofInt, UInt64.toNat_ofNat'] at values
  unfold schar at values ⊢
  split_ifs at values ⊢ <;> omega

end Round

section Strings

variable {s : System} {h : Heap UInt8} {v : Str} {xs : Bytes} {i : ℕ} {bad : Fault → Prop}

theorem wp_hashString (holds : Holds stringClass h v (image xs)) (keeps : Keeps v xs) :
    wp (hashString v) (fun r t => r = hashBytes xs ∧ t = h) bad h := by
  have bytes := reads_front holds keeps (List.prefix_refl xs)
  rw [hashString, wp_bind, wp_withLocal, keeps.size]
  let inv : ℕ → UInt64 × Heap UInt8 → Prop := fun n t => t = (hashBytes (xs.take n), h)
  have start : inv 0 (0xdeadbeef, h) := rfl
  refine wp_post (wp_loop inv xs.length 0 _ start ?_) ?_
  · rintro n _ _ inside rfl
    rw [Nat.zero_add] at inside
    have here : xs[n]? = some xs[n] := List.getElem?_eq_getElem inside
    rw [wp_bind, wp_zoom, wp_loadByte bytes here, wp_modify]
    simp only [inv, hashBytes, List.take_add_one, here, Option.toList_some, List.foldl_append,
      List.foldl_cons, List.foldl_nil]
  · rintro _ _ rfl
    rw [wp_pure, Nat.zero_add, List.take_length]
    exact ⟨rfl, rfl⟩

theorem hashAt_eq (shows : Shows stringClass s i xs) : hashAt i s = .ok (hashBytes xs, s) := by
  obtain ⟨v, zs, alive, holds, shown⟩ := shows
  obtain ⟨keeps, rfl⟩ := keeps_of_holds holds shown
  have run : wp (hashAt i) (fun r t => r = hashBytes xs ∧ t = s) never s := by
    rw [hashAt, wp_bind, wp_object alive, wp_method]
    apply wp_post (wp_hashString holds keeps)
    rintro r _ ⟨rfl, rfl⟩
    exact ⟨rfl, rfl⟩
  obtain ⟨_, _, done, rfl, rfl⟩ := wp_never.mp run
  exact done

theorem hashBytes_append_ne {p q : Bytes} (apart : hashBytes p ≠ hashBytes q) (s : Bytes) :
    hashBytes (p ++ s) ≠ hashBytes (q ++ s) :=
  foldl_append_ne (fun c => mix_state_injective (signExtend c)) apart s

theorem hashBytes_change_ne {c d : UInt8} (p s : Bytes) (differ : c ≠ d) :
    hashBytes (p ++ c :: s) ≠ hashBytes (p ++ d :: s) := by
  have fed : ∀ h : UInt64, Function.Injective fun c => mix h (signExtend c) :=
    fun h => (mix_value_injective h).comp signExtend_injective
  exact foldl_change_ne (fun c => mix_state_injective (signExtend c)) fed p s differ

end Strings

/-- Numbers never collide. Strings with different hashes keep them under a common suffix, and one
character alone always changes the hash. -/
theorem hash_separates :
    Function.Injective hashSize ∧
    (∀ (s : System) (i : ℕ) (xs : Bytes), Shows stringClass s i xs →
      hashAt i s = .ok (hashBytes xs, s)) ∧
    (∀ p q s : Bytes, hashBytes p ≠ hashBytes q → hashBytes (p ++ s) ≠ hashBytes (q ++ s)) ∧
    ∀ (p s : Bytes) (c d : UInt8), c ≠ d → hashBytes (p ++ c :: s) ≠ hashBytes (p ++ d :: s) := by
  constructor
  · exact mix_value_injective 0xdeadbeef
  constructor
  · intro s i xs shows
    exact hashAt_eq shows
  constructor
  · intro p q s apart
    exact hashBytes_append_ne apart s
  · intro p s c d differ
    exact hashBytes_change_ne p s differ

theorem hash_separates_abc :
    ∃ s, runAll (step fun _ _ => 7) [.ofData [97, 98, 99] 3, .ofData [97, 0, 99] 3] System.init =
        .ok ((), s) ∧
      hashAt 0 s = .ok (hashBytes [97, 98, 99], s) ∧ hashAt 1 s = .ok (hashBytes [97, 0, 99], s) ∧
      hashBytes [97, 98, 99] ≠ hashBytes [97, 0, 99] := by
  obtain ⟨s, run, rel⟩ := run_simulates (fun _ _ => 7) [.ofData [97, 98, 99] 3,
    .ofData [97, 0, 99] 3] [some [97, 98, 99], some [97, 0, 99]] (by decide)
  obtain ⟨_, hashed, _, changed⟩ := hash_separates
  exact ⟨s, run, hashed s 0 _ (rel.shown 0 _ rfl), hashed s 1 _ (rel.shown 1 _ rfl),
    changed [97] [99] 98 0 (by decide)⟩

end Nanolibc.StringModel
