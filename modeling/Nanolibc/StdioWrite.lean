import Nanolibc.StdioBuffer

set_option autoImplicit false

namespace Nanolibc.StdioModel
open Lib.Program Lib.Chunks CString
open Lib.ArrayHeap (Fault)

variable {stream : File} {write : Writer} {ptr : Object} {size nmemb k : ℕ} {bad : Fault → Prop}

def itemCalls (size : ℕ) (write : Writer) (bytes : Bytes) (k nmemb : ℕ) : Calls :=
  (List.range (if k < nmemb then k + 1 else k)).map (callOf size write bytes)

/-- `k` items are written whole, and the next one, if there is one, is not. -/
structure Wrote (size : ℕ) (write : Writer) (bytes : Bytes) (nmemb k : ℕ) (calls : Calls) : Prop
    where
  le : k ≤ nmemb
  whole : ∀ i, i < k → (callOf size write bytes i).2 = Int64.ofNat size
  short : k < nmemb → (callOf size write bytes k).2 ≠ Int64.ofNat size
  calls : calls = itemCalls size write bytes k nmemb

theorem wp_fwriteLoop (has : stream.write = some write) (room : nmemb * size < 2 ^ 63) :
    ∀ {left i : ℕ}, i + left = nmemb →
      (∀ j, j < i → (callOf size write ptr.bytes j).2 = Int64.ofNat size) →
      wp (fwriteLoop stream ptr size left i) (Wrote size write ptr.bytes nmemb) bad
        ((List.range i).map (callOf size write ptr.bytes)) := by
  intro left
  induction left with
  | zero =>
    intro i total whole
    have last : ¬i < nmemb := by omega
    exact ⟨by omega, whole, fun more => absurd more last, by rw [itemCalls, if_neg last]⟩
  | succ left ih =>
    intro i total whole
    have inside : i < nmemb := by omega
    have at_item : i * size % 2 ^ 64 = i * size := by
      have below : i * size ≤ nmemb * size := Nat.mul_le_mul_right size (Nat.le_of_lt inside)
      exact Nat.mod_eq_of_lt (by omega)
    have next : (List.range i).map (callOf size write ptr.bytes) ++
        [callOf size write ptr.bytes i] =
        (List.range (i + 1)).map (callOf size write ptr.bytes) := by
      rw [List.range_succ, List.map_append]
      rfl
    rw [fwriteLoop, wp_bind, wp_callWrite has, List.length_map, List.length_range, at_item]
    have item : ((ptr.bytes.drop (i * size)).take size,
        write i ((ptr.bytes.drop (i * size)).take size)) = callOf size write ptr.bytes i := rfl
    rw [item, next]
    apply wp_ite
    · intro cut
      exact ⟨by omega, whole, fun _ => cut, by rw [itemCalls, if_pos inside]⟩
    · intro full
      apply ih (by omega)
      intro j before
      rcases Nat.lt_succ_iff_lt_or_eq.mp before with earlier | rfl
      · exact whole j earlier
      · exact not_not.mp full

theorem wp_fwrite (room : nmemb * size ≤ ptr.bytes.length) (valid : stream.magic = stdioMagic)
    (has : stream.write = some write) :
    wp (fwrite ptr size nmemb (some stream)) (Wrote size write ptr.bytes nmemb) bad [] := by
  have small := ptr.small
  rw [fwrite, writable_some valid has]
  exact wp_fwriteLoop has (by omega) (Nat.zero_add nmemb) fun j before =>
    absurd before (Nat.not_lt_zero j)

section Count

variable {bytes : Bytes} {calls : Calls}

theorem accepted_whole (small : size < 2 ^ 63)
    (whole : ∀ i, i < k → (callOf size write bytes i).2 = Int64.ofNat size) :
    accepted ((List.range k).map (callOf size write bytes)) = bytes.take (k * size) := by
  rw [accepted, taken_whole, pieces, List.map_map, List.map_map]
  · exact flatten_chunks k
  · intro p mem
    obtain ⟨call, here, rfl⟩ := List.mem_map.mp mem
    obtain ⟨i, inside, rfl⟩ := List.mem_map.mp here
    have result := whole i (List.mem_range.mp inside)
    have length : (callOf size write bytes i).1.length = min size (bytes.length - i * size) :=
      chunk_length
    rw [result, Int64.toInt_ofNat_of_lt small]
    dsimp only
    omega

theorem Wrote.accepted (wrote : Wrote size write bytes nmemb k calls)
    (room : nmemb * size ≤ bytes.length) (small : bytes.length < 2 ^ 63) (positive : 0 < size)
    (answers : ∀ k (bytes : Bytes), bytes.length < 2 ^ 63 → Answers (bytes, write k bytes)) :
    ∃ part, accepted calls = bytes.take (k * size + part) ∧ k * size + part ≤ nmemb * size ∧
      (k < nmemb → part < size) ∧ (k = nmemb → part = 0) := by
  obtain ⟨le, whole, short, rfl⟩ := wrote
  by_cases more : k < nmemb
  · have high : (k + 1) * size ≤ nmemb * size := Nat.mul_le_mul_right size more
    rw [Nat.succ_mul] at high
    have length : (callOf size write bytes k).1.length = size := by
      change (chunk size bytes k).length = size
      rw [chunk_length]
      omega
    obtain ⟨least, most⟩ := answers k (chunk size bytes k) (by
      rw [chunk_length]
      omega)
    have cut : (callOf size write bytes k).2.toInt ≠ size := by
      intro same
      apply short more
      rw [← Int64.toInt_inj, same, Int64.toInt_ofNat_of_lt (by omega)]
    change (callOf size write bytes k).2.toInt ≤ (callOf size write bytes k).1.length at most
    rw [length] at most
    refine ⟨(callOf size write bytes k).2.toInt.toNat, ?_, by omega, fun _ => by omega,
      fun last => absurd more (by omega)⟩
    rw [itemCalls, if_pos more, List.range_succ, List.map_append, List.map_singleton,
      accepted_snoc, accepted_whole (by omega) whole, List.take_add]
    change _ ++ (chunk size bytes k).take _ = _
    rw [chunk, List.take_take, Nat.min_eq_left (by omega)]
  · have last : k = nmemb := by omega
    refine ⟨0, ?_, by rw [last, Nat.add_zero], fun h => absurd h more, fun _ => rfl⟩
    rw [itemCalls, if_neg more, Nat.add_zero]
    rcases Nat.eq_zero_or_pos k with rfl | some_item
    · simp [StdioModel.accepted, pieces, taken]
    · have item : size ≤ k * size := Nat.le_mul_of_pos_left size some_item
      rw [← last] at room
      exact accepted_whole (by omega) whole

end Count

section Run

variable (positive : 0 < size) (room : nmemb * size ≤ ptr.bytes.length)
  (valid : stream.magic = stdioMagic) (has : stream.write = some write)
  (answers : ∀ k (bytes : Bytes), bytes.length < 2 ^ 63 → Answers (bytes, write k bytes))
include positive room valid has answers

theorem fwrite_run : ∃ k part calls, fwrite ptr size nmemb (some stream) [] = .ok (k, calls) ∧
    accepted calls = ptr.bytes.take (k * size + part) ∧ k * size + part ≤ nmemb * size ∧
    k ≤ nmemb ∧ (k < nmemb → part < size) ∧ (k = nmemb → part = 0) := by
  obtain ⟨k, calls, run, wrote⟩ := wp_never.mp (wp_fwrite room valid has)
  obtain ⟨part, took, fits, some_left, all⟩ := wrote.accepted room ptr.small positive answers
  exact ⟨k, part, calls, run, took, fits, wrote.le, some_left, all⟩

end Run

/-- `fwrite` counts the items that the runtime accepts whole, all bytes accepted being a prefix of
the items, and `write` returns the number of bytes accepted. -/
theorem fwrite_counts (ptr : Object) (size nmemb : ℕ) (stream : File) (write : Writer)
    (positive : 0 < size) (room : nmemb * size ≤ ptr.bytes.length)
    (valid : stream.magic = stdioMagic) (has : stream.write = some write)
    (answers : ∀ k (bytes : Bytes), bytes.length < 2 ^ 63 → Answers (bytes, write k bytes)) :
    (∃ k calls, fwrite ptr size nmemb (some stream) [] = .ok (k, calls) ∧
      accepted calls <+: ptr.bytes.take (nmemb * size) ∧ k ≤ nmemb ∧
      (k < nmemb → k * size ≤ (accepted calls).length ∧
        (accepted calls).length < (k + 1) * size) ∧
      (k = nmemb → (accepted calls).length = nmemb * size)) ∧
    ∀ (fd : Int32) (stdout stderr : Option File), fd = 1 ∨ fd = 2 →
      (if fd = 1 then stdout else stderr) = some stream →
      ∃ r calls, StdioModel.write stdout stderr fd ptr nmemb [] = .ok (r, calls) ∧
        accepted calls <+: ptr.bytes.take nmemb ∧ r.toInt = (accepted calls).length := by
  constructor
  · obtain ⟨k, part, calls, run, took, fits, le, some_left, all⟩ :=
      fwrite_run positive room valid has answers
    have length : (accepted calls).length = k * size + part := by
      rw [took, List.length_take, Nat.min_eq_left (fits.trans room)]
    refine ⟨k, calls, run, ?_, le, ?_, ?_⟩
    · rw [took]
      exact List.take_prefix_take_left fits
    · intro more
      have less := some_left more
      rw [length, Nat.succ_mul]
      omega
    · intro last
      rw [length, all last, last, Nat.add_zero]
  · intro fd stdout stderr console same
    have items : nmemb * 1 ≤ ptr.bytes.length := (Nat.mul_le_mul_left nmemb positive).trans room
    obtain ⟨k, part, calls, run, took, fits, le, some_left, all⟩ :=
      fwrite_run Nat.one_pos items valid has answers
    have nothing : part = 0 := by
      rcases Nat.lt_or_eq_of_le le with more | last
      · have less := some_left more
        omega
      · exact all last
    rw [nothing, Nat.mul_one, Nat.add_zero] at took fits
    have length : (accepted calls).length = k := by
      rw [took, List.length_take]
      omega
    refine ⟨Int64.ofNat k, calls, ?_, ?_, ?_⟩
    · rw [StdioModel.write, if_pos console, same, run_bind run]
      rfl
    · rw [took]
      exact List.take_prefix_take_left le
    · have small := ptr.small
      rw [length, Int64.toInt_ofNat_of_lt (by omega)]

theorem fwrite_counts_half : ∃ k calls,
    fwrite ⟨[1, 2, 3, 4], by decide⟩ 2 2 (some ⟨stdioMagic, some (stingy 2 1)⟩) [] =
      .ok (k, calls) ∧ accepted calls <+: [1, 2, 3, 4] := by
  obtain ⟨⟨k, calls, run, front, _⟩, _⟩ := fwrite_counts ⟨[1, 2, 3, 4], by decide⟩ 2 2
    ⟨stdioMagic, some (stingy 2 1)⟩ (stingy 2 1) (by decide) (by decide) rfl rfl stingy_answers
  exact ⟨k, calls, run, front⟩

end Nanolibc.StdioModel
