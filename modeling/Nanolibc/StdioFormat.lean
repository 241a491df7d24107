import Nanolibc.StdioModel

set_option autoImplicit false

namespace Nanolibc.StdioModel
open Lib.Program Lib.FlatMemory CString
open Lib.ArrayHeap (Fault)

variable {m : Memory} {str size : ℕ} {out done : Bytes} {c : UInt8} {bad : Fault → Prop}

def Formatted (m : Memory) (str size : ℕ) (done : Bytes) (s : VsnprintfPutcfData × Memory) :
    Prop :=
  s = (⟨size, str, done.length⟩, m.writeAll str (done.take size))

theorem wp_vsnprintfPutcf {s : VsnprintfPutcfData × Memory} (count : done.length < 2 ^ 31)
    (before : Formatted m str size done s) :
    wp (_vsnprintfPutcf c) (fun _ t => Formatted m str size (done ++ [c]) t) bad s := by
  rw [before, _vsnprintfPutcf, wp_bind, wp_get]
  have next : (done.length + 1) % 2 ^ 64 = (done ++ [c]).length := by
    rw [List.length_append, List.length_singleton]
    exact Nat.mod_eq_of_lt (by omega)
  dsimp only
  rw [next]
  apply wp_ite
  · intro room
    rw [wp_bind, wp_zoom, wp_store, wp_modify]
    have stored : (done ++ [c]).take size = done ++ [c] :=
      List.take_of_length_le (by rw [List.length_append, List.length_singleton]; omega)
    have whole : done.take size = done := List.take_of_length_le (by omega)
    rw [Formatted, stored, whole, writeAll_snoc]
  · intro full
    rw [wp_modify, Formatted, List.take_append_of_le_length (by omega)]

theorem wp_vsprintfPutcf {s : VsprintfPutcfData × Memory} (count : done.length < 2 ^ 31)
    (before : s = (⟨str, done.length⟩, m.writeAll str done)) :
    wp (_vsprintfPutcf c)
      (fun _ t => t = (⟨str, (done ++ [c]).length⟩, m.writeAll str (done ++ [c]))) bad s := by
  rw [before, _vsprintfPutcf, wp_bind, wp_get]
  dsimp only
  rw [wp_bind, wp_zoom, wp_store, wp_modify, writeAll_snoc, List.length_append,
    List.length_singleton, Nat.mod_eq_of_lt (by omega)]

def snprinted (m : Memory) (str size : ℕ) (out : Bytes) : Memory :=
  if out.length < size then m.writeAll str (out ++ [0])
  else if 0 < size then (m.writeAll str (out.take size)).write (str + (size - 1)) 0
  else m

theorem wp_vsnprintf (short : out.length < 2 ^ 31) :
    wp (vsnprintf str size out)
      (fun r t => r = Int32.ofNat out.length ∧ t = snprinted m str size out) bad m := by
  have start : Formatted m str size [] (⟨size, str, 0⟩, m) := by
    rw [Formatted, List.take_nil]
    rfl
  have formatted : wp (tfpFormat _vsnprintfPutcf out) _ bad (⟨size, str, 0⟩, m) :=
    wp_runAll_done (n := out.length) (Formatted m str size)
      (fun _ _ _ before inv => wp_vsnprintfPutcf (by omega) inv) out [] _ (by simp) start
  rw [vsnprintf, wp_bind, wp_withLocal]
  apply wp_post formatted
  intro _ s after
  rw [List.nil_append] at after
  rw [after, snprinted]
  dsimp only
  by_cases room : out.length < size
  · have whole : out.take size = out := List.take_of_length_le (by omega)
    rw [if_pos room, if_pos room, wp_bind, wp_store, whole, writeAll_snoc]
    exact ⟨rfl, rfl⟩
  · rw [if_neg room, if_neg room]
    by_cases some_room : 0 < size
    · rw [if_pos some_room, if_pos some_room, wp_bind, wp_store]
      exact ⟨rfl, rfl⟩
    · rw [if_neg some_room, if_neg some_room, show size = 0 by omega, List.take_zero]
      exact ⟨rfl, rfl⟩

theorem wp_vsprintf (short : out.length < 2 ^ 31) :
    wp (vsprintf str out)
      (fun r t => r = Int32.ofNat out.length ∧ t = m.writeAll str (out ++ [0])) bad m := by
  have formatted : wp (tfpFormat _vsprintfPutcf out) _ bad (⟨str, 0⟩, m) :=
    wp_runAll_done (n := out.length)
      (fun done s => s = (⟨str, done.length⟩, m.writeAll str done))
      (fun _ _ _ before inv => wp_vsprintfPutcf (by omega) inv) out [] _ (by simp) rfl
  rw [vsprintf, wp_bind, wp_withLocal]
  apply wp_post formatted
  intro _ s after
  rw [List.nil_append] at after
  rw [after]
  dsimp only
  rw [wp_bind, wp_store, writeAll_snoc]
  exact ⟨rfl, rfl⟩

section Memories

def fitting (size : ℕ) (out : Bytes) : Bytes := out.take (size - 1) ++ [0]

theorem fitting_length : (fitting size out).length = min out.length (size - 1) + 1 := by
  rw [fitting, List.length_append, List.length_singleton, List.length_take, Nat.min_comm]

theorem snprinted_bytes (base : str < 2 ^ 64) (size_lt : size < 2 ^ 64) (positive : 0 < size)
    (x : ℕ) : (snprinted m str size out).bytes x =
      if x < 2 ^ 64 then ((fitting size out)[offset str x]?).getD (m.bytes x) else m.bytes x := by
  have fits : (fitting size out).length = _ := fitting_length
  rw [snprinted]
  by_cases room : out.length < size
  · have whole : fitting size out = out ++ [0] := by
      rw [fitting, List.take_of_length_le (by omega)]
    rw [if_pos room, ← whole, writeAll_bytes base (by omega)]
  · obtain ⟨last, cut⟩ : ∃ last, out.take size = out.take (size - 1) ++ [last] := by
      have inside : size - 1 < out.length := by omega
      have step : out.take (size - 1 + 1) = out.take (size - 1) ++ [out[size - 1]] := by
        rw [List.take_add_one, List.getElem?_eq_getElem inside]
        rfl
      rw [Nat.sub_add_cancel positive] at step
      exact ⟨_, step⟩
    have low : (out.take (size - 1)).length = size - 1 := by
      rw [List.length_take]
      omega
    -- the terminator is written over the last character
    have rewritten : (m.writeAll str (out.take size)).write (str + (size - 1)) 0 =
        { (m.writeAll str (fitting size out)) with
          writes := ((m.writeAll str (out.take size)).write (str + (size - 1)) 0).writes } := by
      rw [cut, fitting, writeAll_snoc, writeAll_snoc, low]
      simp [Memory.write]
    rw [if_neg room, if_pos positive, rewritten]
    exact writeAll_bytes base (by omega) x

theorem fitting_get {i : ℕ} (inside : i < min out.length (size - 1)) :
    (fitting size out)[i]? = out[i]? := by
  rw [fitting, List.getElem?_append_left (by rw [List.length_take]; omega),
    List.getElem?_take_of_lt (by omega)]

theorem fitting_end : (fitting size out)[min out.length (size - 1)]? = some 0 := by
  have low : (out.take (size - 1)).length = min out.length (size - 1) := by
    rw [List.length_take, Nat.min_comm]
  rw [fitting, List.getElem?_append_right (by omega), low, Nat.sub_self]
  rfl

theorem snprinted_writes : ∃ ws, (snprinted m str size out).writes = ws ++ m.writes ∧
    ∀ a ∈ ws, ∃ i, i < size ∧ a = (str + i) % 2 ^ 64 := by
  have spanned : ∀ n a, n ≤ size → a ∈ (span str n).reverse →
      ∃ i, i < size ∧ a = (str + i) % 2 ^ 64 := by
    intro n a le mem
    rw [List.mem_reverse, span, List.mem_map] at mem
    obtain ⟨i, inside, same⟩ := mem
    rw [List.mem_range] at inside
    exact ⟨i, by omega, same.symm⟩
  rw [snprinted]
  by_cases room : out.length < size
  · rw [if_pos room, writeAll_writes]
    exact ⟨_, rfl, fun a mem => spanned _ a (by
      rw [List.length_append, List.length_singleton]
      omega) mem⟩
  · rw [if_neg room]
    by_cases positive : 0 < size
    · rw [if_pos positive, Memory.write, writeAll_writes]
      refine ⟨_ :: _, rfl, ?_⟩
      intro a mem
      rcases List.mem_cons.mp mem with rfl | mem
      · exact ⟨size - 1, by omega, rfl⟩
      · exact spanned _ a (by rw [List.length_take]; omega) mem
    · rw [if_neg positive]
      exact ⟨[], rfl, fun a mem => by cases mem⟩

end Memories

/-- `vsnprintf` returns the length of the whole output, stores only below `size`, and leaves the
characters that fit with a NUL after them and everything else as it was; where nothing is cut off
it does what `vsprintf` does. -/
theorem vsnprintf_formats (m : Memory) (str size : ℕ) (out : Bytes) (base : str < 2 ^ 64)
    (size_lt : size < 2 ^ 64) (short : out.length < 2 ^ 31) :
    ∃ r t, vsnprintf str size out m = .ok (r, t) ∧ r.toInt = out.length ∧ (size = 0 → t = m) ∧
      (∃ ws, t.writes = ws ++ m.writes ∧ ∀ a ∈ ws, ∃ i, i < size ∧ a = (str + i) % 2 ^ 64) ∧
      (0 < size →
        (∀ i, i < min out.length (size - 1) → out[i]? = some (t.bytes ((str + i) % 2 ^ 64))) ∧
        t.bytes ((str + min out.length (size - 1)) % 2 ^ 64) = 0 ∧
        ∀ x, x < 2 ^ 64 → min out.length (size - 1) < offset str x → t.bytes x = m.bytes x) ∧
      (out.length < size → vsprintf str out m = .ok (r, t)) := by
  have ran : wp (vsnprintf str size out) _ never m := wp_vsnprintf short
  obtain ⟨r, t, run, rfl, rfl⟩ := wp_never.mp ran
  refine ⟨_, _, run, Int32.toInt_ofNat_of_lt short, ?_, snprinted_writes, ?_, ?_⟩
  · intro zero
    rw [snprinted, if_neg (by omega), if_neg (by omega)]
  · intro positive
    have bytes : ∀ x, (snprinted m str size out).bytes x = _ :=
      snprinted_bytes base size_lt positive
    constructor
    · intro i inside
      rw [bytes, if_pos (Nat.mod_lt _ (by decide)), offset_add base (by omega),
        fitting_get inside, List.getElem?_eq_getElem (by omega)]
      rfl
    · constructor
      · rw [bytes, if_pos (Nat.mod_lt _ (by decide)), offset_add base (by omega), fitting_end]
        rfl
      · intro x inside beyond
        rw [bytes, if_pos inside, List.getElem?_eq_none (by rw [fitting_length]; omega)]
        rfl
  · intro room
    have whole : wp (vsprintf str out) _ never m := wp_vsprintf short
    obtain ⟨r, t, run', rfl, rfl⟩ := wp_never.mp whole
    rw [run', snprinted, if_pos room]

theorem vsnprintf_formats_cut : ∃ r t,
    vsnprintf 100 3 [104, 101, 108, 108, 111] ⟨fun _ => 7, [], []⟩ = .ok (r, t) ∧
      r.toInt = 5 ∧ t.bytes 102 = 0 ∧ t.bytes 103 = 7 := by
  obtain ⟨r, t, run, count, _, _, stored, _⟩ := vsnprintf_formats ⟨fun _ => 7, [], []⟩ 100 3
    [104, 101, 108, 108, 111] (by decide) (by decide) (by decide)
  obtain ⟨_, nul, rest⟩ := stored (by decide)
  exact ⟨r, t, run, count, nul, rest 103 (by decide) (by decide)⟩

end Nanolibc.StdioModel
