import Mathlib.Data.List.TakeWhile
import Nanolibc.EfiConsoleModel
import Nanolibc.StdioModel

set_option autoImplicit false

namespace Nanolibc.EfiConsoleModel
open Lib.Program CString
open Lib.ArrayHeap (Fault)

variable {n chunk sz len : ℕ} {stream : Stream} {c : UInt8} {s8 : Bytes} {bad : Fault → Prop}

section Convert

theorem widen_toNat : (widen c).toNat = if c.toNat < 128 then c.toNat else c.toNat + 65280 := by
  have byte := c.toNat_lt
  unfold widen schar UInt16.ofInt
  rw [UInt16.toNat_ofNat']
  split_ifs <;> omega

theorem widen_low : (widen c).toUInt8 = c := by
  have byte := c.toNat_lt
  apply UInt8.toNat_inj.mp
  rw [UInt16.toNat_toUInt8, widen_toNat]
  split_ifs <;> omega

theorem widen_injective : Function.Injective widen :=
  Function.LeftInverse.injective (g := UInt16.toUInt8) fun _ => widen_low

theorem widen_eq_zero : widen c = 0 ↔ c = 0 := widen_injective.eq_iff' rfl

def convert (c : UInt8) : List UInt16 :=
  if c = ch '\n' then [widen (ch '\r'), widen c] else [widen c]

def convertAll (bytes : Bytes) : List UInt16 := bytes.flatMap convert

theorem convertAll_cons : convertAll (c :: s8) = convert c ++ convertAll s8 := List.flatMap_cons

theorem convertAll_append {xs ys : Bytes} :
    convertAll (xs ++ ys) = convertAll xs ++ convertAll ys := List.flatMap_append

theorem convert_length : (convert c).length ≤ 2 := by
  unfold convert
  split_ifs <;> simp

theorem convertAll_length : (convertAll s8).length ≤ 2 * s8.length := by
  induction s8 with
  | nil => simp [convertAll]
  | cons c s8 ih =>
    have first := convert_length (c := c)
    rw [convertAll_cons, List.length_append, List.length_cons]
    omega

theorem convertAll_nonzero (nonzero : ∀ c ∈ s8, c ≠ 0) : ∀ w ∈ convertAll s8, w ≠ 0 := by
  intro w mem
  obtain ⟨c, inside, here⟩ := List.mem_flatMap.mp mem
  have some_char : widen c ≠ 0 := fun zero => nonzero c inside (widen_eq_zero.mp zero)
  unfold convert at here
  split_ifs at here
  · rcases List.mem_pair.mp here with rfl | rfl
    · decide
    · exact some_char
  · rw [List.mem_singleton.mp here]
    exact some_char

theorem convertAll_count : (convertAll s8).countP (· ≠ widen (ch '\n')) = s8.length := by
  induction s8 with
  | nil => rfl
  | cons c s8 ih =>
    have one : (convert c).countP (· ≠ widen (ch '\n')) = 1 := by
      unfold convert
      split_ifs with newline
      · rw [newline]
        decide
      · have other : widen c ≠ widen (ch '\n') := fun same => newline (widen_injective same)
        simp [other]
    rw [convertAll_cons, List.countP_append, one, ih, List.length_cons, Nat.add_comm]

end Convert

section Text

def text (s8 : Bytes) (len : ℕ) : Bytes := (s8.takeWhile (· ≠ 0)).take len

/-- No more than `len` bytes are read up to the NUL, so none behind the end of the object. -/
def Readable (s8 : Bytes) (len : ℕ) : Prop := len ≤ s8.length ∨ 0 ∈ s8

theorem text_prefix_take : text s8 len <+: s8.take len := by
  rw [text, List.take_takeWhile]
  exact List.takeWhile_prefix _

theorem text_prefix : text s8 len <+: s8 := text_prefix_take.trans (List.take_prefix len s8)

theorem text_length : (text s8 len).length ≤ len := List.length_take_le ..

theorem text_nonzero : ∀ c ∈ text s8 len, c ≠ 0 := by
  intro c mem
  simpa using List.mem_takeWhile_imp (List.mem_of_mem_take mem)

theorem text_cons (nonzero : c ≠ 0) : text (c :: s8) (len + 1) = c :: text s8 len := by
  simp [text, nonzero]

theorem text_split (less : len ≤ sz) : text s8 sz = text s8 len ++
    text (s8.drop (text s8 len).length) (sz - (text s8 len).length) := by
  have fits : (text s8 len).length ≤ sz := text_length.trans less
  have front : s8.take (text s8 len).length = text s8 len :=
    (List.prefix_iff_eq_take.mp text_prefix).symm
  have parts : s8 = text s8 len ++ s8.drop (text s8 len).length := by
    conv_lhs => rw [← List.take_append_drop (text s8 len).length s8, front]
  calc
    text s8 sz = ((text s8 len ++ s8.drop (text s8 len).length).takeWhile (· ≠ 0)).take sz := by
      rw [← parts, text]
    _ = _ := by
      rw [List.takeWhile_append_of_pos fun c mem => by simpa using text_nonzero c mem,
        List.take_append, List.take_of_length_le fits]
      rfl

theorem readable_tail (nonzero : c ≠ 0) (readable : Readable (c :: s8) (len + 1)) :
    Readable s8 len := by
  rcases readable with more | zero
  · exact Or.inl (Nat.le_of_succ_le_succ more)
  · rcases List.mem_cons.mp zero with first | later
    · exact absurd first.symm nonzero
    · exact Or.inr later

theorem readable_drop (readable : Readable s8 sz) :
    Readable (s8.drop (text s8 len).length) (sz - (text s8 len).length) := by
  rcases readable with room | zero
  · left
    rw [List.length_drop]
    omega
  · right
    have front : s8.take (text s8 len).length = text s8 len :=
      (List.prefix_iff_eq_take.mp text_prefix).symm
    rw [← List.take_append_drop (text s8 len).length s8, List.mem_append, front] at zero
    rcases zero with early | late
    · exact absurd rfl (text_nonzero 0 early)
    · exact late

theorem readable_part (readable : Readable s8 sz) (less : len ≤ sz) : Readable s8 len :=
  readable.imp_left less.trans

theorem text_empty (positive : 0 < len) (empty : 0 = (text s8 len).length) : text s8 sz = [] := by
  have none : s8.takeWhile (· ≠ 0) = [] := by
    rw [text, List.length_take] at empty
    exact List.length_eq_zero_iff.mp (by omega)
  rw [text, none, List.take_nil]

end Text

section Store

theorem wp_storeWide {post : Unit → Vector UInt16 n → Prop} {s16 : Vector UInt16 n} {j : ℕ}
    {w : UInt16} (inside : j < n) :
    wp (storeWide j w) post bad s16 = post () (s16.set j w) := by
  rw [storeWide, wp_bind, wp_get, dif_pos inside, wp_set]

theorem filled_set {s16 : Vector UInt16 n} {j : ℕ} {w : UInt16} (inside : j < n) :
    (s16.set j w).toList.take (j + 1) = s16.toList.take j ++ [w] := by
  rw [Vector.toList_set, List.take_add_one, List.take_set_of_le (Nat.le_refl j),
    List.getElem?_set_self (by rwa [Vector.length_toList])]
  rfl

def Converted (s16 : Vector UInt16 n) (i j : ℕ) (bytes : Bytes) (r : ℕ × ℕ) (t : Vector UInt16 n) :
    Prop :=
  r.1 = i + bytes.length ∧ r.2 = j + (convertAll bytes).length ∧
    t.toList.take r.2 = s16.toList.take j ++ convertAll bytes

theorem Converted.nil {s16 : Vector UInt16 n} {i j : ℕ} : Converted s16 i j [] (i, j) s16 :=
  ⟨rfl, rfl, (List.append_nil _).symm⟩

theorem Converted.cons {s16 u t : Vector UInt16 n} {i j : ℕ} {bytes : Bytes} {r : ℕ × ℕ}
    {wide : List UInt16} (same : convert c = wide)
    (stored : u.toList.take (j + wide.length) = s16.toList.take j ++ wide)
    (rest : Converted u (i + 1) (j + wide.length) bytes r t) :
    Converted s16 i j (c :: bytes) r t := by
  obtain ⟨count, used, filled⟩ := rest
  refine ⟨?_, ?_, ?_⟩
  · rw [count, List.length_cons]
    omega
  · rw [used, convertAll_cons, same, List.length_append]
    omega
  · rw [filled, stored, convertAll_cons, same, List.append_assoc]

theorem wp_conioA2uLoop : ∀ {left i j : ℕ} {s8 : Bytes} {s16 : Vector UInt16 n},
    Readable s8 left → j + 2 * left ≤ n →
    wp (conioA2uLoop left s8 i j) (Converted s16 i j (text s8 left)) bad s16 := by
  intro left
  induction left with
  | zero =>
    intro i j s8 s16 _ _
    rw [conioA2uLoop, wp_pure, text, List.take_zero]
    exact Converted.nil
  | succ left ih =>
    intro i j s8 s16 readable room
    cases s8 with
    | nil =>
      rcases readable with more | zero
      · exact absurd more (Nat.not_succ_le_zero left)
      · cases zero
    | cons c s8 =>
      change wp (if c = 0 then _ else _) _ _ _
      apply wp_ite
      · intro zero
        have none : text (c :: s8) (left + 1) = [] := by simp [text, zero]
        rw [wp_pure, none]
        exact Converted.nil
      · intro nonzero
        have rest := readable_tail nonzero readable
        rw [text_cons nonzero]
        apply wp_ite
        · intro newline
          rw [wp_bind, wp_storeWide (by omega), wp_bind, wp_storeWide (by omega)]
          apply wp_post (ih rest (by omega))
          intro r t after
          apply Converted.cons (if_pos newline) _ after
          rw [List.length_cons, List.length_singleton, filled_set, filled_set, List.append_assoc]
          rfl
        · intro other
          rw [wp_bind, wp_storeWide (by omega)]
          apply wp_post (ih rest (by omega))
          intro r t after
          exact Converted.cons (if_neg other) (filled_set (by omega)) after

theorem wideString_nul {wide rest : List UInt16} (nonzero : ∀ w ∈ wide, w ≠ 0) :
    wideString (wide ++ 0 :: rest) = .ok wide := by
  induction wide with
  | nil => rfl
  | cons w wide ih =>
    rw [List.cons_append, wideString, if_neg (nonzero w List.mem_cons_self),
      ih fun other mem => nonzero other (List.mem_cons_of_mem w mem)]
    rfl

theorem wp_conioA2u {s16 : Vector UInt16 n} (readable : Readable s8 len) (room : 2 * len < n) :
    wp (conioA2u s8 len) (fun i t => i = (text s8 len).length ∧
      wideString t.toList = .ok (convertAll (text s8 len))) bad s16 := by
  rw [conioA2u, wp_bind]
  apply wp_post (wp_conioA2uLoop readable (by omega))
  intro ⟨i, j⟩ t ⟨count, used, filled⟩
  dsimp only at *
  have inside : j < n := by
    have most : (convertAll (text s8 len)).length ≤ _ := convertAll_length
    have short : (text s8 len).length ≤ len := text_length
    omega
  rw [wp_bind, wp_storeWide inside, wp_pure]
  constructor
  · rw [count, Nat.zero_add]
  · rw [← List.take_append_drop (j + 1) (t.set j 0).toList, filled_set inside, filled,
      List.take_zero, List.nil_append, List.append_assoc]
    exact wideString_nul (convertAll_nonzero text_nonzero)

end Store

section Write

def Prints (stream : Stream) (console t : Console) (wide : List UInt16) : Prop :=
  ∃ strings, t = Function.update console stream (console stream ++ strings) ∧
    strings.flatten = wide

theorem Prints.nothing {console : Console} : Prints stream console console [] :=
  ⟨[], by rw [List.append_nil, Function.update_eq_self], rfl⟩

theorem Prints.next {console t : Console} {string wide : List UInt16}
    (rest : Prints stream (Function.update console stream (console stream ++ [string])) t wide) :
    Prints stream console t (string ++ wide) := by
  obtain ⟨strings, same, flat⟩ := rest
  refine ⟨string :: strings, ?_, ?_⟩
  · rw [same, Function.update_self, Function.update_idem, List.append_assoc]
    rfl
  · rw [List.flatten_cons, flat]

theorem wp_efiConioWriteLoop (positive : 0 < chunk) : ∀ {sz : ℕ} {s8 : Bytes}
    {s16 : Vector UInt16 (2 * chunk + 1)} {console : Console}, Readable s8 sz →
    wp (efiConioWriteLoop chunk (outputString stream) s8 sz)
      (fun _ t => Prints stream console t.2 (convertAll (text s8 sz))) bad (s16, console) := by
  intro sz
  induction sz using Nat.strong_induction_on with
  | h sz ih =>
    intro s8 s16 console readable
    rw [efiConioWriteLoop]
    apply wp_ite
    · intro none
      rw [wp_pure, none]
      exact Prints.nothing
    · intro some_left
      obtain ⟨len, used⟩ : ∃ len, len = if chunk > sz then sz else chunk := ⟨_, rfl⟩
      have less : len ≤ sz := by
        rw [used]
        split <;> omega
      have fits : len ≤ chunk := by
        rw [used]
        split <;> omega
      rw [← used, wp_bind, wp_zoom]
      apply wp_post (wp_conioA2u (readable_part readable less) (by omega))
      intro converted t ⟨count, string⟩
      by_cases nothing : converted = 0
      · have more : 0 < len := by
          rw [used]
          split <;> omega
        rw [dif_pos nothing, wp_pure, text_empty more (nothing.symm.trans count)]
        exact Prints.nothing
      · have whole : text s8 sz = _ := text_split less
        rw [← count] at whole
        rw [dif_neg nothing, wp_bind, wp_get]
        dsimp only
        rw [wp_bind, wp_zoom, outputString, string, wp_bind, wp_lift_ok, wp_modify, whole,
          convertAll_append]
        by_cases last : sz ≤ converted
        · rw [dif_pos last, wp_pure, Nat.sub_eq_zero_of_le last]
          exact Prints.next Prints.nothing
        · rw [dif_neg last]
          have rest : Readable (s8.drop converted) (sz - converted) := by
            rw [count]
            exact readable_drop readable
          apply wp_post (ih (sz - converted) (by omega) rest)
          intro _ u printed
          exact Prints.next printed

/-- `efi_conio_write` prints the text before the NUL. -/
theorem efiConioWrite_run (stream : Stream) (positive : 0 < chunk) (readable : Readable s8 sz)
    (s16 : Vector UInt16 (2 * chunk + 1)) (console : Console) :
    ∃ t, efiConioWrite chunk s16 (outputString stream) s8 sz console = .ok ((), t) ∧
      Prints stream console t (convertAll (text s8 sz)) := by
  have ran : wp (efiConioWrite chunk s16 (outputString stream) s8 sz)
      (fun _ t => Prints stream console t (convertAll (text s8 sz))) never console := by
    rw [efiConioWrite, wp_bind, wp_withLocal]
    exact wp_efiConioWriteLoop positive readable
  obtain ⟨_, t, run, printed⟩ := wp_never.mp ran
  exact ⟨t, run, printed⟩

end Write

def crlf (c : UInt8) : List UInt16 := if c = 10 then [13, 10] else [c.toUInt16]

theorem convert_ascii (ascii : c ≤ 127) : convert c = crlf c := by
  have code : widen c = c.toUInt16 := by
    have low : c.toNat ≤ 127 := UInt8.le_iff_toNat_le.mp ascii
    apply UInt16.toNat_inj.mp
    rw [widen_toNat, if_pos (by omega), UInt8.toNat_toUInt16]
  rw [convert, crlf, code]
  apply ite_congr rfl
  · intro newline
    rw [newline]
    rfl
  · intro _
    rfl

theorem converted_ascii (ascii : ∀ c ∈ s8, 1 ≤ c ∧ c ≤ 127) :
    convertAll (text s8 s8.length) = s8.flatMap crlf := by
  have all : s8.takeWhile (· ≠ 0) = s8 := by
    rw [List.takeWhile_eq_self_iff]
    intro c mem
    have positive := UInt8.le_iff_toNat_le.mp (ascii c mem).1
    rw [decide_eq_true_eq]
    intro zero
    rw [zero] at positive
    exact absurd positive (by decide)
  rw [text, all, List.take_length, convertAll]
  exact List.flatMap_congr fun c mem => convert_ascii (ascii c mem).2

theorem efiConioWrite_ascii (stream : Stream) (positive : 0 < chunk)
    (ascii : ∀ c ∈ s8, 1 ≤ c ∧ c ≤ 127) (s16 : Vector UInt16 (2 * chunk + 1)) (console : Console) :
    ∃ strings, efiConioWrite chunk s16 (outputString stream) s8 s8.length console =
      .ok ((), Function.update console stream (console stream ++ strings)) ∧
      strings.flatten = s8.flatMap crlf := by
  obtain ⟨t, run, strings, rfl, flat⟩ :=
    efiConioWrite_run stream positive (Or.inl (Nat.le_refl s8.length)) s16 console
  exact ⟨strings, run, flat.trans (converted_ascii ascii)⟩

/-- `efi_conio_write` ends without a store outside its array and prints the string with carriage
returns, and two writes in a row print what one write of both strings does. -/
theorem efiConioWrite_converts (chunk : ℕ) (positive : 0 < chunk) (stream : Stream) :
    (∀ (s8 : Bytes) (s16 : Vector UInt16 (2 * chunk + 1)) (console : Console),
      (∀ c ∈ s8, 1 ≤ c ∧ c ≤ 127) →
      ∃ strings, efiConioWrite chunk s16 (outputString stream) s8 s8.length console =
        .ok ((), Function.update console stream (console stream ++ strings)) ∧
        strings.flatten = s8.flatMap crlf) ∧
    ∀ (xs ys : Bytes) (s16 s16' s16'' : Vector UInt16 (2 * chunk + 1)) (console : Console),
      (∀ c ∈ xs ++ ys, 1 ≤ c ∧ c ≤ 127) →
      ∃ two one, (do
          efiConioWrite chunk s16 (outputString stream) xs xs.length
          efiConioWrite chunk s16' (outputString stream) ys ys.length) console = .ok ((), two) ∧
        efiConioWrite chunk s16'' (outputString stream) (xs ++ ys) (xs ++ ys).length console =
          .ok ((), one) ∧
        (two stream).flatten = (one stream).flatten := by
  constructor
  · intro s8 s16 console ascii
    exact efiConioWrite_ascii stream positive ascii s16 console
  · intro xs ys s16 s16' s16'' console ascii
    obtain ⟨first, run, flat⟩ := efiConioWrite_ascii stream positive
      (fun c mem => ascii c (List.mem_append_left ys mem)) s16 console
    obtain ⟨second, run', flat'⟩ := efiConioWrite_ascii stream positive
      (fun c mem => ascii c (List.mem_append_right xs mem)) s16'
      (Function.update console stream (console stream ++ first))
    obtain ⟨both, run'', flat''⟩ :=
      efiConioWrite_ascii stream positive ascii s16'' console
    refine ⟨_, _, (run_bind run).trans run', run'', ?_⟩
    simp only [Function.update_self, List.flatten_append, flat, flat', flat'',
      List.flatMap_append, List.append_assoc]

theorem efiConioWrite_converts_line : ∃ strings,
    efiConioWrite 1 #v[7, 7, 7] (outputString .conOut) [97, 10] 2 (fun _ => []) =
      .ok ((), Function.update (fun _ => []) .conOut strings) ∧
      strings.flatten = [97, 13, 10] := by
  obtain ⟨strings, run, flat⟩ := (efiConioWrite_converts 1 Nat.one_pos .conOut).1 [97, 10]
    #v[7, 7, 7] (fun _ => []) (by simp)
  exact ⟨strings, run, flat⟩

section Returned

theorem toInt_ofNat_iff {k : ℕ} (size : sz < 2 ^ 64) (small : k < 2 ^ 63) :
    (Int64.ofNat sz).toInt = k ↔ sz = k := by
  rw [Int64.toInt_ofNat', Int.bmod_def]
  have size : (Int64.size : ℤ) = 18446744073709551616 := rfl
  rw [size]
  constructor
  · intro same
    split at same <;> omega
  · intro same
    split <;> omega

/-- The returned value is the number of bytes of the buffer that were converted and handed to the
stream. -/
def Reports (stream : Stream) (buffer : Bytes) (console t : Console) (r : Int64) : Prop :=
  ∃ printed, printed <+: buffer ∧
    (t stream).flatten = (console stream).flatten ++ convertAll printed ∧
    r.toInt = printed.length

theorem reports_iff {console t : Console} {buffer : Bytes} {r : Int64}
    (printed : Prints stream console t (convertAll (text s8 sz))) (part : text s8 sz <+: buffer) :
    Reports stream buffer console t r ↔ r.toInt = (text s8 sz).length := by
  obtain ⟨strings, rfl, flat⟩ := printed
  rw [Reports, Function.update_self, List.flatten_append, flat]
  constructor
  · intro ⟨bytes, _, same, count⟩
    rw [List.append_cancel_left_eq] at same
    rw [count, ← convertAll_count, ← same, convertAll_count]
  · intro count
    exact ⟨_, part, rfl, count⟩

theorem text_whole_iff (readable : Readable s8 sz) :
    sz = (text s8 sz).length ↔ 0 ∉ s8.take sz := by
  constructor
  · intro whole zero
    have same : text s8 sz = s8.take sz := by
      apply text_prefix_take.eq_of_length_le
      rw [← whole]
      exact List.length_take_le ..
    rw [← same] at zero
    exact text_nonzero 0 zero rfl
  · intro none
    have room : sz ≤ s8.length := by
      by_contra short
      rw [List.take_of_length_le (by omega)] at none
      rcases readable with room | zero
      · exact short room
      · exact none zero
    have all : (s8.take sz).takeWhile (· ≠ 0) = s8.take sz := by
      rw [List.takeWhile_eq_self_iff]
      intro c mem
      rw [decide_eq_true_eq]
      intro zero
      rw [zero] at mem
      exact none mem
    rw [text, List.take_takeWhile, all, List.length_take, Nat.min_eq_left room]

/-- The writes of the runtime end, and what they return is exact where the buffer has no NUL. -/
theorem write_reports_iff (s16 : Vector UInt16 (2 * efiIoChunk8Size + 1)) (s8 : StdioModel.Object)
    (sz : ℕ) (console : Console) (size : sz < 2 ^ 64) (readable : Readable s8.bytes sz) :
    (∃ r t, writeStdout s16 s8.bytes sz console = .ok (r, t) ∧
      (Reports .conOut (s8.bytes.take sz) console t r ↔ 0 ∉ s8.bytes.take sz)) ∧
    ∃ r t, writeStderr s16 s8.bytes sz console = .ok (r, t) ∧
      (Reports .stdErr (s8.bytes.take sz) console t r ↔ 0 ∉ s8.bytes.take sz) := by
  have exact : ∀ (stream : Stream) (t : Console),
      Prints stream console t (convertAll (text s8.bytes sz)) →
      (Reports stream (s8.bytes.take sz) console t (Int64.ofNat sz) ↔ 0 ∉ s8.bytes.take sz) := by
    intro stream t printed
    have short : (text s8.bytes sz).length < 2 ^ 63 :=
      lt_of_le_of_lt text_prefix.length_le s8.small
    rw [reports_iff printed (text_prefix_take), toInt_ofNat_iff size short]
    exact text_whole_iff readable
  constructor
  · obtain ⟨t, run, printed⟩ :=
      efiConioWrite_run .conOut (by decide) readable s16 console
    exact ⟨Int64.ofNat sz, t, run_bind run, exact .conOut t printed⟩
  · obtain ⟨t, run, printed⟩ :=
      efiConioWrite_run .stdErr (by decide) readable s16 console
    exact ⟨Int64.ofNat sz, t, run_bind run, exact .stdErr t printed⟩

theorem write_reports_iff_line : ∃ r t,
    writeStderr (Vector.replicate _ 0) [97, 10] 2 (fun _ => []) = .ok (r, t) ∧
      Reports .stdErr [97, 10] (fun _ => []) t r := by
  obtain ⟨_, r, t, run, exact⟩ := write_reports_iff (Vector.replicate _ 0) ⟨[97, 10], by decide⟩ 2
    (fun _ => []) (by decide) (Or.inl (by decide))
  exact ⟨r, t, run, exact.mpr (by decide)⟩

/-- `a`, a NUL and `b`: 3 is returned and only the `a` was converted. -/
theorem writeStdout_overcounts : ∃ r t,
    writeStdout (Vector.replicate _ 0) [97, 0, 98] 3 (fun _ => []) = .ok (r, t) ∧ r = 3 ∧
      (t .conOut).flatten = [97] ∧ ¬Reports .conOut [97, 0, 98] (fun _ => []) t r := by
  have readable : Readable [97, 0, 98] 3 := Or.inl (by decide)
  obtain ⟨t, run, printed⟩ := efiConioWrite_run .conOut (by decide) readable
    (Vector.replicate (2 * efiIoChunk8Size + 1) 0) (fun _ => [])
  have one : text [97, 0, 98] 3 = [97] := by decide
  have overcounts : ¬Reports .conOut [97, 0, 98] (fun _ => []) t (Int64.ofNat 3) := by
    intro reported
    have count := (reports_iff printed text_prefix_take).mp reported
    rw [one] at count
    exact absurd count (by decide)
  obtain ⟨strings, rfl, flat⟩ := printed
  refine ⟨_, _, run_bind run, rfl, ?_, overcounts⟩
  rw [one] at flat
  exact flat

end Returned

end Nanolibc.EfiConsoleModel
