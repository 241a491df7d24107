import Nanolibc.Lib.Chunks
import Nanolibc.StdioModel

set_option autoImplicit false

namespace Nanolibc.StdioModel
open Lib.Program Lib.Chunks CString
open Lib.ArrayHeap (Fault)

variable {n : ℕ} {stream : File} {write : Writer} {out done buff : Bytes} {c : UInt8}
  {calls : Calls} {bad : Fault → Prop}

def callOf (n : ℕ) (write : Writer) (out : Bytes) (k : ℕ) : Bytes × Int64 :=
  (chunk n out k, write k (chunk n out k))

def callsOf (n : ℕ) (write : Writer) (out : Bytes) : Calls :=
  (List.range (count n out.length)).map (callOf n write out)

def totalOf (calls : Calls) : ℕ := calls.foldl (fun total call => addWritten total call.2) 0

theorem totalOf_snoc (call : Bytes × Int64) :
    totalOf (calls ++ [call]) = addWritten (totalOf calls) call.2 := by
  rw [totalOf, List.foldl_append]
  rfl

theorem wp_callWrite {post : Int64 → Calls → Prop} {bytes : Bytes}
    (has : stream.write = some write) :
    wp (callWrite stream bytes) post bad calls =
      post (write calls.length bytes) (calls ++ [(bytes, write calls.length bytes)]) := by
  rw [callWrite, has]
  rfl

theorem writable_some (valid : stream.magic = stdioMagic) (has : stream.write = some write) :
    writable (some stream) = some stream := by
  simp [writable, _isValidFILE, valid, has]

/-- The characters in `done` have gone to the stream in `q` full chunks, up to those that are in
the buffer. -/
structure Buffered (n : ℕ) (stream : File) (write : Writer) (done : Bytes) (q : ℕ)
    (s : VprintfPutcfData × Calls) : Prop where
  low : q * n ≤ done.length
  high : done.length < (q + 1) * n
  calls : s.2 = (List.range q).map (callOf n write done)
  stream : s.1.stream = stream
  size : s.1.buff.length = n
  capacity : s.1.buffCapacity = n
  nbuffered : s.1.nbuffered = done.length - q * n
  kept : s.1.buff.take s.1.nbuffered = done.drop (q * n)
  total : s.1.totalWritten = totalOf s.2

theorem callOf_append {q k : ℕ} (low : q * n ≤ done.length) (before : k < q) :
    callOf n write (done ++ [c]) k = callOf n write done k := by
  have inside : (k + 1) * n ≤ done.length := le_trans (Nat.mul_le_mul_right n before) low
  rw [callOf, callOf, chunk_append inside]

section Callback

variable {q : ℕ} {data : VprintfPutcfData} {log : Calls}
  (before : Buffered n stream write done q (data, log))
include before

theorem Buffered.stored : (data.buff.set data.nbuffered c).take (data.nbuffered + 1) =
    (done ++ [c]).drop (q * n) := by
  obtain ⟨low, high, _, _, size, _, nbuffered, kept, _⟩ := before
  dsimp only at *
  rw [Nat.succ_mul] at high
  rw [List.take_add_one, List.take_set_of_le (Nat.le_refl _), kept,
    List.getElem?_set_self (by omega), List.drop_append_of_le_length low]
  rfl

theorem Buffered.calls_append :
    log = (List.range q).map (callOf n write (done ++ [c])) := by
  apply before.calls.trans
  apply List.map_congr_left
  intro k mem
  exact (callOf_append before.low (List.mem_range.mp mem)).symm

theorem Buffered.keep (room : data.nbuffered + 1 < n) :
    Buffered n stream write (done ++ [c]) q
      ({ data with buff := data.buff.set data.nbuffered c, nbuffered := data.nbuffered + 1 },
        log) := by
  have stored := before.stored (c := c)
  have calls := before.calls_append (c := c)
  obtain ⟨low, high, _, file, size, capacity, nbuffered, _, total⟩ := before
  dsimp only at *
  have next : (done ++ [c]).length = done.length + 1 := List.length_append
  rw [Nat.succ_mul] at high
  refine ⟨?_, ?_, calls, file, ?_, capacity, ?_, stored, total⟩
  · rw [next]
    omega
  · rw [next, Nat.succ_mul]
    omega
  · rw [List.length_set, size]
  · dsimp only
    rw [next]
    omega

theorem Buffered.flush (full : n ≤ data.nbuffered + 1) :
    Buffered n stream write (done ++ [c]) (q + 1)
      ({ data with
          buff := data.buff.set data.nbuffered c
          nbuffered := 0
          totalWritten := addWritten data.totalWritten (callOf n write (done ++ [c]) q).2 },
        log ++ [callOf n write (done ++ [c]) q]) := by
  have calls := before.calls_append (c := c)
  obtain ⟨low, high, _, file, size, capacity, nbuffered, _, total⟩ := before
  dsimp only at *
  have next : (done ++ [c]).length = done.length + 1 := List.length_append
  rw [Nat.succ_mul] at high
  refine ⟨?_, ?_, ?_, file, ?_, capacity, ?_, ?_, ?_⟩
  · rw [next, Nat.succ_mul]
    omega
  · rw [next, Nat.succ_mul, Nat.succ_mul]
    omega
  · rw [List.range_succ, List.map_append, ← calls]
    rfl
  · rw [List.length_set, size]
  · dsimp only
    rw [next, Nat.succ_mul]
    omega
  · dsimp only
    rw [List.take_zero, List.drop_of_length_le (by rw [next, Nat.succ_mul]; omega)]
  · rw [totalOf_snoc, total]

end Callback

theorem wp_vprintfPutcf {q : ℕ} {s : VprintfPutcfData × Calls}
    (has : stream.write = some write) (before : Buffered n stream write done q s) :
    wp (_vprintfPutcf c) (fun _ t => ∃ q', Buffered n stream write (done ++ [c]) q' t) bad s := by
  obtain ⟨data, log⟩ := s
  have low := before.low
  have high := before.high
  have calls := before.calls
  have size := before.size
  have capacity := before.capacity
  have nbuffered := before.nbuffered
  dsimp only at *
  have next : (done ++ [c]).length = done.length + 1 := List.length_append
  rw [Nat.succ_mul] at high
  rw [_vprintfPutcf, wp_bind, wp_get]
  dsimp only
  rw [if_neg (by omega), if_neg (by omega)]
  apply wp_ite
  · intro full
    have length : log.length = q := by
      rw [calls, List.length_map, List.length_range]
    have piece : (data.buff.set data.nbuffered c).take (data.nbuffered + 1) =
        chunk n (done ++ [c]) q := by
      rw [before.stored, chunk_rest (by rw [next, Nat.succ_mul]; omega)]
    rw [wp_bind, wp_zoom, before.stream, wp_callWrite has, wp_modify, piece, length]
    have flushed := before.flush (c := c) (by omega)
    rw [before.stream] at flushed
    exact ⟨q + 1, flushed⟩
  · intro room
    rw [wp_modify]
    exact ⟨q, before.keep (by omega)⟩

theorem wp_vfprintf (positive : 0 < buff.length) (valid : stream.magic = stdioMagic)
    (has : stream.write = some write) :
    wp (vfprintf buff (some stream) out) (fun r calls =>
      calls = callsOf buff.length write out ∧ r = Int32.ofNat (totalOf calls)) bad [] := by
  have start : ∃ q, Buffered buff.length stream write [] q
      (⟨stream, buff, buff.length, 0, 0⟩, []) :=
    ⟨0, by simp, by simpa using positive, rfl, rfl, rfl, rfl, by simp, by simp, rfl⟩
  have formatted : wp (tfpFormat _vprintfPutcf out) _ bad
      (⟨stream, buff, buff.length, 0, 0⟩, []) :=
    wp_runAll_done (n := out.length)
      (fun done s => ∃ q, Buffered buff.length stream write done q s)
      (fun _ _ _ _ inv => inv.elim fun _ before => wp_vprintfPutcf has before) out [] _
      (by simp) start
  rw [vfprintf, writable_some valid has]
  dsimp only
  rw [wp_bind, wp_withLocal]
  apply wp_post formatted
  intro _ s ⟨q, low, high, calls, file, size, capacity, nbuffered, kept, total⟩
  rw [List.nil_append] at *
  have length : s.2.length = q := by
    rw [calls, List.length_map, List.length_range]
  dsimp only
  apply wp_ite
  · intro left
    have rest : chunk buff.length out q = out.drop (q * buff.length) :=
      chunk_rest (Nat.le_of_lt high)
    rw [wp_bind, wp_callWrite has, kept, ← rest, length]
    have whole : s.2 ++ [callOf buff.length write out q] = callsOf buff.length write out := by
      rw [callsOf, count_rest (by omega) (Nat.le_of_lt high), List.range_succ, List.map_append,
        calls]
      rfl
    refine ⟨whole, ?_⟩
    rw [totalOf_snoc, total]
  · intro none
    have whole : s.2 = callsOf buff.length write out := by
      rw [callsOf, count_exact (q := q) positive (by omega), calls]
    exact ⟨whole, by rw [total]⟩

theorem vfprintf_run (out : Bytes) (positive : 0 < buff.length) (valid : stream.magic = stdioMagic)
    (has : stream.write = some write) : vfprintf buff (some stream) out [] =
      .ok (Int32.ofNat (totalOf (callsOf buff.length write out)),
        callsOf buff.length write out) := by
  have ran : wp (vfprintf buff (some stream) out) _ never [] := wp_vfprintf positive valid has
  obtain ⟨r, calls, run, rfl, rfl⟩ := wp_never.mp ran
  exact run

section Accepted

def pieces (calls : Calls) : List (Bytes × ℕ) := calls.map fun call => (call.1, call.2.toInt.toNat)

def accepted (calls : Calls) : Bytes := taken (pieces calls)

def Answers (call : Bytes × Int64) : Prop := -1 ≤ call.2.toInt ∧ call.2.toInt ≤ call.1.length

theorem accepted_snoc (call : Bytes × Int64) :
    accepted (calls ++ [call]) = accepted calls ++ call.1.take call.2.toInt.toNat := by
  simp [accepted, pieces, taken]

theorem addWritten_eq {total : ℕ} {result : Int64} (least : -1 ≤ result.toInt)
    (most : result.toInt < 2 ^ 31) (small : total < 2 ^ 64) :
    addWritten total result = (total + result.toInt.toNat) % 2 ^ 64 := by
  have same : result.toInt32.toInt = result.toInt := by
    rw [Int64.toInt_toInt32]
    exact Int.bmod_eq_of_le (by omega) (by omega)
  have sign : 0 < result.toInt32 ↔ 0 < result.toInt := by
    rw [Int32.lt_iff_toInt_lt, same]
    rfl
  rw [addWritten, Int32.toNatClampNeg, same]
  by_cases positive : 0 < result.toInt
  · rw [if_pos (sign.mpr positive)]
  · rw [if_neg fun h => positive (sign.mp h), show result.toInt.toNat = 0 by omega, Nat.add_zero,
      Nat.mod_eq_of_lt small]

/-- `total_written` counts the accepted bytes, modulo 2^64. -/
theorem totalOf_eq : ∀ {calls : Calls}, (∀ call ∈ calls, Answers call ∧ call.1.length < 2 ^ 31) →
    totalOf calls = (accepted calls).length % 2 ^ 64 := by
  intro calls
  induction calls using List.reverseRecOn with
  | nil =>
    intro _
    rfl
  | append_singleton calls call ih =>
    intro each
    obtain ⟨⟨least, most⟩, small⟩ := each call (by simp)
    have rest := ih fun other mem => each other (List.mem_append_left _ mem)
    rw [totalOf_snoc, rest, addWritten_eq least (by omega) (Nat.mod_lt _ (by decide)),
      accepted_snoc, List.length_append, List.length_take, Nat.min_eq_left (by omega),
      Nat.mod_add_mod]

theorem toInt_ofNat_mod_iff {total : ℕ} :
    (Int32.ofNat (total % 2 ^ 64)).toInt = total ↔ total < 2 ^ 31 := by
  rw [Int32.toInt_ofNat', Int.bmod_def]
  have size : (Int32.size : ℤ) = 4294967296 := rfl
  rw [size]
  constructor
  · intro same
    split at same <;> omega
  · intro small
    split <;> omega

theorem mem_callsOf {call : Bytes × Int64} (mem : call ∈ callsOf n write out) :
    ∃ k, k < count n out.length ∧ call = callOf n write out k := by
  rw [callsOf, List.mem_map] at mem
  obtain ⟨k, inside, same⟩ := mem
  exact ⟨k, List.mem_range.mp inside, same.symm⟩

theorem callsOf_flatten (positive : 0 < n) :
    ((callsOf n write out).map Prod.fst).flatten = out := by
  have chunks : (callsOf n write out).map Prod.fst =
      (List.range (count n out.length)).map (chunk n out) := by
    rw [callsOf, List.map_map]
    rfl
  rw [chunks, flatten_all positive]

theorem callsOf_full (positive : 0 < n) {call : Bytes × Int64}
    (mem : call ∈ (callsOf n write out).dropLast) : call.1.length = n := by
  rw [callsOf] at mem
  cases last : count n out.length with
  | zero =>
    rw [last] at mem
    cases mem
  | succ k =>
    rw [last, List.range_succ, List.map_append, List.map_singleton, List.dropLast_concat,
      List.mem_map] at mem
    obtain ⟨j, inside, rfl⟩ := mem
    have before := List.mem_range.mp inside
    exact chunk_full positive (by omega)

end Accepted

/-- With a runtime that accepts all it is given, `vfprintf` does not abort, makes no empty write,
fills the buffer for each write but the last, and writes and counts the whole output. -/
theorem vfprintf_writes (buff : Bytes) (stream : File) (write : Writer) (out : Bytes)
    (positive : 0 < buff.length) (valid : stream.magic = stdioMagic)
    (has : stream.write = some write)
    (accepts : ∀ k (bytes : Bytes), bytes.length < 2 ^ 63 → (write k bytes).toInt = bytes.length)
    (short : out.length < 2 ^ 31) :
    ∃ r calls, vfprintf buff (some stream) out [] = .ok (r, calls) ∧
      (∀ call ∈ calls, call.1 ≠ []) ∧ (∀ call ∈ calls.dropLast, call.1.length = buff.length) ∧
      (calls.map Prod.fst).flatten = out ∧ r.toInt = out.length := by
  have run := vfprintf_run out positive valid has
  have flat : ((callsOf buff.length write out).map Prod.fst).flatten = out :=
    callsOf_flatten positive
  have each : ∀ call ∈ callsOf buff.length write out,
      call.1 ≠ [] ∧ call.1.length < 2 ^ 31 ∧ call.2.toInt = call.1.length := by
    intro call mem
    obtain ⟨k, inside, rfl⟩ := mem_callsOf mem
    have length : (chunk buff.length out k).length ≤ out.length := by
      rw [chunk_length]
      omega
    exact ⟨chunk_ne_nil positive inside, lt_of_le_of_lt length short, accepts k _ (by omega)⟩
  have whole : accepted (callsOf buff.length write out) = out := by
    rw [accepted, taken_whole, pieces, List.map_map]
    · exact flat
    · intro p mem
      obtain ⟨call, here, rfl⟩ := List.mem_map.mp mem
      rw [(each call here).2.2]
      exact Nat.le_refl _
  have total : totalOf (callsOf buff.length write out) = out.length % 2 ^ 64 := by
    rw [totalOf_eq, whole]
    intro call mem
    obtain ⟨_, small, all⟩ := each call mem
    exact ⟨⟨by omega, by omega⟩, small⟩
  refine ⟨_, _, run, fun call mem => (each call mem).1, fun call mem => callsOf_full positive mem,
    flat, ?_⟩
  rw [total, toInt_ofNat_mod_iff]
  exact short

def willing : File := ⟨stdioMagic, some fun _ bytes => Int64.ofNat bytes.length⟩

theorem vfprintf_writes_five : ∃ r calls,
    vfprintf [0, 0] (some willing) [104, 101, 108, 108, 111] [] = .ok (r, calls) ∧
      (calls.map Prod.fst).flatten = [104, 101, 108, 108, 111] ∧ r.toInt = 5 := by
  obtain ⟨r, calls, run, _, _, flat, count⟩ := vfprintf_writes [0, 0] willing _
    [104, 101, 108, 108, 111] (by decide) rfl rfl
    (fun _ _ small => Int64.toInt_ofNat_of_lt small) (by decide)
  exact ⟨r, calls, run, flat, count⟩

def Continuous (out : Bytes) (r : Int32) (calls : Calls) : Prop :=
  accepted calls <+: out ∧ r.toInt = (accepted calls).length

/-- What the runtime accepts after the first write that it cuts short or refuses, if anything, is
what the output goes on with there, and an `int` can hold the number of bytes it accepts. -/
def GapFree (n : ℕ) (write : Writer) (out : Bytes) : Prop :=
  late (pieces (callsOf n write out)) <+: out.drop (reached (pieces (callsOf n write out))) ∧
    (taken (pieces (callsOf n write out))).length < 2 ^ 31

instance (n : ℕ) (write : Writer) (out : Bytes) : Decidable (GapFree n write out) :=
  inferInstanceAs (Decidable (_ ∧ _))

theorem continuous_iff (positive : 0 < n) (small : n < 2 ^ 31)
    (answers : ∀ k (bytes : Bytes), bytes.length < 2 ^ 63 → Answers (bytes, write k bytes)) :
    Continuous out (Int32.ofNat (totalOf (callsOf n write out))) (callsOf n write out) ↔
      GapFree n write out := by
  have flat : ((pieces (callsOf n write out)).map Prod.fst).flatten = out := by
    rw [pieces, List.map_map]
    exact callsOf_flatten positive
  have total : totalOf (callsOf n write out) =
      (accepted (callsOf n write out)).length % 2 ^ 64 := by
    apply totalOf_eq
    intro call mem
    obtain ⟨k, _, rfl⟩ := mem_callsOf mem
    have length : (chunk n out k).length ≤ n := by
      rw [chunk_length]
      exact Nat.min_le_left ..
    exact ⟨answers k _ (by omega), lt_of_le_of_lt length small⟩
  have parts := taken_prefix_iff (pieces (callsOf n write out))
  rw [flat] at parts
  rw [Continuous, GapFree, total, toInt_ofNat_mod_iff]
  exact and_congr_left fun _ => parts

/-- `vfprintf` runs for every output and every runtime, and what the runtime accepts is a prefix of
the output, with the returned length, exactly where no accepted byte comes after a gap. -/
theorem vfprintf_continuous_iff (buff : Bytes) (stream : File) (write : Writer) (out : Bytes)
    (positive : 0 < buff.length) (small : buff.length < 2 ^ 31)
    (valid : stream.magic = stdioMagic) (has : stream.write = some write)
    (answers : ∀ k (bytes : Bytes), bytes.length < 2 ^ 63 → Answers (bytes, write k bytes)) :
    ∃ r calls, vfprintf buff (some stream) out [] = .ok (r, calls) ∧
      (Continuous out r calls ↔ GapFree buff.length write out) := by
  have run := vfprintf_run out positive valid has
  exact ⟨_, _, run, continuous_iff positive small answers⟩

def stingy (first later : ℕ) : Writer := fun k bytes =>
  Int64.ofNat (min (if k = 0 then first else later) bytes.length)

theorem stingy_answers {first later : ℕ} (k : ℕ) (bytes : Bytes) (small : bytes.length < 2 ^ 63) :
    Answers (bytes, stingy first later k bytes) := by
  rw [Answers, stingy, Int64.toInt_ofNat_of_lt (by omega)]
  dsimp only
  omega

theorem vfprintf_continuous_iff_refused : ∃ r calls,
    vfprintf [0, 0] (some ⟨stdioMagic, some (stingy 2 0)⟩) [104, 101, 108, 108] [] =
      .ok (r, calls) ∧ Continuous [104, 101, 108, 108] r calls := by
  obtain ⟨r, calls, run, exact⟩ := vfprintf_continuous_iff [0, 0]
    ⟨stdioMagic, some (stingy 2 0)⟩ (stingy 2 0) [104, 101, 108, 108] (by decide) (by decide) rfl
    rfl stingy_answers
  exact ⟨r, calls, run, exact.mpr (by decide)⟩

/-- 64 times `a` and then `b`: the runtime takes 63 bytes of the full buffer and then the `b`. -/
theorem vfprintf_leaves_gap : ∃ r calls,
    vfprintf (List.replicate 64 0) (some ⟨stdioMagic, some (stingy 63 64)⟩)
      (List.replicate 64 97 ++ [98]) [] = .ok (r, calls) ∧
      accepted calls = List.replicate 63 97 ++ [98] ∧
      ¬Continuous (List.replicate 64 97 ++ [98]) r calls := by
  have full : 0 < (List.replicate 64 (0 : UInt8)).length := by decide
  have run := vfprintf_run (List.replicate 64 97 ++ [98]) full
    (show (⟨stdioMagic, some (stingy 63 64)⟩ : File).magic = stdioMagic from rfl) rfl
  have bytes : accepted (callsOf 64 (stingy 63 64) (List.replicate 64 97 ++ [98])) =
      List.replicate 63 97 ++ [98] := by decide
  refine ⟨_, _, run, bytes, ?_⟩
  intro ⟨front, _⟩
  rw [List.length_replicate, bytes] at front
  exact absurd front (by decide)

end Nanolibc.StdioModel
