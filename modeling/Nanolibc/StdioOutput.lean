import Nanolibc.StdioWrite

set_option autoImplicit false

namespace Nanolibc.StdioModel
open Lib.Program Lib.Chunks CString
open Lib.ArrayHeap (Fault)

inductive Std where
  | stdin
  | stdout
  | stderr
  deriving DecidableEq, Repr

structure Sysdeps where
  writeStdout : Writer
  writeStderr : Writer

structure InternalData where
  libcStdin : File
  libcStdout : File
  libcStderr : File

def nnlcInitialize (sysdeps : Sysdeps) : InternalData where
  libcStdin := ⟨stdioMagic, none⟩
  libcStdout := ⟨stdioMagic, some sysdeps.writeStdout⟩
  libcStderr := ⟨stdioMagic, some sysdeps.writeStderr⟩

def InternalData.file (data : InternalData) : Std → File
  | .stdin => data.libcStdin
  | .stdout => data.libcStdout
  | .stderr => data.libcStderr

/-- A call that prints. A stream is `none` where it is NULL; `buff` is the array on the stack of
`vfprintf` as it is found. -/
inductive Output where
  | fputc (c : Int32) (stream : Option Std)
  | fputs (s : Object) (stream : Option Std)
  | putchar (c : Int32)
  | puts (s : Object)
  | fwrite (ptr : Object) (size nmemb : ℕ) (stream : Option Std)
  | vfprintf (buff : Vector UInt8 64) (out : Bytes) (stream : Option Std)
  | write (fd : Int32) (buf : Object) (count : ℕ)

namespace Output

def target : Output → Option Std
  | fputc _ stream | fputs _ stream | fwrite _ _ _ stream | vfprintf _ _ stream =>
    stream.filter (· ≠ .stdin)
  | putchar _ | puts _ => some .stdout
  | write fd _ _ => some (if fd = 1 then .stdout else .stderr)

def text : Output → Bytes
  | fputc c _ | putchar c => [c.toUInt32.toUInt8]
  | fputs s _ => s.bytes.takeWhile (· ≠ 0)
  | puts s => s.bytes.takeWhile (· ≠ 0) ++ [ch '\n']
  | fwrite ptr size nmemb _ => ptr.bytes.take (nmemb * size)
  | vfprintf _ out _ => out
  | write _ buf count => buf.bytes.take count

def Done : Output → ℤ → Prop
  | fputc _ _, r | fputs _ _, r | putchar _, r | puts _, r => r ≠ -1
  | fwrite _ _ nmemb _, r => r = nmemb
  | vfprintf _ out _, r => r = out.length
  | write _ _ count, r => r = count

/-- Strings end, the bytes to write are there, `%` directives amount to less than 2^31 characters,
and the descriptor is one of the two that `write` takes. -/
def Valid : Output → Prop
  | fputc _ _ | putchar _ => True
  | fputs s _ | puts s => 0 ∈ s.bytes
  | fwrite ptr size nmemb _ => nmemb * size ≤ ptr.bytes.length
  | vfprintf _ out _ => out.length < 2 ^ 31
  | write fd buf count => (fd = 1 ∨ fd = 2) ∧ count ≤ buf.bytes.length

def perform (data : InternalData) : Output → Prog Calls Fault ℤ
  | fputc c stream => Int32.toInt <$> StdioModel.fputc c (stream.map data.file)
  | fputs s stream => Int32.toInt <$> StdioModel.fputs s (stream.map data.file)
  | putchar c => Int32.toInt <$> StdioModel.putchar data.libcStdout c
  | puts s => Int32.toInt <$> StdioModel.puts data.libcStdout s
  | fwrite ptr size nmemb stream =>
    Nat.cast <$> StdioModel.fwrite ptr size nmemb (stream.map data.file)
  | vfprintf buff out stream =>
    Int32.toInt <$> StdioModel.vfprintf buff.toList (stream.map data.file) out
  | write fd buf count =>
    Int64.toInt <$> StdioModel.write (some data.libcStdout) (some data.libcStderr) fd buf count

end Output

abbrev Log := List (Std × Bytes × Int64)

def callsTo (std : Std) (log : Log) : Calls := (log.filter (·.1 = std)).map Prod.snd

def Sysdeps.after (sysdeps : Sysdeps) (log : Log) : Sysdeps where
  writeStdout k := sysdeps.writeStdout ((callsTo .stdout log).length + k)
  writeStderr k := sysdeps.writeStderr ((callsTo .stderr log).length + k)

def output (sysdeps : Sysdeps) (op : Output) : Prog Log Fault ℤ := do
  let log ← get
  let (r, calls) ← lift (op.perform (nnlcInitialize (sysdeps.after log)) [])
  match op.target with
  | none => return r
  | some std => do
    set (log ++ calls.map (Prod.mk std))
    return r

def arrived (std : Std) (log : Log) : Bytes := accepted (callsTo std log)

def printed (std : Std) (ops : List Output) : Bytes :=
  (ops.filter (·.target = some std)).flatMap Output.text

/-- A write returns -1 or the number of bytes it accepted. -/
structure Sysdeps.Answers (sysdeps : Sysdeps) : Prop where
  stdout : ∀ k (bytes : Bytes), bytes.length < 2 ^ 63 →
    StdioModel.Answers (bytes, sysdeps.writeStdout k bytes)
  stderr : ∀ k (bytes : Bytes), bytes.length < 2 ^ 63 →
    StdioModel.Answers (bytes, sysdeps.writeStderr k bytes)

section Calls

variable {stream : File} {write : Writer} {bytes : Bytes} {n : Int64} {op : Output} {r : ℤ}
  {c : Int32} {s : Object} {calls : Calls} {bad : Fault → Prop}

/-- What one call does: no more than its text arrives, all of it if the result says so, and the
result does say so if all of a text that is not empty arrives. -/
structure Outcome (op : Output) (r : ℤ) (calls : Calls) : Prop where
  le : (accepted calls).length ≤ op.text.length
  all : op.Done r → accepted calls = op.text
  done : op.text ≠ [] → (accepted calls).length = op.text.length → op.Done r

theorem wp_fputc (valid : stream.magic = stdioMagic) (has : stream.write = some write) :
    wp (fputc c (some stream)) (fun r calls => (r.toInt ≠ -1 ↔ write 0 [c.toUInt32.toUInt8] = 1) ∧
      calls = [([c.toUInt32.toUInt8], write 0 [c.toUInt32.toUInt8])]) bad [] := by
  have result : (Int32.ofNat c.toUInt32.toUInt8.toNat).toInt ≠ -1 := by
    have byte := c.toUInt32.toUInt8.toNat_lt
    rw [Int32.toInt_ofNat_of_lt (by omega)]
    omega
  rw [fputc, writable_some valid has]
  dsimp only
  rw [wp_bind, wp_callWrite has]
  apply wp_ite
  · intro short
    rw [wp_pure]
    exact ⟨⟨fun other => absurd rfl other, fun one => absurd one.symm short⟩, rfl⟩
  · intro one
    rw [wp_pure]
    exact ⟨⟨fun _ => (not_not.mp one).symm, fun _ => result⟩, rfl⟩

theorem wp_fputs (valid : stream.magic = stdioMagic) (has : stream.write = some write)
    (ends : 0 ∈ s.bytes) :
    wp (fputs s (some stream)) (fun r calls => ∃ n, write 0 (s.bytes.takeWhile (· ≠ 0)) = n ∧
      (r.toInt ≠ -1 ↔ n = Int64.ofNat (s.bytes.takeWhile (· ≠ 0)).length) ∧
      calls = [(s.bytes.takeWhile (· ≠ 0), n)]) bad [] := by
  have front : s.bytes.take (s.bytes.takeWhile (· ≠ 0)).length = s.bytes.takeWhile (· ≠ 0) :=
    (List.prefix_iff_eq_take.mp (List.takeWhile_prefix _)).symm
  rw [fputs, writable_some valid has, strlen_eq ends]
  dsimp only
  rw [wp_bind, wp_lift_ok, wp_bind, wp_callWrite has, front]
  apply wp_ite
  · intro short
    rw [wp_pure]
    exact ⟨_, rfl, ⟨fun other => absurd rfl other, fun whole => absurd whole short⟩, rfl⟩
  · intro whole
    rw [wp_pure]
    exact ⟨_, rfl, ⟨fun _ => not_not.mp whole, fun _ => by decide⟩, rfl⟩

theorem wp_putchar (has : stream.write = some write) :
    wp (putchar stream c) (fun r calls => (r.toInt ≠ -1 ↔ write 0 [c.toUInt32.toUInt8] = 1) ∧
      calls = [([c.toUInt32.toUInt8], write 0 [c.toUInt32.toUInt8])]) bad [] := by
  have valid : ({ stream with magic := stdioMagic } : File).magic = stdioMagic := rfl
  have checked : wp (fputc c (some { stream with magic := stdioMagic })) _ bad [] :=
    wp_fputc valid has
  rw [fputc, writable_some valid has] at checked
  exact checked

theorem wp_puts (has : stream.write = some write) (ends : 0 ∈ s.bytes) :
    wp (puts stream s) (fun r calls =>
      let text := s.bytes.takeWhile (· ≠ 0)
      (r.toInt = -1 ∧ write 0 text ≠ Int64.ofNat text.length ∧ calls = [(text, write 0 text)]) ∨
      ((r.toInt ≠ -1 ↔ write 1 [ch '\n'] = 1) ∧ write 0 text = Int64.ofNat text.length ∧
        calls = [(text, write 0 text), ([ch '\n'], write 1 [ch '\n'])])) bad [] := by
  have front : s.bytes.take (s.bytes.takeWhile (· ≠ 0)).length = s.bytes.takeWhile (· ≠ 0) :=
    (List.prefix_iff_eq_take.mp (List.takeWhile_prefix _)).symm
  rw [puts, strlen_eq ends, wp_bind, wp_lift_ok, wp_bind, wp_callWrite has, front]
  apply wp_ite
  · intro short
    exact .inl ⟨rfl, short, rfl⟩
  · intro whole
    rw [wp_bind, wp_callWrite has]
    apply wp_ite
    · intro none
      exact .inr ⟨⟨fun other => absurd rfl other, fun one => absurd one.symm none⟩,
        not_not.mp whole, rfl⟩
    · intro one
      exact .inr ⟨⟨fun _ => (not_not.mp one).symm, fun _ => by decide⟩, not_not.mp whole, rfl⟩

section Formatted

variable {n : ℕ} {out : Bytes}

theorem outcome_vfprintf (buff : Vector UInt8 64) (std : Option Std) (short : out.length < 2 ^ 31)
    (answers : ∀ k (bytes : Bytes), bytes.length < 2 ^ 63 → Answers (bytes, write k bytes)) :
    Outcome (.vfprintf buff out std) (Int32.ofNat (totalOf (callsOf 64 write out))).toInt
      (callsOf 64 write out) := by
  have flat : ((pieces (callsOf 64 write out)).map Prod.fst).flatten = out := by
    rw [pieces, List.map_map]
    exact callsOf_flatten (by decide)
  have most : (accepted (callsOf 64 write out)).length ≤ out.length := by
    have le := taken_length_le (pieces (callsOf 64 write out))
    rwa [flat] at le
  have total : totalOf (callsOf 64 write out) =
      (accepted (callsOf 64 write out)).length % 2 ^ 64 := by
    apply totalOf_eq
    intro call mem
    obtain ⟨k, _, rfl⟩ := mem_callsOf mem
    have length : (chunk 64 out k).length ≤ 64 := by
      rw [chunk_length]
      exact Nat.min_le_left ..
    exact ⟨answers k _ (by omega), lt_of_le_of_lt length (by decide)⟩
  have count : (Int32.ofNat (totalOf (callsOf 64 write out))).toInt =
      (accepted (callsOf 64 write out)).length := by
    rw [total, toInt_ofNat_mod_iff]
    omega
  have whole : (accepted (callsOf 64 write out)).length = out.length →
      accepted (callsOf 64 write out) = out := by
    intro length
    exact (taken_of_length (length.trans (congrArg List.length flat.symm))).trans flat
  constructor
  · exact most
  · intro done
    exact whole (Int.ofNat.inj (count.symm.trans done))
  · intro _ length
    exact count.trans (congrArg Nat.cast length)

end Formatted

end Calls

section Perform

variable {sysdeps : Sysdeps} {op : Output} {std : Std}

theorem Sysdeps.Answers.after (answers : sysdeps.Answers) (log : Log) :
    (sysdeps.after log).Answers :=
  ⟨fun _ => answers.stdout _, fun _ => answers.stderr _⟩

theorem writable_stdin : writable (some ((nnlcInitialize sysdeps).file .stdin)) = none := rfl

theorem perform_nowhere (sysdeps : Sysdeps) (op : Output) (nowhere : op.target = none) :
    ∃ r, op.perform (nnlcInitialize sysdeps) [] = .ok (r, []) := by
  have closed : ∀ stream : Option Std, stream.filter (· ≠ .stdin) = none →
      writable (stream.map (nnlcInitialize sysdeps).file) = none := by
    intro stream none
    cases stream with
    | none => rfl
    | some std =>
      cases std with
      | stdin => exact writable_stdin
      | stdout => cases none
      | stderr => cases none
  cases op with
  | fputc c stream =>
    rw [Output.perform, fputc, closed stream nowhere]
    exact ⟨_, rfl⟩
  | fputs s stream =>
    rw [Output.perform, fputs, closed stream nowhere]
    exact ⟨_, rfl⟩
  | putchar c => cases nowhere
  | puts s => cases nowhere
  | fwrite ptr size nmemb stream =>
    rw [Output.perform, fwrite, closed stream nowhere]
    exact ⟨_, rfl⟩
  | vfprintf buff out stream =>
    rw [Output.perform, vfprintf, closed stream nowhere]
    exact ⟨_, rfl⟩
  | write fd buf count => cases nowhere

theorem target_open {stream : Option Std} (target : stream.filter (· ≠ .stdin) = some std) :
    stream = some std ∧ std ≠ .stdin := by
  obtain ⟨same, other⟩ := Option.filter_eq_some_iff.mp target
  exact ⟨same, of_decide_eq_true other⟩

section Write

variable {fd : Int32} {buf : Object} {count : ℕ}
  (target : (Output.write fd buf count).target = some std)
include target

theorem write_open : std ≠ .stdin := by
  cases target
  split_ifs <;> exact fun same => nomatch same

theorem write_file : (if fd = 1 then some (nnlcInitialize sysdeps).libcStdout
    else some (nnlcInitialize sysdeps).libcStderr) = some ((nnlcInitialize sysdeps).file std) := by
  cases target
  split_ifs <;> rfl

end Write

end Perform

section Runs

variable {sysdeps : Sysdeps} {op : Output} {std : Std} {log : Log} {calls : Calls}
  {ops : List Output} {rs : List ℤ}

theorem callsTo_tagged {other : Std} :
    callsTo std (calls.map (Prod.mk other)) = if other = std then calls else [] := by
  unfold callsTo
  rw [List.filter_map, List.map_map]
  split_ifs with same
  · subst same
    simp [Function.comp_def]
  · simp [Function.comp_def, same]

def AllDone (std : Std) (ops : List Output) (rs : List ℤ) : Prop :=
  ∀ c ∈ ops.zip rs, c.1.target = some std → c.1.text ≠ [] → c.1.Done c.2

structure Reported (std : Std) (ops : List Output) (rs : List ℤ) (more : Bytes) : Prop where
  le : more.length ≤ (printed std ops).length
  all : AllDone std ops rs → more = printed std ops
  done : more.length = (printed std ops).length → AllDone std ops rs

theorem allDone_cons {r : ℤ} : AllDone std (op :: ops) (r :: rs) ↔
    (op.target = some std → op.text ≠ [] → op.Done r) ∧ AllDone std ops rs := by
  unfold AllDone
  rw [List.zip_cons_cons, List.forall_mem_cons]

theorem printed_cons : printed std (op :: ops) =
    (if op.target = some std then op.text else []) ++ printed std ops := by
  unfold printed
  split_ifs with here
  · rw [List.filter_cons_of_pos (by simpa using here), List.flatMap_cons]
  · rw [List.filter_cons_of_neg (by simpa using here), List.nil_append]

theorem Reported.cons {r : ℤ} {more : Bytes} (first : op.target = some std → Outcome op r calls)
    (elsewhere : op.target ≠ some std → calls = []) (rest : Reported std ops rs more) :
    Reported std (op :: ops) (r :: rs) (accepted calls ++ more) := by
  by_cases here : op.target = some std
  · have outcome := first here
    have le := outcome.le
    have le' := rest.le
    constructor
    · rw [printed_cons, if_pos here, List.length_append, List.length_append]
      omega
    · intro each
      obtain ⟨one, others⟩ := allDone_cons.mp each
      have whole : accepted calls = op.text := by
        by_cases empty : op.text = []
        · rw [empty, List.length_nil] at le
          rw [empty, List.eq_nil_of_length_eq_zero (Nat.le_zero.mp le)]
        · exact outcome.all (one here empty)
      rw [printed_cons, if_pos here, whole, rest.all others]
    · intro length
      rw [printed_cons, if_pos here, List.length_append, List.length_append] at length
      refine allDone_cons.mpr ⟨fun _ some_text => outcome.done some_text ?_, rest.done ?_⟩
      · omega
      · omega
  · rw [elsewhere here]
    have same : printed std (op :: ops) = printed std ops := by
      rw [printed_cons, if_neg here, List.nil_append]
    have nothing : accepted [] ++ more = more := List.nil_append more
    rw [nothing]
    constructor
    · rw [same]
      exact rest.le
    · intro each
      rw [same]
      exact rest.all (allDone_cons.mp each).2
    · intro length
      rw [same] at length
      exact allDone_cons.mpr ⟨fun now => absurd now here, rest.done length⟩

end Runs

section Accepts

structure Sysdeps.Accepts (sysdeps : Sysdeps) : Prop where
  stdout : ∀ k (bytes : Bytes), sysdeps.writeStdout k bytes = Int64.ofNat bytes.length
  stderr : ∀ k (bytes : Bytes), sysdeps.writeStderr k bytes = Int64.ofNat bytes.length

variable {sysdeps : Sysdeps} {op : Output} {std : Std} {stream : File} {write : Writer}
  {calls : Calls} {ptr : Object} {size nmemb : ℕ}

theorem answers_whole {bytes : Bytes} (small : bytes.length < 2 ^ 63) :
    StdioModel.Answers (bytes, Int64.ofNat bytes.length) := by
  have count := Int64.toInt_ofNat_of_lt small
  unfold StdioModel.Answers
  dsimp only
  omega

theorem Sysdeps.Accepts.answers (accepts : sysdeps.Accepts) : sysdeps.Answers := by
  constructor
  · intro k bytes small
    rw [accepts.stdout]
    exact answers_whole small
  · intro k bytes small
    rw [accepts.stderr]
    exact answers_whole small

def Whole (text : Bytes) (calls : Calls) : Prop :=
  (calls.map Prod.fst).flatten = text ∧ ∀ call ∈ calls, call.2 = Int64.ofNat call.1.length

theorem Whole.accepted {text : Bytes} (whole : Whole text calls) (small : text.length < 2 ^ 63) :
    accepted calls = text := by
  have flat : ((pieces calls).map Prod.fst).flatten = text := by
    rw [pieces, List.map_map]
    exact whole.1
  rw [StdioModel.accepted, taken_whole, flat]
  intro p mem
  obtain ⟨call, here, rfl⟩ := List.mem_map.mp mem
  have part : call.1.length ≤ text.length := by
    rw [← whole.1]
    exact (List.sublist_flatten_of_mem (List.mem_map_of_mem here)).length_le
  dsimp only
  rw [whole.2 call here, Int64.toInt_ofNat_of_lt (by omega)]
  exact Nat.le_refl _

theorem whole_single {bytes : Bytes} : Whole bytes [(bytes, Int64.ofNat bytes.length)] :=
  ⟨List.append_nil bytes, by simp⟩

theorem whole_callsOf {n : ℕ} {out : Bytes} (positive : 0 < n)
    (writes : ∀ k (bytes : Bytes), write k bytes = Int64.ofNat bytes.length) :
    Whole out (callsOf n write out) := by
  refine ⟨callsOf_flatten positive, ?_⟩
  intro call mem
  obtain ⟨k, _, rfl⟩ := mem_callsOf mem
  exact writes k _

theorem file_accepts (accepts : sysdeps.Accepts) (opened : std ≠ .stdin) :
    ∃ write, ((nnlcInitialize sysdeps).file std).write = some write ∧
      ((nnlcInitialize sysdeps).file std).magic = stdioMagic ∧
      ∀ k (bytes : Bytes), write k bytes = Int64.ofNat bytes.length := by
  cases std with
  | stdin => exact absurd rfl opened
  | stdout => exact ⟨_, rfl, rfl, accepts.stdout⟩
  | stderr => exact ⟨_, rfl, rfl, accepts.stderr⟩

theorem wp_fwrite_whole (room : nmemb * size ≤ ptr.bytes.length)
    (valid : stream.magic = stdioMagic) (has : stream.write = some write)
    (writes : ∀ k (bytes : Bytes), write k bytes = Int64.ofNat bytes.length) :
    wp (fwrite ptr size nmemb (some stream)) (fun k calls => k = nmemb ∧
      Whole (ptr.bytes.take (nmemb * size)) calls) never [] := by
  apply wp_post (wp_fwrite room valid has)
  rintro k calls ⟨le, whole, short, rfl⟩
  have last : ¬k < nmemb := by
    intro more
    have next : (k + 1) * size ≤ nmemb * size := Nat.mul_le_mul_right size more
    rw [Nat.succ_mul] at next
    have length : (callOf size write ptr.bytes k).1.length = size := by
      change (chunk size ptr.bytes k).length = size
      rw [chunk_length]
      omega
    have all := writes k (callOf size write ptr.bytes k).1
    rw [length] at all
    exact short more all
  have same : k = nmemb := by omega
  subst same
  refine ⟨rfl, ?_, ?_⟩
  · rw [itemCalls, if_neg last, List.map_map]
    exact flatten_chunks k
  · intro call mem
    rw [itemCalls, if_neg last, List.mem_map] at mem
    obtain ⟨i, _, rfl⟩ := mem
    exact writes i _

theorem wp_perform_whole (accepts : sysdeps.Accepts) (valid : op.Valid)
    (target : op.target = some std) :
    wp (op.perform (nnlcInitialize sysdeps)) (fun r calls => op.Done r ∧ Whole op.text calls)
      never [] := by
  cases op with
  | fputc c stream =>
    obtain ⟨rfl, other⟩ := target_open target
    obtain ⟨write, has, magic, writes⟩ := file_accepts accepts other
    rw [Output.perform, wp_map]
    apply wp_post (wp_fputc magic has)
    rintro r calls ⟨told, rfl⟩
    rw [writes] at told ⊢
    exact ⟨told.mpr rfl, whole_single⟩
  | fputs s stream =>
    obtain ⟨rfl, other⟩ := target_open target
    obtain ⟨write, has, magic, writes⟩ := file_accepts accepts other
    rw [Output.perform, wp_map]
    apply wp_post (wp_fputs magic has valid)
    rintro r calls ⟨n, rfl, told, rfl⟩
    rw [writes] at told ⊢
    exact ⟨told.mpr rfl, whole_single⟩
  | putchar c =>
    rw [Output.perform, wp_map]
    apply wp_post (wp_putchar rfl)
    rintro r calls ⟨told, rfl⟩
    rw [accepts.stdout] at told ⊢
    exact ⟨told.mpr rfl, whole_single⟩
  | puts s =>
    rw [Output.perform, wp_map]
    apply wp_post (wp_puts rfl valid)
    rintro r calls (⟨_, cut, _⟩ | ⟨told, _, rfl⟩)
    · exact absurd (accepts.stdout 0 _) cut
    · rw [accepts.stdout] at told ⊢
      rw [accepts.stdout]
      exact ⟨told.mpr rfl, by simp [Output.text], by simp⟩
  | fwrite ptr size nmemb stream =>
    obtain ⟨rfl, other⟩ := target_open target
    obtain ⟨write, has, magic, writes⟩ := file_accepts accepts other
    rw [Output.perform, wp_map]
    apply wp_post (wp_fwrite_whole valid magic has writes)
    rintro k calls ⟨rfl, whole⟩
    exact ⟨rfl, whole⟩
  | vfprintf buff out stream =>
    obtain ⟨rfl, other⟩ := target_open target
    obtain ⟨write, has, magic, writes⟩ := file_accepts accepts other
    have size : buff.toList.length = 64 := buff.length_toList
    have room : 0 < buff.toList.length := by
      rw [size]
      decide
    have run := vfprintf_run out room magic has
    rw [size] at run
    have whole : Whole out (callsOf 64 write out) := whole_callsOf (by decide) writes
    rw [Output.perform, wp_map, wp_never]
    refine ⟨_, _, run, ?_, whole⟩
    by_cases empty : out = []
    · subst empty
      rfl
    · apply (outcome_vfprintf buff (some std) valid ?_).done empty
      · rw [whole.accepted ?_]
        · rfl
        · exact lt_trans valid (by decide)
      · intro k bytes small
        rw [writes]
        exact answers_whole small
  | write fd buf count =>
    obtain ⟨console, room⟩ := valid
    obtain ⟨write, has, magic, writes⟩ := file_accepts accepts (write_open target)
    rw [Output.perform, wp_map, StdioModel.write, if_pos console, write_file target, wp_bind]
    have items : count * 1 ≤ buf.bytes.length := by omega
    apply wp_post (wp_fwrite_whole items magic has writes)
    rintro k calls ⟨rfl, whole⟩
    have small := buf.small
    rw [Nat.mul_one] at whole
    exact ⟨Int64.toInt_ofNat_of_lt (by omega), whole⟩

def Logged (op : Output) (more : Log) : Prop :=
  (op.target = none → more = []) ∧
    ∀ std, op.target = some std → ∃ calls, Whole op.text calls ∧ more = calls.map (Prod.mk std)

theorem Sysdeps.Accepts.after (accepts : sysdeps.Accepts) (log : Log) :
    sysdeps.after log = sysdeps := by
  have stdout : ∀ d, (fun k => sysdeps.writeStdout (d + k)) = sysdeps.writeStdout := by
    intro d
    funext k bytes
    rw [accepts.stdout, accepts.stdout]
  have stderr : ∀ d, (fun k => sysdeps.writeStderr (d + k)) = sysdeps.writeStderr := by
    intro d
    funext k bytes
    rw [accepts.stderr, accepts.stderr]
  rw [Sysdeps.after, stdout, stderr]

/-- A call does the same whatever is in the log. -/
theorem output_whole (accepts : sysdeps.Accepts) (valid : op.Valid) :
    ∃ r more, (∀ log, output sysdeps op log = .ok (r, log ++ more)) ∧ Logged op more ∧
      (op.target ≠ none → op.Done r) := by
  cases target : op.target with
  | none =>
    obtain ⟨r, run⟩ := perform_nowhere sysdeps op target
    refine ⟨r, [], ?_, ⟨fun _ => rfl, fun std here => ?_⟩, fun some => absurd rfl some⟩
    · intro log
      have ran : wp (output sysdeps op) (fun r' log' => r' = r ∧ log' = log ++ []) never log := by
        rw [output, wp_bind, wp_get, accepts.after, run, wp_bind, wp_lift_ok, target]
        exact ⟨rfl, (List.append_nil log).symm⟩
      obtain ⟨_, _, same, rfl, rfl⟩ := wp_never.mp ran
      exact same
    · rw [target] at here
      cases here
  | some std =>
    obtain ⟨r, calls, run, done, whole⟩ := wp_never.mp (wp_perform_whole accepts valid target)
    refine ⟨r, calls.map (Prod.mk std), ?_, ⟨fun none => ?_, fun std' here => ?_⟩, fun _ => done⟩
    · intro log
      have ran : wp (output sysdeps op) (fun r' log' => r' = r ∧
          log' = log ++ calls.map (Prod.mk std)) never log := by
        rw [output, wp_bind, wp_get, accepts.after, run, wp_bind, wp_lift_ok, target]
        exact ⟨rfl, rfl⟩
      obtain ⟨_, _, same, rfl, rfl⟩ := wp_never.mp ran
      exact same
    · rw [target] at none
      cases none
    · rw [target] at here
      cases here
      exact ⟨calls, whole, rfl⟩

end Accepts

end Nanolibc.StdioModel
