import Nanolibc.MallocInvariant

set_option autoImplicit false

namespace Nanolibc.Strndup
open Lib.Program Lib.FlatMemory MemoryModel MallocModel

inductive Stop where
  | fault (e : Fault)
  | endless

/-- `for (i = 0; *s; ++s, ++i) continue;` at `i`. After 2^64 characters it has seen every byte
there is, and goes on for ever. -/
def strlenLoop (s : ℕ) : ℕ → ℕ → Prog Memory Stop ℕ
  | 0, _ => throw .endless
  | fuel + 1, i => do
    let c ← load (s + i)
    if c ≠ 0 then strlenLoop s fuel (i + 1) else return i

def strlen (s : ℕ) : Prog Memory Stop ℕ := strlenLoop s (2 ^ 64) 0

def duplicate (answer s len : ℕ) : Prog State Stop ℕ := do
  let result ← relabel .fault (malloc answer ((len + 1) % 2 ^ 64))
  if result ≠ 0 then do
    let _ ← inMemory (memcpy result s len)
    inMemory (store (result + len) 0)
    return result
  else return result

def strndup (answer s n : ℕ) : Prog State Stop ℕ := do
  let len ← inMemory (strlen s)
  let len := if n < len then n else len
  duplicate answer s len

/-- An array of `size` bytes at `src`, with a NUL or at least `n` bytes long. An object has at most
`PTRDIFF_MAX` bytes. -/
structure Source (m : Memory) (src size n : ℕ) : Prop where
  room : src + size ≤ 2 ^ 64
  small : size < 2 ^ 63
  enough : n ≤ size ∨ ∃ i, i < size ∧ m.bytes (src + i) = 0

def bounded (m : Memory) (src n : ℕ) : ℕ :=
  (List.range n).findIdx fun i => m.bytes (src + i) = 0

structure Duplicate (s t : State) (answer src len r : ℕ) : Prop where
  blocks : t.blocks = (answer, request (len + 1)) :: s.blocks
  inside : answer ≤ r ∧ r + len < answer + request (len + 1)
  bytes : ∀ i, i < len → t.memory.bytes (r + i) = s.memory.bytes (src + i)
  nul : t.memory.bytes (r + len) = 0

/-- Nothing is read but the bytes up to the first NUL, at most `n` of them, and if the runtime
answers they are duplicated. -/
def Duplicates (s : State) (answer src n : ℕ) : Prop :=
  ∃ r t, strndup answer src n s = .ok (r, t) ∧
    (∃ reads, t.memory.reads = reads ++ s.memory.reads ∧
      ∀ x ∈ reads, src ≤ x ∧ x < src + min n (bounded s.memory src n + 1)) ∧
    (answer ≠ 0 → Duplicate s t answer src (bounded s.memory src n) r)

section Strlen

variable {m : Memory} {src n k : ℕ} {bad : Stop → Prop}

def scanned (m : Memory) (src i k : ℕ) : Memory :=
  { m with
      reads := ((List.range' i (k + 1 - i)).map fun j => (src + j) % 2 ^ 64).reverse ++ m.reads }

/-- The loop ends at the first NUL, and never where there is none. -/
theorem wp_strlenLoop : ∀ (fuel i : ℕ) (m : Memory),
    wp (strlenLoop src fuel i)
      (fun r t => i ≤ r ∧ r < i + fuel ∧ m.bytes ((src + r) % 2 ^ 64) = 0 ∧
        (∀ j, i ≤ j → j < r → m.bytes ((src + j) % 2 ^ 64) ≠ 0) ∧ t = scanned m src i r)
      (fun _ => ∀ j, i ≤ j → j < i + fuel → m.bytes ((src + j) % 2 ^ 64) ≠ 0) m := by
  intro fuel
  induction fuel with
  | zero =>
    intro i m
    rw [strlenLoop, wp_throw]
    intro j _ _
    omega
  | succ fuel ih =>
    intro i m
    rw [strlenLoop, wp_bind, wp_load]
    by_cases nul : m.bytes ((src + i) % 2 ^ 64) = 0
    · rw [if_neg (not_not.mpr nul), wp_pure]
      refine ⟨Nat.le_refl _, by omega, nul, fun j _ _ => by omega, ?_⟩
      have one : i + 1 - i = 1 := by omega
      rw [scanned, one]
      rfl
    · rw [if_pos nul]
      apply wp_mono (ih (i + 1) (m.read (src + i)))
      · rintro r t ⟨low, high, zero, before, rfl⟩
        refine ⟨by omega, by omega, zero, ?_, ?_⟩
        · intro j low' high'
          by_cases here : j = i
          · subst here
            exact nul
          · exact before j (by omega) high'
        · have more : r + 1 - i = (r + 1 - (i + 1)) + 1 := by omega
          rw [scanned, scanned, more, List.range'_succ]
          simp [Memory.read]
      · intro _ never_ j low high
        by_cases here : j = i
        · subst here
          exact nul
        · exact never_ j (by omega) (by omega)

theorem mem_scanned {i x : ℕ} (reads : List ℕ)
    (h : (scanned m src i k).reads = reads ++ m.reads) :
    x ∈ reads ↔ ∃ j, i ≤ j ∧ j ≤ k ∧ x = (src + j) % 2 ^ 64 := by
  have log := List.append_cancel_right h
  rw [← log, List.mem_reverse, List.mem_map]
  constructor
  · rintro ⟨j, hj, rfl⟩
    rw [List.mem_range'_1] at hj
    exact ⟨j, by omega, by omega, rfl⟩
  · rintro ⟨j, low, high, rfl⟩
    exact ⟨j, List.mem_range'_1.mpr (by omega), rfl⟩

theorem bounded_le : bounded m src n ≤ n := by
  have le : bounded m src n ≤ (List.range n).length := List.findIdx_le_length
  rwa [List.length_range] at le

theorem bounded_before {i : ℕ} (before : i < bounded m src n) : m.bytes (src + i) ≠ 0 := by
  have not := List.not_of_lt_findIdx before
  simpa using not

theorem bounded_nul (inside : bounded m src n < n) : m.bytes (src + bounded m src n) = 0 := by
  unfold bounded at inside ⊢
  have found : (List.range n).findIdx (fun i => m.bytes (src + i) = 0) < (List.range n).length := by
    rwa [List.length_range]
  have nul := List.findIdx_getElem (w := found)
  rw [List.getElem_range, decide_eq_true_eq] at nul
  exact nul

theorem bounded_lt_iff : bounded m src n < n ↔ ∃ i, i < n ∧ m.bytes (src + i) = 0 := by
  constructor
  · intro inside
    exact ⟨_, inside, bounded_nul inside⟩
  · rintro ⟨i, small, nul⟩
    by_contra far
    exact bounded_before (by omega : i < bounded m src n) nul

end Strlen

section Copy

variable {s : State} {m : Memory} {answer src size n len : ℕ} {bad : Stop → Prop}

def Fresh (answer src size len : ℕ) : Prop :=
  answer = 0 ∨
    Addressable (answer, request (len + 1)) ∧ Apart (answer, request (len + 1)) (src, size)

theorem wp_duplicate (room : src + size ≤ 2 ^ 64) (small : size < 2 ^ 63) (within : len ≤ size)
    (fresh : Fresh answer src size len) :
    wp (duplicate answer src len)
      (fun r t => (∃ reads, t.memory.reads = reads ++ s.memory.reads ∧
          ∀ x ∈ reads, src ≤ x ∧ x < src + len) ∧
        (answer ≠ 0 → Duplicate s t answer src len r)) bad s := by
  have positive : len + 1 ≠ 0 := by omega
  have length : (len + 1) % 2 ^ 64 = len + 1 := Nat.mod_eq_of_lt (by omega)
  rw [duplicate, wp_bind, wp_relabel, length]
  rcases fresh with rfl | ⟨fits, apart⟩
  · rw [wp_malloc_null positive]
    exact ⟨⟨[], rfl, by simp⟩, fun given => (given rfl).elim⟩
  · have given : answer ≠ 0 := Nat.ne_of_gt fits.1
    have asked : request (len + 1) = len + 1 + 31 := by rw [request_eq, Nat.mod_eq_of_lt (by omega)]
    rw [asked] at fits apart
    have bound : answer + (len + 1 + 31) ≤ 2 ^ 64 := fits.2
    obtain ⟨_, header, inside⟩ := place_inside bound (by omega)
    unfold Apart at apart
    simp only at apart
    -- the header lies in the new block, so the source is as it was
    have kept : ∀ i, i < len → (s.placed answer (len + 1)).memory.bytes (src + i) =
        s.memory.bytes (src + i) := by
      intro i hi
      exact placed_outside (by omega) fits (by omega)
    rw [wp_malloc_some positive given, if_pos (by omega)]
    simp only [wp_bind, wp_inMemory]
    apply wp_post (wp_memcpy_logged (by omega) (by omega) (by omega))
    rintro _ t ⟨copied, reads, _⟩
    have last : (place answer + len) % 2 ^ 64 = place answer + len := Nat.mod_eq_of_lt (by omega)
    refine ⟨⟨(span src len).reverse, reads, ?_⟩, fun _ => ⟨rfl, by omega, ?_, ?_⟩⟩
    · intro x hx
      exact (mem_span (by omega)).mp (List.mem_reverse.mp hx)
    · intro i hi
      simp only [Memory.write, last]
      rw [Function.update_of_ne (by omega), copied, if_pos (by omega), Nat.add_sub_cancel_left,
        kept i hi]
    · simp only [Memory.write, last]
      rw [Function.update_self]

end Copy

section Runs

variable {s : State} {m : Memory} {answer src size n k : ℕ}

structure Ends (m : Memory) (src k : ℕ) : Prop where
  nul : m.bytes ((src + k) % 2 ^ 64) = 0
  before : ∀ j, j < k → m.bytes ((src + j) % 2 ^ 64) ≠ 0

theorem Source.bounded_le (source : Source m src size n) : bounded m src n ≤ size := by
  have le : bounded m src n ≤ n := Strndup.bounded_le
  rcases source.enough with long | ⟨i, inside, nul⟩
  · omega
  · by_contra far
    exact bounded_before (by omega : i < bounded m src n) nul

theorem Source.bounded_lt (source : Source m src size n) (terminated : bounded m src n < n) :
    bounded m src n < size := by
  rcases source.enough with long | ⟨i, inside, nul⟩
  · omega
  · by_contra far
    exact bounded_before (by omega : i < bounded m src n) nul

theorem Source.address (source : Source m src size n) {i : ℕ} (inside : i < size) :
    (src + i) % 2 ^ 64 = src + i := by
  have := source.room
  exact Nat.mod_eq_of_lt (by omega)

/-- Whatever comes behind the array, the bytes duplicated are the bounded ones. -/
theorem bounded_eq (source : Source m src size n) (ends : Ends m src k) :
    (if n < k then n else k) = bounded m src n := by
  have le : bounded m src n ≤ n := bounded_le
  have inside := source.bounded_le
  have reached : ¬k < bounded m src n := by
    intro early
    have nul := ends.nul
    rw [source.address (by omega)] at nul
    exact bounded_before early nul
  by_cases terminated : bounded m src n < n
  · have nul := bounded_nul terminated
    rw [← source.address (source.bounded_lt terminated)] at nul
    have same : ¬bounded m src n < k := fun late => ends.before _ late nul
    rw [if_neg (by omega)]
    omega
  · split_ifs <;> omega

theorem wp_strndup (source : Source s.memory src size n)
    (fresh : Fresh answer src size (bounded s.memory src n)) :
    wp (strndup answer src n)
      (fun r t => ∃ k, Ends s.memory src k ∧
        (∃ reads, t.memory.reads = reads ++ (scanned s.memory src 0 k).reads ∧
          ∀ x ∈ reads, src ≤ x ∧ x < src + bounded s.memory src n) ∧
        (answer ≠ 0 → Duplicate s t answer src (bounded s.memory src n) r))
      (fun _ => ∀ j, j < 2 ^ 64 → s.memory.bytes ((src + j) % 2 ^ 64) ≠ 0) s := by
  rw [strndup, wp_bind, wp_inMemory, strlen]
  apply wp_mono (wp_strlenLoop (2 ^ 64) 0 s.memory)
  · rintro k _ ⟨_, _, nul, before, rfl⟩
    have ends : Ends s.memory src k := ⟨nul, fun j hj => before j (Nat.zero_le j) hj⟩
    simp only [bounded_eq source ends]
    apply wp_post (wp_duplicate source.room source.small source.bounded_le fresh)
    rintro r t ⟨reads, copied⟩
    refine ⟨k, ends, reads, ?_⟩
    intro given
    obtain ⟨blocks, inside, bytes, end_⟩ := copied given
    exact ⟨blocks, inside, bytes, end_⟩
  · intro _ endless j hj
    exact endless j (Nat.zero_le j) (by omega)

theorem duplicates_of_nul (source : Source s.memory src size n)
    (fresh : Fresh answer src size (bounded s.memory src n))
    (terminated : bounded s.memory src n < n) : Duplicates s answer src n := by
  have inside := source.bounded_lt terminated
  have nul := bounded_nul terminated
  rw [← source.address inside] at nul
  have small := source.small
  have room := source.room
  have total : wp (strndup answer src n) _ never s :=
    wp_mono (wp_strndup source fresh) (fun _ _ post => post)
      (fun _ endless => endless _ (by omega) nul)
  obtain ⟨r, t, run, k, ends, ⟨reads, log, low⟩, copied⟩ := wp_never.mp total
  have stop : k ≤ bounded s.memory src n := by
    by_contra late
    exact ends.before _ (by omega) nul
  obtain ⟨scan, all⟩ : ∃ scan, (scanned s.memory src 0 k).reads = scan ++ s.memory.reads :=
    ⟨_, rfl⟩
  refine ⟨r, t, run, ⟨reads ++ scan, by rw [log, all, List.append_assoc], ?_⟩, copied⟩
  intro x hx
  rcases List.mem_append.mp hx with copy | scan_
  · have := low x copy
    omega
  · obtain ⟨j, _, le, rfl⟩ := (mem_scanned scan all).mp scan_
    rw [source.address (by omega)]
    omega

theorem not_duplicates (source : Source s.memory src size n)
    (fresh : Fresh answer src size (bounded s.memory src n))
    (open_ : ¬bounded s.memory src n < n) : ¬Duplicates s answer src n := by
  rintro ⟨r, t, run, ⟨reads, log, low⟩, _⟩
  obtain ⟨k, ends, ⟨copy, log', _⟩, _⟩ := wp_ok (wp_strndup source fresh) run
  have le := source.bounded_le
  have small := source.small
  have room := source.room
  have all : bounded s.memory src n = n := by
    have : bounded s.memory src n ≤ n := bounded_le
    omega
  have reached : n ≤ k := by
    by_contra early
    have nul := ends.nul
    rw [source.address (by omega)] at nul
    exact bounded_before (by omega : k < bounded s.memory src n) nul
  obtain ⟨scan, split⟩ : ∃ scan, (scanned s.memory src 0 k).reads = scan ++ s.memory.reads :=
    ⟨_, rfl⟩
  have beyond : (src + n) % 2 ^ 64 ∈ scan :=
    (mem_scanned scan split).mpr ⟨n, by omega, reached, rfl⟩
  rw [log', split, ← List.append_assoc] at log
  have same := List.append_cancel_right log
  have read := low _ (same ▸ List.mem_append_right copy beyond)
  omega

end Runs

/-- `strndup` keeps to the bytes it may read, and duplicates them, exactly when there is a NUL
among the first `n` bytes: otherwise it looks for one behind them. -/
theorem strndup_iff (s : State) (answer src size n : ℕ) (source : Source s.memory src size n)
    (fresh : Fresh answer src size (bounded s.memory src n)) :
    Duplicates s answer src n ↔ ∃ i, i < n ∧ s.memory.bytes (src + i) = 0 := by
  rw [← bounded_lt_iff]
  constructor
  · intro duplicates
    by_contra open_
    exact not_duplicates source fresh open_ duplicates
  · exact duplicates_of_nul source fresh

def twoLetters : State := ⟨⟨fun x => if x = 4098 then 0 else 65, [], []⟩, [], []⟩

theorem strndup_iff_two : Duplicates twoLetters 8193 4096 5 ↔
    ∃ i, i < 5 ∧ twoLetters.memory.bytes (4096 + i) = 0 :=
  strndup_iff twoLetters 8193 4096 3 5 ⟨by decide, by decide, .inr ⟨2, by decide, by decide⟩⟩
    (.inr ⟨⟨by decide, by decide⟩, .inr (by decide)⟩)

/-- The array is the two letters without the NUL. -/
theorem strndup_overreads : ¬Duplicates twoLetters 8193 4096 2 := by
  have array : Source twoLetters.memory 4096 2 2 := ⟨by decide, by decide, .inl (by decide)⟩
  exact not_duplicates array (.inr ⟨⟨by decide, by decide⟩, .inr (by decide)⟩) (by decide)

end Nanolibc.Strndup
