import Nanolibc.Strndup

set_option autoImplicit false

namespace Nanolibc.StringCopies
open Lib.Program Lib.FlatMemory MemoryModel MallocModel Strndup

section Model

variable {ε : Type}

/-- `while (*s) *d++ = *s++;` at `i`, and the NUL behind it. -/
def strcpyLoop (dest src : ℕ) : ℕ → ℕ → Prog Memory Stop Unit
  | 0, _ => throw .endless
  | fuel + 1, i => do
    let c ← load (src + i)
    if c ≠ 0 then do
      let c ← load (src + i)
      store (dest + i) c
      strcpyLoop dest src fuel (i + 1)
    else store (dest + i) 0

def strcpy (dest src : ℕ) : Prog Memory Stop ℕ := do
  strcpyLoop dest src (2 ^ 64) 0
  return dest

def strncpyLoop (dest src : ℕ) : ℕ → ℕ → Prog Memory ε ℕ
  | 0, i => return i
  | left + 1, i => do
    let c ← load (src + i)
    if c ≠ 0 then do
      let c ← load (src + i)
      store (dest + i) c
      strncpyLoop dest src left (i + 1)
    else return i

def strncpy (dest src n : ℕ) : Prog Memory ε ℕ := do
  let i ← strncpyLoop dest src n 0
  loop (n - i) i fun i => store (dest + i) 0
  return dest

def strdup (answer s : ℕ) : Prog State Stop ℕ := do
  let len ← inMemory (strlen s)
  let result ← relabel .fault (malloc answer ((len + 1) % 2 ^ 64))
  if result ≠ 0 then do
    let _ ← inMemory (strcpy result s)
    return result
  else return result

end Model

section Written

def charOf (m : Memory) (a i : ℕ) : UInt8 := m.bytes ((a + i) % 2 ^ 64)

def Written (m : Memory) (dest : ℕ) (g : ℕ → UInt8) (i : ℕ) (t : Memory) : Prop :=
  ∀ x < 2 ^ 64, t.bytes x = if offset dest x < i then g (offset dest x) else m.bytes x

variable {m t : Memory} {dest src i j n k : ℕ} {g : ℕ → UInt8}

theorem written_none : Written m dest g 0 m := by
  intro x _
  rw [if_neg (Nat.not_lt_zero _)]

theorem Written.read (written : Written m dest g i t) (a : ℕ) : Written m dest g i (t.read a) :=
  written

theorem Written.write (written : Written m dest g i t) (base : dest < 2 ^ 64)
    (small : i < 2 ^ 64) : Written m dest g (i + 1) (t.write (dest + i) (g i)) := by
  intro x inside
  have here : x = (dest + i) % 2 ^ 64 ↔ offset dest x = i := by
    unfold offset
    omega
  rw [Memory.write]
  dsimp only
  rw [Function.update_apply]
  by_cases last : offset dest x = i
  · rw [if_pos (here.mpr last), if_pos (by omega), last]
  · rw [if_neg (here.not.mpr last), written x inside]
    exact if_congr (by omega) rfl rfl

theorem Written.charOf (written : Written m dest g i t) :
    charOf t src j = if offset dest ((src + j) % 2 ^ 64) < i then
      g (offset dest ((src + j) % 2 ^ 64)) else charOf m src j :=
  written _ (Nat.mod_lt _ (by decide))

theorem offset_source (to_dest : dest < 2 ^ 64) (from_src : src < 2 ^ 64) (small : j < 2 ^ 64) :
    offset dest ((src + j) % 2 ^ 64) = if offset src dest ≤ j then j - offset src dest
      else j + 2 ^ 64 - offset src dest := by
  unfold offset
  split_ifs <;> omega

end Written

section Strcpy

variable {m t : Memory} {dest src k : ℕ}

/-- The copy is over before it gets to what it has written. -/
theorem wp_strcpyLoop (to_dest : dest < 2 ^ 64) (from_src : src < 2 ^ 64) (small : k < 2 ^ 64)
    (ends : Ends m src k) (apart : offset src dest = 0 ∨ k < offset src dest) :
    ∀ (fuel i : ℕ) (t : Memory), i ≤ k → k < i + fuel → Written m dest (charOf m src) i t →
      wp (strcpyLoop dest src fuel i) (fun _ u => Written m dest (charOf m src) (k + 1) u)
        never t := by
  intro fuel
  induction fuel with
  | zero =>
    intro i t low high
    omega
  | succ fuel ih =>
    intro i t low high written
    have far : offset src dest < 2 ^ 64 := Nat.mod_lt _ (by decide)
    have kept : t.bytes ((src + i) % 2 ^ 64) = charOf m src i := by
      have same : charOf t src i = _ := written.charOf
      rw [offset_source to_dest from_src (by omega), if_neg (by split_ifs <;> omega)] at same
      exact same
    rw [strcpyLoop, wp_bind, wp_load, kept]
    by_cases nul : charOf m src i = 0
    · have last : i = k := by
        by_contra other
        exact ends.before i (by omega) nul
      subst last
      rw [if_neg (not_not.mpr nul), wp_store, ← nul]
      exact (written.read _).write to_dest small
    · have before : i ≠ k := by
        rintro rfl
        exact nul ends.nul
      rw [if_pos nul, wp_bind, wp_load, wp_bind, wp_store]
      dsimp only [Memory.read]
      rw [kept]
      exact ih (i + 1) _ (by omega) (by omega)
        (((written.read _).read _).write to_dest (by omega))

/-- A copy onto the end of its own source runs after the NUL that it has overwritten. -/
theorem strcpyLoop_endless (to_dest : dest < 2 ^ 64) (from_src : src < 2 ^ 64)
    (some : 0 < offset src dest) : ∀ (fuel i : ℕ) (t : Memory),
    (∀ j < offset src dest, charOf t src j ≠ 0) → (∀ j < i, charOf t dest j ≠ 0) →
    strcpyLoop dest src fuel i t = .error .endless := by
  intro fuel
  induction fuel with
  | zero =>
    intro i t _ _
    rfl
  | succ fuel ih =>
    intro i t front behind
    have character : charOf t src i ≠ 0 := by
      by_cases first : i < offset src dest
      · exact front i first
      · have same : charOf t src i = charOf t dest (i - offset src dest) := by
          have address : (src + i) % 2 ^ 64 = (dest + (i - offset src dest)) % 2 ^ 64 := by
            unfold offset at first ⊢
            omega
          rw [charOf, address]
          rfl
        rw [same]
        exact behind _ (by omega)
    have stays : ∀ x, t.bytes x ≠ 0 →
        (((t.read (src + i)).read (src + i)).write (dest + i) (charOf t src i)).bytes x ≠ 0 := by
      intro x nonzero
      rw [Memory.write]
      dsimp only [Memory.read]
      rw [Function.update_apply]
      split_ifs
      · exact character
      · exact nonzero
    have onward : strcpyLoop dest src (fuel + 1) i t = strcpyLoop dest src fuel (i + 1)
        (((t.read (src + i)).read (src + i)).write (dest + i) (charOf t src i)) := by
      have first : load (ε := Stop) (src + i) t = .ok (charOf t src i, t.read (src + i)) := rfl
      rw [strcpyLoop, run_bind first, if_pos character]
      rfl
    rw [onward]
    apply ih
    · exact fun j less => stays _ (front j less)
    · intro j less
      by_cases last : j = i
      · subst last
        rw [charOf, Memory.write]
        dsimp only
        rw [Function.update_self]
        exact character
      · exact stays _ (behind j (by omega))

end Strcpy

/-- `strcpy` of a string of `k` characters returns exactly when the destination is the source or
does not begin in it behind its first character: otherwise it overwrites the NUL and never ends.
When it returns it has copied the string and its NUL, and changed nothing else. -/
theorem strcpy_returns_iff (m : Memory) (dest src k : ℕ) (to_dest : dest < 2 ^ 64)
    (from_src : src < 2 ^ 64) (small : k < 2 ^ 64) (ends : Ends m src k) :
    ((∃ r t, strcpy dest src m = .ok (r, t)) ↔
      offset src dest = 0 ∨ k < offset src dest) ∧
    (∀ r t, strcpy dest src m = .ok (r, t) →
      r = dest ∧ Written m dest (charOf m src) (k + 1) t) ∧
    (¬(offset src dest = 0 ∨ k < offset src dest) →
      ∀ fuel, strcpyLoop dest src fuel 0 m = .error .endless) := by
  have returns : offset src dest = 0 ∨ k < offset src dest →
      ∃ t, strcpy dest src m = .ok (dest, t) ∧ Written m dest (charOf m src) (k + 1) t := by
    intro apart
    obtain ⟨_, t, run, written⟩ := wp_never.mp (wp_strcpyLoop to_dest from_src small ends apart
      (2 ^ 64) 0 m (Nat.zero_le k) (by omega) written_none)
    exact ⟨t, run_bind run, written⟩
  have endless : ¬(offset src dest = 0 ∨ k < offset src dest) →
      ∀ fuel, strcpyLoop dest src fuel 0 m = .error .endless := by
    intro inside fuel
    apply strcpyLoop_endless to_dest from_src (by omega) fuel 0 m
    · intro j less
      exact ends.before j (by omega)
    · intro j none
      exact absurd none (Nat.not_lt_zero j)
  have apart_of : ∀ r t, strcpy dest src m = .ok (r, t) →
      offset src dest = 0 ∨ k < offset src dest := by
    intro r t run
    by_contra inside
    have stuck : strcpy dest src m = .error .endless := run_bind_error (endless inside _)
    rw [stuck] at run
    cases run
  refine ⟨⟨?_, ?_⟩, ?_, endless⟩
  · rintro ⟨r, t, run⟩
    exact apart_of r t run
  · intro apart
    obtain ⟨t, run, _⟩ := returns apart
    exact ⟨dest, t, run⟩
  · intro r t run
    obtain ⟨u, run', written⟩ := returns (apart_of r t run)
    rw [run'] at run
    cases run
    exact ⟨rfl, written⟩

theorem strcpy_returns_iff_two :
    ((∃ r t, strcpy 4097 4096 twoLetters.memory = .ok (r, t)) ↔
      offset 4096 4097 = 0 ∨ 2 < offset 4096 4097) ∧
    (∀ r t, strcpy 4097 4096 twoLetters.memory = .ok (r, t) →
      r = 4097 ∧ Written twoLetters.memory 4097 (charOf twoLetters.memory 4096) 3 t) ∧
    (¬(offset 4096 4097 = 0 ∨ 2 < offset 4096 4097) →
      ∀ fuel, strcpyLoop 4097 4096 fuel 0 twoLetters.memory = .error .endless) :=
  strcpy_returns_iff twoLetters.memory 4097 4096 2 (by decide) (by decide) (by decide)
    ⟨by decide, by decide⟩

section Strncpy

variable {m t : Memory} {dest src n k i : ℕ} {g g' : ℕ → UInt8}

structure Front (m : Memory) (src n k : ℕ) : Prop where
  le : k ≤ n
  before : ∀ j < k, charOf m src j ≠ 0
  nul : k < n → charOf m src k = 0

def padded (m : Memory) (src k i : ℕ) : UInt8 := if i < k then charOf m src i else 0

theorem Written.congr (written : Written m dest g i t) (same : ∀ j < i, g j = g' j) :
    Written m dest g' i t := by
  intro x inside
  rw [written x inside]
  by_cases copied : offset dest x < i
  · rw [if_pos copied, if_pos copied, same _ copied]
  · rw [if_neg copied, if_neg copied]

theorem Written.unique (written : Written m dest g i t) (written' : Written m dest g' i t)
    (base : dest < 2 ^ 64) (small : i ≤ 2 ^ 64) : ∀ j < i, g j = g' j := by
  intro j less
  have at_j : offset dest ((dest + j) % 2 ^ 64) = j := offset_add base (by omega)
  have inside : (dest + j) % 2 ^ 64 < 2 ^ 64 := Nat.mod_lt _ (by decide)
  have same := (written _ inside).symm.trans (written' _ inside)
  rwa [at_j, if_pos less, if_pos less] at same

theorem wp_strncpyLoop (to_dest : dest < 2 ^ 64) (small : n < 2 ^ 64) (le : k ≤ n)
    (reads : ∀ (i : ℕ) (t : Memory), i ≤ k → i < n → Written m dest g i t →
      charOf t src i = g i ∧ (g i = 0 ↔ i = k)) :
    ∀ (left i : ℕ) (t : Memory), i + left = n → i ≤ k → Written m dest g i t →
      wp (strncpyLoop (ε := Stop) dest src left i) (fun r u => r = k ∧ Written m dest g k u)
        never t := by
  intro left
  induction left with
  | zero =>
    intro i t all low written
    have last : i = k := by omega
    rw [strncpyLoop, wp_pure]
    exact ⟨last, last ▸ written⟩
  | succ left ih =>
    intro i t all low written
    obtain ⟨character, stops⟩ := reads i t low (by omega) written
    rw [strncpyLoop, wp_bind, wp_load]
    rw [charOf] at character
    rw [character]
    by_cases nul : g i = 0
    · rw [if_neg (not_not.mpr nul), wp_pure]
      have last := stops.mp nul
      exact ⟨last, last ▸ written.read _⟩
    · rw [if_pos nul, wp_bind, wp_load, wp_bind, wp_store]
      dsimp only [Memory.read]
      rw [character]
      have before : i ≠ k := fun last => nul (stops.mpr last)
      exact ih (i + 1) _ (by omega) (by omega)
        (((written.read _).read _).write to_dest (by omega))

theorem wp_pad (to_dest : dest < 2 ^ 64) (small : n < 2 ^ 64) (le : k ≤ n)
    (written : Written m dest g k t) (zero : ∀ j, k ≤ j → j < n → g j = 0) :
    wp (loop (n - k) k fun i => store (ε := Stop) (dest + i) 0) (fun _ u => Written m dest g n u)
      never t := by
  have fill : wp (loop (n - k) k fun i => store (ε := Stop) (dest + i) 0)
      (fun _ u => Written m dest g (k + (n - k)) u) never t := by
    apply wp_loop (Written m dest g) (n - k) k t written
    intro i u low high padding
    rw [wp_store, ← zero i low (by omega)]
    exact padding.write to_dest (by omega)
  rwa [Nat.add_sub_cancel' le] at fill

/-- A destination inside the source repeats the characters in front of it. -/
theorem repeats_iff {d : ℕ} (some : 0 < d) :
    (∀ j < n, charOf m src (j % d) = charOf m src j) ↔
      ∀ i, d ≤ i → i < n → charOf m src i = charOf m src (i - d) := by
  constructor
  · intro same i high less
    rw [← same i less, ← same (i - d) (by omega), Nat.mod_eq_sub_mod high]
  · intro periodic j
    induction j using Nat.strong_induction_on with
    | _ j ih =>
      intro less
      by_cases first : j < d
      · rw [Nat.mod_eq_of_lt first]
      · have high : d ≤ j := Nat.not_lt.mp first
        rw [Nat.mod_eq_sub_mod high, ih (j - d) (by omega) (by omega), periodic j high less]

theorem strncpy_apart (to_dest : dest < 2 ^ 64) (from_src : src < 2 ^ 64) (small : n < 2 ^ 64)
    (front : Front m src n k)
    (apart : offset src dest = 0 ∨ k < offset src dest ∨ n ≤ offset src dest) :
    ∃ t, strncpy (ε := Stop) dest src n m = .ok (dest, t) ∧
      Written m dest (padded m src k) n t := by
  have le := front.le
  have far : offset src dest < 2 ^ 64 := Nat.mod_lt _ (by decide)
  have reads : ∀ (i : ℕ) (t : Memory), i ≤ k → i < n → Written m dest (padded m src k) i t →
      charOf t src i = padded m src k i ∧ (padded m src k i = 0 ↔ i = k) := by
    intro i t low less written
    have kept : charOf t src i = charOf m src i := by
      rw [written.charOf, offset_source to_dest from_src (by omega),
        if_neg (by split_ifs <;> omega)]
    rw [kept, padded]
    by_cases before : i < k
    · rw [if_pos before]
      exact ⟨rfl, fun nul => absurd nul (front.before i before), fun last => by omega⟩
    · have last : i = k := by omega
      rw [if_neg before, last]
      exact ⟨front.nul (by omega), fun _ => rfl, fun _ => rfl⟩
  obtain ⟨_, u, run, rfl, written⟩ :=
    wp_never.mp (wp_strncpyLoop to_dest small le reads n 0 m (Nat.zero_add n) (Nat.zero_le _)
      written_none)
  obtain ⟨_, t, fill, padding⟩ := wp_never.mp (wp_pad to_dest small le written
    fun j high _ => if_neg (by omega))
  exact ⟨t, (run_bind run).trans (run_bind fill), padding⟩

/-- A copy to behind the first character of its own source never finds the NUL. -/
theorem strncpy_inside (to_dest : dest < 2 ^ 64) (from_src : src < 2 ^ 64) (small : n < 2 ^ 64)
    (front : Front m src n k) (some : 0 < offset src dest) (inside : offset src dest ≤ k) :
    ∃ t, strncpy (ε := Stop) dest src n m = .ok (dest, t) ∧
      Written m dest (fun j => charOf m src (j % offset src dest)) n t := by
  have far : offset src dest < 2 ^ 64 := Nat.mod_lt _ (by decide)
  have reads : ∀ (i : ℕ) (t : Memory), i ≤ n → i < n →
      Written m dest (fun j => charOf m src (j % offset src dest)) i t →
      charOf t src i = charOf m src (i % offset src dest) ∧
        (charOf m src (i % offset src dest) = 0 ↔ i = n) := by
    intro i t _ less written
    have low : i % offset src dest < k := lt_of_lt_of_le (Nat.mod_lt _ some) inside
    refine ⟨?_, fun nul => absurd nul (front.before _ low), fun last => by omega⟩
    rw [written.charOf, offset_source to_dest from_src (by omega)]
    by_cases behind : offset src dest ≤ i
    · rw [if_pos behind, if_pos (by omega), Nat.mod_eq_sub_mod behind]
    · rw [if_neg behind, if_neg (by omega), Nat.mod_eq_of_lt (Nat.not_le.mp behind)]
  obtain ⟨_, u, run, rfl, written⟩ :=
    wp_never.mp (wp_strncpyLoop to_dest small (Nat.le_refl n) reads n 0 m (Nat.zero_add n)
      (Nat.zero_le _) written_none)
  obtain ⟨_, t, fill, padding⟩ := wp_never.mp (wp_pad to_dest small (Nat.le_refl _) written
    fun j high less => by omega)
  exact ⟨t, (run_bind run).trans (run_bind fill), padding⟩

end Strncpy

/-- `strncpy` always returns, and changes nothing but the `n` bytes of the destination. They are
the characters with NULs behind them exactly when the destination is the source, or does not begin
in it behind its first character, or when the `n` characters repeat those in front of it. -/
theorem strncpy_copies_iff (m : Memory) (dest src n k : ℕ) (to_dest : dest < 2 ^ 64)
    (from_src : src < 2 ^ 64) (small : n < 2 ^ 64) (front : Front m src n k) :
    ∃ t, strncpy (ε := Stop) dest src n m = .ok (dest, t) ∧ (∃ g, Written m dest g n t) ∧
      (Written m dest (padded m src k) n t ↔ offset src dest = 0 ∨ k < offset src dest ∨
        k = n ∧ ∀ i, offset src dest ≤ i → i < n →
          charOf m src i = charOf m src (i - offset src dest)) := by
  have le := front.le
  by_cases apart : offset src dest = 0 ∨ k < offset src dest ∨ n ≤ offset src dest
  · obtain ⟨t, run, written⟩ := strncpy_apart to_dest from_src small front apart
    refine ⟨t, run, ⟨_, written⟩, iff_of_true written ?_⟩
    rcases apart with same | behind | whole
    · exact .inl same
    · exact .inr (.inl behind)
    · by_cases behind : k < offset src dest
      · exact .inr (.inl behind)
      · exact .inr (.inr ⟨by omega, fun i high less => by omega⟩)
  · have some : 0 < offset src dest := by omega
    obtain ⟨t, run, written⟩ :=
      strncpy_inside to_dest from_src small front some (by omega)
    refine ⟨t, run, ⟨_, written⟩, ?_⟩
    rw [or_iff_right (by omega), or_iff_right (by omega)]
    constructor
    · intro right
      have same := written.unique right to_dest (by omega)
      have all : k = n := by
        by_contra less
        have nul := same k (by omega)
        rw [padded, if_neg (Nat.lt_irrefl k)] at nul
        exact front.before _ (lt_of_lt_of_le (Nat.mod_lt k some) (by omega)) nul
      refine ⟨all, (repeats_iff some).mp ?_⟩
      intro j less
      rw [same j less, padded, if_pos (by omega)]
    · rintro ⟨all, periodic⟩
      apply written.congr
      intro j less
      rw [(repeats_iff some).mpr periodic j less, padded, if_pos (by omega)]

theorem strncpy_copies_iff_two :
    ∃ t, strncpy (ε := Stop) 4097 4096 2 twoLetters.memory = .ok (4097, t) ∧
      (∃ g, Written twoLetters.memory 4097 g 2 t) ∧
      (Written twoLetters.memory 4097 (padded twoLetters.memory 4096 2) 2 t ↔
        offset 4096 4097 = 0 ∨ 2 < offset 4096 4097 ∨
          2 = 2 ∧ ∀ i, offset 4096 4097 ≤ i → i < 2 →
            charOf twoLetters.memory 4096 i =
              charOf twoLetters.memory 4096 (i - offset 4096 4097)) :=
  strncpy_copies_iff twoLetters.memory 4097 4096 2 2 (by decide) (by decide) (by decide)
    ⟨by decide, by decide, by decide⟩

section Strdup

variable {s t : State} {m : Memory} {answer src k n : ℕ}

theorem wp_strlen {post : ℕ → Memory → Prop} (ends : Ends m src k) (small : k < 2 ^ 64)
    (holds : post k (scanned m src 0 k)) : wp (strlen src) post never m := by
  apply wp_mono (wp_strlenLoop (2 ^ 64) 0 m)
  · rintro r _ ⟨_, _, nul, before, rfl⟩
    have same : r = k := by
      rcases Nat.lt_trichotomy r k with less | same | more
      · exact absurd nul (ends.before r less)
      · exact same
      · exact absurd ends.nul (before k (Nat.zero_le k) more)
    exact same ▸ holds
  · intro _ endless
    exact endless k (Nat.zero_le k) (by omega) ends.nul

theorem written_copied {u : Memory} {dest : ℕ} (room : dest + k ≤ 2 ^ 64)
    (source : src + k ≤ 2 ^ 64) (copied : Copied m dest src 0 k u) :
    Written m dest (charOf m src) k u := by
  intro x inside
  have here : dest + 0 ≤ x ∧ x < dest + k ↔ offset dest x < k := by
    unfold offset
    omega
  rw [copied x]
  by_cases copy : offset dest x < k
  · have at_x : x - dest = offset dest x := by
      unfold offset at copy ⊢
      omega
    rw [if_pos (here.mpr copy), if_pos copy, charOf, Nat.mod_eq_of_lt (by omega), at_x]
  · rw [if_neg (here.not.mpr copy), if_neg copy]

def allocated (s : State) (answer src k : ℕ) : State :=
  State.placed { s with memory := scanned s.memory src 0 k } answer (k + 1)

structure Copy (s t : State) (answer src k : ℕ) : Prop where
  blocks : t.blocks = (answer, request (k + 1)) :: s.blocks
  requests : t.requests = request (k + 1) :: s.requests
  written : Written (allocated s answer src k).memory (place answer) (charOf s.memory src) (k + 1)
    t.memory

structure Whole (s : State) (answer src k : ℕ) : Prop where
  ends : Ends s.memory src k
  room : src + (k + 1) ≤ 2 ^ 64
  small : k + 1 < 2 ^ 63
  fresh : Fresh answer src (k + 1) k

theorem Whole.place (whole : Whole s answer src k) (given : answer ≠ 0) :
    answer + 16 ≤ place answer ∧ place answer + (k + 1) ≤ answer + request (k + 1) ∧
      answer + request (k + 1) ≤ 2 ^ 64 ∧
      (answer + request (k + 1) ≤ src ∨ src + (k + 1) ≤ answer) := by
  have small := whole.small
  rcases whole.fresh with null | ⟨fits, apart⟩
  · exact absurd null given
  · have asked : request (k + 1) = k + 1 + 31 := by
      rw [request_eq, Nat.mod_eq_of_lt (by omega)]
    have bound : answer + request (k + 1) ≤ 2 ^ 64 := fits.2
    unfold Apart at apart
    rw [asked] at bound apart ⊢
    obtain ⟨_, header, inside⟩ := place_inside bound (by omega)
    exact ⟨header, inside, bound, apart⟩

theorem Whole.charOf (whole : Whole s answer src k) (given : answer ≠ 0) :
    ∀ j < k + 1, charOf (allocated s answer src k).memory src j = charOf s.memory src j := by
  intro j less
  obtain ⟨header, inside, bound, apart⟩ := whole.place given
  have small := whole.small
  have room := whole.room
  have fits : Addressable (answer, k + 1 + 31) := by
    have asked : request (k + 1) = k + 1 + 31 := by
      rw [request_eq, Nat.mod_eq_of_lt (by omega)]
    rw [asked] at bound
    exact ⟨Nat.pos_of_ne_zero given, bound⟩
  rw [StringCopies.charOf, Nat.mod_eq_of_lt (by omega), allocated,
    placed_outside (by omega) fits (by omega), StringCopies.charOf, Nat.mod_eq_of_lt (by omega)]
  rfl

theorem Whole.ends_allocated (whole : Whole s answer src k) (given : answer ≠ 0) :
    Ends (allocated s answer src k).memory src k := by
  constructor
  · have nul := whole.ends.nul
    rwa [← StringCopies.charOf, ← whole.charOf given k (by omega)] at nul
  · intro j less
    have character := whole.ends.before j less
    rwa [← StringCopies.charOf, ← whole.charOf given j (by omega)] at character

theorem wp_strdup_null (whole : Whole s 0 src k) :
    wp (strdup 0 src) (fun r t => r = 0 ∧
      t = State.asked { s with memory := scanned s.memory src 0 k } (k + 1)) never s := by
  have small := whole.small
  have length : (k + 1) % 2 ^ 64 = k + 1 := Nat.mod_eq_of_lt (by omega)
  rw [strdup, wp_bind, wp_inMemory]
  apply wp_strlen whole.ends (by omega)
  rw [wp_bind, wp_relabel, length, wp_malloc_null (by omega)]
  exact ⟨rfl, rfl⟩

theorem wp_strdup (whole : Whole s answer src k) (given : answer ≠ 0) :
    wp (strdup answer src) (fun r t => r = MallocModel.place answer ∧ Copy s t answer src k)
      never s := by
  obtain ⟨header, inside, bound, apart⟩ := whole.place given
  have small := whole.small
  have room := whole.room
  have length : (k + 1) % 2 ^ 64 = k + 1 := Nat.mod_eq_of_lt (by omega)
  rw [strdup, wp_bind, wp_inMemory]
  apply wp_strlen whole.ends (by omega)
  rw [wp_bind, wp_relabel, length, wp_malloc_some (by omega) given, if_pos (by omega), wp_bind,
    wp_inMemory, strcpy, wp_bind]
  have far : offset src (MallocModel.place answer) = 0 ∨
      k < offset src (MallocModel.place answer) := by
    unfold offset
    omega
  apply wp_post (wp_strcpyLoop (by omega) (by omega) (by omega) (whole.ends_allocated given) far
    (2 ^ 64) 0 _ (Nat.zero_le k) (by omega) written_none)
  intro _ u written
  exact ⟨rfl, rfl, rfl, written.congr (whole.charOf given)⟩

theorem wp_strndup_whole (whole : Whole s answer src k) (given : answer ≠ 0) (enough : k ≤ n) :
    wp (strndup answer src n)
      (fun r t => r = MallocModel.place answer ∧ Copy s t answer src k) never s := by
  obtain ⟨header, inside, bound, apart⟩ := whole.place given
  have small := whole.small
  have room := whole.room
  have length : (k + 1) % 2 ^ 64 = k + 1 := Nat.mod_eq_of_lt (by omega)
  rw [strndup, wp_bind, wp_inMemory]
  apply wp_strlen whole.ends (by omega)
  dsimp only
  rw [if_neg (by omega), duplicate, wp_bind, wp_relabel, length, wp_malloc_some (by omega) given,
    if_pos (by omega), wp_bind, wp_inMemory]
  apply wp_post (wp_memcpy (by omega) (by omega) (by omega))
  rintro _ u ⟨_, copied⟩
  rw [wp_bind, wp_inMemory, wp_store, wp_pure]
  refine ⟨rfl, rfl, rfl, ?_⟩
  have nul : charOf s.memory src k = 0 := whole.ends.nul
  rw [← nul]
  apply Written.write _ (by omega) (by omega)
  apply (written_copied (by omega) (by omega) copied).congr
  exact fun j less => whole.charOf given j (by omega)

theorem Copy.duplicate (copy : Copy s t answer src k) (whole : Whole s answer src k)
    (given : answer ≠ 0) : Duplicate s t answer src k (MallocModel.place answer) := by
  obtain ⟨header, inside, bound, _⟩ := whole.place given
  have room := whole.room
  have bytes : ∀ i < k + 1, t.memory.bytes (MallocModel.place answer + i) =
      charOf s.memory src i := by
    intro i less
    have here : offset (MallocModel.place answer) (MallocModel.place answer + i) = i := by
      unfold offset
      omega
    rw [copy.written _ (by omega), here, if_pos less]
  refine ⟨copy.blocks, ⟨by omega, by omega⟩, ?_, ?_⟩
  · intro i less
    rw [bytes i (by omega), charOf, Nat.mod_eq_of_lt (by omega)]
  · rw [bytes k (Nat.lt_succ_self k)]
    exact whole.ends.nul

end Strdup

/-- `strdup` of a string copies it with its NUL into a block of its own, or returns NULL when there
is none, and `strndup` with a bound that is not shorter does the same to every byte and block. -/
theorem strdup_duplicates (s : State) (answer src k : ℕ) (whole : Whole s answer src k) :
    ∃ r t, strdup answer src s = .ok (r, t) ∧
      (answer = 0 → r = 0 ∧ t.blocks = s.blocks ∧ t.memory.bytes = s.memory.bytes) ∧
      (answer ≠ 0 → Duplicate s t answer src k r) ∧
      ∀ n, k ≤ n → ∃ u, strndup answer src n s = .ok (r, u) ∧ u.blocks = t.blocks ∧
        u.requests = t.requests ∧ ∀ x < 2 ^ 64, u.memory.bytes x = t.memory.bytes x := by
  have small := whole.small
  have length : (k + 1) % 2 ^ 64 = k + 1 := Nat.mod_eq_of_lt (by omega)
  by_cases null : answer = 0
  · subst null
    let t : State := State.asked { s with memory := scanned s.memory src 0 k } (k + 1)
    have plain : strdup 0 src s = .ok (0, t) := by
      obtain ⟨_, _, ran, rfl, rfl⟩ := wp_never.mp (wp_strdup_null whole)
      exact ran
    refine ⟨0, t, plain, fun _ => ⟨rfl, rfl, rfl⟩, fun some => absurd rfl some, ?_⟩
    intro n enough
    have run : wp (strndup 0 src n) (fun r u => r = 0 ∧ u = t) never s := by
      rw [strndup, wp_bind, wp_inMemory]
      apply wp_strlen whole.ends (by omega)
      dsimp only
      rw [if_neg (by omega), duplicate, wp_bind, wp_relabel, length, wp_malloc_null (by omega)]
      exact ⟨rfl, rfl⟩
    obtain ⟨_, _, ran, rfl, rfl⟩ := wp_never.mp run
    exact ⟨t, ran, rfl, rfl, fun _ _ => rfl⟩
  · obtain ⟨r, t, run, rfl, copy⟩ := wp_never.mp (wp_strdup whole null)
    refine ⟨_, t, run, fun none => absurd none null, fun _ => copy.duplicate whole null, ?_⟩
    intro n enough
    obtain ⟨_, u, run', rfl, copy'⟩ := wp_never.mp (wp_strndup_whole whole null enough)
    refine ⟨u, run', ?_, ?_, ?_⟩
    · rw [copy'.blocks, copy.blocks]
    · rw [copy'.requests, copy.requests]
    · intro x inside
      rw [copy'.written x inside, copy.written x inside]

theorem twoLetters_whole : Whole twoLetters 8193 4096 2 where
  ends := ⟨by decide, by decide⟩
  room := by decide
  small := by decide
  fresh := .inr ⟨⟨by decide, by decide⟩, .inr (by decide)⟩

theorem strdup_duplicates_two : ∃ r t, strdup 8193 4096 twoLetters = .ok (r, t) ∧
    (8193 = 0 → r = 0 ∧ t.blocks = [] ∧ t.memory.bytes = twoLetters.memory.bytes) ∧
    (8193 ≠ 0 → Duplicate twoLetters t 8193 4096 2 r) ∧
    ∀ n, 2 ≤ n → ∃ u, strndup 8193 4096 n twoLetters = .ok (r, u) ∧ u.blocks = t.blocks ∧
      u.requests = t.requests ∧ ∀ x < 2 ^ 64, u.memory.bytes x = t.memory.bytes x :=
  strdup_duplicates twoLetters 8193 4096 2 twoLetters_whole

end Nanolibc.StringCopies
