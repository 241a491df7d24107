import Nanolibc.Lib.FlatMemory

set_option autoImplicit false

namespace Nanolibc.MemoryModel
open Lib.Program Lib.FlatMemory

variable {ε : Type}

def memcpy (dst src n : ℕ) : Prog Memory ε ℕ := do
  loop n 0 fun i => do
    let c ← load (src + i)
    store (dst + i) c
  return dst

/-- The second loop counts the two pointers down from `dst + n` and `src + n`. -/
def memmove (dst src n : ℕ) : Prog Memory ε ℕ :=
  if dst ≤ src then memcpy dst src n
  else do
    loop n 0 fun k => do
      let c ← load (src + n - (k + 1))
      store (dst + n - (k + 1)) c
    return dst

def memset (dst : ℕ) (c : UInt8) (n : ℕ) : Prog Memory ε ℕ := do
  loop n 0 fun i => store (dst + i) c
  return dst

section Copies

variable {m t : Memory} {dst src n lo hi : ℕ} {c : UInt8} {bad : ε → Prop}

def Copied (m : Memory) (dst src lo hi : ℕ) (t : Memory) : Prop :=
  ∀ x, t.bytes x = if dst + lo ≤ x ∧ x < dst + hi then m.bytes (src + (x - dst)) else m.bytes x

theorem copied_none (m : Memory) (dst src lo : ℕ) : Copied m dst src lo lo m := by
  intro x
  rw [if_neg (by omega)]

/-- One more byte, next to those copied, that the copies so far have not overwritten. -/
theorem Copied.step {k : ℕ} (copied : Copied m dst src lo hi t) (room : dst + k < 2 ^ 64)
    (source : src + k < 2 ^ 64) (kept : src + k < dst + lo ∨ dst + hi ≤ src + k)
    {lo' hi' : ℕ} (next : ∀ x, dst + lo' ≤ x ∧ x < dst + hi' ↔
      x = dst + k ∨ dst + lo ≤ x ∧ x < dst + hi) :
    Copied m dst src lo' hi'
      (((t.read (src + k)).write (dst + k) (t.bytes ((src + k) % 2 ^ 64)))) := by
  intro x
  have old : t.bytes (src + k) = m.bytes (src + k) := by
    rw [copied, if_neg (by omega)]
  simp only [Memory.read, Memory.write, Nat.mod_eq_of_lt room, Nat.mod_eq_of_lt source, old]
  by_cases here : x = dst + k
  · subst here
    rw [Function.update_self, if_pos ((next _).mpr (.inl rfl)), Nat.add_sub_cancel_left]
  · rw [Function.update_of_ne here, copied x]
    by_cases inside : dst + lo ≤ x ∧ x < dst + hi
    · rw [if_pos inside, if_pos ((next x).mpr (.inr inside))]
    · rw [if_neg inside, if_neg]
      intro now
      exact ((next x).mp now).elim here inside

theorem wp_memcpy (room : dst + n ≤ 2 ^ 64) (source : src + n ≤ 2 ^ 64)
    (apart : dst ≤ src ∨ src + n ≤ dst) :
    wp (memcpy dst src n) (fun r t => r = dst ∧ Copied m dst src 0 n t) bad m := by
  have copying : wp (loop n 0 fun i => do
      let c ← load (src + i)
      store (dst + i) c) (fun _ t => Copied m dst src 0 (0 + n) t) bad m := by
    refine wp_loop (Copied m dst src 0) n 0 m (copied_none m dst src 0) ?_
    intro i t _ hi copied
    simp only [wp_bind, wp_load, wp_store]
    refine copied.step (by omega) (by omega) (by omega) ?_
    intro x
    omega
  simp only [memcpy, wp_bind, wp_pure]
  refine wp_post copying ?_
  intro _ t copied
  rw [Nat.zero_add] at copied
  exact ⟨trivial, copied⟩

theorem wp_memcpy_accesses :
    wp (memcpy dst src n) (fun _ t => t.reads = (span src n).reverse ++ m.reads ∧
      t.writes = (span dst n).reverse ++ m.writes) bad m := by
  have copying : wp (loop n 0 fun i => do
      let c ← load (src + i)
      store (dst + i) c) (fun _ t => t.reads = (span src (0 + n)).reverse ++ m.reads ∧
        t.writes = (span dst (0 + n)).reverse ++ m.writes) bad m := by
    refine wp_loop (fun i t => t.reads = (span src i).reverse ++ m.reads ∧
      t.writes = (span dst i).reverse ++ m.writes) n 0 m ⟨rfl, rfl⟩ ?_
    rintro i t _ _ ⟨reads, writes⟩
    simp only [wp_bind, wp_load, wp_store, Memory.read, Memory.write, reads, writes, span_succ,
      List.reverse_append, List.reverse_singleton, List.cons_append, List.nil_append, and_self]
  simp only [memcpy, wp_bind, wp_pure]
  refine wp_post copying ?_
  intro _ t logged
  rwa [Nat.zero_add] at logged

theorem wp_memcpy_logged (room : dst + n ≤ 2 ^ 64) (source : src + n ≤ 2 ^ 64)
    (apart : dst ≤ src ∨ src + n ≤ dst) :
    wp (memcpy dst src n) (fun _ t => Copied m dst src 0 n t ∧
      t.reads = (span src n).reverse ++ m.reads ∧
      t.writes = (span dst n).reverse ++ m.writes) bad m := by
  have accesses : wp (memcpy dst src n) _ bad m := wp_memcpy_accesses
  apply wp_post (wp_and (wp_memcpy room source apart) accesses)
  rintro _ t ⟨⟨_, copied⟩, logged⟩
  exact ⟨copied, logged⟩

theorem wp_memmove (room : dst + n ≤ 2 ^ 64) (source : src + n ≤ 2 ^ 64) :
    wp (memmove dst src n) (fun r t => r = dst ∧ Copied m dst src 0 n t) bad m := by
  unfold memmove
  split
  · exact wp_memcpy room source (.inl ‹_›)
  · -- downwards, so that the bytes still to be copied lie below those overwritten
    rename_i above
    let inv : ℕ → Memory → Prop := fun k t => Copied m dst src (n - k) n t
    have copying : wp (loop n 0 fun k => do
        let c ← load (src + n - (k + 1))
        store (dst + n - (k + 1)) c) (fun _ t => inv (0 + n) t) bad m := by
      refine wp_loop inv n 0 m (copied_none m dst src n) ?_
      intro k t _ hk copied
      have at_src : src + n - (k + 1) = src + (n - (k + 1)) := by omega
      have at_dst : dst + n - (k + 1) = dst + (n - (k + 1)) := by omega
      simp only [wp_bind, wp_load, wp_store, at_src, at_dst]
      refine copied.step (by omega) (by omega) (by omega) ?_
      intro x
      omega
    simp only [wp_bind, wp_pure]
    refine wp_post copying ?_
    intro _ t copied
    have all : n - (0 + n) = 0 := by omega
    simp only [inv, all] at copied
    exact ⟨trivial, copied⟩

end Copies

section Fill

variable {m : Memory} {dst n : ℕ} {c : UInt8} {bad : ε → Prop}

structure Filled (m : Memory) (dst : ℕ) (c : UInt8) (n : ℕ) (t : Memory) : Prop where
  bytes : ∀ x, t.bytes x = if x < 2 ^ 64 ∧ offset dst x < n then c else m.bytes x
  writes : t.writes = (span dst n).reverse ++ m.writes

theorem wp_memset (base : dst < 2 ^ 64) (size : n ≤ 2 ^ 64) :
    wp (memset dst c n) (fun r t => r = dst ∧ Filled m dst c n t) bad m := by
  have filling : wp (loop n 0 fun i => store (dst + i) c)
      (fun _ t => Filled m dst c (0 + n) t) bad m := by
    refine wp_loop (Filled m dst c) n 0 m ⟨fun x => ?_, rfl⟩ ?_
    · rw [if_neg (by omega)]
    · intro i t _ hi filled
      rw [wp_store]
      refine ⟨fun x => ?_, ?_⟩
      · have here : x = (dst + i) % 2 ^ 64 ↔ x < 2 ^ 64 ∧ offset dst x = i := by
          unfold offset
          omega
        simp only [Memory.write, Function.update_apply, filled.bytes x, here]
        by_cases inside : x < 2 ^ 64
        · by_cases last : offset dst x = i
          · rw [if_pos ⟨inside, last⟩, if_pos ⟨inside, by omega⟩]
          · rw [if_neg (fun h => last h.2)]
            by_cases before : offset dst x < i
            · rw [if_pos ⟨inside, before⟩, if_pos ⟨inside, by omega⟩]
            · rw [if_neg (fun h => before h.2), if_neg (by omega)]
        · rw [if_neg (by omega), if_neg (by omega), if_neg (by omega)]
      · simp only [Memory.write, filled.writes, span_succ, List.reverse_append,
          List.reverse_singleton, List.cons_append, List.nil_append]
  simp only [memset, wp_bind, wp_pure]
  refine wp_post filling ?_
  intro _ t filled
  rw [Nat.zero_add] at filled
  exact ⟨trivial, filled⟩

end Fill

/-- `memmove` stores the bytes the source had, however the two ranges overlap, changes nothing
outside the destination and returns it. -/
theorem memmove_moves (m : Memory) (dst src n : ℕ) (room : dst + n ≤ 2 ^ 64)
    (source : src + n ≤ 2 ^ 64) :
    ∃ t, (memmove dst src n : Prog Memory ε ℕ) m = .ok (dst, t) ∧
      (∀ i, i < n → t.bytes (dst + i) = m.bytes (src + i)) ∧
      ∀ x, (x < dst ∨ dst + n ≤ x) → t.bytes x = m.bytes x := by
  have moved : wp (memmove dst src n : Prog Memory ε ℕ) _ never m := wp_memmove room source
  obtain ⟨_, t, run, rfl, copied⟩ := wp_never.mp moved
  refine ⟨t, run, ?_, ?_⟩
  · intro i hi
    rw [copied, if_pos (by omega), Nat.add_sub_cancel_left]
  · intro x out
    rw [copied, if_neg (by omega)]

theorem memmove_moves_up : ∃ t,
    (memmove (2 ^ 64 - 3) (2 ^ 64 - 4) 3 : Prog Memory Unit ℕ) ⟨fun x => x.toUInt8, [], []⟩ =
      .ok (2 ^ 64 - 3, t) ∧
      (∀ i, i < 3 → t.bytes (2 ^ 64 - 3 + i) = (2 ^ 64 - 4 + i).toUInt8) ∧
      ∀ x, (x < 2 ^ 64 - 3 ∨ 2 ^ 64 - 3 + 3 ≤ x) → t.bytes x = x.toUInt8 :=
  memmove_moves _ _ _ _ (by decide) (by decide)

end Nanolibc.MemoryModel
