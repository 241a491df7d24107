import Nanolibc.MallocInvariant

set_option autoImplicit false

namespace Nanolibc.MallocModel
open Lib.Program Lib.FlatMemory MemoryModel

def reallocTo (ptr size answer : ℕ) : Sys ℕ := do
  let p ← call (realloc answer ptr size)
  setLive fun live => if p = ptr then live else addLive p size (dropLive ptr live)
  return p

def reallocAll : List (ℕ × ℕ) → ℕ → Sys ℕ
  | [], ptr => return ptr
  | (size, answer) :: calls, ptr => do
    let p ← reallocTo ptr size answer
    reallocAll calls p

def Succeed : List (ℕ × ℕ) → ℕ → System → Prop
  | [], _, _ => True
  | (size, answer) :: calls, ptr, s =>
    0 < size ∧ size + 31 < 2 ^ 64 ∧ Answers s.state answer (request size) ∧
      ∀ p t, reallocTo ptr size answer s = .ok (p, t) → p ≠ 0 ∧ Succeed calls p t

/-- The bytes that one call accesses: the header alone when the block stays; otherwise the copy
reads the old payload and writes the new one, between the accesses to the headers. -/
inductive Accesses (m t : Memory) (ptr n p size : ℕ) : Prop where
  | stays (fits : size ≤ n) (same : p = ptr) (reads : t.reads = span (ptr - 8) 8 ++ m.reads)
      (writes : t.writes = m.writes)
  | moves (grows : n < size) (reads : t.reads =
        span (ptr - 16) 8 ++ ((span ptr n).reverse ++ (span (ptr - 8) 8 ++ m.reads)))
      (writes : t.writes =
        (span p n).reverse ++ (span (p - 8) 8 ++ (span (p - 16) 8 ++ m.writes)))

structure Carried (s t : System) (ptr n p size : ℕ) : Prop where
  inv : Inv t
  live : ∃ m, (p, m) ∈ t.live ∧ size ≤ m ∧ n ≤ m
  bytes : ∀ i, i < n → t.state.memory.bytes (p + i) = s.state.memory.bytes (ptr + i)
  accesses : Accesses s.state.memory t.state.memory ptr n p size
  others : ∀ l ∈ s.live, l ≠ (ptr, n) → l ∈ t.live ∧ l.1 ≠ p ∧
    ∀ x, l.1 - 16 ≤ x → x < l.1 + l.2 → t.state.memory.bytes x = s.state.memory.bytes x

section Call

variable {state : State} {live : List (ℕ × ℕ)} {ptr n size answer p : ℕ} {s t : System}

theorem Inv.pointer_ne (inv : Inv ⟨state, live⟩) (mem : (ptr, n) ∈ live) {l : ℕ × ℕ}
    (meml : l ∈ live) (ne : l ≠ (ptr, n)) : l.1 ≠ ptr := by
  have apart := inv.apart_of_ne meml mem ne
  simp only at apart
  omega

theorem mem_dropLive (inv : Inv ⟨state, live⟩) (mem : (ptr, n) ∈ live) {l : ℕ × ℕ}
    (meml : l ∈ live) (ne : l ≠ (ptr, n)) : l ∈ dropLive ptr live := by
  have other := inv.pointer_ne mem meml ne
  exact (List.mem_eraseP_of_neg (by simpa using other)).mpr meml

theorem wp_realloc_moves (inv : Inv ⟨state, live⟩) (mem : (ptr, n) ∈ live) (grows : n < size)
    (small : size + 31 < 2 ^ 64) (given : answer ≠ 0) (room : answer + request size ≤ 2 ^ 64)
    (fresh : ∀ b ∈ state.blocks, Apart (answer, request size) b) :
    wp (realloc answer ptr size)
      (fun q t => (q ≠ ptr ∧ q ≠ 0) ∧ Accesses state.memory t.memory ptr n q size ∧
        (∀ i, i < n → t.memory.bytes (q + i) = state.memory.bytes (ptr + i)) ∧
        ∀ x, x < q - 16 ∨ q + size ≤ x → t.memory.bytes x = state.memory.bytes x) never state := by
  obtain ⟨b, there, sits⟩ := inv.layout.at mem
  obtain ⟨header, _, _⟩ := sits.block (inv.fits b there)
  have above : b.1 + 16 ≤ ptr := sits.header
  have below : ptr + n ≤ b.1 + b.2 := sits.inside
  have bound := (inv.fits b there).2
  have length : request size = size + 31 := by rw [request_eq, Nat.mod_eq_of_lt small]
  have apart := fresh b there
  rw [length] at room apart
  unfold Apart at apart
  simp only at apart
  have positive : 0 < size := by omega
  have fits : Addressable (answer, size + 31) := ⟨by omega, room⟩
  obtain ⟨_, low, high⟩ := place_inside room positive
  have at_header : getMallocBlock (place answer) = place answer - 16 :=
    getMallocBlock_eq (by omega) (by omega)
  have at_size : place answer - 16 + 8 = place answer - 8 := by omega
  obtain ⟨read, readEq⟩ : ∃ u : State,
      u = { state with memory := state.memory.readWord (ptr - 8) } := ⟨_, rfl⟩
  have outside : ∀ x, x < place answer - 16 ∨ place answer ≤ x →
      (read.placed answer size).memory.bytes x = state.memory.bytes x := by
    intro x out
    rw [placed_outside positive fits out, readEq]
    rfl
  rw [wp_realloc_sits sits (inv.fits b there) positive, if_neg (by omega), ← readEq, wp_bind,
    wp_malloc_some (by omega) given, if_pos (by omega), wp_bind, wp_onMemory]
  apply wp_post (wp_memcpy_logged (by omega) (by omega) (by omega))
  rintro _ m ⟨copied, reads, writes⟩
  have handed : b ∈ State.blocks { read.placed answer size with memory := m } := by
    rw [readEq]
    exact List.mem_cons_of_mem _ there
  rw [wp_bind, wp_free_sits sits (inv.fits b there) handed, wp_pure]
  · refine ⟨by omega, .moves grows ?_ ?_, ?_, ?_⟩
    · simp only [State.released, Memory.readWord, reads, State.placed, Memory.writeWord, readEq,
        header]
    · simp only [State.released, Memory.readWord, writes, State.placed, Memory.writeWord, readEq,
        at_header, at_size]
    · intro i hi
      change m.bytes (place answer + i) = _
      rw [copied, if_pos (by omega), Nat.add_sub_cancel_left, outside _ (by omega)]
    · intro x out
      change m.bytes x = _
      rw [copied, if_neg (by omega), outside x (by omega)]
  · -- the copy leaves the old header alone
    intro x low' high'
    change m.bytes x = _
    rw [copied, if_neg (by omega), outside x (by omega)]

theorem wp_realloc_fails (inv : Inv ⟨state, live⟩) (mem : (ptr, n) ∈ live) (grows : n < size) :
    wp (realloc 0 ptr size) (fun q _ => q = 0) (fun _ => True) state := by
  obtain ⟨b, there, sits⟩ := inv.layout.at mem
  rw [wp_realloc_sits sits (inv.fits b there) (by omega), if_neg (by omega), wp_bind,
    wp_malloc_null (by omega), wp_bind]
  apply wp_post (wp_any (fun _ _ => trivial) : wp _ (fun _ _ => True) (fun _ => True) _)
  intro _ t _
  rw [wp_bind]
  exact wp_any fun _ _ => rfl

theorem wp_reallocTo (inv : Inv s) (mem : (ptr, n) ∈ s.live) (some : 0 < size)
    (small : size + 31 < 2 ^ 64) (answers : Answers s.state answer (request size)) :
    wp (reallocTo ptr size answer) (fun p t => p ≠ 0 → Carried s t ptr n p size) never s := by
  obtain ⟨state, live⟩ := s
  simp only [reallocTo, wp_bind, wp_call, wp_setLive, wp_pure]
  by_cases fits : size ≤ n
  · obtain ⟨b, there, sits⟩ := inv.layout.at mem
    rw [wp_realloc_sits sits (inv.fits b there) some, if_pos fits, wp_pure, if_pos rfl]
    intro _
    refine ⟨inv_memory inv fun _ _ _ _ _ _ _ _ => rfl, ⟨n, mem, fits, Nat.le_refl n⟩,
      fun _ _ => rfl, .stays fits rfl rfl rfl, ?_⟩
    intro l meml ne
    exact ⟨meml, inv.pointer_ne mem meml ne, fun _ _ _ => rfl⟩
  · have kept := wp_realloc_live inv small (.inr ⟨n, mem⟩) answers
    by_cases null : answer = 0
    · subst null
      apply wp_post (wp_and kept (wp_realloc_fails inv mem (by omega)))
      rintro q t ⟨_, rfl⟩ given
      exact (given rfl).elim
    · obtain ⟨room, fresh⟩ := answers.resolve_left null
      apply wp_post (wp_and kept (wp_realloc_moves inv mem (by omega) small null room fresh))
      rintro q t ⟨inv', ⟨moved, given⟩, accesses, bytes, outside⟩ _
      rw [if_neg moved, addLive, if_neg given] at inv' ⊢
      refine ⟨inv', ⟨size, List.mem_cons_self, Nat.le_refl size, by omega⟩, bytes, accesses, ?_⟩
      intro l meml ne
      have still := mem_dropLive inv mem meml ne
      have apart : q + size + 16 ≤ l.1 ∨ l.1 + l.2 + 16 ≤ q :=
        (List.pairwise_cons.mp (inv'.layout.disjoint inv'.apart)).1 l still
      refine ⟨List.mem_cons_of_mem _ still, by omega, ?_⟩
      intro x low high
      exact outside x (by omega)

end Call

section Runs

def EachAccesses : List (ℕ × ℕ) → ℕ → System → Prop
  | [], _, _ => True
  | (size, answer) :: calls, ptr, s =>
    ∃ n p t, (ptr, n) ∈ s.live ∧ reallocTo ptr size answer s = .ok (p, t) ∧
      Accesses s.state.memory t.state.memory ptr n p size ∧ EachAccesses calls p t

def Untouched (s t : System) (l : ℕ × ℕ) : Prop :=
  l ∈ t.live ∧
    ∀ x, l.1 - 16 ≤ x → x < l.1 + l.2 → t.state.memory.bytes x = s.state.memory.bytes x

/-- The recorded size never shrinks, so no byte below the first one is lost on the way. -/
theorem reallocAll_carries : ∀ (calls : List (ℕ × ℕ)) (ptr n : ℕ) (s : System), Inv s →
    (ptr, n) ∈ s.live → Succeed calls ptr s →
    ∃ p t m, reallocAll calls ptr s = .ok (p, t) ∧ Inv t ∧ (p, m) ∈ t.live ∧
      (n ≤ m ∧ ∀ c ∈ calls, c.1 ≤ m) ∧
      (∀ i, i < n → t.state.memory.bytes (p + i) = s.state.memory.bytes (ptr + i)) ∧
      EachAccesses calls ptr s ∧ ∀ l ∈ s.live, l ≠ (ptr, n) → Untouched s t l := by
  intro calls
  induction calls with
  | nil =>
    intro ptr n s inv mem _
    exact ⟨ptr, s, n, rfl, inv, mem, ⟨Nat.le_refl n, by simp⟩, fun _ _ => rfl, trivial,
      fun l meml _ => ⟨meml, fun _ _ _ => rfl⟩⟩
  | cons c calls ih =>
    intro ptr n s inv mem succeed
    obtain ⟨size, answer⟩ := c
    obtain ⟨some, small, answers, rest⟩ := succeed
    obtain ⟨q, u, call, carried⟩ := wp_never.mp (wp_reallocTo inv mem some small answers)
    obtain ⟨given, succeed'⟩ := rest q u call
    obtain ⟨inv', ⟨k, memq, large, grown⟩, bytes, accesses, others⟩ := carried given
    obtain ⟨p, t, m, run, inv'', memp, ⟨grown', sizes⟩, bytes', each, others'⟩ :=
      ih q k u inv' memq succeed'
    refine ⟨p, t, m, ?_, inv'', memp, ⟨by omega, ?_⟩, ?_, ⟨n, q, u, mem, call, accesses, each⟩, ?_⟩
    · rw [reallocAll, run_bind call, run]
    · intro c hc
      rcases List.mem_cons.mp hc with rfl | later
      · simp only
        omega
      · exact sizes c later
    · intro i hi
      rw [bytes' i (by omega), bytes i hi]
    · intro l meml ne
      obtain ⟨still, other, same⟩ := others l meml ne
      have apart : l ≠ (q, k) := fun eq => other (congrArg Prod.fst eq)
      obtain ⟨still', same'⟩ := others' l still apart
      exact ⟨still', fun x low high => (same' x low high).trans (same x low high)⟩

end Runs

/-- Whatever the program did before, a run of successful calls of `realloc` with positive sizes
carries every byte of the block along, leaves a block with room for each of the sizes, reads
nothing but the old payload and writes nothing but the new one in each copy, and touches no other
payload or header. -/
theorem realloc_carries (m : Memory) (ops : List Op) (s : System)
    (allowed : Meets step Allowed ops (System.init m))
    (run : runAll step ops (System.init m) = .ok ((), s)) (ptr n : ℕ) (mem : (ptr, n) ∈ s.live)
    (calls : List (ℕ × ℕ)) (succeed : Succeed calls ptr s) :
    ∃ p t, reallocAll calls ptr s = .ok (p, t) ∧
      (∀ i, i < n → t.state.memory.bytes (p + i) = s.state.memory.bytes (ptr + i)) ∧
      (∃ base len, word t.state.memory.bytes (p - 16) = base ∧ (base, len) ∈ t.state.blocks ∧
        base + 16 ≤ p ∧ ∀ c ∈ calls, p + c.1 ≤ base + len) ∧
      EachAccesses calls ptr s ∧ ∀ l ∈ s.live, l ≠ (ptr, n) → Untouched s t l := by
  have inv : Inv s := wp_ok (wp_meets step_inv ops _ (inv_init m) allowed) run
  obtain ⟨p, t, k, done, inv', memp, ⟨_, sizes⟩, bytes, each, others⟩ :=
    reallocAll_carries calls ptr n s inv mem succeed
  obtain ⟨b, there, sits⟩ := inv'.layout.at memp
  have inside : p + k ≤ b.1 + b.2 := sits.inside
  refine ⟨p, t, done, bytes, ⟨b.1, b.2, sits.mem, there, sits.header, ?_⟩, each, others⟩
  intro c hc
  have := sizes c hc
  omega

def fiveBytes : System := ⟨State.placed ⟨⟨fun _ => 7, [], []⟩, [], []⟩ 4100 5, [(4128, 5)]⟩

theorem succeed_cons {size answer ptr p : ℕ} {calls : List (ℕ × ℕ)} {s t : System}
    (some : 0 < size ∧ size + 31 < 2 ^ 64) (answers : Answers s.state answer (request size))
    (call : reallocTo ptr size answer s = .ok (p, t)) (given : p ≠ 0) (rest : Succeed calls p t) :
    Succeed ((size, answer) :: calls) ptr s := by
  refine ⟨some.1, some.2, answers, ?_⟩
  intro q u call'
  rw [call] at call'
  cases call'
  exact ⟨given, rest⟩

theorem realloc_carries_three : ∃ p t, reallocAll [(3, 0), (40, 8193), (2, 0)] 4128 fiveBytes =
      .ok (p, t) ∧
      (∀ i, i < 5 → t.state.memory.bytes (p + i) = 7) ∧
      (∃ base len, word t.state.memory.bytes (p - 16) = base ∧ (base, len) ∈ t.state.blocks ∧
        base + 16 ≤ p ∧ ∀ c ∈ [(3, 0), (40, 8193), (2, 0)], p + c.1 ≤ base + len) := by
  have start : runAll step [.malloc 5 4100] (System.init ⟨fun _ => 7, [], []⟩) =
      .ok ((), fiveBytes) := rfl
  have allowed : Meets step Allowed [.malloc 5 4100] (System.init ⟨fun _ => 7, [], []⟩) :=
    ⟨⟨by decide, .inr ⟨by decide, by simp [System.init]⟩⟩, fun _ _ => trivial⟩
  have succeed : Succeed [(3, 0), (40, 8193), (2, 0)] 4128 fiveBytes := by
    refine succeed_cons (by decide) (.inl rfl) rfl (by decide) ?_
    refine succeed_cons (by decide) (.inr ⟨by decide, ?_⟩) rfl (by decide) ?_
    · intro b there
      cases List.mem_singleton.mp there
      exact .inr (by decide)
    · exact succeed_cons (by decide) (.inl rfl) rfl (by decide) trivial
  obtain ⟨p, t, done, bytes, block, _⟩ := realloc_carries _ _ fiveBytes allowed start 4128 5
    (List.mem_singleton_self _) _ succeed
  refine ⟨p, t, done, ?_, block⟩
  intro i hi
  have here : place 4100 = 4128 := by decide
  rw [bytes i hi]
  exact placed_outside (by decide) ⟨by decide, by decide⟩ (.inr (by omega))

end Nanolibc.MallocModel
