import Nanolibc.MallocCalls

set_option autoImplicit false

namespace Nanolibc.MallocModel
open Lib.Program Lib.FlatMemory MemoryModel

section Request

variable {size : ℕ}

/-- The header and the payload at `p` lie inside the `len` bytes from `mem` on, addresses being
modulo 2^64 as the code computes them; the second part is the same without a wrap. -/
def Covers (mem len p size : ℕ) : Prop :=
  offset mem (getMallocBlock p) + (16 + size) ≤ len ∧
    (mem + len ≤ 2 ^ 64 → mem ≤ p - 16 ∧ 16 ≤ p ∧ p + size ≤ mem + len)

def RequestCovers (size : ℕ) : Prop :=
  ∀ (s : State) (mem : ℕ), mem < 2 ^ 64 → ∃ p t len, malloc mem size s = .ok (p, t) ∧
    t.requests = len :: s.requests ∧ 0 < len ∧ (p ≠ 0 → Covers mem len p size)

theorem malloc_asks (s : State) (mem : ℕ) (some : size ≠ 0) :
    ∃ t, malloc mem size s = .ok (if mem = 0 then 0 else place mem, t) ∧
      t.requests = request size :: s.requests := by
  by_cases null : mem = 0
  · subst null
    have run : wp (malloc 0 size) (fun p t => p = 0 ∧ t = s.asked size) never s := by
      rw [wp_malloc_null some]
      exact ⟨rfl, rfl⟩
    obtain ⟨_, _, done, rfl, rfl⟩ := wp_never.mp run
    exact ⟨_, done, rfl⟩
  · have run : wp (malloc mem size) (fun p t => p = place mem ∧ t = s.placed mem size) never
        s := by
      rw [wp_malloc_some some null]
      exact ⟨rfl, rfl⟩
    obtain ⟨_, _, done, rfl, rfl⟩ := wp_never.mp run
    rw [if_neg null]
    exact ⟨_, done, rfl⟩

theorem request_covers (some : 0 < size) (small : size + 31 < 2 ^ 64) : RequestCovers size := by
  intro s mem hmem
  obtain ⟨t, run, asked⟩ := malloc_asks s mem (by omega : size ≠ 0)
  have length : request size = size + 31 := by rw [request_eq, Nat.mod_eq_of_lt small]
  refine ⟨_, t, request size, run, asked, by omega, ?_⟩
  intro placed
  by_cases null : mem = 0
  · rw [if_pos null] at placed
    exact (placed rfl).elim
  · rw [if_neg null, length]
    refine ⟨?_, ?_⟩
    · rw [place_eq]
      unfold offset getMallocBlock
      omega
    · intro room
      obtain ⟨_, header, inside⟩ := place_inside room some
      omega

/-- From 2^64 - 31 on the length wraps and is too short. -/
theorem request_short (low : 2 ^ 64 ≤ size + 31) (high : size < 2 ^ 64) : ¬RequestCovers size := by
  intro covers
  let s : State := ⟨⟨fun _ => 0, [], []⟩, [], []⟩
  obtain ⟨p, t, len, run, asked, _, covered⟩ := covers s 4096 (by decide)
  obtain ⟨u, run', asked'⟩ := malloc_asks s 4096 (by omega : size ≠ 0)
  rw [run] at run'
  cases run'
  rw [asked] at asked'
  obtain ⟨rfl, _⟩ := List.cons.inj asked'
  have placed : place 4096 = 4112 := by decide
  have length := (covered (by simp [placed])).1
  rw [request_eq] at length
  omega

end Request

/-- A request covers its payload exactly when its length does not wrap. -/
theorem malloc_covers_iff (size : ℕ) (some : 0 < size) (representable : size < 2 ^ 64) :
    RequestCovers size ↔ size + 31 < 2 ^ 64 := by
  constructor
  · intro covers
    by_contra wraps
    exact request_short (by omega) representable covers
  · exact request_covers some

theorem malloc_covers_iff_page : RequestCovers 4096 ↔ 4096 + 31 < 2 ^ 64 :=
  malloc_covers_iff 4096 (by decide) (by decide)

/-- `malloc(SIZE_MAX - 30)` asks the runtime for no byte at all. -/
theorem malloc_asks_nothing : request (2 ^ 64 - 31) = 0 ∧ ¬RequestCovers (2 ^ 64 - 31) :=
  ⟨by decide, request_short (by decide) (by decide)⟩

section Calloc

variable {s : State} {answer num size : ℕ}

/-- Either the allocation fails, and then `calloc` returns NULL and writes nothing, or the first
`num * size` bytes of what it returns are in the runtime's block, they are zero, and the zeroing
changes no other byte. -/
def ZeroedOrNull (s : State) (answer num size : ℕ) : Prop :=
  ∃ r t, calloc answer num size s = .ok (r, t) ∧
    ((2 ^ 64 ≤ num * size ∨ ∃ u, malloc answer (num * size) s = .ok (0, u)) →
      r = 0 ∧ t.memory.bytes = s.memory.bytes ∧ t.memory.writes = s.memory.writes) ∧
    ∀ p u, num * size < 2 ^ 64 → p ≠ 0 → malloc answer (num * size) s = .ok (p, u) →
      r = p ∧
        (∃ len, t.requests = len :: s.requests ∧
          offset (answer % 2 ^ 64) p + num * size ≤ len) ∧
        (∀ i, i < num * size → t.memory.bytes ((p + i) % 2 ^ 64) = 0) ∧
        ∀ x, (∀ i, i < num * size → x ≠ (p + i) % 2 ^ 64) → t.memory.bytes x = u.memory.bytes x

theorem wrapped_iff (num : ℕ) (some : size ≠ 0) :
    num ≠ num * size % 2 ^ 64 / size ↔ 2 ^ 64 ≤ num * size := by
  constructor
  · intro differs
    by_contra small
    rw [Nat.mod_eq_of_lt (by omega), Nat.mul_div_cancel _ (by omega)] at differs
    exact differs rfl
  · intro big same
    have below : num * size % 2 ^ 64 < num * size :=
      Nat.lt_of_lt_of_le (Nat.mod_lt _ (by decide)) big
    have := (Nat.div_lt_iff_lt_mul (by omega)).mpr below
    omega

theorem calloc_accepted (answer : ℕ) (some : size ≠ 0) (representable : num * size < 2 ^ 64) :
    calloc answer num size = do
      let buf ← malloc answer (num * size)
      let _ ← onMemory (memset buf 0 (num * size))
      return buf := by
  have accepted : ¬(size = 0 ∨ num ≠ num * size % 2 ^ 64 / size) := by
    rw [wrapped_iff num some]
    omega
  unfold calloc
  simp only
  rw [if_neg accepted, Nat.mod_eq_of_lt representable]

/-- `memset` runs on whatever `malloc` returned. -/
theorem wp_calloc_fill {p : ℕ} {u : State} (representable : num * size < 2 ^ 64)
    (some : size ≠ 0) (run : malloc answer (num * size) s = .ok (p, u)) (address : p < 2 ^ 64) :
    wp (calloc answer num size)
      (fun r t => r = p ∧ t.requests = u.requests ∧ Filled u.memory p 0 (num * size) t.memory)
      never s := by
  have allocated : wp (malloc answer (num * size)) (fun q t => q = p ∧ t = u) never s := by
    rw [wp_never]
    exact ⟨p, u, run, rfl, rfl⟩
  rw [calloc_accepted answer some representable, wp_bind]
  apply wp_post allocated
  rintro _ _ ⟨rfl, rfl⟩
  rw [wp_bind, wp_onMemory]
  apply wp_post (wp_memset address (by omega))
  rintro _ m ⟨_, filled⟩
  exact ⟨rfl, rfl, filled⟩

theorem payload_inside_iff {len : ℕ} (mem : ℕ) (small : len < 2 ^ 64) :
    offset (mem % 2 ^ 64) (place mem) + len ≤ request len ↔ len + 31 < 2 ^ 64 := by
  have near : offset (mem % 2 ^ 64) (place mem) ≤ 31 := by
    rw [place_eq]
    unfold offset
    omega
  rw [request_eq]
  constructor
  · intro inside
    by_contra wraps
    omega
  · intro covered
    rw [Nat.mod_eq_of_lt covered]
    omega

theorem place_lt (mem : ℕ) : place mem < 2 ^ 64 := by
  rw [place_eq]
  have := Nat.mod_lt (mem + 31) (by decide : 0 < 2 ^ 64)
  omega

theorem calloc_refuses (answer : ℕ) (refused : num * size = 0 ∨ 2 ^ 64 ≤ num * size) :
    calloc answer num size = pure 0 := by
  by_cases zero : size = 0
  · rw [calloc, if_pos (.inl zero)]
  · rcases refused with empty | wraps
    · rw [calloc_accepted answer zero (by omega), empty]
      rfl
    · rw [calloc, if_pos (.inr ((wrapped_iff num zero).mpr wraps))]

/-- An allocation that fails is zeroed all the same. -/
theorem not_zeroed (positive : 0 < num * size) (representable : num * size < 2 ^ 64)
    (fails : answer = 0 ∨ place answer = 0) : ¬ZeroedOrNull s answer num size := by
  rintro ⟨r, t, run, failing, _⟩
  have some : size ≠ 0 := by
    rintro rfl
    simp at positive
  obtain ⟨u, done, _⟩ := malloc_asks s answer (by omega : num * size ≠ 0)
  have null : (if answer = 0 then 0 else place answer) = 0 := by
    split
    · rfl
    · exact fails.resolve_left ‹_›
  rw [null] at done
  obtain ⟨_, _, same⟩ := failing (.inr ⟨u, done⟩)
  obtain ⟨_, _, filled⟩ := wp_ok (wp_calloc_fill representable some done (by decide)) run
  have kept : s.memory.writes.length ≤ u.memory.writes.length := by
    by_cases zero : answer = 0
    · have asked : wp (malloc answer (num * size)) (fun _ t => t = s.asked (num * size))
          never s := by
        rw [zero, wp_malloc_null (by omega)]
      rw [wp_ok asked done]
      exact Nat.le_refl _
    · have placed : wp (malloc answer (num * size))
          (fun _ t => t = s.placed answer (num * size)) never s := by
        rw [wp_malloc_some (by omega) zero]
      rw [wp_ok placed done]
      simp only [State.placed, Memory.writeWord, List.length_append]
      omega
  have length := congrArg List.length filled.writes
  rw [same, List.length_append, List.length_reverse, span, List.length_map, List.length_range]
    at length
  omega

theorem zeroed_refused (refused : num * size = 0 ∨ 2 ^ 64 ≤ num * size) :
    ZeroedOrNull s answer num size := by
  refine ⟨0, s, by rw [calloc_refuses answer refused]; rfl, fun _ => ⟨rfl, rfl, rfl⟩, ?_⟩
  intro p u small some run
  rw [refused.resolve_right (by omega), malloc_zero] at run
  cases run
  exact (some rfl).elim

theorem zeroed_placed_iff (positive : num * size ≠ 0) (representable : num * size < 2 ^ 64)
    (given : answer ≠ 0) (placed : place answer ≠ 0) :
    ZeroedOrNull s answer num size ↔ num * size + 31 < 2 ^ 64 := by
  have some : size ≠ 0 := by
    rintro rfl
    exact positive (Nat.mul_zero num)
  obtain ⟨u, done, asked⟩ := malloc_asks s answer positive
  rw [if_neg given] at done
  obtain ⟨_, t, run, rfl, requests, filled⟩ :=
    wp_never.mp (wp_calloc_fill representable some done (place_lt answer))
  rw [asked] at requests
  rw [← payload_inside_iff answer representable]
  constructor
  · rintro ⟨r, t', run', _, zeroed⟩
    rw [run] at run'
    cases run'
    obtain ⟨_, ⟨len, first, inside⟩, _⟩ := zeroed _ _ representable placed done
    rw [requests] at first
    obtain ⟨rfl, _⟩ := List.cons.inj first
    exact inside
  intro inside
  refine ⟨place answer, t, run, ?_, ?_⟩
  · rintro (wraps | ⟨v, failed⟩)
    · omega
    · have same := Except.ok.inj (done.symm.trans failed)
      exact (placed (congrArg Prod.fst same)).elim
  · intro p v _ _ run'
    rw [done] at run'
    cases run'
    have address := place_lt answer
    refine ⟨rfl, ⟨_, requests, inside⟩, ?_, ?_⟩
    · intro i hi
      rw [filled.bytes, if_pos]
      unfold offset
      omega
    · intro x out
      rw [filled.bytes, if_neg]
      rintro ⟨small, near⟩
      apply out (offset (place answer) x) near
      unfold offset
      omega

end Calloc

/-- `calloc` zeroes or returns NULL untouched exactly when it need not allocate, or the allocation
succeeds and is not one whose length has wrapped. -/
theorem calloc_zeroes_iff (s : State) (answer num size : ℕ) :
    ZeroedOrNull s answer num size ↔ num * size = 0 ∨ 2 ^ 64 ≤ num * size ∨
      num * size + 31 < 2 ^ 64 ∧ answer ≠ 0 ∧ place answer ≠ 0 := by
  by_cases refused : num * size = 0 ∨ 2 ^ 64 ≤ num * size
  · exact iff_of_true (zeroed_refused refused) (or_assoc.mp (.inl refused))
  · rw [← or_assoc, or_iff_right refused]
    simp only [not_or, Nat.not_le] at refused
    obtain ⟨some, representable⟩ := refused
    by_cases succeeds : answer ≠ 0 ∧ place answer ≠ 0
    · rw [and_iff_left succeeds]
      exact zeroed_placed_iff some representable succeeds.1 succeeds.2
    · have fails : answer = 0 ∨ place answer = 0 :=
        (not_and_or.mp succeeds).imp not_not.mp not_not.mp
      exact iff_of_false (not_zeroed (by omega) representable fails) fun all => succeeds all.2

/-- `calloc(1, 1)` while the runtime is out of memory. -/
theorem calloc_writes_null : ¬ZeroedOrNull ⟨⟨fun _ => 7, [], []⟩, [], []⟩ 0 1 1 :=
  not_zeroed (by decide) (by decide) (.inl rfl)

/-- `calloc` fails without the runtime when the product is 0 or does not fit, and otherwise asks
`malloc` for the product itself: the division finds the products that wrapped and no others. -/
theorem calloc_exact (answer num size : ℕ) :
    (num * size = 0 ∨ 2 ^ 64 ≤ num * size → ∀ s, calloc answer num size s = .ok (0, s)) ∧
    (0 < num * size ∧ num * size < 2 ^ 64 →
      calloc answer num size = do
        let buf ← malloc answer (num * size)
        let _ ← onMemory (memset buf 0 (num * size))
        return buf) ∧
    (size ≠ 0 → (num ≠ num * size % 2 ^ 64 / size ↔ 2 ^ 64 ≤ num * size)) := by
  constructor
  · intro refused s
    rw [calloc_refuses answer refused]
    rfl
  constructor
  · intro representable
    obtain ⟨some, small⟩ := representable
    have positive : size ≠ 0 := by
      rintro rfl
      exact Nat.lt_irrefl 0 some
    exact calloc_accepted answer positive small
  · intro positive
    exact wrapped_iff num positive

section Realloc

variable {s : State} {answer size : ℕ} {l b : ℕ × ℕ}

def KeptOnFailure (s : State) (answer ptr size : ℕ) : Prop :=
  ∀ t, realloc answer ptr size s = .ok (0, t) →
    t.memory.bytes = s.memory.bytes ∧ t.blocks = s.blocks

theorem countP_eraseP {α : Type} {q : α → Bool} {x : α} : ∀ {xs : List α}, x ∈ xs → q x = true →
    (xs.eraseP q).countP q + 1 = xs.countP q := by
  intro xs
  induction xs with
  | nil =>
    intro mem
    cases mem
  | cons y ys ih =>
    intro mem holds
    by_cases first : q y = true
    · rw [List.eraseP_cons_of_pos first, List.countP_cons_of_pos first]
    · have later : x ∈ ys := by
        rcases List.mem_cons.mp mem with rfl | later
        · exact (first holds).elim
        · exact later
      rw [List.eraseP_cons_of_neg first, List.countP_cons_of_neg first,
        List.countP_cons_of_neg first, ih later holds]

theorem Sits.placed_at (sits : Sits s.memory.bytes l b) (fits : Addressable b) :
    place b.1 ≠ 0 := by
  have := sits.header
  have := sits.inside
  have := sits.positive
  have := sits.aligned
  have := fits.2
  rw [place_eq, Nat.mod_eq_of_lt (by omega)]
  omega

theorem wp_free_fewer {u : State} (handed : b ∈ u.blocks) (fits : Addressable b)
    (sits : Sits s.memory.bytes l b)
    (same : ∀ x, l.1 - 16 ≤ x → x < l.1 → u.memory.bytes x = s.memory.bytes x) :
    wp (free l.1) (fun _ t => t.blocks.countP (fun c => c.1 = b.1) + 1 =
      u.blocks.countP fun c => c.1 = b.1) never u := by
  rw [wp_free_sits sits fits handed same]
  exact countP_eraseP handed (by simp)

theorem not_kept (handed : b ∈ s.blocks) (fits : Addressable b) (sits : Sits s.memory.bytes l b)
    (grows : l.2 < size) (fails : answer = 0 ∨ place answer = 0) :
    ¬KeptOnFailure s answer l.1 size := by
  have zero : size ≠ 0 := by omega
  let count : List (ℕ × ℕ) → ℕ := List.countP fun c => c.1 = b.1
  have run : wp (realloc answer l.1 size)
      (fun r t => r = 0 ∧ count t.blocks + 1 = count s.blocks) never s := by
    rw [wp_realloc_sits sits fits (by omega), if_neg (by omega)]
    simp only [wp_bind]
    by_cases null : answer = 0
    · subst null
      rw [wp_malloc_null zero]
      simp only [ne_eq, not_true_eq_false, if_false, wp_pure]
      have asked : wp (free l.1) _ never (State.asked { s with
          memory := s.memory.readWord (l.1 - 8) } size) :=
        wp_free_fewer handed fits sits fun _ _ _ => rfl
      apply wp_post asked
      intro _ t fewer
      exact ⟨trivial, fewer⟩
    · have wraps := fails.resolve_left null
      rw [wp_malloc_some zero null, wraps]
      simp only [ne_eq, not_true_eq_false, if_false, wp_pure]
      -- the header written at the top of the address space is no part of the old one
      have other : answer ≠ b.1 := by
        rintro rfl
        exact sits.placed_at fits wraps
      have same : ∀ x, l.1 - 16 ≤ x → x < l.1 →
          (State.placed { s with memory := s.memory.readWord (l.1 - 8) }
            answer size).memory.bytes x = s.memory.bytes x := by
        intro x low high
        have := sits.header
        have := sits.inside
        have := sits.positive
        have := sits.aligned
        have := fits.2
        have top : getMallocBlock 0 = 2 ^ 64 - 16 := rfl
        simp only [State.placed, wraps, top]
        rw [writeWord_outside _ (by omega) (.inl (by omega)),
          writeWord_outside _ (by omega) (.inl (by omega))]
        rfl
      apply wp_post (wp_free_fewer (List.mem_cons_of_mem _ handed) fits sits same)
      intro _ t fewer
      refine ⟨trivial, fewer.trans ?_⟩
      exact List.countP_cons_of_neg (by simpa using other)
  obtain ⟨_, t, done, rfl, lost⟩ := wp_never.mp run
  intro kept
  rw [(kept t done).2] at lost
  omega

theorem kept_of_result {ptr : ℕ}
    (run : wp (realloc answer ptr size) (fun r _ => r ≠ 0) (fun _ => True) s) :
    KeptOnFailure s answer ptr size := by
  intro t done
  exact (wp_ok run done rfl).elim

end Realloc

/-- A failed `realloc` changes nothing exactly when it cannot fail: the block is large enough or
the runtime has a new one. -/
theorem realloc_keeps_iff (s : State) (l b : ℕ × ℕ) (answer size : ℕ) (handed : b ∈ s.blocks)
    (fits : Addressable b) (sits : Sits s.memory.bytes l b) (some : 0 < size) :
    KeptOnFailure s answer l.1 size ↔ size ≤ l.2 ∨ answer ≠ 0 ∧ place answer ≠ 0 := by
  constructor
  · intro kept
    by_contra bad
    simp only [not_or, not_and] at bad
    refine not_kept handed fits sits (by omega) ?_ kept
    by_cases null : answer = 0
    · exact .inl null
    · exact .inr (by simpa using bad.2 null)
  · intro condition
    refine kept_of_result ?_
    rw [wp_realloc_sits sits fits some]
    by_cases stays : size ≤ l.2
    · rw [if_pos stays]
      exact (sits.block fits).2.2
    · obtain ⟨answered, placed⟩ := condition.resolve_left stays
      rw [if_neg stays]
      simp only [wp_bind]
      rw [wp_malloc_some (by omega) answered, if_pos placed]
      apply wp_post (wp_any (fun _ _ => trivial) : wp _ (fun _ _ => True) (fun _ => True) _)
      intro _ u _
      apply wp_post (wp_any (fun _ _ => trivial) : wp _ (fun _ _ => True) (fun _ => True) _)
      intro _ w _
      exact placed

def oneBlock : State := State.placed ⟨⟨fun _ => 7, [], []⟩, [], []⟩ 4100 5

theorem oneBlock_sits : Sits oneBlock.memory.bytes (4128, 5) (4100, 36) :=
  sits_placed (by decide) (by decide) ⟨by decide, by decide⟩

theorem realloc_keeps_iff_shrink :
    KeptOnFailure oneBlock 0 4128 3 ↔ 3 ≤ 5 ∨ 0 ≠ 0 ∧ place 0 ≠ 0 :=
  realloc_keeps_iff oneBlock (4128, 5) (4100, 36) 0 3 (List.mem_singleton_self _)
    ⟨by decide, by decide⟩ oneBlock_sits (by decide)

/-- `realloc(p, 40)` while the runtime is out of memory. -/
theorem realloc_frees_on_failure : ¬KeptOnFailure oneBlock 0 4128 40 :=
  not_kept (List.mem_singleton_self _) ⟨by decide, by decide⟩ oneBlock_sits (by decide) (.inl rfl)

end Nanolibc.MallocModel
