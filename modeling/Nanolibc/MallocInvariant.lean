import Nanolibc.MallocCalls
import Mathlib.Data.List.Pairwise

set_option autoImplicit false

namespace Nanolibc.MallocModel
open Lib.Program Lib.FlatMemory MemoryModel

def Apart (b c : ℕ × ℕ) : Prop := b.1 + b.2 ≤ c.1 ∨ c.1 + c.2 ≤ b.1

theorem Apart.symm {b c : ℕ × ℕ} (apart : Apart b c) : Apart c b := Or.symm apart

abbrev Layout (bytes : ℕ → UInt8) : List (ℕ × ℕ) → List (ℕ × ℕ) → Prop :=
  List.Forall₂ (Sits bytes)

structure Inv (s : System) : Prop where
  layout : Layout s.state.memory.bytes s.live s.state.blocks
  apart : s.state.blocks.Pairwise Apart
  fits : ∀ b ∈ s.state.blocks, Addressable b

section Layouts

variable {f g : ℕ → UInt8} {live blocks : List (ℕ × ℕ)} {l b : ℕ × ℕ} {p n : ℕ}

theorem Layout.at (layout : Layout f live blocks) (mem : l ∈ live) :
    ∃ b ∈ blocks, Sits f l b := by
  induction layout with
  | nil => cases mem
  | cons sits _ ih =>
    rcases List.mem_cons.mp mem with rfl | later
    · exact ⟨_, List.mem_cons_self, sits⟩
    · obtain ⟨b, there, sits'⟩ := ih later
      exact ⟨b, List.mem_cons_of_mem _ there, sits'⟩

theorem Layout.congr (layout : Layout f live blocks) (fits : ∀ b ∈ blocks, Addressable b)
    (same : ∀ l ∈ live, ∀ b ∈ blocks, Sits f l b → ∀ x, l.1 - 16 ≤ x → x < l.1 → g x = f x) :
    Layout g live blocks := by
  rw [Layout, List.forall₂_iff_zip] at layout ⊢
  refine ⟨layout.1, ?_⟩
  intro l b both
  obtain ⟨meml, memb⟩ := List.of_mem_zip both
  exact (layout.2 both).congr (fits b memb) (same l meml b memb (layout.2 both))

theorem Layout.disjoint (layout : Layout f live blocks) (apart : blocks.Pairwise Apart) :
    live.Pairwise fun l k => l.1 + l.2 + 16 ≤ k.1 ∨ k.1 + k.2 + 16 ≤ l.1 := by
  induction layout with
  | nil => exact List.Pairwise.nil
  | @cons l b live blocks sits layout ih =>
    rw [List.pairwise_cons] at apart ⊢
    refine ⟨?_, ih apart.2⟩
    intro k mem
    obtain ⟨c, there, sits'⟩ := Layout.at layout mem
    have := sits.inside
    have := sits.header
    have := sits'.inside
    have := sits'.header
    rcases apart.1 c there with before | after <;> omega

theorem Layout.bases (layout : Layout f live blocks) :
    blocks.map Prod.fst = live.map fun l => word f (l.1 - 16) := by
  induction layout with
  | nil => rw [List.map_nil, List.map_nil]
  | cons sits _ ih => rw [List.map_cons, List.map_cons, ih, sits.mem]

theorem Layout.drop (layout : Layout f live blocks) (apart : blocks.Pairwise Apart)
    (mem : (p, n) ∈ live) :
    Layout f (dropLive p live) (blocks.eraseP fun b => b.1 = word f (p - 16)) := by
  induction layout with
  | nil => cases mem
  | @cons l b live blocks sits layout ih =>
    rw [List.pairwise_cons] at apart
    by_cases here : l.1 = p
    · subst here
      rw [dropLive, List.eraseP_cons_of_pos (by simp), List.eraseP_cons_of_pos (by simp [sits.mem])]
      exact layout
    · have later : (p, n) ∈ live := by
        rcases List.mem_cons.mp mem with rfl | later
        · exact (here rfl).elim
        · exact later
      obtain ⟨c, there, sits'⟩ := Layout.at layout later
      have other : b.1 ≠ word f (p - 16) := by
        have owner : word f (p - 16) = c.1 := sits'.mem
        have := sits.inside
        have := sits.header
        have := sits'.inside
        have := sits'.header
        rw [owner]
        rcases apart.1 c there with before | after <;> omega
      have rest := ih apart.2 later
      rw [dropLive, List.eraseP_cons_of_neg (by simpa using here),
        List.eraseP_cons_of_neg (by simpa using other)]
      exact .cons sits rest

end Layouts

/-- What the runtime may answer to a request: NULL or a new block of that length. -/
def Answers (s : State) (answer length : ℕ) : Prop :=
  answer = 0 ∨ answer + length ≤ 2 ^ 64 ∧ ∀ b ∈ s.blocks, Apart (answer, length) b

def Held (s : System) (ptr : ℕ) : Prop := ptr = 0 ∨ ∃ n, (ptr, n) ∈ s.live

/-- What the program and the runtime may do: sizes that do not wrap, pointers to live payloads,
stores inside a payload or, by anyone, outside all blocks. -/
def Allowed (s : System) : Op → Prop
  | .malloc size answer => size + 31 < 2 ^ 64 ∧ Answers s.state answer (request size)
  | .free ptr => Held s ptr
  | .realloc ptr size answer =>
    size + 31 < 2 ^ 64 ∧ Held s ptr ∧ Answers s.state answer (request size)
  | .write ptr i _ => ∃ n, (ptr, n) ∈ s.live ∧ i < n
  | .writeOutside a _ => a < 2 ^ 64 ∧ ∀ b ∈ s.state.blocks, a < b.1 ∨ b.1 + b.2 ≤ a

theorem inv_init (m : Memory) : Inv (System.init m) := ⟨.nil, .nil, by simp [System.init]⟩

section Steps

variable {s : System} {state : State} {live : List (ℕ × ℕ)} {answer ptr size p n : ℕ}

@[simp] theorem wp_call {β : Type} {q : Call β} {post : β → System → Prop} {bad : Fault → Prop} :
    wp (call q) post bad s =
      wp q (fun b t => post b { s with state := t }) bad s.state := by
  simp only [call, wp_zoom]

@[simp] theorem wp_setLive {f : List (ℕ × ℕ) → List (ℕ × ℕ)} {post : Unit → System → Prop}
    {bad : Fault → Prop} : wp (setLive f) post bad s = post () { s with live := f s.live } := rfl

theorem inv_memory {m : Memory} (inv : Inv ⟨state, live⟩)
    (same : ∀ l ∈ live, ∀ b ∈ state.blocks, Sits state.memory.bytes l b →
      ∀ x, l.1 - 16 ≤ x → x < l.1 → m.bytes x = state.memory.bytes x) :
    Inv ⟨{ state with memory := m }, live⟩ :=
  ⟨inv.layout.congr inv.fits same, inv.apart, inv.fits⟩

theorem inv_asked (inv : Inv ⟨state, live⟩) : Inv ⟨state.asked size, live⟩ :=
  ⟨inv.layout, inv.apart, inv.fits⟩

theorem addressable_answer (some : 0 < answer) (small : size + 31 < 2 ^ 64)
    (room : answer + request size ≤ 2 ^ 64) : Addressable (answer, size + 31) := by
  rw [request_eq, Nat.mod_eq_of_lt small] at room
  exact ⟨some, room⟩

theorem inv_placed (inv : Inv ⟨state, live⟩) (some : 0 < size) (small : size + 31 < 2 ^ 64)
    (given : 0 < answer) (room : answer + request size ≤ 2 ^ 64)
    (fresh : ∀ b ∈ state.blocks, Apart (answer, request size) b) :
    Inv ⟨state.placed answer size, (place answer, size) :: live⟩ := by
  have fits := addressable_answer given small room
  have length : request size = size + 31 := by rw [request_eq, Nat.mod_eq_of_lt small]
  obtain ⟨_, header, inside⟩ := place_inside fits.2 some
  have blocks : (state.placed answer size).blocks = (answer, size + 31) :: state.blocks := by
    rw [State.placed, length]
  rw [length] at fresh
  refine ⟨?_, ?_, ?_⟩
  · rw [blocks]
    refine .cons (sits_placed some small fits) (inv.layout.congr inv.fits ?_)
    intro l _ b there sits x low high
    refine placed_outside some fits ?_
    have := sits.header
    have := sits.inside
    have := fresh b there
    unfold Apart at this
    simp only at this header inside
    omega
  · rw [blocks]
    exact List.pairwise_cons.mpr ⟨fresh, inv.apart⟩
  · rw [blocks]
    intro b there
    rcases List.mem_cons.mp there with rfl | old
    · exact fits
    · exact inv.fits b old

theorem wp_free_live (inv : Inv ⟨state, live⟩) (mem : (ptr, n) ∈ live) :
    wp (free ptr) (fun _ t => Inv ⟨t, dropLive ptr live⟩) never state := by
  obtain ⟨b, there, sits⟩ := inv.layout.at mem
  rw [wp_free_sits sits (inv.fits b there) there fun _ _ _ => rfl]
  have dropped := inv.layout.drop inv.apart mem
  have owner : word state.memory.bytes (ptr - 16) = b.1 := sits.mem
  rw [owner] at dropped
  refine ⟨dropped, inv.apart.sublist List.eraseP_sublist, ?_⟩
  intro c kept
  exact inv.fits c (List.mem_of_mem_eraseP kept)

theorem wp_malloc_live (inv : Inv ⟨state, live⟩) (small : size + 31 < 2 ^ 64)
    (answers : Answers state answer (request size)) :
    wp (malloc answer size) (fun p t => Inv ⟨t, addLive p size live⟩) never state := by
  by_cases zero : size = 0
  · subst zero
    rw [malloc_zero, wp_pure]
    exact inv
  · rcases answers with rfl | ⟨room, fresh⟩
    · rw [wp_malloc_null zero]
      exact inv_asked inv
    · by_cases null : answer = 0
      · subst null
        rw [wp_malloc_null zero]
        exact inv_asked inv
      · rw [wp_malloc_some zero null]
        have placed : place answer ≠ 0 := by
          have high : answer + (size + 31) ≤ 2 ^ 64 :=
            (addressable_answer (by omega) small room).2
          have header := (place_inside high (by omega)).2.1
          omega
        rw [addLive, if_neg placed]
        exact inv_placed inv (by omega) small (by omega) room fresh

theorem dropLive_null (inv : Inv ⟨state, live⟩) : dropLive 0 live = live := by
  refine List.eraseP_of_forall_not ?_
  intro l mem null
  obtain ⟨b, there, sits⟩ := inv.layout.at mem
  exact (sits.block (inv.fits b there)).2.2 (by simpa using null)

theorem Inv.apart_of_ne (inv : Inv ⟨state, live⟩) {l k : ℕ × ℕ} (meml : l ∈ live)
    (memk : k ∈ live) (ne : l ≠ k) : l.1 + l.2 + 16 ≤ k.1 ∨ k.1 + k.2 + 16 ≤ l.1 := by
  have symmetric : Std.Symm fun l k : ℕ × ℕ => l.1 + l.2 + 16 ≤ k.1 ∨ k.1 + k.2 + 16 ≤ l.1 :=
    ⟨fun _ _ h => Or.symm h⟩
  exact (inv.layout.disjoint inv.apart).forall meml memk ne

theorem Inv.payload_byte (inv : Inv ⟨state, live⟩) (mem : (p, n) ∈ live) {i x : ℕ} (hi : i < n)
    {l : ℕ × ℕ} (meml : l ∈ live) (low : l.1 - 16 ≤ x) (high : x < l.1) : x ≠ p + i := by
  by_cases same : l = (p, n)
  · subst same
    simp only at high
    omega
  · have := inv.apart_of_ne meml mem same
    simp only at this
    omega

theorem wp_write (inv : Inv ⟨state, live⟩) (mem : (p, n) ∈ live) {i : ℕ} {c : UInt8}
    (hi : i < n) :
    wp (onMemory (store (p + i) c)) (fun _ t => Inv ⟨t, live⟩) never state := by
  obtain ⟨b, there, sits⟩ := inv.layout.at mem
  have bound := (inv.fits b there).2
  have inside := sits.inside
  simp only at inside
  have address : (p + i) % 2 ^ 64 = p + i := Nat.mod_eq_of_lt (by omega)
  rw [wp_onMemory, wp_store]
  refine inv_memory inv ?_
  intro l meml _ _ _ x low high
  rw [Memory.write, address]
  exact Function.update_of_ne (inv.payload_byte mem hi meml low high) _ _

theorem wp_writeOutside (inv : Inv ⟨state, live⟩) {a : ℕ} {c : UInt8} (small : a < 2 ^ 64)
    (out : ∀ b ∈ state.blocks, a < b.1 ∨ b.1 + b.2 ≤ a) :
    wp (onMemory (store a c)) (fun _ t => Inv ⟨t, live⟩) never state := by
  rw [wp_onMemory, wp_store]
  refine inv_memory inv ?_
  intro l _ b there sits x low high
  rw [Memory.write, Nat.mod_eq_of_lt small]
  refine Function.update_of_ne ?_ _ _
  have := sits.header
  have := sits.inside
  have := out b there
  omega

theorem wp_copy {q prev : ℕ} (inv : Inv ⟨state, (q, size) :: live⟩) (mem : (ptr, prev) ∈ live)
    (grows : prev < size) :
    wp (onMemory (memcpy q ptr prev)) (fun _ t => Inv ⟨t, (q, size) :: live⟩ ∧ q ≠ ptr) never
      state := by
  have new : (q, size) ∈ (q, size) :: live := List.mem_cons_self
  have old : (ptr, prev) ∈ (q, size) :: live := List.mem_cons_of_mem _ mem
  have apart := inv.apart_of_ne new old (by
    intro same
    have := congrArg Prod.snd same
    simp only at this
    omega)
  have within : ∀ l ∈ (q, size) :: live, l.1 + l.2 ≤ 2 ^ 64 := by
    intro l there
    obtain ⟨b, memb, sits⟩ := inv.layout.at there
    have := sits.inside
    have := (inv.fits b memb).2
    omega
  have room := within _ new
  have source := within _ old
  simp only at apart room source
  rw [wp_onMemory]
  apply wp_post (wp_memcpy (by omega) source (by omega))
  rintro _ m ⟨_, copied⟩
  refine ⟨inv_memory inv ?_, by omega⟩
  intro l meml _ _ _ x low high
  rw [copied, if_neg]
  rintro ⟨above, below⟩
  have other := inv.payload_byte (i := x - q) new (by omega) meml low high
  omega

theorem wp_realloc_live (inv : Inv ⟨state, live⟩) (small : size + 31 < 2 ^ 64)
    (held : ptr = 0 ∨ ∃ n, (ptr, n) ∈ live) (answers : Answers state answer (request size)) :
    wp (realloc answer ptr size)
      (fun q t => Inv ⟨t, if q = ptr then live else addLive q size (dropLive ptr live)⟩) never
      state := by
  by_cases null : ptr = 0
  · subst null
    rw [realloc, if_pos rfl]
    apply wp_post (wp_malloc_live inv small answers)
    intro q t inv'
    rw [dropLive_null inv]
    by_cases failed : q = 0
    · rw [if_pos failed]
      rwa [addLive, if_pos failed] at inv'
    · rwa [if_neg failed]
  · obtain ⟨prev, mem⟩ := held.resolve_left null
    obtain ⟨b, there, sits⟩ := inv.layout.at mem
    by_cases zero : size = 0
    · rw [realloc, if_neg null, if_pos zero, wp_bind]
      apply wp_post (wp_free_live inv mem)
      intro _ t inv'
      rwa [wp_pure, if_neg (Ne.symm null), addLive, if_pos rfl]
    · rw [wp_realloc_sits sits (inv.fits b there) (by omega)]
      have inv₁ : Inv ⟨{ state with memory := state.memory.readWord (ptr - 8) }, live⟩ :=
        inv_memory inv (fun _ _ _ _ _ _ _ _ => rfl)
      by_cases fits : size ≤ prev
      · rw [if_pos fits, wp_pure, if_pos rfl]
        exact inv₁
      · rw [if_neg fits]
        simp only [wp_bind]
        apply wp_post (wp_malloc_live inv₁ small answers)
        intro q t inv₂
        by_cases failed : q = 0
        · subst failed
          simp only [ne_eq, not_true_eq_false, if_false, wp_pure]
          rw [addLive, if_pos rfl] at inv₂
          apply wp_post (wp_free_live inv₂ mem)
          intro _ u inv₃
          rwa [if_neg (Ne.symm null), addLive, if_pos rfl]
        · rw [if_pos failed]
          rw [addLive, if_neg failed] at inv₂
          apply wp_post (wp_copy inv₂ mem (by omega))
          rintro _ u ⟨inv₃, moved⟩
          apply wp_post (wp_free_live inv₃ (List.mem_cons_of_mem _ mem))
          intro _ w inv₄
          rw [dropLive, List.eraseP_cons_of_neg (by simpa using moved)] at inv₄
          rw [wp_pure, if_neg moved, addLive, if_neg failed]
          exact inv₄

/-- Every allowed operation keeps the invariant, and none is refused by the runtime. -/
theorem step_inv (op : Op) (s : System) (inv : Inv s) (allowed : Allowed s op) :
    wp (step op) (fun _ t => Inv t) never s := by
  cases op with
  | malloc size answer =>
    simp only [step, wp_bind, wp_call, wp_setLive]
    exact wp_malloc_live inv allowed.1 allowed.2
  | free ptr =>
    simp only [step, wp_bind, wp_call, wp_setLive]
    rcases allowed with rfl | ⟨n, mem⟩
    · rw [free, if_pos rfl, wp_pure, dropLive_null inv]
      exact inv
    · exact wp_free_live inv mem
  | realloc ptr size answer =>
    simp only [step, wp_bind, wp_call, wp_setLive]
    exact wp_realloc_live inv allowed.1 allowed.2.1 allowed.2.2
  | write ptr i c =>
    obtain ⟨n, mem, hi⟩ := allowed
    simp only [step, wp_call]
    exact wp_write inv mem hi
  | writeOutside a c =>
    simp only [step, wp_call]
    exact wp_writeOutside inv allowed.1 allowed.2

end Steps

/-- After every run of allowed operations each live payload is aligned and lies with its header
in the runtime block that the header names, payloads and headers are apart, and the blocks that
the runtime has not got back are those of the live payloads. The runtime refuses no `free`. -/
theorem allocator_sound (m : Memory) (ops : List Op)
    (allowed : Meets step Allowed ops (System.init m)) :
    ∃ s, runAll step ops (System.init m) = .ok ((), s) ∧
      (∀ p n, (p, n) ∈ s.live → p % 16 = 0 ∧ word s.state.memory.bytes (p - 8) = n ∧
        ∃ len, (word s.state.memory.bytes (p - 16), len) ∈ s.state.blocks ∧
          word s.state.memory.bytes (p - 16) + 16 ≤ p ∧
          p + n ≤ word s.state.memory.bytes (p - 16) + len) ∧
      s.live.Pairwise (fun l k => l.1 + l.2 + 16 ≤ k.1 ∨ k.1 + k.2 + 16 ≤ l.1) ∧
      s.state.blocks.map Prod.fst =
        s.live.map fun l => word s.state.memory.bytes (l.1 - 16) := by
  obtain ⟨⟨⟩, s, run, inv⟩ := wp_never.mp (wp_meets step_inv ops _ (inv_init m) allowed)
  refine ⟨s, run, ?_, inv.layout.disjoint inv.apart, inv.layout.bases⟩
  intro p n mem
  obtain ⟨b, there, sits⟩ := inv.layout.at mem
  have owner : word s.state.memory.bytes (p - 16) = b.1 := sits.mem
  refine ⟨sits.aligned, sits.nbytes, b.2, ?_, ?_, ?_⟩
  · rw [owner]
    exact there
  · rw [owner]
    exact sits.header
  · rw [owner]
    exact sits.inside

theorem allocator_sound_grow : ∃ s, runAll step
      [.malloc 5 4100, .realloc 4128 40 8193] (System.init ⟨fun _ => 0, [], []⟩) =
        .ok ((), s) ∧
      (∀ p n, (p, n) ∈ s.live → p % 16 = 0 ∧ word s.state.memory.bytes (p - 8) = n ∧
        ∃ len, (word s.state.memory.bytes (p - 16), len) ∈ s.state.blocks ∧
          word s.state.memory.bytes (p - 16) + 16 ≤ p ∧
          p + n ≤ word s.state.memory.bytes (p - 16) + len) ∧
      s.live.Pairwise (fun l k => l.1 + l.2 + 16 ≤ k.1 ∨ k.1 + k.2 + 16 ≤ l.1) ∧
      s.state.blocks.map Prod.fst =
        s.live.map fun l => word s.state.memory.bytes (l.1 - 16) := by
  refine allocator_sound _ _ (meets_cons ⟨by decide, .inr ⟨by decide, by simp [System.init]⟩⟩ rfl
    ⟨⟨by decide, .inr ⟨5, ?_⟩, .inr ⟨by decide, ?_⟩⟩, fun _ _ => trivial⟩)
  · exact List.mem_singleton_self _
  · intro b there
    cases List.mem_singleton.mp there
    exact .inr (by decide)

end Nanolibc.MallocModel
