import Nanolibc.MallocModel
import Mathlib.Data.List.Forall2

set_option autoImplicit false

namespace Nanolibc.MallocModel
open Lib.Program Lib.FlatMemory MemoryModel

def inMemory {ε β : Type} (p : Prog Memory ε β) : Prog State ε β :=
  zoom State.memory (fun s m => { s with memory := m }) p

@[simp] theorem wp_inMemory {ε β : Type} {p : Prog Memory ε β} {post : β → State → Prop}
    {bad : ε → Prop} {s : State} :
    wp (inMemory p) post bad s = wp p (fun b m => post b { s with memory := m }) bad s.memory := by
  simp only [inMemory, wp_zoom]

/-- The length that `malloc(size)` asks the runtime for. -/
def request (size : ℕ) : ℕ := (padForAlignment size + 16) % 2 ^ 64

def place (mem : ℕ) : ℕ := alignAfter mem 16

namespace State

def asked (s : State) (size : ℕ) : State := { s with requests := request size :: s.requests }

def placed (s : State) (mem size : ℕ) : State where
  memory := (s.memory.writeWord (getMallocBlock (place mem)) mem).writeWord
    (getMallocBlock (place mem) + 8) size
  blocks := (mem, request size) :: s.blocks
  requests := request size :: s.requests

def released (s : State) (ptr mem : ℕ) : State :=
  { s with
      memory := s.memory.readWord (getMallocBlock ptr)
      blocks := s.blocks.eraseP fun b => b.1 = mem }

end State

section Arithmetic

variable {mem size p : ℕ}

theorem request_eq (size : ℕ) : request size = (size + 31) % 2 ^ 64 := by
  unfold request padForAlignment
  omega

theorem place_eq (mem : ℕ) : place mem = (mem + 31) % 2 ^ 64 / 16 * 16 := by
  have masked : ∀ x, x < 2 ^ 64 → x &&& (2 ^ 64 - 16) = x / 16 * 16 := by
    intro x small
    have cleared : x &&& (2 ^ 64 - 2 ^ 4) = x / 2 ^ 4 * 2 ^ 4 := and_clear_low small (by decide)
    exact cleared
  unfold place alignAfter padForAlignment
  rw [masked _ (Nat.mod_lt _ (by decide))]
  omega

theorem getMallocBlock_eq (low : 16 ≤ p) (high : p < 2 ^ 64) : getMallocBlock p = p - 16 := by
  unfold getMallocBlock
  omega

theorem place_inside (room : mem + (size + 31) ≤ 2 ^ 64) (some : 0 < size) :
    place mem % 16 = 0 ∧ mem + 16 ≤ place mem ∧ place mem + size ≤ mem + (size + 31) := by
  have unwrapped : (mem + 31) % 2 ^ 64 = mem + 31 := Nat.mod_eq_of_lt (by omega)
  rw [place_eq, unwrapped]
  omega

end Arithmetic

section Calls

variable {s : State} {answer ptr size mem len : ℕ} {bad : Fault → Prop}

@[simp] theorem wp_onMemory {β : Type} {p : Prog Memory Fault β} {post : β → State → Prop} :
    wp (onMemory p) post bad s =
      wp p (fun b m => post b { s with memory := m }) bad s.memory := by
  simp only [onMemory, wp_zoom]

@[simp] theorem wp_sysMalloc {post : ℕ → State → Prop} :
    wp (sysMalloc answer size) post bad s = post answer { s with
      blocks := if answer = 0 then s.blocks else (answer, size) :: s.blocks
      requests := size :: s.requests } := rfl

theorem malloc_zero : malloc answer 0 = pure 0 := rfl

theorem wp_malloc_null {post : ℕ → State → Prop} (some : size ≠ 0) :
    wp (malloc 0 size) post bad s = post 0 (s.asked size) := by
  unfold malloc
  rw [if_neg some]
  rfl

theorem wp_malloc_some {post : ℕ → State → Prop} (some : size ≠ 0) (answered : answer ≠ 0) :
    wp (malloc answer size) post bad s = post (place answer) (s.placed answer size) := by
  simp only [malloc, some, if_false, wp_bind, wp_sysMalloc, answered, wp_onMemory, wp_storeWord,
    wp_pure]
  rfl

theorem wp_free {post : Unit → State → Prop} (given : ptr ≠ 0)
    (header : word s.memory.bytes (getMallocBlock ptr) = mem) (handed : (mem, len) ∈ s.blocks) :
    wp (free ptr) post bad s = post () (s.released ptr mem) := by
  have found : s.blocks.any (fun b => b.1 = mem) = true :=
    List.any_eq_true.mpr ⟨(mem, len), handed, by simp⟩
  simp only [free, given, if_false, wp_bind, wp_onMemory, wp_loadWord, header, sysFree, wp_get,
    found, if_true, wp_set]
  rfl

end Calls

section Sits

/-- The payload `l.1` of `l.2` bytes lies, after its header, in the runtime block `b`. -/
structure Sits (bytes : ℕ → UInt8) (l b : ℕ × ℕ) : Prop where
  aligned : l.1 % 16 = 0
  positive : 0 < l.2
  header : b.1 + 16 ≤ l.1
  inside : l.1 + l.2 ≤ b.1 + b.2
  mem : word bytes (l.1 - 16) = b.1
  nbytes : word bytes (l.1 - 8) = l.2

def Addressable (b : ℕ × ℕ) : Prop := 0 < b.1 ∧ b.1 + b.2 ≤ 2 ^ 64

variable {f g : ℕ → UInt8} {l b : ℕ × ℕ} {s : State} {answer size : ℕ}

theorem Sits.congr (sits : Sits f l b) (fits : Addressable b)
    (same : ∀ x, l.1 - 16 ≤ x → x < l.1 → g x = f x) : Sits g l b := by
  have above := sits.header
  have below := sits.inside
  have bound := fits.2
  refine ⟨sits.aligned, sits.positive, above, below, ?_, ?_⟩
  · rw [← sits.mem]
    exact word_congr (by omega) (fun x low high => same x (by omega) (by omega))
  · rw [← sits.nbytes]
    exact word_congr (by omega) (fun x low high => same x (by omega) (by omega))

theorem Sits.block (sits : Sits f l b) (fits : Addressable b) :
    getMallocBlock l.1 = l.1 - 16 ∧ getMallocBlock l.1 + 8 = l.1 - 8 ∧ l.1 ≠ 0 := by
  have above := sits.header
  have below := sits.inside
  have bound := fits.2
  have positive := sits.positive
  rw [getMallocBlock_eq (by omega) (by omega)]
  omega

theorem sits_placed (some : 0 < size) (small : size + 31 < 2 ^ 64)
    (fits : Addressable (answer, size + 31)) :
    Sits (s.placed answer size).memory.bytes (place answer, size) (answer, size + 31) := by
  have high : answer + (size + 31) ≤ 2 ^ 64 := fits.2
  obtain ⟨aligned, header, inside⟩ := place_inside high some
  have at_header : getMallocBlock (place answer) = place answer - 16 :=
    getMallocBlock_eq (by omega) (by omega)
  have at_size : place answer - 16 + 8 = place answer - 8 := by omega
  refine ⟨aligned, some, header, inside, ?_, ?_⟩
  · simp only [State.placed, at_header, at_size]
    have kept : word ((s.memory.writeWord (place answer - 16) answer).writeWord
        (place answer - 8) size).bytes (place answer - 16) =
        word (s.memory.writeWord (place answer - 16) answer).bytes (place answer - 16) :=
      word_congr (by omega)
        (fun x low high => writeWord_outside _ (by omega) (.inl (by omega)))
    rw [kept, word_writeWord _ (by omega) (by omega)]
  · simp only [State.placed, at_header, at_size]
    exact word_writeWord _ (by omega) (by omega)

theorem placed_outside {x : ℕ} (some : 0 < size) (fits : Addressable (answer, size + 31))
    (out : x < place answer - 16 ∨ place answer ≤ x) :
    (s.placed answer size).memory.bytes x = s.memory.bytes x := by
  have high : answer + (size + 31) ≤ 2 ^ 64 := fits.2
  obtain ⟨aligned, header, inside⟩ := place_inside high some
  have at_header : getMallocBlock (place answer) = place answer - 16 :=
    getMallocBlock_eq (by omega) (by omega)
  simp only [State.placed, at_header]
  rw [writeWord_outside _ (by omega) (by omega), writeWord_outside _ (by omega) (by omega)]

theorem wp_realloc_sits {ptr n : ℕ} {post : ℕ → State → Prop} {bad : Fault → Prop}
    (sits : Sits s.memory.bytes (ptr, n) b) (fits : Addressable b) (some : 0 < size) :
    wp (realloc answer ptr size) post bad s = wp (if size ≤ n then pure ptr else do
        let newPtr ← malloc answer size
        let _ ← (if newPtr ≠ 0 then onMemory (memcpy newPtr ptr n) else pure newPtr)
        free ptr
        return newPtr) post bad { s with memory := s.memory.readWord (ptr - 8) } := by
  obtain ⟨_, header, given⟩ := sits.block fits
  have recorded : word s.memory.bytes (ptr - 8) = n := sits.nbytes
  rw [realloc, if_neg given, if_neg (by omega), wp_bind, wp_onMemory, wp_loadWord, header, recorded]

theorem wp_free_sits {u : State} {ptr n : ℕ} {post : Unit → State → Prop} {bad : Fault → Prop}
    (sits : Sits f (ptr, n) b) (fits : Addressable b) (handed : b ∈ u.blocks)
    (same : ∀ x, ptr - 16 ≤ x → x < ptr → u.memory.bytes x = f x) :
    wp (free ptr) post bad u = post () (u.released ptr b.1) := by
  have now : Sits u.memory.bytes (ptr, n) b := sits.congr fits same
  obtain ⟨header, _, given⟩ := now.block fits
  have owner : word u.memory.bytes (getMallocBlock ptr) = b.1 := by
    rw [header]
    exact now.mem
  exact wp_free given owner handed

end Sits

end Nanolibc.MallocModel
