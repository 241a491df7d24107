import Nanolibc.CString
import Nanolibc.Lib.SeparateArrays
import Nanolibc.MallocFailures
import Nanolibc.StringCopies

set_option autoImplicit false

namespace Nanolibc.HeapModel
open Lib.Program Lib.FlatMemory Lib.SeparateArrays CString MemoryModel MallocModel Strndup
  StringCopies

inductive Halt where
  | stopped (e : Stop)
  | aborted

/-- A call, with the runtime's answer where one is asked for. Pointers are addresses in the flat
memory. -/
inductive Op where
  | malloc (size answer : ℕ)
  | calloc (num size answer : ℕ)
  | realloc (ptr size answer : ℕ)
  | free (ptr : ℕ)
  | operatorNew (sz answer : ℕ)
  | operatorDelete (ptr : ℕ)
  | strdup (s answer : ℕ)
  | load (a : ℕ)
  | store (a : ℕ) (c : UInt8)
  | memcpy (dst src n : ℕ)
  | memmove (dst src n : ℕ)
  | memset (dst : ℕ) (c : UInt8) (n : ℕ)

inductive Answer where
  | pointer (p : ℕ)
  | byte (c : UInt8)
  | nothing

section Model

abbrev Heap (β : Type) := Prog State Halt β

def onHeap {β : Type} (p : Call β) : Heap β := relabel (fun e => .stopped (.fault e)) p

def operatorNew (answer sz : ℕ) : Heap ℕ := do
  let sz := if sz = 0 then 1 else sz
  let p ← onHeap (MallocModel.malloc answer sz)
  if p ≠ 0 then return p else throw .aborted

def operatorDelete (ptr : ℕ) : Heap Unit :=
  if ptr ≠ 0 then onHeap (MallocModel.free ptr) else return ()

def call : Op → Heap Answer
  | .malloc size answer => .pointer <$> onHeap (MallocModel.malloc answer size)
  | .calloc num size answer => .pointer <$> onHeap (MallocModel.calloc answer num size)
  | .realloc ptr size answer => .pointer <$> onHeap (MallocModel.realloc answer ptr size)
  | .free ptr => (fun _ => .nothing) <$> onHeap (MallocModel.free ptr)
  | .operatorNew sz answer => .pointer <$> operatorNew answer sz
  | .operatorDelete ptr => (fun _ => .nothing) <$> operatorDelete ptr
  | .strdup s answer => .pointer <$> relabel .stopped (StringCopies.strdup answer s)
  | .load a => .byte <$> inMemory (Lib.FlatMemory.load a)
  | .store a c => (fun _ => .nothing) <$> inMemory (Lib.FlatMemory.store a c)
  | .memcpy dst src n => .pointer <$> inMemory (MemoryModel.memcpy dst src n)
  | .memmove dst src n => .pointer <$> inMemory (MemoryModel.memmove dst src n)
  | .memset dst c n => .pointer <$> inMemory (MemoryModel.memset dst c n)

def callAll : List Op → Heap (List Answer)
  | [] => return []
  | op :: ops => do
    let r ← call op
    let rs ← callAll ops
    return r :: rs

end Model

section Arrays

/-- NULL when the call fails, and only then; otherwise where an array of `size` bytes can be
added. -/
structure New (arrays : Store UInt8) (fails : Prop) (p : ℕ) (bytes : Bytes) (size : ℕ) :
    Prop where
  null : p = 0 ↔ fails
  room : p ≠ 0 → bytes.length = size ∧ 0 < size ∧ p % 16 = 0 ∧
    ∀ e ∈ arrays, p + size ≤ e.1 ∨ e.1 + e.2.length ≤ p

/-- What a call is meant to return, and to do to the arrays. What a new array holds is open where
the call does not say it; a `realloc` that fails has given its array up all the same. -/
inductive Step (arrays : Store UInt8) : Op → Answer → Store UInt8 → Prop
  | malloc {size answer p : ℕ} {bytes : Bytes}
    (new : New arrays (answer = 0 ∨ size = 0) p bytes size) :
    Step arrays (.malloc size answer) (.pointer p) (arrays.add p bytes)
  | calloc {num size answer p : ℕ}
    (new : New arrays (answer = 0 ∨ num * size = 0 ∨ 2 ^ 64 ≤ num * size) p
      (.replicate (num * size) 0) (num * size)) :
    Step arrays (.calloc num size answer) (.pointer p) (arrays.add p (.replicate (num * size) 0))
  | reallocNull {size answer p : ℕ} {bytes : Bytes}
    (new : New arrays (answer = 0 ∨ size = 0) p bytes size) :
    Step arrays (.realloc 0 size answer) (.pointer p) (arrays.add p bytes)
  | reallocZero {ptr answer : ℕ} (given : ptr ≠ 0) :
    Step arrays (.realloc ptr 0 answer) (.pointer 0) (arrays.remove ptr)
  | reallocStays {ptr size answer : ℕ} {bytes : Bytes} (mem : (ptr, bytes) ∈ arrays)
    (some : 0 < size) (room : size ≤ bytes.length) :
    Step arrays (.realloc ptr size answer) (.pointer ptr) arrays
  | reallocMoves {ptr size answer p : ℕ} {bytes more : Bytes} (mem : (ptr, bytes) ∈ arrays)
    (grows : bytes.length < size) (new : New arrays (answer = 0) p (bytes ++ more) size) :
    Step arrays (.realloc ptr size answer) (.pointer p)
      ((arrays.remove ptr).add p (bytes ++ more))
  | free {ptr : ℕ} : Step arrays (.free ptr) .nothing (arrays.remove ptr)
  | operatorNew {sz answer p : ℕ} {bytes : Bytes} (given : answer ≠ 0)
    (new : New arrays (answer = 0) p bytes (max 1 sz)) :
    Step arrays (.operatorNew sz answer) (.pointer p) (arrays.add p bytes)
  | operatorDelete {ptr : ℕ} : Step arrays (.operatorDelete ptr) .nothing (arrays.remove ptr)
  | strdup {s answer p : ℕ} {text : Bytes} (nonzero : ∀ c ∈ text, c ≠ 0)
    (part : Part arrays s (text ++ [0]))
    (new : New arrays (answer = 0) p (text ++ [0]) (text.length + 1)) :
    Step arrays (.strdup s answer) (.pointer p) (arrays.add p (text ++ [0]))
  | load {a : ℕ} {c : UInt8} (part : Part arrays a [c]) : Step arrays (.load a) (.byte c) arrays
  | store {a : ℕ} {c : UInt8} {arrays' : Store UInt8} (replaced : Replaced arrays a [c] arrays') :
    Step arrays (.store a c) .nothing arrays'
  | memcpy {dst src n : ℕ} {bytes : Bytes} {arrays' : Store UInt8} (length : bytes.length = n)
    (part : Part arrays src bytes) (replaced : Replaced arrays dst bytes arrays') :
    Step arrays (.memcpy dst src n) (.pointer dst) arrays'
  | memmove {dst src n : ℕ} {bytes : Bytes} {arrays' : Store UInt8} (length : bytes.length = n)
    (part : Part arrays src bytes) (replaced : Replaced arrays dst bytes arrays') :
    Step arrays (.memmove dst src n) (.pointer dst) arrays'
  | memset {dst n : ℕ} {c : UInt8} {arrays' : Store UInt8}
    (replaced : Replaced arrays dst (.replicate n c) arrays') :
    Step arrays (.memset dst c n) (.pointer dst) arrays'

inductive Steps : Store UInt8 → List Op → List Answer → Store UInt8 → Prop
  | nil {arrays : Store UInt8} : Steps arrays [] [] arrays
  | cons {arrays arrays' arrays'' : Store UInt8} {op : Op} {ops : List Op} {r : Answer}
    {rs : List Answer} (first : Step arrays op r arrays') (rest : Steps arrays' ops rs arrays'') :
    Steps arrays (op :: ops) (r :: rs) arrays''

end Arrays

section Legal

def Held (arrays : Store UInt8) (ptr : ℕ) : Prop := ptr = 0 ∨ ∃ bytes, (ptr, bytes) ∈ arrays

def Inside (arrays : Store UInt8) (a n : ℕ) : Prop :=
  ∃ bytes, bytes.length = n ∧ Part arrays a bytes

/-- What the program may do: it uses its own arrays, and asks for sizes that do not wrap around. The
runtime answers with new blocks; `calloc` gets one. -/
def Legal (arrays : Store UInt8) (s : State) : Op → Prop
  | .malloc size answer => size + 31 < 2 ^ 64 ∧ Answers s answer (request size)
  | .calloc num size answer => 2 ^ 64 ≤ num * size ∨ num * size + 31 < 2 ^ 64 ∧
    Answers s answer (request (num * size)) ∧ (answer = 0 → num * size = 0)
  | .realloc ptr size answer =>
    size + 31 < 2 ^ 64 ∧ Held arrays ptr ∧ Answers s answer (request size)
  | .free ptr | .operatorDelete ptr => Held arrays ptr
  | .operatorNew sz answer => sz + 31 < 2 ^ 64 ∧ Answers s answer (request (max 1 sz))
  | .strdup a answer => ∃ text : Bytes, (∀ c ∈ text, c ≠ 0) ∧ Part arrays a (text ++ [0]) ∧
    text.length + 1 < 2 ^ 63 ∧ Answers s answer (request (text.length + 1))
  | .load a | .store a _ => Inside arrays a 1
  | .memcpy dst src n =>
    Inside arrays dst n ∧ Inside arrays src n ∧ (dst + n ≤ src ∨ src + n ≤ dst)
  | .memmove dst src n => Inside arrays dst n ∧ Inside arrays src n
  | .memset dst _ n => Inside arrays dst n

structure Shows (arrays : Store UInt8) (s : State) : Prop where
  inv : Inv ⟨s, arrays.extents⟩
  shown : Shown s.memory.bytes arrays

def LegalAll : List Op → Store UInt8 → State → Prop
  | [], _, _ => True
  | op :: ops, arrays, s => Legal arrays s op ∧
    ∀ r s' arrays', call op s = .ok (r, s') → Step arrays op r arrays' → Shows arrays' s' →
      LegalAll ops arrays' s'

end Legal

end Nanolibc.HeapModel
