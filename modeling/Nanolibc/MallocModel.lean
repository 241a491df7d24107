import Nanolibc.MemoryModel

set_option autoImplicit false

/-!
# `malloc`, `free`, `calloc` and `realloc`

The four functions over a runtime whose `malloc` answers are arguments of the model: each call
takes the address that the runtime would return for it, NULL being 0. The runtime keeps its
blocks, base and length, from `malloc` to `free`, and the lengths it was asked for, the latest
first. `size_t` and address arithmetic is modulo 2^64.
-/
namespace Nanolibc.MallocModel
open Lib.Program Lib.FlatMemory MemoryModel

inductive Fault where
  | badFree
  deriving DecidableEq, Repr

structure State where
  memory : Memory
  blocks : List (ℕ × ℕ)
  requests : List ℕ

abbrev Call (β : Type) := Prog State Fault β

def onMemory {β : Type} (p : Prog Memory Fault β) : Call β :=
  zoom State.memory (fun s m => { s with memory := m }) p

def sysMalloc (answer size : ℕ) : Call ℕ := do
  modify fun s => { s with
    blocks := if answer = 0 then s.blocks else (answer, size) :: s.blocks
    requests := size :: s.requests }
  return answer

/-- `sysdeps->free(ptr)`, which takes a block that the runtime handed out and has not got back. -/
def sysFree (ptr : ℕ) : Call Unit := do
  let s ← get
  if s.blocks.any (fun b => b.1 = ptr) then
    set { s with blocks := s.blocks.eraseP fun b => b.1 = ptr }
  else throw .badFree

def padForAlignment (requested : ℕ) : ℕ := (requested + 16 - 1) % 2 ^ 64

def alignAfter (mem reserved : ℕ) : ℕ :=
  padForAlignment ((mem + reserved) % 2 ^ 64) &&& (2 ^ 64 - 16)

/-- The `struct malloc_block` of `p`: `mem` is its first word and `nbytes` its second. -/
def getMallocBlock (p : ℕ) : ℕ := (p + 2 ^ 64 - 16) % 2 ^ 64

def malloc (answer size : ℕ) : Call ℕ :=
  let memSize := (padForAlignment size + 16) % 2 ^ 64
  if size = 0 then pure 0
  else do
    let mem ← sysMalloc answer memSize
    if mem = 0 then pure 0
    else do
      let p := alignAfter mem 16
      let m := getMallocBlock p
      onMemory (storeWord m mem)
      onMemory (storeWord (m + 8) size)
      return p

def free (ptr : ℕ) : Call Unit :=
  if ptr = 0 then pure ()
  else do
    let mem ← onMemory (loadWord (getMallocBlock ptr))
    sysFree mem

def calloc (answer num size : ℕ) : Call ℕ :=
  let len := num * size % 2 ^ 64
  if size = 0 ∨ num ≠ len / size then pure 0
  else do
    let buf ← malloc answer len
    let _ ← onMemory (memset buf 0 len)
    return buf

def realloc (answer ptr size : ℕ) : Call ℕ :=
  if ptr = 0 then malloc answer size
  else if size = 0 then do
    free ptr
    return 0
  else do
    let prevSize ← onMemory (loadWord (getMallocBlock ptr + 8))
    if size ≤ prevSize then pure ptr
    else do
      let newPtr ← malloc answer size
      let _ ← (if newPtr ≠ 0 then onMemory (memcpy newPtr ptr prevSize) else pure newPtr)
      free ptr
      return newPtr

structure System where
  state : State
  live : List (ℕ × ℕ)

def System.init (m : Memory) : System := ⟨⟨m, [], []⟩, []⟩

inductive Op where
  | malloc (size answer : ℕ)
  | free (ptr : ℕ)
  | realloc (ptr size answer : ℕ)
  | write (ptr i : ℕ) (b : UInt8)
  | writeOutside (a : ℕ) (b : UInt8)

abbrev Sys (β : Type) := Prog System Fault β

def call {β : Type} (p : Call β) : Sys β :=
  zoom System.state (fun s t => { s with state := t }) p

def setLive (f : List (ℕ × ℕ) → List (ℕ × ℕ)) : Sys Unit :=
  modify fun s => { s with live := f s.live }

def dropLive (ptr : ℕ) (live : List (ℕ × ℕ)) : List (ℕ × ℕ) := live.eraseP fun l => l.1 = ptr

def addLive (p size : ℕ) (live : List (ℕ × ℕ)) : List (ℕ × ℕ) :=
  if p = 0 then live else (p, size) :: live

/-- A pointer that `free` took, or `realloc` with another result, is live no more. -/
def step : Op → Sys Unit
  | .malloc size answer => do
    let p ← call (malloc answer size)
    setLive (addLive p size)
  | .free ptr => do
    call (free ptr)
    setLive (dropLive ptr)
  | .realloc ptr size answer => do
    let p ← call (realloc answer ptr size)
    setLive fun live => if p = ptr then live else addLive p size (dropLive ptr live)
  | .write ptr i b => call (onMemory (store (ptr + i) b))
  | .writeOutside a b => call (onMemory (store a b))

end Nanolibc.MallocModel
