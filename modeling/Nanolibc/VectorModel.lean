import Nanolibc.Lib.ArrayHeap

set_option autoImplicit false

/-!
# `std::vector`

The class keeps three raw fields, `_data`, `_max_nitems` and `_nitems`. A method takes the fields
of `*this` and returns them; the buffers live on a heap of arrays, so that an access past a
buffer, through NULL or into a deleted buffer faults, and so does `abort()` or a loop that never
ends. Every `new T[n]` succeeds: `operator new` asserts that `malloc` did not fail.
-/
namespace Nanolibc.VectorModel
open Lib.Program Lib.ArrayHeap

/-- What the vector code asks of `T`: `T()`, what a moved-from object holds, what the slots of a
new array hold before anything is assigned to them (anything, for a type like `int`), `sizeof`. -/
structure Element (α : Type) where
  dflt : α
  husk : α → α
  fresh : ℕ → α
  size : ℕ
  size_pos : 0 < size

def intElement : Element ℕ := ⟨0, id, fun i => 1000 + i, 4, by decide⟩

structure Vec where
  data : Option ℕ
  maxNitems : ℕ
  nitems : ℕ
  deriving DecidableEq, Repr

/-- A `const T&` or `T&&` argument: an object outside every vector, or a slot of an array. -/
inductive Ref (α : Type) where
  | temp (x : α)
  | slot (array index : ℕ)

variable {α : Type} (T : Element α)

abbrev Method (α β : Type) := Prog (Heap α) Fault β

def load : Ref α → Method α α
  | .temp x => pure x
  | .slot a i => read (some a) i

def moveOut (p : Option ℕ) (i : ℕ) : Method α α := do
  let x ← read p i
  write p i (T.husk x)
  return x

def moveRef : Ref α → Method α α
  | .temp x => pure x
  | .slot a i => moveOut T (some a) i

def newArray (n : ℕ) : Method α ℕ := alloc ((List.range n).map T.fresh)

/-- `while ((new_max_nitems = new_nbytes / sizeof(T)) < n) new_nbytes *= 2;` with the product
modulo 2^64. Sixty rounds decide: by then the doubled 64 has wrapped to 0 and stays there. -/
def growLoop (size n : ℕ) : ℕ → ℕ → Option ℕ
  | 0, _ => none
  | rounds + 1, nbytes =>
    if nbytes / size < n then growLoop size n rounds (nbytes * 2 % 2 ^ 64)
    else some (nbytes / size)

namespace Vec

def null : Vec := ⟨none, 0, 0⟩

def _reserve (this : Vec) (n copyOnly : ℕ) : Method α Vec :=
  if n ≤ this.maxNitems then pure this
  else
    match growLoop T.size n 60 64 with
    | none => throw .diverged
    | some newMaxNitems => do
      let newData ← newArray T newMaxNitems
      loop copyOnly 0 fun i => do
        let x ← moveOut T this.data i
        write (some newData) i x
      delete this.data
      return { this with data := some newData, maxNitems := newMaxNitems }

def reserve (this : Vec) (n : ℕ) : Method α Vec := _reserve T this n this.nitems

def resize (this : Vec) (n : ℕ) : Method α Vec := do
  let this ← reserve T this n
  loop (n - this.nitems) this.nitems fun i => write this.data i T.dflt
  return { this with nitems := n }

def clear (this : Vec) : Method α Vec := resize T this 0

def at_ (this : Vec) (i : ℕ) : Method α α :=
  if i < this.nitems then read this.data i else throw .aborted

def setAt (this : Vec) (i : ℕ) (x : α) : Method α Unit :=
  if i < this.nitems then write this.data i x else throw .aborted

def sized (n : ℕ) : Method α Vec := resize T null n

def ofRange (range : List α) : Method α Vec := do
  let this ← resize T null range.length
  loop range.length 0 fun i =>
    match range[i]? with
    | none => throw .bounds
    | some x => write this.data i x
  return this

def copyAssign (this v : Vec) : Method α Vec := do
  let this ← _reserve T this v.nitems 0
  let this := { this with nitems := v.nitems }
  loop v.nitems 0 fun i => do
    let x ← at_ v i
    write this.data i x
  return this

def copyConstruct (v : Vec) : Method α Vec := copyAssign T null v

def moveAssign (_this v : Vec) : Vec × Vec :=
  (⟨v.data, v.maxNitems, v.nitems⟩, ⟨none, 0, 0⟩)

def moveConstruct (v : Vec) : Vec × Vec := moveAssign null v

def destroy (this : Vec) : Method α Unit := delete this.data

def pushBack (this : Vec) (v : Ref α) : Method α Vec := do
  let this ← reserve T this (this.nitems + 1)
  let x ← load v
  write this.data this.nitems x
  return { this with nitems := this.nitems + 1 }

def pushBackMove (this : Vec) (v : Ref α) : Method α Vec := do
  let this ← reserve T this (this.nitems + 1)
  let x ← moveRef T v
  write this.data this.nitems x
  return { this with nitems := this.nitems + 1 }

def popBack (this : Vec) : Method α Vec :=
  if this.nitems = 0 then throw .aborted
  else do
    let this := { this with nitems := this.nitems - 1 }
    write this.data this.nitems T.dflt
    return this

def erase (this : Vec) (it : ℕ) : Method α Vec :=
  if it < this.nitems then do
    write this.data it T.dflt
    loop (this.nitems - (it + 1)) it fun p => do
      let x ← moveOut T this.data (p + 1)
      write this.data p x
    return { this with nitems := this.nitems - 1 }
  else throw .aborted

def _insertHole (this : Vec) (ip n : ℕ) : Method α (Vec × ℕ) :=
  if ip ≤ this.nitems then do
    let this ← _reserve T this (this.nitems + n) ip
    if ip < this.nitems then
      loop (this.nitems - ip) 0 fun k => do
        let i := this.nitems + n - 1 - k
        let x ← read this.data (i - n)
        write this.data i x
    else pure ()
    return ({ this with nitems := this.nitems + n }, ip)
  else throw .aborted

def insert (this : Vec) (ip : ℕ) (v : Ref α) : Method α (Vec × ℕ) := do
  let (this, ret) ← _insertHole T this ip 1
  let x ← load v
  write this.data ret x
  return (this, ret)

def insertRange (this : Vec) (ip : ℕ) (range : List (Ref α)) : Method α (Vec × ℕ) :=
  if range.length = 0 then return (this, ip)
  else do
    let (this, ret) ← _insertHole T this ip range.length
    loop range.length ret fun it =>
      match range[it - ret]? with
      | none => throw .bounds
      | some v => do
        let x ← load v
        write this.data it x
    return (this, ret)

end Vec

end Nanolibc.VectorModel
