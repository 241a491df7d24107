import Nanolibc.VectorSystem

set_option autoImplicit false

/-!
# `std::unique_ptr`

A program that keeps objects in `unique_ptr`s, its own or those in the slots of vectors. An object
is a number, in the order of construction; `delete` of an object and `release()` of one are
logged, and `delete []` of a vector's array runs the destructor of every slot.
-/
namespace Nanolibc.UniquePtrModel
open Lib.Program Lib.ArrayHeap VectorModel
open Lib.ObjectPool (object method)

structure UniquePtr where
  ptr : Option ℕ
  deriving DecidableEq, Repr

namespace UniquePtr

def null : UniquePtr := ⟨none⟩

def release (this : UniquePtr) : Option ℕ × UniquePtr := (this.ptr, null)

def moveAssign (_this other : UniquePtr) : UniquePtr × UniquePtr :=
  (⟨other.release.1⟩, other.release.2)

end UniquePtr

theorem sizeof_pos : 0 < 8 := by decide

/-- `unique_ptr` as an element of a vector: `T()` and the slots of a new array are null, and so is
what was moved from. -/
def uniquePtrElement : Element UniquePtr :=
  ⟨.null, fun p => (UniquePtr.moveAssign .null p).2, fun _ => .null, 8, sizeof_pos⟩

structure System where
  vectors : VectorSystem.System UniquePtr
  ptrs : List (Option UniquePtr)
  next : ℕ
  deleted : List ℕ
  released : List ℕ

def System.init : System := ⟨.init, [], 0, [], []⟩

/-- A `unique_ptr` by its place: number `i` of the program's own, or `v[i]` of a vector. -/
inductive Place where
  | ptr (i : ℕ)
  | item (v i : ℕ)
  deriving DecidableEq

inductive Op where
  | null
  | make
  | moveConstruct (other : Place)
  | moveAssign (this other : Place)
  | reset (this : Place)
  | resetToNew (this : Place)
  | release (this : Place)
  | destroy (i : ℕ)
  | vector
  | reserve (v n : ℕ)
  | resize (v n : ℕ)
  | clear (v : ℕ)
  | pushBack (v i : ℕ)
  | popBack (v : ℕ)
  | erase (v it : ℕ)
  | destroyVector (v : ℕ)

abbrev Own (β : Type) := Prog System Fault β

def onVectors {β : Type} (p : Prog (VectorSystem.System UniquePtr) Fault β) : Own β :=
  zoom System.vectors (fun s t => { s with vectors := t }) p

def newObject : Own ℕ := do
  let s ← get
  set { s with next := s.next + 1 }
  return s.next

def deleteObject : Option ℕ → Own Unit
  | none => pure ()
  | some o => modify fun s => { s with deleted := o :: s.deleted }

def load : Place → Own UniquePtr
  | .ptr i => do
    let s ← get
    match s.ptrs[i]? with
    | some (some p) => return p
    | _ => throw .noObject
  | .item v i => onVectors do
    let vec ← object v
    method (Vec.at_ vec i)

def store : Place → UniquePtr → Own Unit
  | .ptr i, p => do
    let s ← get
    match s.ptrs[i]? with
    | some (some _) => set { s with ptrs := s.ptrs.set i (some p) }
    | _ => throw .noObject
  | .item v i, p => onVectors do
    let vec ← object v
    method (Vec.setAt vec i p)

def create (p : UniquePtr) : Own Unit :=
  modify fun s => { s with ptrs := s.ptrs ++ [some p] }

def release (this : Place) : Own (Option ℕ) := do
  let p ← load this
  store this p.release.2
  return p.release.1

def reset (this : Place) (ptr : Option ℕ) : Own Unit := do
  let p ← load this
  deleteObject p.ptr
  store this ⟨ptr⟩

def destroy (i : ℕ) : Own Unit := do
  reset (.ptr i) none
  modify fun s => { s with ptrs := s.ptrs.set i none }

def step : Op → Own Unit
  | .null => create .null
  | .make => do
    let o ← newObject
    create ⟨some o⟩
  | .moveConstruct other => do
    let ptr ← release other
    create ⟨ptr⟩
  | .moveAssign this other => do
    let ptr ← release other
    store this ⟨ptr⟩
  | .reset this => reset this none
  | .resetToNew this => do
    let o ← newObject
    reset this (some o)
  | .release this => do
    let ptr ← release this
    modify fun s => { s with released := ptr.toList ++ s.released }
  | .destroy i => destroy i
  | .vector => onVectors (VectorSystem.step uniquePtrElement .construct)
  | .reserve v n => onVectors (VectorSystem.step uniquePtrElement (.reserve v n))
  | .resize v n => onVectors (VectorSystem.step uniquePtrElement (.resize v n))
  | .clear v => onVectors (VectorSystem.step uniquePtrElement (.clear v))
  -- the argument is only moved from once the room is there
  | .pushBack v i => do
    let p ← load (.ptr i)
    onVectors (VectorSystem.step uniquePtrElement (.pushBackMove v p))
    store (.ptr i) (UniquePtr.moveAssign .null p).2
  | .popBack v => onVectors (VectorSystem.step uniquePtrElement (.popBack v))
  | .erase v it => onVectors (VectorSystem.step uniquePtrElement (.erase v it))
  | .destroyVector v => onVectors (VectorSystem.step uniquePtrElement (.destroy v))

section Observations

def slots (s : VectorSystem.System UniquePtr) (v : ℕ) : List UniquePtr :=
  match s.objs[v]? with
  | some (some vec) => (vec.data.bind s.heap.cells).getD []
  | _ => []

def size (s : VectorSystem.System UniquePtr) (v : ℕ) : ℕ :=
  match s.objs[v]? with
  | some (some vec) => vec.nitems
  | _ => 0

def value (s : System) : Place → Option UniquePtr
  | .ptr i => (s.ptrs[i]?).join
  | .item v i => if i < size s.vectors v then (slots s.vectors v)[i]? else none

def pointsTo (o : ℕ) (p : UniquePtr) : Bool := p.ptr = some o

def owners (s : System) (o : ℕ) : ℕ :=
  s.ptrs.countP (·.any (pointsTo o)) + s.vectors.heap.elements.countP (pointsTo o)

def deletions (s : System) (o : ℕ) : ℕ :=
  s.deleted.count o + s.vectors.heap.destroyed.countP (pointsTo o)

/-- The `unique_ptr`s that an operation assigns to, as they were. -/
def overwritten (s : System) : Op → List UniquePtr
  | .moveAssign this other => if this = other then [] else (value s this).toList
  | .resize v n =>
    if n ≤ (slots s.vectors v).length then
      ((slots s.vectors v).drop (size s.vectors v)).take (n - size s.vectors v)
    else []
  | .pushBack v _ => ((slots s.vectors v)[size s.vectors v]?).toList
  | .popBack v => ((slots s.vectors v)[size s.vectors v - 1]?).toList
  | .erase v it => ((slots s.vectors v)[it]?).toList
  | _ => []

end Observations

end Nanolibc.UniquePtrModel
