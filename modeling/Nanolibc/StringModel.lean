import Nanolibc.CString
import Nanolibc.Lib.ObjectPool

set_option autoImplicit false

/-!
# `std::string`

A string keeps `size_` and `data_`; its bytes live in a checked heap of arrays. A method that
takes another string reads that string's fields again after it changed those of `*this`, as the
source does, so that the two may be one object. `new char[n]` succeeds, since `operator new`
asserts it, and its bytes are whatever was there before.
-/
namespace Nanolibc.StringModel
open Lib.Program Lib.ArrayHeap Lib.ObjectPool CString

structure Str where
  size : ℕ
  data : Option ℕ
  deriving DecidableEq, Repr

/-- A `void*`: into an object of the caller or a literal, or `data + offset`. -/
inductive Pointer where
  | client (object : Bytes)
  | array (data : Option ℕ) (offset : ℕ)

abbrev Method (β : Type) := Prog (Heap UInt8) Fault β

def Pointer.add : Pointer → ℕ → Pointer
  | .client object, n => .client (object.drop n)
  | .array data offset, n => .array data (offset + n)

def loadByte : Pointer → ℕ → Method UInt8
  | .client object, i => lift (charAt object i)
  | .array data offset, i => read data (offset + i)

/-- Objects of the caller and literals are never written. -/
def storeByte : Pointer → ℕ → UInt8 → Method Unit
  | .client _, _, _ => throw .bounds
  | .array data offset, i, c => write data (offset + i) c

def memcpy (dst src : Pointer) (n : ℕ) : Method Unit :=
  loop n 0 fun i => do
    let c ← loadByte src i
    storeByte dst i c

def memset (dst : Pointer) (c : UInt8) (n : ℕ) : Method Unit :=
  loop n 0 fun i => storeByte dst i c

def Pointer.view : Pointer → Method Bytes
  | .client object => pure object
  | .array data offset => do
    let (_, bytes) ← slots data
    return bytes.drop offset

def memcmp (p1 p2 : Pointer) (n : ℕ) : Method ℤ := do
  let s1 ← p1.view
  let s2 ← p2.view
  lift (CString.memcmp s1 s2 n)

def ifNonzero (n : ℕ) (p : Method Unit) : Method Unit := if n = 0 then pure () else p

namespace Str

def null : Str := ⟨0, none⟩

/-- `junk a i` is what byte `i` of the new array `a` holds before anything is stored there. -/
def newData (junk : ℕ → ℕ → UInt8) (size : ℕ) : Method (Option ℕ) :=
  if size = 0 then pure none
  else do
    let h ← get
    let a ← alloc ((List.range ((size + 1) % 2 ^ 64)).map (junk h.next))
    write (some a) size 0
    return some a

variable (junk : ℕ → ℕ → UInt8)

/-- `string(size_t size, char value)`. -/
def filled (size : ℕ) (value : UInt8) : Method Str := do
  let data ← newData junk size
  ifNonzero size (memset (.array data 0) value size)
  return ⟨size, data⟩

def ofData (bytes : Pointer) (size : ℕ) : Method Str := do
  let data ← newData junk size
  ifNonzero size (memcpy (.array data 0) bytes size)
  return ⟨size, data⟩

def ofCString (bytes : Bytes) : Method Str := do
  let size ← lift (strlen bytes)
  ofData junk (.client bytes) size

def copyConstruct (other : Str) : Method Str := ofData junk (.array other.data 0) other.size

def moveConstruct (other : Str) : Str × Str := (⟨other.size, other.data⟩, ⟨0, none⟩)

def clear (this : Str) : Method Str := do
  delete this.data
  return ⟨0, none⟩

def destroy (this : Str) : Method Unit := do
  let _ ← clear this

def substr (this : Str) (pos len : ℕ) : Method Str :=
  if pos > this.size then throw .aborted
  else
    let len := if len > this.size - pos then this.size - pos else len
    ofData junk (.array this.data pos) len

def dataPtr (this : Str) : Pointer :=
  match this.data with
  | none => .client [0]
  | some a => .array (some a) 0

def resize (this : Str) (size : ℕ) (c : UInt8) : Method Str := do
  let data ← newData junk size
  let minPos := if size ≤ this.size then size else this.size
  ifNonzero minPos (memcpy (.array data 0) (.array this.data 0) minPos)
  let numToPad := size - minPos
  ifNonzero numToPad (memset (.array data minPos) c numToPad)
  let _ ← clear this
  return ⟨size, data⟩

def replace (this : Str) (pos len : ℕ) (str : Str) : Method Str :=
  if pos > this.size then throw .aborted
  else
    let len := if len > this.size - pos then this.size - pos else len
    let newSize := (this.size + str.size + (2 ^ 64 - len)) % 2 ^ 64
    if newSize = 0 then clear this
    else do
      let newData ← newData junk newSize
      memcpy (.array newData 0) (.array this.data 0) pos
      memcpy (.array newData pos) (.array str.data 0) str.size
      let remaining := this.size - pos - len
      memcpy (.array newData (pos + str.size)) (.array this.data (pos + len)) remaining
      delete this.data
      return ⟨newSize, newData⟩

def plus (s1 s2 : Str) : Method Str := do
  let result ← filled junk ((s1.size + s2.size) % 2 ^ 64) 0
  memcpy (dataPtr result) (dataPtr s1) s1.size
  memcpy ((dataPtr result).add s1.size) (dataPtr s2) s2.size
  return result

def compareData (this : Str) (data : Pointer) (size : ℕ) : Method ℤ := do
  let min := if this.size ≤ size then this.size else size
  let res ← if min ≠ 0 then memcmp (.array this.data 0) data min else pure 0
  if res ≠ 0 then return res
  else if this.size < size then return -1
  else if this.size > size then return 1
  else return 0

def compare (this other : Str) : Method ℤ :=
  compareData this (.array other.data 0) other.size

end Str

abbrev System := Pool Str UInt8

def System.init : System := Pool.empty

abbrev Sys (β : Type) := Prog System Fault β

section Assignments

variable (junk : ℕ → ℕ → UInt8)

def copyAssign (i j : ℕ) : Sys Unit := do
  update i Str.clear
  let other ← object j
  let data ← method (Str.newData junk other.size)
  assign i (some ⟨other.size, data⟩)
  let this ← object i
  let other ← object j
  method (ifNonzero this.size (memcpy (.array this.data 0) (.array other.data 0) this.size))

def moveAssign (i j : ℕ) : Sys Unit := do
  update i Str.clear
  let other ← object j
  assign i (some ⟨other.size, other.data⟩)
  assign j (some ⟨0, none⟩)

def append (i j : ℕ) : Sys Unit := do
  let this ← object i
  let other ← object j
  update i fun v => Str.resize junk v ((this.size + other.size) % 2 ^ 64) 0
  let grown ← object i
  let other ← object j
  method (memcpy (.array grown.data this.size) (.array other.data 0) other.size)

/-- `operator+=(const string& other)`, whose body is that of `append`. -/
def plusAssign (i j : ℕ) : Sys Unit := do
  let other ← object j
  if other.size = 0 then pure () else append junk i j

end Assignments

inductive Op where
  | filled (size : ℕ) (value : UInt8)
  | ofData (bytes : Bytes) (size : ℕ)
  | ofCString (bytes : Bytes)
  | copyConstruct (j : ℕ)
  | moveConstruct (j : ℕ)
  | destroy (i : ℕ)
  | copyAssign (i j : ℕ)
  | moveAssign (i j : ℕ)
  | clear (i : ℕ)
  | resize (i size : ℕ) (c : UInt8)
  | setChar (i index : ℕ) (c : UInt8)
  | plusAssign (i j : ℕ)
  | append (i j : ℕ)
  | replace (i pos len j : ℕ)
  | substr (i pos len : ℕ)
  | plus (i j : ℕ)

def step (junk : ℕ → ℕ → UInt8) : Op → Sys Unit
  | .filled size value => do
    let v ← method (Str.filled junk size value)
    create v
  | .ofData bytes size => do
    let v ← method (Str.ofData junk (.client bytes) size)
    create v
  | .ofCString bytes => do
    let v ← method (Str.ofCString junk bytes)
    create v
  | .copyConstruct j => do
    let other ← object j
    let v ← method (Str.copyConstruct junk other)
    create v
  | .moveConstruct j => do
    let other ← object j
    assign j (some (Str.moveConstruct other).2)
    create (Str.moveConstruct other).1
  | .destroy i => do
    let v ← object i
    method (Str.destroy v)
    assign i none
  | .copyAssign i j => copyAssign junk i j
  | .moveAssign i j => moveAssign i j
  | .clear i => update i Str.clear
  | .resize i size c => update i fun v => Str.resize junk v size c
  | .setChar i index c => do
    let v ← object i
    method (write v.data index c)
  | .plusAssign i j => plusAssign junk i j
  | .append i j => append junk i j
  | .replace i pos len j => do
    let str ← object j
    update i fun v => Str.replace junk v pos len str
  | .substr i pos len => do
    let this ← object i
    let v ← method (Str.substr junk this pos len)
    create v
  | .plus i j => do
    let s1 ← object i
    let s2 ← object j
    let v ← method (Str.plus junk s1 s2)
    create v

end Nanolibc.StringModel
