import Nanolibc.CString
import Nanolibc.Lib.FlatMemory

set_option autoImplicit false

/-!
# `stdio.c`: output to a stream

`tfp_format` is third-party code: all that counts of it here is the sequence of characters that it
passes to its callback. The callback's `void* p` points at a local variable of the caller, which
is passed along as state. A stream's `write` is the runtime's; the calls are recorded with their
results.
-/
namespace Nanolibc.StdioModel
open Lib.Program Lib.FlatMemory CString
open Lib.ArrayHeap (Fault)

abbrev Writer := ℕ → Bytes → Int64

abbrev Calls := List (Bytes × Int64)

def stdioMagic : Int32 := 0x785789

structure File where
  magic : Int32
  write : Option Writer

/-- An object in memory. Its size is at most `PTRDIFF_MAX`. -/
structure Object where
  bytes : Bytes
  small : bytes.length < 2 ^ 63

def _isValidFILE : Option File → Bool
  | none => false
  | some stream => stream.magic == stdioMagic

def writable (stream : Option File) : Option File :=
  if _isValidFILE stream then stream.filter fun s => s.write.isSome else none

def callWrite (stream : File) (bytes : Bytes) : Prog Calls Fault Int64 :=
  match stream.write with
  | none => throw .null
  | some write => do
    let calls ← get
    set (calls ++ [(bytes, write calls.length bytes)])
    return write calls.length bytes

/-- `tfp_format(p, putcf, format, ap)`, where `out` is what the format and the arguments amount
to. -/
def tfpFormat {σ : Type} (putcf : UInt8 → Prog σ Fault Unit) (out : Bytes) : Prog σ Fault Unit :=
  runAll putcf out

section Vprintf

structure VprintfPutcfData where
  stream : File
  buff : Bytes
  buffCapacity : ℕ
  nbuffered : ℕ
  totalWritten : ℕ

def addWritten (total : ℕ) (result : Int64) : ℕ :=
  if 0 < result.toInt32 then (total + result.toInt32.toNatClampNeg) % 2 ^ 64 else total

def _vprintfPutcf (c : UInt8) : Prog (VprintfPutcfData × Calls) Fault Unit := do
  let (data, _) ← get
  if data.buffCapacity ≤ data.nbuffered then throw .aborted
  else if data.buff.length ≤ data.nbuffered then throw .bounds
  else
    let data := { data with
      buff := data.buff.set data.nbuffered c
      nbuffered := data.nbuffered + 1 }
    if data.buffCapacity ≤ data.nbuffered then do
      let n ← zoom Prod.snd (fun s calls => (s.1, calls))
        (callWrite data.stream (data.buff.take data.nbuffered))
      modify fun s => ({ data with
        totalWritten := addWritten data.totalWritten n
        nbuffered := 0 }, s.2)
    else modify fun s => (data, s.2)

/-- `buff` is the array on the stack as it is found; its size is the capacity. -/
def vfprintf (buff : Bytes) (stream : Option File) (out : Bytes) : Prog Calls Fault Int32 :=
  match writable stream with
  | none => return -1
  | some stream => do
    let (_, data) ← withLocal ⟨stream, buff, buff.length, 0, 0⟩ (tfpFormat _vprintfPutcf out)
    if 0 < data.nbuffered then do
      let n ← callWrite stream (data.buff.take data.nbuffered)
      return Int32.ofNat (addWritten data.totalWritten n)
    else return Int32.ofNat data.totalWritten

end Vprintf

section Vsnprintf

structure VsnprintfPutcfData where
  destCapacity : ℕ
  dest : ℕ
  destUsed : ℕ

def _vsnprintfPutcf (c : UInt8) : Prog (VsnprintfPutcfData × Memory) Fault Unit := do
  let (data, _) ← get
  let next := { data with destUsed := (data.destUsed + 1) % 2 ^ 64 }
  if data.destUsed < data.destCapacity then do
    zoom Prod.snd (fun s m => (s.1, m)) (store (data.dest + data.destUsed) c)
    modify fun s => (next, s.2)
  else modify fun s => (next, s.2)

def vsnprintf (str size : ℕ) (out : Bytes) : Prog Memory Fault Int32 := do
  let (_, data) ← withLocal ⟨size, str, 0⟩ (tfpFormat _vsnprintfPutcf out)
  if data.destUsed < size then do
    store (data.dest + data.destUsed) 0
    return Int32.ofNat data.destUsed
  else if 0 < size then do
    store (data.dest + (size - 1)) 0
    return Int32.ofNat data.destUsed
  else return Int32.ofNat data.destUsed

structure VsprintfPutcfData where
  dest : ℕ
  destUsed : ℕ

def _vsprintfPutcf (c : UInt8) : Prog (VsprintfPutcfData × Memory) Fault Unit := do
  let (data, _) ← get
  zoom Prod.snd (fun s m => (s.1, m)) (store (data.dest + data.destUsed) c)
  modify fun s => ({ data with destUsed := (data.destUsed + 1) % 2 ^ 64 }, s.2)

def vsprintf (str : ℕ) (out : Bytes) : Prog Memory Fault Int32 := do
  let (_, data) ← withLocal ⟨str, 0⟩ (tfpFormat _vsprintfPutcf out)
  store (data.dest + data.destUsed) 0
  return Int32.ofNat data.destUsed

end Vsnprintf

section Put

def fputc (c : Int32) (stream : Option File) : Prog Calls Fault Int32 :=
  let uc := c.toUInt32.toUInt8
  match writable stream with
  | none => return -1
  | some stream => do
    let n ← callWrite stream [uc]
    if 1 ≠ n then return -1 else return Int32.ofNat uc.toNat

def fputs (s : Object) (stream : Option File) : Prog Calls Fault Int32 :=
  match writable stream with
  | none => return -1
  | some stream => do
    let len ← lift (strlen s.bytes)
    let n ← callWrite stream (s.bytes.take len)
    if n ≠ Int64.ofNat len then return -1 else return 1

def putc (c : Int32) (stream : Option File) : Prog Calls Fault Int32 := fputc c stream

/-- `stdout` is not checked here and in `puts`. -/
def putchar (stdout : File) (c : Int32) : Prog Calls Fault Int32 := do
  let uc := c.toUInt32.toUInt8
  let n ← callWrite stdout [uc]
  if 1 ≠ n then return -1 else return Int32.ofNat uc.toNat

def puts (stdout : File) (s : Object) : Prog Calls Fault Int32 := do
  let len ← lift (strlen s.bytes)
  let n ← callWrite stdout (s.bytes.take len)
  if n ≠ Int64.ofNat len then return -1
  else do
    let n ← callWrite stdout [ch '\n']
    if 1 ≠ n then return -1 else return 1

end Put

section Fwrite

def fwriteLoop (stream : File) (ptr : Object) (size : ℕ) : ℕ → ℕ → Prog Calls Fault ℕ
  | 0, i => return i
  | left + 1, i => do
    let n ← callWrite stream ((ptr.bytes.drop (i * size % 2 ^ 64)).take size)
    if n ≠ Int64.ofNat size then return i
    else fwriteLoop stream ptr size left (i + 1)

def fwrite (ptr : Object) (size nmemb : ℕ) (stream : Option File) : Prog Calls Fault ℕ :=
  match writable stream with
  | none => return 0
  | some stream => fwriteLoop stream ptr size nmemb 0

def write (stdout stderr : Option File) (fd : Int32) (buf : Object) (count : ℕ) :
    Prog Calls Fault Int64 :=
  if fd = 1 ∨ fd = 2 then do
    let n ← fwrite buf 1 count (if fd = 1 then stdout else stderr)
    return Int64.ofNat n
  else throw .aborted

end Fwrite

end Nanolibc.StdioModel
