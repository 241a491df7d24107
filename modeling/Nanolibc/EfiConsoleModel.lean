import Nanolibc.CString

set_option autoImplicit false

/-!
# The console of the EFI runtime

`conio_a2u` and `efi_conio_write` with the size of a chunk as a parameter. The wide characters are
converted on the stack, in an array of two for each byte of a chunk and one for the NUL; every
store into it is checked. A `CHAR16 const*` is the list of the wide characters from it to the end
of its object.
-/
namespace Nanolibc.EfiConsoleModel
open Lib.Program CString
open Lib.ArrayHeap (Fault)

def widen (c : UInt8) : UInt16 := UInt16.ofInt (schar c)

section Convert

variable {n : ℕ}

def storeWide (j : ℕ) (w : UInt16) : Prog (Vector UInt16 n) Fault Unit := do
  let s16 ← get
  if _inside : j < n then set (s16.set j w) else throw .bounds

/-- The loop of `conio_a2u`, with `left` for `len - i` and `j` for how far `s16` has moved. -/
def conioA2uLoop : ℕ → Bytes → ℕ → ℕ → Prog (Vector UInt16 n) Fault (ℕ × ℕ)
  | 0, _, i, j => return (i, j)
  | left + 1, s8, i, j => do
    let c ← lift (charAt s8 0)
    if c = 0 then return (i, j)
    else if c = ch '\n' then do
      storeWide j (widen (ch '\r'))
      storeWide (j + 1) (widen c)
      conioA2uLoop left (s8.drop 1) (i + 1) (j + 2)
    else do
      storeWide j (widen c)
      conioA2uLoop left (s8.drop 1) (i + 1) (j + 1)

def conioA2u (s8 : Bytes) (len : ℕ) : Prog (Vector UInt16 n) Fault ℕ := do
  let (i, j) ← conioA2uLoop len s8 0 0
  storeWide j 0
  return i

end Convert

section Write

inductive Stream where
  | conOut
  | stdErr
  deriving DecidableEq, Repr

/-- The strings that each stream was passed, oldest first. -/
abbrev Console := Stream → List (List UInt16)

def wideString : List UInt16 → Except Fault (List UInt16)
  | [] => throw .bounds
  | w :: s =>
    if w = 0 then pure []
    else do
      let string ← wideString s
      return w :: string

def outputString (stream : Stream) (s : List UInt16) : Prog Console Fault Unit := do
  let string ← lift (wideString s)
  modify fun console => Function.update console stream (console stream ++ [string])

def efiStdoutWriter : List UInt16 → Prog Console Fault Unit := outputString .conOut

def efiStderrWriter : List UInt16 → Prog Console Fault Unit := outputString .stdErr

def efiConioWriteLoop (chunk : ℕ) (writer : List UInt16 → Prog Console Fault Unit) (s8 : Bytes)
    (sz : ℕ) : Prog (Vector UInt16 (2 * chunk + 1) × Console) Fault Unit :=
  if sz = 0 then return ()
  else do
    let converted ← zoom Prod.fst (fun s s16 => (s16, s.2))
      (conioA2u s8 (if chunk > sz then sz else chunk))
    if _nothing : converted = 0 then return ()
    else do
      let (s16, _) ← get
      zoom Prod.snd (fun s console => (s.1, console)) (writer s16.toList)
      if _last : sz ≤ converted then return ()
      else efiConioWriteLoop chunk writer (s8.drop converted) (sz - converted)
termination_by sz

/-- `s16` is the array on the stack as it is found. -/
def efiConioWrite (chunk : ℕ) (s16 : Vector UInt16 (2 * chunk + 1))
    (writer : List UInt16 → Prog Console Fault Unit) (s8 : Bytes) (sz : ℕ) :
    Prog Console Fault Unit := do
  let _ ← withLocal s16 (efiConioWriteLoop chunk writer s8 sz)
  return ()

def efiIoChunk8Size : ℕ := 64

def writeStdout (s16 : Vector UInt16 (2 * efiIoChunk8Size + 1)) (s8 : Bytes) (sz : ℕ) :
    Prog Console Fault Int64 := do
  efiConioWrite efiIoChunk8Size s16 efiStdoutWriter s8 sz
  return Int64.ofNat sz

def writeStderr (s16 : Vector UInt16 (2 * efiIoChunk8Size + 1)) (s8 : Bytes) (sz : ℕ) :
    Prog Console Fault Int64 := do
  efiConioWrite efiIoChunk8Size s16 efiStderrWriter s8 sz
  return Int64.ofNat sz

end Write

end Nanolibc.EfiConsoleModel
