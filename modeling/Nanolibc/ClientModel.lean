import Nanolibc.EfiOutput
import Nanolibc.Lib.JumpBuffer

set_option autoImplicit false

/-!
# Programs and what starts them

A program is what its functions do with its own memory and with the library. Under the native
runtime `exit` ends the process. Under the EFI runtime it jumps into the last
`EFI_NANOLIBC_TRY`, through the one `exc_jmp_buf`, and `libnanolibc_start` makes an `EFI_STATUS` of
the result. What `tfp_format` makes of `%d` is a parameter.
-/
namespace Nanolibc.ClientModel
open Lib.Program Lib.JumpBuffer CString StdioModel EfiOutput
open Lib.ArrayHeap (Fault)

abbrev EfiStatus := UInt64

def efiSuccess : EfiStatus := 0
def efiUnsupported : EfiStatus := 0x8000000000000003
def exitSuccess : Int32 := 0
def exitFailure : Int32 := 1

def literal (s : String) : Bytes := s.toList.map ch

/-- The body of a function of a program whose memory is an `M`. -/
inductive Client (M : Type) where
  | ret (v : Int32)
  | exit (status : Int32)
  | output (op : Output) (next : ℤ → Client M)
  | work (f : M → ℤ × M) (next : ℤ → Client M)
  | call (g : Client M) (next : Int32 → Client M)
  | efiNanolibcCall (retvalFailure : EfiStatus) (fct : Client M) (next : EfiStatus → Client M)

variable {M : Type}

namespace Client

def abort : Client M := exit (-1)

def assertWith (message : Output) (val : Int32) (next : Client M) : Client M :=
  if val ≠ 0 then next else output message fun _ => abort

/-- `out` is what the format of the message makes. -/
def nnlcAssert (stack : Vector UInt8 64) (out : Bytes) : Int32 → Client M → Client M :=
  assertWith (.vfprintf stack out (some .stderr))

def nanolibcDefaultAssert : Int32 → Client M → Client M :=
  assertWith (.fputs ⟨literal "Assertion failed!\n" ++ [0], by decide⟩ (some .stderr))

end Client

inductive Exit where
  | returned (v : Int32)
  | exited (status : Int32)
  deriving DecidableEq

namespace Exit

def status : Exit → Int32
  | returned v | exited v => v

def value : Exit → Option ℤ
  | returned v => some v.toInt
  | exited _ => none

def blockRetval (retvalFailure : EfiStatus) : Exit → EfiStatus
  | returned v => if v = 0 then efiSuccess else retvalFailure
  | exited _ => retvalFailure

end Exit

structure Process (M : Type) where
  memory : M
  log : Log

/-- What the program is meant to do: `exit` leaves all the functions up to an
`EFI_NANOLIBC_CALL`. -/
def Client.run (sysdeps : Sysdeps) : Client M → Prog (Process M) Fault Exit
  | .ret v => return .returned v
  | .exit status => return .exited status
  | .output op next => do
    let r ← zoom Process.log (fun p log => { p with log }) (StdioModel.output sysdeps op)
    (next r).run sysdeps
  | .work f next => do
    let p ← get
    set { p with memory := (f p.memory).2 }
    (next (f p.memory).1).run sysdeps
  | .call g next => do
    match ← g.run sysdeps with
    | .exited status => return .exited status
    | .returned v => (next v).run sysdeps
  | .efiNanolibcCall retvalFailure fct next => do
    let exit ← fct.run sysdeps
    (next (exit.blockRetval retvalFailure)).run sysdeps

structure EfiContext (M : Type) where
  process : Process M
  mainRetval : Int32

abbrev EfiCode (M : Type) := Code (EfiContext M) Fault ℤ ℤ

section Efi

def onProcess {α : Type} (p : Prog (Process M) Fault α) : Prog (EfiContext M) Fault α :=
  zoom EfiContext.process (fun context process => { context with process }) p

def efiOutput (op : Output) : Prog (EfiContext M) Fault ℤ :=
  onProcess (zoom Process.log (fun p log => { p with log }) (StdioModel.output efiSysdeps op))

def setMainRetval (v : Int32) : Prog (EfiContext M) Fault ℤ := do
  modify fun context => { context with mainRetval := v }
  return 0

/-- `EFI_NANOLIBC_THROW()` does not return, so that nothing of `exit` is left to be done. -/
def efiExit (status : Int32) : EfiCode M := .act (setMainRetval status) fun _ => .throw

def Client.efi : Client M → EfiCode M
  | .ret v => .ret v.toInt
  | .exit status => efiExit status
  | .output op next => .act (efiOutput op) fun r => (next r).efi
  | .work f next =>
    .act (onProcess do
      let p ← get
      set { p with memory := (f p.memory).2 }
      return (f p.memory).1) fun r => (next r).efi
  | .call g next => .call g.efi fun v => (next (Int32.ofInt v)).efi
  | .efiNanolibcCall retvalFailure fct next =>
    .attempt fct.efi
      (fun v => (next (if Int32.ofInt v = 0 then efiSuccess else retvalFailure)).efi)
      (next retvalFailure).efi

variable (decimal : Int32 → Bytes) (stack : Vector UInt8 64)

def exitMessage (status : Int32) : Bytes :=
  literal "exit(" ++ decimal status ++ literal ") was called\n"

def failMessage (rc : Int32) : Bytes :=
  literal "main() failed with return value: " ++ decimal rc ++ literal "\n"

def report (out : Bytes) : Prog (EfiContext M) Fault ℤ :=
  efiOutput (.vfprintf stack out (some .stderr))

def getMainRetval : Prog (EfiContext M) Fault ℤ := do
  let context ← get
  return context.mainRetval.toInt

def reportExit : Prog (EfiContext M) Fault ℤ := do
  let context ← get
  report stack (exitMessage decimal context.mainRetval)

def mainReturned (v : ℤ) : EfiCode M :=
  .act (setMainRetval (Int32.ofInt v)) fun _ => .act getMainRetval .ret

def mainThrown : EfiCode M := .act (reportExit decimal stack) fun _ => .act getMainRetval .ret

def callMain (main : Client M) : EfiCode M :=
  .act (setMainRetval exitFailure) fun _ =>
  .attempt main.efi mainReturned (mainThrown decimal stack)

def rest (main : Client M) : EfiCode M :=
  .call (callMain decimal stack main) fun rc =>
    if Int32.ofInt rc ≠ exitSuccess then
      .act (report stack (failMessage decimal (Int32.ofInt rc))) fun _ => .ret efiUnsupported.toNat
    else .ret efiSuccess.toNat

end Efi

end Nanolibc.ClientModel
