import Nanolibc.Lib.Ledger
import Nanolibc.StrtoxModel

set_option autoImplicit false

/-!
# The EFI backend of `ggl_pci`

How each UEFI call and `malloc` answer is given by the environment; what they hand out is kept in
a ledger, in which closing a protocol that is not open or freeing memory twice is a fault. `UINTN`
has 64 bits. The messages to `stderr` are left out.
-/
namespace Nanolibc.EfiPciModel
open Lib.Program Lib.ArrayHeap Lib.Ledger CString Ctype StrtoxModel

abbrev Handle := ℕ

abbrev Interface := ℕ

abbrev Status := ℕ

structure GglPciLocator where
  domain : ℕ
  bus : ℕ
  device : ℕ
  function : ℕ
  deriving DecidableEq

structure GglPciDevice where
  location : GglPciLocator
  handle : Handle
  pciIo : Option Interface

inductive Resource where
  | device
  | handleBuffer
  | protocol (h : Handle)
  deriving DecidableEq

/-- The answers: of `malloc`, of `LocateHandleBuffer`, of `OpenProtocol` and `GetLocation` for the
handle at an index of the buffer, and of `Attributes`. -/
structure Environment where
  malloc : Bool
  locateHandleBuffer : Except Status (List Handle)
  openProtocol : ℕ → Except Status Interface
  getLocation : ℕ → Except Status GglPciLocator
  attributes : Except Status Unit

def item (p : Bytes) : Except Fault (ℕ × Option Bytes) := do
  let r ← strtoul p true 16
  return (r.value.toNat, r.endptr)

/-- The validity check at the end of `parse_pci_address`; the masks are 32-bit constants. -/
def checked (result : GglPciLocator) : Option GglPciLocator :=
  if result.domain &&& 0xffff0000 ≠ 0 then none
  else if result.bus &&& 0xffffff00 ≠ 0 then none
  else if result.device &&& 0xffffff00 ≠ 0 then none
  else if result.function &&& 0xfffffff8 ≠ 0 then none
  else some result

def parseFunction (items0 items1 items2 : ℕ) (p : Bytes) : Except Fault (Option GglPciLocator) := do
  let dot ← charAt p 0
  if dot ≠ ch '.' then pure none
  else do
    let digit ← charAt p 1
    if !isxdigit digit then pure none
    else do
      let items3 ← item (p.drop 1)
      match items3.2 with
      | none => pure none
      | some p => do
        let c ← charAt p 0
        if c ≠ 0 then pure none
        else pure (checked ⟨items0, items1, items2, items3.1⟩)

def parseRest (items0 items1 : ℕ) (p : Bytes) : Except Fault (Option GglPciLocator) := do
  let separator ← charAt p 0
  if separator = 0 then pure none
  else if separator ≠ ch ':' ∧ separator ≠ ch '.' then pure none
  else do
    let digit ← charAt p 1
    if !isxdigit digit then pure none
    else do
      let items2 ← item (p.drop 1)
      match items2.2 with
      | none => pure none
      | some p =>
        if separator = ch '.' then do
          let c ← charAt p 0
          if c ≠ 0 then pure none
          else pure (checked ⟨0, items0, items1, items2.1⟩)
        else parseFunction items0 items1 items2.1 p

/-- `none` where the source returns -1. -/
def parsePciAddress (deviceLocator : Option Bytes) : Except Fault (Option GglPciLocator) :=
  match deviceLocator with
  | none => pure none
  | some s => do
    let digit ← charAt s 0
    if !isxdigit digit then pure none
    else do
      let items0 ← item s
      match items0.2 with
      | none => pure none
      | some p => do
        let colon ← charAt p 0
        if colon ≠ ch ':' then pure none
        else do
          let digit ← charAt p 1
          if !isxdigit digit then pure none
          else do
            let items1 ← item (p.drop 1)
            match items1.2 with
            | none => pure none
            | some p => parseRest items0.1 items1.1 p

abbrev Efi (β : Type) := Prog (Account Resource) Fault β

def closeProtocol (h : Handle) : Efi Unit := release .dead (.protocol h)

def freePool : Efi Unit := release .dead .handleBuffer

def free : Efi Unit := release .dead .device

variable (env : Environment)

/-- The search over `HandleBuffer[i], HandleBuffer[i + 1], ...`. -/
def lookupLoop (location : GglPciLocator) : ℕ → List Handle → Efi (Option (Handle × Interface))
  | _, [] => pure none
  | i, h :: handles =>
    match env.openProtocol i with
    | .error _ => lookupLoop location (i + 1) handles
    | .ok pciIo => do
      acquire (.protocol h)
      match env.getLocation i with
      | .error _ => do
        closeProtocol h
        lookupLoop location (i + 1) handles
      | .ok id =>
        if id = location then pure (some (h, pciIo))
        else do
          closeProtocol h
          lookupLoop location (i + 1) handles

def lookupPciDevice (location : GglPciLocator) : Efi (Option (Handle × Interface)) :=
  match env.locateHandleBuffer with
  | .error _ => pure none
  | .ok handles => do
    acquire .handleBuffer
    let found ← lookupLoop env location 0 handles
    freePool
    return found

def enablePciAccesses : Bool :=
  match env.attributes with
  | .error _ => false
  | .ok _ => true

def gglPciClose (pdev : GglPciDevice) : Efi ℤ := do
  match pdev.pciIo with
  | some _ => closeProtocol pdev.handle
  | none => pure ()
  free
  return 0

def gglPciOpen (deviceLocator : Option Bytes) : Efi (Option GglPciDevice) :=
  if !env.malloc then pure none
  else do
    acquire .device
    let location ← lift (parsePciAddress deviceLocator)
    match location with
    | none => do
      free
      return none
    | some location => do
      let found ← lookupPciDevice env location
      match found with
      | none => do
        free
        return none
      | some (handle, pciIo) => do
        let pdev : GglPciDevice := ⟨location, handle, some pciIo⟩
        if !enablePciAccesses env then do
          let _ ← gglPciClose pdev
          return none
        else return some pdev

end Nanolibc.EfiPciModel
