import Nanolibc.CString
import Nanolibc.Lib.FlatMemory
import Nanolibc.Lib.Ledger
import Nanolibc.Lib.Polling

set_option autoImplicit false

/-!
# The Linux backend of `ggl_pci`

A device keeps the descriptor of its configuration space and the BARs that are mapped, with their
sizes; a BAR that is not is a null pointer. How the system answers is given by the environment,
and what it hands out is kept in a ledger. The messages to the log are left out.
-/
namespace Nanolibc.LinuxPciModel
open Lib.Program Lib.FlatMemory Lib.Ledger Lib.Polling CString

abbrev kMaxPciBars : ℕ := 6

structure GglPciDevice where
  devicePath : Bytes
  pciConfig : ℤ
  configSizeBytes : UInt64
  bars : Fin kMaxPciBars → UInt64
  barSizesBytes : Fin kMaxPciBars → UInt64
  mappings : ∀ i, (bars i).toNat + (barSizesBytes i).toNat ≤ 2 ^ 64

structure Mapping where
  address : UInt64
  size : UInt64
  inSpace : address.toNat + size.toNat ≤ 2 ^ 64

section Access

variable (pdev : GglPciDevice) (barIndex : Fin kMaxPciBars) (offset : UInt64)

def gglPciMread32 (val : UInt32) : Prog Memory Empty (ℤ × UInt32) :=
  if pdev.bars barIndex = 0 ∨ offset + 4 > pdev.barSizesBytes barIndex then return (-1, val)
  else do
    let bytes ← loadAll (pdev.bars barIndex + offset).toNat 4
    return (0, UInt32.ofNat (ofBytes bytes))

def gglPciMwrite32 (val : UInt32) : Prog Memory Empty ℤ :=
  if pdev.bars barIndex = 0 ∨ offset + 4 > pdev.barSizesBytes barIndex then return -1
  else do
    storeAll (pdev.bars barIndex + offset).toNat ((List.range 4).map (byte val.toNat))
    return 0

end Access

section Poll

/-- What a poll finds: the device and its memory at each read, and the readings of the clock in
nanoseconds, the first of them before the loop. -/
structure World where
  device : ℕ → GglPciDevice
  memory : ℕ → Memory
  now : ℕ → ℤ

structure Polled where
  code : ℤ
  lastVal : Option UInt32
  reads : ℕ
  deriving DecidableEq

variable (world : World) (barIndex : Fin kMaxPciBars)
  (barOffset mask expectedVal timeoutUsecs : UInt32) (lastVal : Option UInt32)

def World.mread32 (k : ℕ) : ℤ × UInt32 :=
  match gglPciMread32 (world.device k) barIndex barOffset.toUInt64 0 (world.memory k) with
  | .ok (r, _) => r
  | .error e => nomatch e

def World.deadline : ℤ := world.now 0 + timeoutUsecs.toNat * 1000

def mpoll32Body (k : ℕ) : Option (ℤ × Option UInt32) :=
  let (result, val) := world.mread32 barIndex barOffset k
  if result ≠ 0 then some (-1, lastVal)
  else if val &&& mask = expectedVal then some (0, lastVal.map fun _ => val)
  else if world.now (k + 1) > world.deadline timeoutUsecs then some (1, lastVal)
  else none

/-- Nothing when `fuel` rounds are not enough. -/
def gglPciMpoll32 (fuel : ℕ) : Option Polled :=
  if expectedVal &&& mask ≠ expectedVal then some ⟨-1, lastVal, 0⟩
  else
    (rounds (mpoll32Body world barIndex barOffset mask expectedVal timeoutUsecs lastVal) fuel 0).map
      fun (k, code, last) => ⟨code, last, k + 1⟩

end Poll

section Open

inductive Resource where
  | device
  | fd (n : ℤ)
  | file
  | mapping (address size : UInt64)
  deriving DecidableEq

inductive Stop where
  | bounds
  | notHeld
  | checkFailed

/-- The answers of the libraries and of the system: a descriptor below 0 and a null mapping are
failures, as is `none`; a file is its lines. `strSplit` is `absl::StrSplit` at the spaces, with
`absl::SkipWhitespace`. -/
structure Environment where
  joinPath : Bytes → Bytes → Bytes
  openFD : Bytes → ℤ
  fstat : ℤ → Option UInt64
  openFile : Bytes → Option (List Bytes)
  strSplit : Bytes → List Bytes
  simpleHexAtoi : Bytes → Option UInt64
  fileExists : Bytes → Bool
  mMapFile : Bytes → Mapping

structure Closing where
  closeFD : ℤ → Bool
  mUnmap : UInt64 → UInt64 → Bool

abbrev Linux (β : Type) := Prog (Account Resource) Stop β

abbrev Flags := Fin kMaxPciBars → UInt64

def text (s : String) : Bytes := s.toList.map ch

def parsePciAddress (deviceLocator : Bytes) : Bytes :=
  let locatorParts := deviceLocator.count (ch ':') + 1
  if locatorParts ≠ 2 ∧ locatorParts ≠ 3 then []
  else if locatorParts = 2 then text "/sys/bus/pci/devices/" ++ (text "0000:" ++ deviceLocator)
  else text "/sys/bus/pci/devices/" ++ deviceLocator

variable (env : Environment)

def barFlagsLoop : List Bytes → ℕ → Flags → Option Flags
  | [], _, flags => some flags
  | line :: lines, barOffset, flags =>
    match env.strSplit line with
    | [_, _, v2] =>
      if inside : barOffset < kMaxPciBars then
        match env.simpleHexAtoi v2 with
        | none => none
        | some flag =>
          barFlagsLoop lines (barOffset + 1) (Function.update flags ⟨barOffset, inside⟩ flag)
      else some flags
    | _ => none

def getBARFlags (sysfsDirpath : Bytes) : Linux (Option Flags) :=
  match env.openFile (env.joinPath sysfsDirpath (text "resource")) with
  | none => return none
  | some lines => do
    acquire .file
    let flags := barFlagsLoop env lines 0 fun _ => 0
    release .notHeld .file
    return flags

def is64BitBAR (sysfsResourceFlags : UInt64) : Bool := sysfsResourceFlags &&& 0x7 == 0x4

def mMapFile (path : Bytes) : Linux Mapping := do
  let mapping := env.mMapFile path
  if mapping.address ≠ 0 then acquire (.mapping mapping.address mapping.size)
  return mapping

def GglPciDevice.withBar (pdev : GglPciDevice) (i : Fin kMaxPciBars) (mapping : Mapping) :
    GglPciDevice :=
  { pdev with
    bars := Function.update pdev.bars i mapping.address
    barSizesBytes := Function.update pdev.barSizesBytes i mapping.size
    mappings := by
      intro j
      by_cases here : j = i
      · subst here
        simpa only [Function.update_self] using mapping.inSpace
      · simpa only [Function.update_of_ne here] using pdev.mappings j }

def setBar (pdev : GglPciDevice) (barIndex : ℕ) (mapping : Mapping) : Linux GglPciDevice :=
  if inside : barIndex < kMaxPciBars then return pdev.withBar ⟨barIndex, inside⟩ mapping
  else throw .bounds

def mapBar (barOffset barIndex : ℕ) (pdev : GglPciDevice) : Linux GglPciDevice :=
  let resourceXPath := pdev.devicePath ++ text "/resource" ++ text (toString barOffset)
  if !env.fileExists resourceXPath then return pdev
  else do
    let mapping ← mMapFile env resourceXPath
    setBar pdev barIndex mapping

def mapBars (flags : Flags) (barOffset barIndex : ℕ) (pdev : GglPciDevice) : Linux GglPciDevice :=
  if inside : barOffset < kMaxPciBars then do
    let pdev ← mapBar env barOffset barIndex pdev
    mapBars flags (barOffset + if is64BitBAR (flags ⟨barOffset, inside⟩) then 2 else 1)
      (barIndex + 1) pdev
  else return pdev
termination_by kMaxPciBars - barOffset
decreasing_by split <;> omega

def delete : Linux Unit := release .notHeld .device

def gglPciOpen (deviceLocator : Bytes) : Linux (Option GglPciDevice) := do
  acquire .device
  let devicePath := parsePciAddress deviceLocator
  if devicePath = [] then do
    delete
    return none
  else do
    let pciConfig := env.openFD (env.joinPath devicePath (text "config"))
    if pciConfig < 0 then do
      delete
      return none
    else do
      acquire (.fd pciConfig)
      match env.fstat pciConfig with
      | none => do
        delete
        return none
      | some configSizeBytes => do
        let flags ← getBARFlags env devicePath
        match flags with
        | none => do
          delete
          return none
        | some flags => do
          let pdev ← mapBars env flags 0 0
            ⟨devicePath, pciConfig, configSizeBytes, fun _ => 0, fun _ => 0, fun _ => by decide⟩
          return some pdev

end Open

section Close

variable (closing : Closing)

/-- The program stops when a BAR cannot be unmapped. -/
def unmapBar (pdev : GglPciDevice) (i : Fin kMaxPciBars) : Linux Unit :=
  if pdev.bars i = 0 then return
  else if closing.mUnmap (pdev.bars i) (pdev.barSizesBytes i) then
    release .notHeld (.mapping (pdev.bars i) (pdev.barSizesBytes i))
  else throw .checkFailed

def unmapBars (pdev : GglPciDevice) : List (Fin kMaxPciBars) → Linux Unit
  | [] => return
  | i :: indices => do
    unmapBar closing pdev i
    unmapBars pdev indices

def gglPciClose (pdev : GglPciDevice) : Linux ℤ :=
  if !closing.closeFD pdev.pciConfig then return -1
  else do
    release .notHeld (.fd pdev.pciConfig)
    unmapBars closing pdev (List.finRange kMaxPciBars)
    delete
    return 0

end Close

end Nanolibc.LinuxPciModel
