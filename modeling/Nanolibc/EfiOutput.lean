import Nanolibc.EfiConsoleOutput
import Nanolibc.StdioOutput

set_option autoImplicit false

namespace Nanolibc.EfiOutput
open Lib.Program Lib.Chunks CString StdioModel EfiConsoleModel
open Lib.ArrayHeap (Fault)

def efiSysdeps : Sysdeps where
  writeStdout _ bytes := Int64.ofNat bytes.length
  writeStderr _ bytes := Int64.ofNat bytes.length

/-- Where the bytes for a stream are shown; `stdErr` tells whether the system table has it. -/
def shownOn (stdErr : Bool) : Std → EfiConsoleModel.Stream
  | .stderr => if stdErr then .stdErr else .conOut
  | _ => .conOut

/-- The wide characters that a call of a writer prints: none from a NUL on. -/
def shownOf (bytes : Bytes) : List UInt16 := convertAll (EfiConsoleModel.text bytes bytes.length)

def shown (stdErr : Bool) (stream : EfiConsoleModel.Stream) (log : Log) : List UInt16 :=
  (log.filter (shownOn stdErr ·.1 = stream)).flatMap fun call => shownOf call.2.1

def handed (stdErr : Bool) (stream : EfiConsoleModel.Stream) (log : Log) : Bytes :=
  (log.filter (shownOn stdErr ·.1 = stream)).flatMap fun call => call.2.1

section Console

variable {stdErr : Bool} {stream : EfiConsoleModel.Stream} {log : Log} {bad : Fault → Prop}

/-- The text of a writer's calls as it is shown: all of it where it has no NUL, and less of it
where it has. -/
structure ShownAs (bytes : Bytes) (wide : List UInt16) : Prop where
  le : wide.countP (· ≠ widen (ch '\n')) ≤ bytes.length
  whole : 0 ∉ bytes → wide = convertAll bytes
  clean : wide.countP (· ≠ widen (ch '\n')) = bytes.length → 0 ∉ bytes

theorem ShownAs.append {xs ys : Bytes} {first rest : List UInt16} (one : ShownAs xs first)
    (others : ShownAs ys rest) : ShownAs (xs ++ ys) (first ++ rest) := by
  have le := one.le
  have less := others.le
  constructor
  · rw [List.countP_append, List.length_append]
    exact Nat.add_le_add le less
  · intro clean
    rw [List.mem_append, not_or] at clean
    rw [one.whole clean.1, others.whole clean.2, convertAll_append]
  · intro count
    rw [List.countP_append, List.length_append] at count
    rw [List.mem_append, not_or]
    exact ⟨one.clean (by omega), others.clean (by omega)⟩

end Console

section Runs

variable {stdErr : Bool} {stream : EfiConsoleModel.Stream} {log more : Log} {op : Output}
  {ops : List Output}

theorem efi_accepts : efiSysdeps.Accepts := ⟨fun _ _ => rfl, fun _ _ => rfl⟩

end Runs

end Nanolibc.EfiOutput
