import Nanolibc.LinuxPciModel

set_option autoImplicit false

namespace Nanolibc.LinuxPciModel
open Lib.Program Lib.FlatMemory CString

section Access

variable (pdev : GglPciDevice) (barIndex : Fin kMaxPciBars) (offset : UInt64)

def Inside : Prop :=
  pdev.bars barIndex ≠ 0 ∧ offset.toNat + 4 ≤ (pdev.barSizesBytes barIndex).toNat

def register : List ℕ := (List.range 4).map fun i => (pdev.bars barIndex).toNat + offset.toNat + i

def registerValue (m : Memory) : UInt32 :=
  UInt32.ofNat (ofBytes ((register pdev barIndex offset).map m.bytes))

def ReadsRegister (val : UInt32) (m : Memory) : Prop :=
  wp (gglPciMread32 pdev barIndex offset val) (fun r m' =>
    (r.1 = 0 ↔ Inside pdev barIndex offset) ∧
    (Inside pdev barIndex offset → r.2 = registerValue pdev barIndex offset m ∧
      m' = { m with reads := (register pdev barIndex offset).reverse ++ m.reads }) ∧
    (¬Inside pdev barIndex offset → r.2 = val ∧ m' = m)) never m

def WritesRegister (val : UInt32) (m : Memory) : Prop :=
  wp (gglPciMwrite32 pdev barIndex offset val) (fun r m' =>
    (r = 0 ↔ Inside pdev barIndex offset) ∧
    (Inside pdev barIndex offset → registerValue pdev barIndex offset m' = val ∧
      (∀ x, x ∉ register pdev barIndex offset → m'.bytes x = m.bytes x) ∧
      m'.reads = m.reads ∧
      m'.writes = (register pdev barIndex offset).reverse ++ m.writes) ∧
    (¬Inside pdev barIndex offset → m' = m)) never m

/-- An offset near 2^64 whose sum with 4 is small enough to pass the test. -/
def WrapsInto : Prop :=
  pdev.bars barIndex ≠ 0 ∧ 2 ^ 64 ≤ offset.toNat + 4 ∧
    offset.toNat + 4 - 2 ^ 64 ≤ (pdev.barSizesBytes barIndex).toNat

end Access

section Accesses

variable {pdev : GglPciDevice} {barIndex : Fin kMaxPciBars} {offset : UInt64} {m : Memory}

theorem passes_iff : ¬(pdev.bars barIndex = 0 ∨ offset + 4 > pdev.barSizesBytes barIndex) ↔
    Inside pdev barIndex offset ∨ WrapsInto pdev barIndex offset := by
  have bound := offset.toNat_lt
  have size := (pdev.barSizesBytes barIndex).toNat_lt
  have sum : (offset + 4).toNat = (offset.toNat + 4) % 2 ^ 64 := UInt64.toNat_add offset 4
  have test : offset + 4 > pdev.barSizesBytes barIndex ↔
      (pdev.barSizesBytes barIndex).toNat < (offset.toNat + 4) % 2 ^ 64 := by
    rw [← sum]
    exact UInt64.lt_iff_toNat_lt
  rw [test, Inside, WrapsInto, ← and_or_left, not_or]
  refine and_congr_right fun _ => ?_
  omega

theorem inside_not_wraps (inside : Inside pdev barIndex offset) :
    ¬WrapsInto pdev barIndex offset := by
  have size := (pdev.barSizesBytes barIndex).toNat_lt
  intro wraps
  have low := inside.2
  have high := wraps.2.1
  omega

theorem inside_base (inside : Inside pdev barIndex offset) :
    (pdev.bars barIndex + offset).toNat = (pdev.bars barIndex).toNat + offset.toNat ∧
      (pdev.bars barIndex).toNat + offset.toNat + 4 ≤ 2 ^ 64 := by
  have mapping := pdev.mappings barIndex
  have low := inside.2
  rw [UInt64.toNat_add]
  omega

theorem inside_span (inside : Inside pdev barIndex offset) :
    span (pdev.bars barIndex + offset).toNat 4 = register pdev barIndex offset := by
  obtain ⟨base, room⟩ := inside_base inside
  rw [base]
  apply List.map_congr_left
  intro i hi
  have small := List.mem_range.mp hi
  exact Nat.mod_eq_of_lt (by omega)

theorem registerValue_writeAll (inside : Inside pdev barIndex offset) (val : UInt32) :
    registerValue pdev barIndex offset (m.writeAll (pdev.bars barIndex + offset).toNat
      ((List.range 4).map (byte val.toNat))) = val := by
  obtain ⟨base, room⟩ := inside_base inside
  have bytes : (register pdev barIndex offset).map (m.writeAll (pdev.bars barIndex + offset).toNat
      ((List.range 4).map (byte val.toNat))).bytes = (List.range 4).map (byte val.toNat) := by
    rw [register, List.map_map]
    apply List.map_congr_left
    intro i hi
    have small := List.mem_range.mp hi
    rw [base]
    apply writeAll_inside (by simpa using room)
    simp [small]
  have small : val.toNat % 256 ^ 4 = val.toNat := Nat.mod_eq_of_lt val.toNat_lt
  rw [registerValue, bytes, ofBytes_byte, small, UInt32.ofNat_toNat]

theorem writeAll_elsewhere (inside : Inside pdev barIndex offset) (val : UInt32) {x : ℕ}
    (out : x ∉ register pdev barIndex offset) :
    (m.writeAll (pdev.bars barIndex + offset).toNat
      ((List.range 4).map (byte val.toNat))).bytes x = m.bytes x := by
  obtain ⟨base, room⟩ := inside_base inside
  rw [← inside_span inside, base, mem_span room] at out
  rw [base]
  apply writeAll_outside (by simpa using room)
  rw [List.length_map, List.length_range]
  omega

theorem readsRegister_iff (val : UInt32) :
    ReadsRegister pdev barIndex offset val m ↔ ¬WrapsInto pdev barIndex offset := by
  unfold ReadsRegister gglPciMread32
  by_cases refused : pdev.bars barIndex = 0 ∨ offset + 4 > pdev.barSizesBytes barIndex
  · have outside := not_or.mp (passes_iff.not.mp (not_not_intro refused))
    rw [if_pos refused, wp_pure]
    simp [outside.1, outside.2]
  · simp only [if_neg refused, wp_bind, wp_loadAll, wp_pure]
    constructor
    · intro reads
      exact inside_not_wraps (reads.1.mp trivial)
    · intro exact
      have inside := (passes_iff.mp refused).resolve_right exact
      rw [inside_span inside, Memory.readAll, inside_span inside]
      simp [inside, registerValue]

theorem writesRegister_iff (val : UInt32) :
    WritesRegister pdev barIndex offset val m ↔ ¬WrapsInto pdev barIndex offset := by
  unfold WritesRegister gglPciMwrite32
  by_cases refused : pdev.bars barIndex = 0 ∨ offset + 4 > pdev.barSizesBytes barIndex
  · have outside := not_or.mp (passes_iff.not.mp (not_not_intro refused))
    rw [if_pos refused, wp_pure]
    simp [outside.1, outside.2]
  · simp only [if_neg refused, wp_bind, wp_storeAll, wp_pure]
    constructor
    · intro writes
      exact inside_not_wraps (writes.1.mp trivial)
    · intro exact
      have inside := (passes_iff.mp refused).resolve_right exact
      refine ⟨by simp [inside], ?_, fun outside => (outside inside).elim⟩
      intro _
      constructor
      · exact registerValue_writeAll inside val
      constructor
      · exact fun x out => writeAll_elsewhere inside val out
      constructor
      · exact writeAll_reads
      · rw [writeAll_writes, ← inside_span inside, List.length_map, List.length_range]

end Accesses

/-- The accesses are right for every offset but those whose sum with 4 wraps around to a small
one, in a BAR that is mapped. -/
theorem pci_access_iff (pdev : GglPciDevice) (barIndex : Fin kMaxPciBars) (offset : UInt64)
    (val : UInt32) (m : Memory) :
    (ReadsRegister pdev barIndex offset val m ↔
      pdev.bars barIndex = 0 ∨ offset.toNat + 4 < 2 ^ 64 ∨
        (pdev.barSizesBytes barIndex).toNat < offset.toNat + 4 - 2 ^ 64) ∧
    (WritesRegister pdev barIndex offset val m ↔
      pdev.bars barIndex = 0 ∨ offset.toNat + 4 < 2 ^ 64 ∨
        (pdev.barSizesBytes barIndex).toNat < offset.toNat + 4 - 2 ^ 64) := by
  have wraps : ¬WrapsInto pdev barIndex offset ↔
      pdev.bars barIndex = 0 ∨ offset.toNat + 4 < 2 ^ 64 ∨
        (pdev.barSizesBytes barIndex).toNat < offset.toNat + 4 - 2 ^ 64 := by
    rw [WrapsInto, not_and_or, not_and_or, not_not, not_le, not_le]
  rw [← wraps]
  exact ⟨readsRegister_iff val, writesRegister_iff val⟩

def oneBar : GglPciDevice where
  devicePath := []
  pciConfig := 3
  configSizeBytes := 256
  bars := fun i => if i = 0 then 4096 else 0
  barSizesBytes := fun i => if i = 0 then 16 else 0
  mappings := by decide

/-- At offset 2^64 - 4 the four bytes in front of the BAR are read and written. -/
theorem pci_access_wraps :
    ¬ReadsRegister oneBar 0 0xfffffffffffffffc 0 ⟨fun _ => 0, [], []⟩ ∧
      ¬WritesRegister oneBar 0 0xfffffffffffffffc 0 ⟨fun _ => 0, [], []⟩ := by
  have wraps : WrapsInto oneBar 0 0xfffffffffffffffc := by
    unfold WrapsInto
    decide
  rw [readsRegister_iff, writesRegister_iff]
  exact ⟨not_not_intro wraps, not_not_intro wraps⟩

end Nanolibc.LinuxPciModel
