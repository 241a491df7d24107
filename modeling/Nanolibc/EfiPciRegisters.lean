import Nanolibc.EfiPciModel
import Nanolibc.LinuxPciRegisters
import Nanolibc.PciPolling

set_option autoImplicit false

namespace Nanolibc.EfiPciModel
open Lib.Program CString
open LinuxPciModel (kMaxPciBars ByteOrder Access Answer Registers Host Backing Shows Apart overwrite
  valueAt accessAll wp_accessAll store_length leToHost_load store_leToHost valueAt_lt)

abbrev EfiStatus := UInt64

/-- `Pci.Read`, `Pci.Write`, `Mem.Read` and `Mem.Write` for one value of `k` bytes. -/
structure Protocol (σ : Type) where
  pciRead (k : ℕ) (offset : UInt32) (buffer : Bytes) : Prog σ Empty (EfiStatus × Bytes)
  pciWrite (k : ℕ) (offset : UInt32) (buffer : Bytes) : Prog σ Empty EfiStatus
  memRead (barIndex : Fin kMaxPciBars) (offset : UInt64) (buffer : Bytes) :
    Prog σ Empty (EfiStatus × Bytes)
  memWrite (barIndex : Fin kMaxPciBars) (offset : UInt64) (buffer : Bytes) : Prog σ Empty EfiStatus

section Model

variable {σ : Type} (order : ByteOrder) (pciIo : Protocol σ)

/-- A register of `k` bytes is read into `Data`, which is `junk` before. -/
def cfgread (k junk : ℕ) (offset : UInt32) (val : ℕ) : Prog σ Empty (ℤ × ℕ) := do
  let (status, data) ← pciIo.pciRead k offset (order.store k junk)
  if efiError status then return (-1, val)
  else return (0, order.leToHost k (order.load data))

def cfgwrite (k : ℕ) (offset : UInt32) (val : ℕ) : Prog σ Empty ℤ := do
  let data := order.store k (order.leToHost k val)
  let status ← pciIo.pciWrite k offset data
  return if efiError status then -1 else 0

def gglPciCfgread16 (offset : UInt32) (val : UInt16) : Prog σ Empty (ℤ × UInt16) := do
  let (r, v) ← cfgread order pciIo 2 0xa5a5 offset val.toNat
  return (r, UInt16.ofNat v)

def gglPciCfgread32 (offset : UInt32) (val : UInt32) : Prog σ Empty (ℤ × UInt32) := do
  let (r, v) ← cfgread order pciIo 4 0xa5a5a5a5 offset val.toNat
  return (r, UInt32.ofNat v)

def gglPciCfgwrite16 (offset : UInt32) (val : UInt16) : Prog σ Empty ℤ :=
  cfgwrite order pciIo 2 offset val.toNat

def gglPciCfgwrite32 (offset : UInt32) (val : UInt32) : Prog σ Empty ℤ :=
  cfgwrite order pciIo 4 offset val.toNat

def gglPciMread32 (barIndex : Fin kMaxPciBars) (offset : UInt64) (val : UInt32) :
    Prog σ Empty (ℤ × UInt32) := do
  let (status, data) ← pciIo.memRead barIndex offset (order.store 4 0xa5a5a5a5)
  if efiError status then return (-1, val)
  else return (0, UInt32.ofNat (order.load data))

def gglPciMwrite32 (barIndex : Fin kMaxPciBars) (offset : UInt64) (val : UInt32) :
    Prog σ Empty ℤ := do
  let status ← pciIo.memWrite barIndex offset (order.store 4 val.toNat)
  return if efiError status then -1 else 0

def efiAccess : Access → Prog σ Empty Answer
  | .cfgread16 offset val => Prod.map id UInt16.toNat <$> gglPciCfgread16 order pciIo offset val
  | .cfgread32 offset val => Prod.map id UInt32.toNat <$> gglPciCfgread32 order pciIo offset val
  | .cfgwrite16 offset val => (·, 0) <$> gglPciCfgwrite16 order pciIo offset val
  | .cfgwrite32 offset val => (·, 0) <$> gglPciCfgwrite32 order pciIo offset val
  | .mread32 barIndex offset val =>
    Prod.map id UInt32.toNat <$> gglPciMread32 order pciIo barIndex offset val
  | .mwrite32 barIndex offset val => (·, 0) <$> gglPciMwrite32 order pciIo barIndex offset val

def efiAccessAll : List Access → Prog σ Empty (List Answer)
  | [] => return []
  | a :: accesses => do
    let r ← efiAccess order pciIo a
    let rs ← efiAccessAll accesses
    return r :: rs

end Model

structure Contents (σ : Type) where
  config : σ → ℕ → UInt8
  bars : σ → Fin kMaxPciBars → ℕ → UInt8

def Contents.registers {σ : Type} (contents : Contents σ) (s : σ) (n : ℕ) : Registers :=
  ⟨contents.config s, contents.bars s, n⟩

/-- The protocol reads and writes the bytes at an offset, in the order in which they lie there, and
fails without a change where they are not all inside the space. -/
structure Serves {σ : Type} (pciIo : Protocol σ) (contents : Contents σ) (configSize : ℕ)
    (barSize : Fin kMaxPciBars → ℕ) : Prop where
  pciRead : ∀ k (offset : UInt32) buffer s, buffer.length = k →
    wp (pciIo.pciRead k offset buffer) (fun r s' =>
      (efiError r.1 = false ↔ offset.toNat + k ≤ configSize) ∧
      (efiError r.1 = false →
        r.2 = (List.range k).map fun i => contents.config s (offset.toNat + i)) ∧
      contents.config s' = contents.config s ∧ contents.bars s' = contents.bars s) never s
  pciWrite : ∀ k (offset : UInt32) buffer s, buffer.length = k →
    wp (pciIo.pciWrite k offset buffer) (fun status s' =>
      (efiError status = false ↔ offset.toNat + k ≤ configSize) ∧
      contents.config s' = (if efiError status then contents.config s
        else overwrite (contents.config s) offset.toNat k buffer) ∧
      contents.bars s' = contents.bars s) never s
  memRead : ∀ i (offset : UInt64) buffer s, buffer.length = 4 →
    wp (pciIo.memRead i offset buffer) (fun r s' =>
      (efiError r.1 = false ↔ offset.toNat + 4 ≤ barSize i) ∧
      (efiError r.1 = false →
        r.2 = (List.range 4).map fun x => contents.bars s i (offset.toNat + x)) ∧
      contents.config s' = contents.config s ∧ contents.bars s' = contents.bars s) never s
  memWrite : ∀ i (offset : UInt64) buffer s, buffer.length = 4 →
    wp (pciIo.memWrite i offset buffer) (fun status s' =>
      (efiError status = false ↔ offset.toNat + 4 ≤ barSize i) ∧
      contents.config s' = contents.config s ∧
      contents.bars s' = (if efiError status then contents.bars s
        else Function.update (contents.bars s) i
          (overwrite (contents.bars s i) offset.toNat 4 buffer))) never s

def sizeOf (pdev : LinuxPciModel.GglPciDevice) (i : Fin kMaxPciBars) : ℕ :=
  if pdev.bars i = 0 then 0 else (pdev.barSizesBytes i).toNat

section Step

variable {σ : Type} {pciIo : Protocol σ} {contents : Contents σ} {host : Host}
  {pdev : LinuxPciModel.GglPciDevice} {s : σ} {n k : ℕ} {offset : UInt32} {val junk : ℕ}

def Holds (contents : Contents σ) (t : Registers) (s : σ) : Prop :=
  ∃ n, t = contents.registers s n

theorem holds_of_same {s' : σ} (config : contents.config s' = contents.config s)
    (bars : contents.bars s' = contents.bars s) : Holds contents (contents.registers s n) s' := by
  refine ⟨n, ?_⟩
  rw [Contents.registers, Contents.registers, config, bars]

theorem inside_iff {i : Fin kMaxPciBars} {offset : UInt64} : offset.toNat + 4 ≤ sizeOf pdev i ↔
    pdev.bars i ≠ 0 ∧ offset.toNat + 4 ≤ (pdev.barSizesBytes i).toNat := by
  unfold sizeOf
  split_ifs with unmapped
  · exact iff_of_false (by omega) fun both => both.1 unmapped
  · exact (and_iff_right unmapped).symm

variable (serves : Serves pciIo contents pdev.configSizeBytes.toNat (sizeOf pdev))
  (whole : ∀ n k, host.moved n k = k)

include serves whole in
theorem wp_efiCfgread : wp (cfgread host.order pciIo k junk offset val) (fun r s' =>
    r = ((contents.registers s n).read host pdev k offset val).2 ∧
      Holds contents ((contents.registers s n).read host pdev k offset val).1 s') never s := by
  rw [cfgread, wp_bind]
  apply wp_post (serves.pciRead k offset _ s (store_length host.order k junk))
  rintro ⟨status, data⟩ s' ⟨served, read, config, bars⟩
  dsimp only at *
  unfold Registers.read
  by_cases failed : efiError status
  · have outside : ¬offset.toNat + k ≤ pdev.configSizeBytes.toNat := by
      rw [← served, failed]
      decide
    rw [if_pos failed, if_neg outside, wp_pure]
    exact ⟨rfl, holds_of_same config bars⟩
  · have success : efiError status = false := Bool.eq_false_of_not_eq_true failed
    have length : data.length = k := by rw [read success, List.length_map, List.length_range]
    have swapped := leToHost_load host.order data
    rw [length, read success] at swapped
    rw [if_neg failed, if_pos (served.mp success), wp_pure, if_pos (whole ..), read success,
      swapped]
    exact ⟨rfl, n + 1, by rw [Contents.registers, Contents.registers, config, bars]⟩

include serves whole in
theorem wp_efiCfgwrite : wp (cfgwrite host.order pciIo k offset val) (fun r s' =>
    (r, 0) = ((contents.registers s n).write host pdev k offset val).2 ∧
      Holds contents ((contents.registers s n).write host pdev k offset val).1 s') never s := by
  rw [cfgwrite, store_leToHost, wp_bind]
  apply wp_post (serves.pciWrite k offset _ s (by rw [List.length_map, List.length_range]))
  rintro status s' ⟨served, config, bars⟩
  unfold Registers.write
  rw [wp_pure]
  by_cases failed : efiError status
  · have outside : ¬offset.toNat + k ≤ pdev.configSizeBytes.toNat := by
      rw [← served, failed]
      decide
    rw [if_pos failed] at config
    rw [if_pos failed, if_neg outside]
    exact ⟨rfl, holds_of_same config bars⟩
  · have success : efiError status = false := Bool.eq_false_of_not_eq_true failed
    rw [if_neg failed] at config
    rw [if_neg failed, if_pos (served.mp success), if_pos (whole ..)]
    refine ⟨rfl, n + 1, ?_⟩
    rw [whole, Contents.registers, Contents.registers, config, bars]
    rfl

include serves in
theorem wp_efiMread32 {i : Fin kMaxPciBars} {offset : UInt64} {val : UInt32} :
    wp (gglPciMread32 host.order pciIo i offset val) (fun r s' =>
      (r.1, r.2.toNat) = (contents.registers s n).readBar host pdev i offset val.toNat ∧
        Holds contents (contents.registers s n) s') never s := by
  rw [gglPciMread32, wp_bind]
  apply wp_post (serves.memRead i offset _ s (store_length host.order 4 _))
  rintro ⟨status, data⟩ s' ⟨served, read, config, bars⟩
  rw [inside_iff] at served
  dsimp only at *
  unfold Registers.readBar
  by_cases failed : efiError status
  · have outside : ¬(pdev.bars i ≠ 0 ∧ offset.toNat + 4 ≤ (pdev.barSizesBytes i).toNat) := by
      rw [← served, failed]
      decide
    rw [if_pos failed, if_neg outside, wp_pure]
    exact ⟨rfl, holds_of_same config bars⟩
  · have success : efiError status = false := Bool.eq_false_of_not_eq_true failed
    have small : valueAt host.order (contents.bars s i) offset.toNat 4 < 2 ^ 32 := valueAt_lt ..
    rw [if_neg failed, if_pos (served.mp success), wp_pure, read success, ← valueAt]
    dsimp only
    rw [UInt32.toNat_ofNat', Nat.mod_eq_of_lt small]
    exact ⟨rfl, holds_of_same config bars⟩

include serves in
theorem wp_efiMwrite32 {i : Fin kMaxPciBars} {offset : UInt64} {val : UInt32} :
    wp (gglPciMwrite32 host.order pciIo i offset val) (fun r s' =>
      (r, 0) = ((contents.registers s n).writeBar host pdev i offset val.toNat).2 ∧
        Holds contents ((contents.registers s n).writeBar host pdev i offset val.toNat).1 s')
      never s := by
  rw [gglPciMwrite32, wp_bind]
  apply wp_post (serves.memWrite i offset _ s (store_length host.order 4 _))
  rintro status s' ⟨served, config, bars⟩
  rw [inside_iff] at served
  unfold Registers.writeBar
  rw [wp_pure]
  by_cases failed : efiError status
  · have outside : ¬(pdev.bars i ≠ 0 ∧ offset.toNat + 4 ≤ (pdev.barSizesBytes i).toNat) := by
      rw [← served, failed]
      decide
    rw [if_pos failed] at bars
    rw [if_pos failed, if_neg outside]
    exact ⟨rfl, holds_of_same config bars⟩
  · have success : efiError status = false := Bool.eq_false_of_not_eq_true failed
    rw [if_neg failed] at bars
    rw [if_neg failed, if_pos (served.mp success)]
    refine ⟨rfl, n, ?_⟩
    rw [Contents.registers, Contents.registers, config, bars]

include serves whole in
theorem wp_efiAccess (a : Access) : wp (efiAccess host.order pciIo a) (fun r s' =>
    r = ((contents.registers s n).perform host pdev a).2 ∧
      Holds contents ((contents.registers s n).perform host pdev a).1 s') never s := by
  cases a with
  | cfgread16 offset val =>
    rw [efiAccess, wp_map, gglPciCfgread16, wp_bind]
    apply wp_post (wp_efiCfgread (n := n) serves whole)
    rintro ⟨r, v⟩ s' ⟨same, holds⟩
    rw [wp_pure]
    refine ⟨?_, holds⟩
    have small : ((contents.registers s n).read host pdev 2 offset val.toNat).2.2 < 2 ^ 16 :=
      LinuxPciModel.read_lt val.toNat_lt
    rw [← same] at small
    rw [Registers.perform, ← same, Prod.map, UInt16.toNat_ofNat', Nat.mod_eq_of_lt small]
    rfl
  | cfgread32 offset val =>
    rw [efiAccess, wp_map, gglPciCfgread32, wp_bind]
    apply wp_post (wp_efiCfgread (n := n) serves whole)
    rintro ⟨r, v⟩ s' ⟨same, holds⟩
    rw [wp_pure]
    refine ⟨?_, holds⟩
    have small : ((contents.registers s n).read host pdev 4 offset val.toNat).2.2 < 2 ^ 32 :=
      LinuxPciModel.read_lt val.toNat_lt
    rw [← same] at small
    rw [Registers.perform, ← same, Prod.map, UInt32.toNat_ofNat', Nat.mod_eq_of_lt small]
    rfl
  | cfgwrite16 offset val =>
    rw [efiAccess, wp_map, gglPciCfgwrite16]
    exact wp_efiCfgwrite serves whole
  | cfgwrite32 offset val =>
    rw [efiAccess, wp_map, gglPciCfgwrite32]
    exact wp_efiCfgwrite serves whole
  | mread32 i offset val =>
    rw [efiAccess, wp_map]
    have read : wp (gglPciMread32 host.order pciIo i offset val) _ never s :=
      wp_efiMread32 (n := n) serves
    apply wp_post read
    rintro ⟨r, v⟩ s' ⟨same, holds⟩
    exact ⟨same, holds⟩
  | mwrite32 i offset val =>
    rw [efiAccess, wp_map]
    exact wp_efiMwrite32 serves

include serves whole in
theorem wp_efiAccessAll : ∀ (accesses : List Access) (s : σ) (n : ℕ),
    wp (efiAccessAll host.order pciIo accesses) (fun rs s' =>
      rs = ((contents.registers s n).performAll host pdev accesses).2 ∧
        Holds contents ((contents.registers s n).performAll host pdev accesses).1 s') never s := by
  intro accesses
  induction accesses with
  | nil =>
    intro s n
    rw [efiAccessAll, wp_pure]
    exact ⟨rfl, n, rfl⟩
  | cons a accesses ih =>
    intro s n
    rw [efiAccessAll, wp_bind]
    apply wp_post (wp_efiAccess serves whole a)
    rintro r s' ⟨rfl, k, after⟩
    rw [wp_bind]
    apply wp_post (ih s' k)
    rintro rs u ⟨rfl, last⟩
    rw [← after] at last ⊢
    rw [wp_pure]
    exact ⟨rfl, last⟩

end Step

/-- A driver cannot tell the two backends apart: on a device whose bytes are the same, and where
the system moves whole values, any run of accesses returns the same from both, and leaves the
same bytes in the device. -/
theorem backends_agree {σ : Type} (pciIo : Protocol σ) (contents : Contents σ) (host : Host)
    (pdev : LinuxPciModel.GglPciDevice)
    (serves : Serves pciIo contents pdev.configSizeBytes.toNat (sizeOf pdev))
    (whole : ∀ n k, host.moved n k = k) (apart : Apart pdev) (junk : ℕ → UInt8)
    (accesses : List Access) (sane : ∀ a ∈ accesses, a.Sane) (linux : Backing) (efi : σ)
    (shows : Shows pdev linux (contents.registers efi linux.transfers)) :
    ∃ rs linux' efi', accessAll host pdev junk accesses linux = .ok (rs, linux') ∧
      efiAccessAll host.order pciIo accesses efi = .ok (rs, efi') ∧
      Shows pdev linux' (contents.registers efi' linux'.transfers) := by
  have ran : wp (accessAll host pdev junk accesses) _ never linux :=
    wp_accessAll apart accesses linux _ sane shows
  obtain ⟨_, linux', run, rfl, after⟩ := wp_never.mp ran
  obtain ⟨_, efi', run', rfl, n, holds⟩ :=
    wp_never.mp (wp_efiAccessAll serves whole accesses efi linux.transfers)
  refine ⟨_, linux', efi', run, run', ?_⟩
  rw [holds] at after
  have counted : linux'.transfers = n := after.config.2
  rwa [counted]

def plainFirmware (configSize : ℕ) (barSize : Fin kMaxPciBars → ℕ) : Protocol Registers where
  pciRead k offset buffer := do
    let s ← get
    return if offset.toNat + k ≤ configSize then
      (0, (List.range k).map fun i => s.config (offset.toNat + i))
    else (0x8000000000000003, buffer)
  pciWrite k offset buffer := do
    let s ← get
    if offset.toNat + k ≤ configSize then do
      set { s with config := overwrite s.config offset.toNat k buffer }
      return 0
    else return 0x8000000000000003
  memRead i offset buffer := do
    let s ← get
    return if offset.toNat + 4 ≤ barSize i then
      (0, (List.range 4).map fun x => s.bars i (offset.toNat + x))
    else (0x8000000000000003, buffer)
  memWrite i offset buffer := do
    let s ← get
    if offset.toNat + 4 ≤ barSize i then do
      set { s with
        bars := Function.update s.bars i (overwrite (s.bars i) offset.toNat 4 buffer) }
      return 0
    else return 0x8000000000000003

theorem refused : efiError 0x8000000000000003 ≠ false := by decide

theorem plainFirmware_serves (configSize : ℕ) (barSize : Fin kMaxPciBars → ℕ) :
    Serves (plainFirmware configSize barSize) ⟨Registers.config, Registers.bars⟩ configSize
      barSize where
  pciRead := by
    intro k offset buffer s _
    rw [plainFirmware, wp_bind, wp_get, wp_pure]
    split_ifs with inside
    · exact ⟨iff_of_true rfl inside, fun _ => rfl, rfl, rfl⟩
    · exact ⟨iff_of_false refused inside, fun success => absurd success refused, rfl, rfl⟩
  pciWrite := by
    intro k offset buffer s _
    rw [plainFirmware, wp_bind, wp_get]
    apply wp_ite
    · intro inside
      exact ⟨iff_of_true rfl inside, rfl, rfl⟩
    · intro outside
      exact ⟨iff_of_false refused outside, rfl, rfl⟩
  memRead := by
    intro i offset buffer s _
    rw [plainFirmware, wp_bind, wp_get, wp_pure]
    split_ifs with inside
    · exact ⟨iff_of_true rfl inside, fun _ => rfl, rfl, rfl⟩
    · exact ⟨iff_of_false refused inside, fun success => absurd success refused, rfl, rfl⟩
  memWrite := by
    intro i offset buffer s _
    rw [plainFirmware, wp_bind, wp_get]
    apply wp_ite
    · intro inside
      exact ⟨iff_of_true rfl inside, rfl, rfl⟩
    · intro outside
      exact ⟨iff_of_false refused outside, rfl, rfl⟩

theorem secondBar_lt : 1 < kMaxPciBars := by decide

def fourAccesses : List Access :=
  [.cfgwrite32 4 0x12345678, .mwrite32 ⟨0, LinuxPciModel.firstBar_lt⟩ 12 7, .cfgread16 6 0,
    .mread32 ⟨1, secondBar_lt⟩ 0 5]

theorem backends_agree_four : ∃ rs linux' efi',
    accessAll ⟨.big, fun _ k => k⟩ LinuxPciModel.oneBar (fun _ => 0) fourAccesses
      LinuxPciModel.zeros = .ok (rs, linux') ∧
    efiAccessAll .big (plainFirmware 256 (sizeOf LinuxPciModel.oneBar)) fourAccesses
      ⟨fun _ => 0, fun _ _ => 0, 0⟩ = .ok (rs, efi') ∧
    Shows LinuxPciModel.oneBar linux' ⟨efi'.config, efi'.bars, linux'.transfers⟩ :=
  backends_agree (plainFirmware 256 (sizeOf LinuxPciModel.oneBar))
    ⟨Registers.config, Registers.bars⟩ ⟨.big, fun _ k => k⟩ LinuxPciModel.oneBar
    (plainFirmware_serves 256 _) (fun _ _ => rfl) LinuxPciModel.oneBar_apart (fun _ => 0)
    fourAccesses (by simp [fourAccesses, Access.Sane]) LinuxPciModel.zeros
    ⟨fun _ => 0, fun _ _ => 0, 0⟩ ⟨⟨rfl, rfl⟩, fun _ _ _ _ => rfl⟩

end Nanolibc.EfiPciModel
