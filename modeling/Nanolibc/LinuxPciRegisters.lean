import Nanolibc.LinuxPciAccess

set_option autoImplicit false

namespace Nanolibc.LinuxPciModel
open Lib.Program Lib.FlatMemory CString

inductive ByteOrder where
  | little
  | big
  deriving DecidableEq

namespace ByteOrder

def store : ByteOrder → ℕ → ℕ → Bytes
  | little, k, v => (List.range k).map (byte v)
  | big, k, v => ((List.range k).map (byte v)).reverse

def load : ByteOrder → Bytes → ℕ
  | little, bytes => ofBytes bytes
  | big, bytes => ofBytes bytes.reverse

def leToHost : ByteOrder → ℕ → ℕ → ℕ
  | little, _, v => v
  | big, k, v => ofBytes ((List.range k).map (byte v)).reverse

end ByteOrder

structure Backing where
  config : ℕ → UInt8
  transfers : ℕ
  memory : Memory

/-- The host, and what the system does: how many of the `k` bytes its next transfer moves, or -1. -/
structure Host where
  order : ByteOrder
  moved : ℕ → ℕ → ℤ

abbrev OnDevice (β : Type) := Prog Backing Empty β

section Config

variable (host : Host) (pdev : GglPciDevice) (junk : ℕ → UInt8)

/-- `pread` into a variable of `k` bytes; what is not read is what was there. -/
def pread (k offset : ℕ) : OnDevice (ℤ × Bytes) := do
  let s ← get
  let n := host.moved s.transfers k
  set { s with transfers := s.transfers + 1 }
  return (n, (List.range k).map fun i : ℕ =>
    if (i : ℤ) < n then s.config (offset + i) else junk i)

def overwrite (config : ℕ → UInt8) (offset n : ℕ) (bytes : Bytes) : ℕ → UInt8 := fun x =>
  if offset ≤ x ∧ x < offset + n then (bytes[x - offset]?).getD (config x)
  else config x

def pwrite (k offset : ℕ) (bytes : Bytes) : OnDevice ℤ := do
  let s ← get
  let n := host.moved s.transfers k
  set { s with
    config := overwrite s.config offset n.toNat bytes
    transfers := s.transfers + 1 }
  return n

def cfgread (k : ℕ) (offset : UInt32) (val : ℕ) : OnDevice (ℤ × ℕ) :=
  if offset.toNat + k > pdev.configSizeBytes.toNat then return (-1, val)
  else do
    let (bytesRead, littleEndianValue) ← pread host junk k offset.toNat
    if bytesRead ≠ k then return (-1, val)
    else return (0, host.order.leToHost k (host.order.load littleEndianValue))

def cfgwrite (k : ℕ) (offset : UInt32) (val : ℕ) : OnDevice ℤ :=
  if offset.toNat + k > pdev.configSizeBytes.toNat then return -1
  else do
    let littleEndianValue := host.order.store k (host.order.leToHost k val)
    let bytesWritten ← pwrite host k offset.toNat littleEndianValue
    return if bytesWritten = k then 0 else -1

def gglPciCfgread16 (offset : UInt32) (val : UInt16) : OnDevice (ℤ × UInt16) := do
  let (r, v) ← cfgread host pdev junk 2 offset val.toNat
  return (r, UInt16.ofNat v)

def gglPciCfgread32 (offset : UInt32) (val : UInt32) : OnDevice (ℤ × UInt32) := do
  let (r, v) ← cfgread host pdev junk 4 offset val.toNat
  return (r, UInt32.ofNat v)

def gglPciCfgwrite16 (offset : UInt32) (val : UInt16) : OnDevice ℤ :=
  cfgwrite host pdev 2 offset val.toNat

def gglPciCfgwrite32 (offset : UInt32) (val : UInt32) : OnDevice ℤ :=
  cfgwrite host pdev 4 offset val.toNat

end Config

section Bars

variable (order : ByteOrder) (pdev : GglPciDevice) (barIndex : Fin kMaxPciBars) (offset : UInt64)

def mread32 (val : UInt32) : Prog Memory Empty (ℤ × UInt32) :=
  if pdev.bars barIndex = 0 ∨ offset + 4 > pdev.barSizesBytes barIndex then return (-1, val)
  else do
    let bytes ← loadAll (pdev.bars barIndex + offset).toNat 4
    return (0, UInt32.ofNat (order.load bytes))

def mwrite32 (val : UInt32) : Prog Memory Empty ℤ :=
  if pdev.bars barIndex = 0 ∨ offset + 4 > pdev.barSizesBytes barIndex then return -1
  else do
    storeAll (pdev.bars barIndex + offset).toNat (order.store 4 val.toNat)
    return 0

theorem mread32_little :
    mread32 .little pdev barIndex offset = gglPciMread32 pdev barIndex offset := rfl

theorem mwrite32_little :
    mwrite32 .little pdev barIndex offset = gglPciMwrite32 pdev barIndex offset := rfl

end Bars

inductive Access where
  | cfgread16 (offset : UInt32) (val : UInt16)
  | cfgread32 (offset : UInt32) (val : UInt32)
  | cfgwrite16 (offset : UInt32) (val : UInt16)
  | cfgwrite32 (offset : UInt32) (val : UInt32)
  | mread32 (barIndex : Fin kMaxPciBars) (offset : UInt64) (val : UInt32)
  | mwrite32 (barIndex : Fin kMaxPciBars) (offset : UInt64) (val : UInt32)

namespace Access

/-- The sum in the test of a BAR access does not wrap around. -/
def Sane : Access → Prop
  | mread32 _ offset _ | mwrite32 _ offset _ => offset.toNat + 4 < 2 ^ 64
  | _ => True

end Access

abbrev Answer := ℤ × ℕ

section Runs

variable (host : Host) (pdev : GglPciDevice) (junk : ℕ → UInt8)

def onMemory {β : Type} (p : Prog Memory Empty β) : OnDevice β :=
  zoom Backing.memory (fun s memory => { s with memory }) p

def access : Access → OnDevice Answer
  | .cfgread16 offset val => Prod.map id UInt16.toNat <$> gglPciCfgread16 host pdev junk offset val
  | .cfgread32 offset val => Prod.map id UInt32.toNat <$> gglPciCfgread32 host pdev junk offset val
  | .cfgwrite16 offset val => (·, 0) <$> gglPciCfgwrite16 host pdev offset val
  | .cfgwrite32 offset val => (·, 0) <$> gglPciCfgwrite32 host pdev offset val
  | .mread32 barIndex offset val =>
    Prod.map id UInt32.toNat <$> onMemory (mread32 host.order pdev barIndex offset val)
  | .mwrite32 barIndex offset val =>
    (·, 0) <$> onMemory (mwrite32 host.order pdev barIndex offset val)

def accessAll : List Access → OnDevice (List Answer)
  | [] => return []
  | a :: accesses => do
    let r ← access host pdev junk a
    let rs ← accessAll accesses
    return r :: rs

end Runs

structure Registers where
  config : ℕ → UInt8
  bars : Fin kMaxPciBars → ℕ → UInt8
  transfers : ℕ

def valueAt (order : ByteOrder) (bytes : ℕ → UInt8) (offset k : ℕ) : ℕ :=
  order.load ((List.range k).map fun i => bytes (offset + i))

namespace Registers

variable (host : Host) (pdev : GglPciDevice) (t : Registers)

def read (k : ℕ) (offset : UInt32) (val : ℕ) : Registers × Answer :=
  if offset.toNat + k ≤ pdev.configSizeBytes.toNat then
    ({ t with transfers := t.transfers + 1 },
      if host.moved t.transfers k = k then (0, valueAt .little t.config offset.toNat k)
      else (-1, val))
  else (t, -1, val)

def write (k : ℕ) (offset : UInt32) (v : ℕ) : Registers × Answer :=
  if offset.toNat + k ≤ pdev.configSizeBytes.toNat then
    ({ t with
        config := overwrite t.config offset.toNat (host.moved t.transfers k).toNat
          (ByteOrder.little.store k v)
        transfers := t.transfers + 1 },
      if host.moved t.transfers k = k then 0 else -1, 0)
  else (t, -1, 0)

def readBar (i : Fin kMaxPciBars) (offset : UInt64) (val : ℕ) : Answer :=
  if pdev.bars i ≠ 0 ∧ offset.toNat + 4 ≤ (pdev.barSizesBytes i).toNat then
    (0, valueAt host.order (t.bars i) offset.toNat 4)
  else (-1, val)

def writeBar (i : Fin kMaxPciBars) (offset : UInt64) (v : ℕ) : Registers × Answer :=
  if pdev.bars i ≠ 0 ∧ offset.toNat + 4 ≤ (pdev.barSizesBytes i).toNat then
    ({ t with bars :=
      Function.update t.bars i (overwrite (t.bars i) offset.toNat 4 (host.order.store 4 v)) }, 0, 0)
  else (t, -1, 0)

def perform : Access → Registers × Answer
  | .cfgread16 offset val => t.read host pdev 2 offset val.toNat
  | .cfgread32 offset val => t.read host pdev 4 offset val.toNat
  | .cfgwrite16 offset val => t.write host pdev 2 offset val.toNat
  | .cfgwrite32 offset val => t.write host pdev 4 offset val.toNat
  | .mread32 i offset val => (t, t.readBar host pdev i offset val.toNat)
  | .mwrite32 i offset val => t.writeBar host pdev i offset val.toNat

def performAll : Registers → List Access → Registers × List Answer
  | t, [] => (t, [])
  | t, a :: accesses =>
    let (u, r) := t.perform host pdev a
    let (v, rs) := performAll u accesses
    (v, r :: rs)

end Registers

section ByteOrders

theorem leToHost_load (order : ByteOrder) (bytes : Bytes) :
    order.leToHost bytes.length (order.load bytes) = ofBytes bytes := by
  cases order with
  | little => rfl
  | big =>
    have back := byte_ofBytes bytes.reverse
    rw [List.length_reverse] at back
    rw [ByteOrder.leToHost, ByteOrder.load, back, List.reverse_reverse]

theorem store_leToHost (order : ByteOrder) (k v : ℕ) :
    order.store k (order.leToHost k v) = (List.range k).map (byte v) := by
  cases order with
  | little => rfl
  | big =>
    have back := byte_ofBytes ((List.range k).map (byte v)).reverse
    rw [List.length_reverse, List.length_map, List.length_range] at back
    rw [ByteOrder.store, ByteOrder.leToHost, back, List.reverse_reverse]

theorem ofBytes_lt (bytes : Bytes) : ofBytes bytes < 256 ^ bytes.length := by
  have whole := ofBytes_byte bytes.length (ofBytes bytes)
  rw [byte_ofBytes] at whole
  rw [whole]
  exact Nat.mod_lt _ (Nat.pow_pos (by decide))

theorem store_length (order : ByteOrder) (k v : ℕ) : (order.store k v).length = k := by
  cases order <;> simp [ByteOrder.store]

theorem load_lt (order : ByteOrder) (bytes : Bytes) : order.load bytes < 256 ^ bytes.length := by
  cases order with
  | little => exact ofBytes_lt bytes
  | big =>
    have small := ofBytes_lt bytes.reverse
    rwa [List.length_reverse] at small

theorem valueAt_lt (order : ByteOrder) (bytes : ℕ → UInt8) (offset k : ℕ) :
    valueAt order bytes offset k < 256 ^ k := by
  have small := load_lt order ((List.range k).map fun i => bytes (offset + i))
  rwa [List.length_map, List.length_range] at small

end ByteOrders

section Config

variable {host : Host} {pdev : GglPciDevice} {junk : ℕ → UInt8} {k : ℕ} {offset : UInt32} {val : ℕ}
  {s : Backing} {t : Registers}

def ShowsConfig (s : Backing) (t : Registers) : Prop :=
  s.config = t.config ∧ s.transfers = t.transfers

theorem wp_cfgread (shows : ShowsConfig s t) :
    wp (cfgread host pdev junk k offset val) (fun r s' =>
      r = (t.read host pdev k offset val).2 ∧ s'.memory = s.memory ∧
        ShowsConfig s' (t.read host pdev k offset val).1 ∧
        (t.read host pdev k offset val).1.bars = t.bars) never s := by
  obtain ⟨config, transfers⟩ := shows
  unfold cfgread Registers.read
  apply wp_ite
  · intro beyond
    rw [wp_pure, if_neg (by omega)]
    exact ⟨rfl, rfl, ⟨config, transfers⟩, rfl⟩
  · intro within
    rw [wp_bind, pread, wp_bind, wp_get, wp_bind, wp_set, wp_pure, if_pos (by omega), ← transfers]
    apply wp_ite
    · intro short
      rw [wp_pure, if_neg short]
      exact ⟨rfl, rfl, ⟨config, rfl⟩, rfl⟩
    · intro whole
      have all := not_not.mp whole
      have read : ((List.range k).map fun i : ℕ => if (i : ℤ) < host.moved s.transfers k then
          s.config (offset.toNat + i) else junk i) =
          (List.range k).map fun i => t.config (offset.toNat + i) := by
        apply List.map_congr_left
        intro i mem
        have inside := List.mem_range.mp mem
        rw [if_pos (by omega), config]
      have swapped := leToHost_load host.order ((List.range k).map fun i =>
        t.config (offset.toNat + i))
      rw [List.length_map, List.length_range] at swapped
      rw [wp_pure, if_pos all, read, swapped]
      exact ⟨rfl, rfl, ⟨config, rfl⟩, rfl⟩

theorem read_lt (small : val < 256 ^ k) :
    (t.read host pdev k offset val).2.2 < 256 ^ k := by
  unfold Registers.read
  split_ifs
  · exact valueAt_lt .little t.config offset.toNat k
  · exact small
  · exact small

theorem wp_cfgwrite (shows : ShowsConfig s t) :
    wp (cfgwrite host pdev k offset val) (fun r s' =>
      (r, 0) = (t.write host pdev k offset val).2 ∧ s'.memory = s.memory ∧
        ShowsConfig s' (t.write host pdev k offset val).1 ∧
        (t.write host pdev k offset val).1.bars = t.bars) never s := by
  obtain ⟨config, transfers⟩ := shows
  unfold cfgwrite Registers.write
  apply wp_ite
  · intro beyond
    rw [wp_pure, if_neg (by omega)]
    exact ⟨rfl, rfl, ⟨config, transfers⟩, rfl⟩
  · intro within
    have inside : offset.toNat + k ≤ pdev.configSizeBytes.toNat := by omega
    simp only [wp_bind, pwrite, wp_get, wp_set, wp_pure, if_pos inside]
    rw [store_leToHost, config, transfers]
    exact ⟨rfl, trivial, ⟨rfl, rfl⟩, trivial⟩

end Config

section Step

variable {host : Host} {pdev : GglPciDevice} {junk : ℕ → UInt8} {s : Backing} {t : Registers}

structure Shows (pdev : GglPciDevice) (s : Backing) (t : Registers) : Prop where
  config : ShowsConfig s t
  bars : ∀ i, pdev.bars i ≠ 0 → ∀ x < (pdev.barSizesBytes i).toNat,
    s.memory.bytes ((pdev.bars i).toNat + x) = t.bars i x

def Apart (pdev : GglPciDevice) : Prop :=
  ∀ i j, i ≠ j → pdev.bars i ≠ 0 → pdev.bars j ≠ 0 →
    (pdev.bars i).toNat + (pdev.barSizesBytes i).toNat ≤ (pdev.bars j).toNat ∨
      (pdev.bars j).toNat + (pdev.barSizesBytes j).toNat ≤ (pdev.bars i).toNat

theorem Shows.of_config {u : Registers} {s' : Backing} (shows : Shows pdev s t)
    (memory : s'.memory = s.memory) (config : ShowsConfig s' u) (bars : u.bars = t.bars) :
    Shows pdev s' u := by
  refine ⟨config, ?_⟩
  rw [memory, bars]
  exact shows.bars

section Bars

variable {i : Fin kMaxPciBars} {offset : UInt64} {val : UInt32}

theorem sane_passes (sane : offset.toNat + 4 < 2 ^ 64) :
    ¬(pdev.bars i = 0 ∨ offset + 4 > pdev.barSizesBytes i) ↔
      pdev.bars i ≠ 0 ∧ offset.toNat + 4 ≤ (pdev.barSizesBytes i).toNat := by
  rw [passes_iff]
  refine or_iff_left_of_imp ?_
  intro wraps
  have high := wraps.2.1
  omega

theorem wp_mread32 (sane : offset.toNat + 4 < 2 ^ 64) (shows : Shows pdev s t) :
    wp (mread32 host.order pdev i offset val) (fun r m => (r.1, r.2.toNat) =
        t.readBar host pdev i offset val.toNat ∧ m.bytes = s.memory.bytes) never s.memory := by
  unfold mread32 Registers.readBar
  apply wp_ite
  · intro refused
    have outside := (sane_passes sane).not.mp (not_not.mpr refused)
    rw [wp_pure, if_neg outside]
    exact ⟨rfl, rfl⟩
  · intro passes
    have inside := (sane_passes sane).mp passes
    have bytes : (span (pdev.bars i + offset).toNat 4).map s.memory.bytes =
        (List.range 4).map fun k => t.bars i (offset.toNat + k) := by
      rw [inside_span inside, register, List.map_map]
      apply List.map_congr_left
      intro k mem
      have small := List.mem_range.mp mem
      have low := inside.2
      rw [← shows.bars i inside.1 _ (show offset.toNat + k < _ by omega), ← Nat.add_assoc]
      rfl
    rw [wp_bind, wp_loadAll, wp_pure, if_pos inside, bytes]
    have small : valueAt host.order (t.bars i) offset.toNat 4 < 2 ^ 32 := valueAt_lt ..
    rw [← valueAt]
    dsimp only
    rw [UInt32.toNat_ofNat', Nat.mod_eq_of_lt small]
    exact ⟨rfl, rfl⟩

theorem wp_mwrite32 (apart : Apart pdev) (sane : offset.toNat + 4 < 2 ^ 64)
    (shows : Shows pdev s t) :
    wp (mwrite32 host.order pdev i offset val) (fun r m => (r, 0) =
        (t.writeBar host pdev i offset val.toNat).2 ∧
        Shows pdev { s with memory := m } (t.writeBar host pdev i offset val.toNat).1)
      never s.memory := by
  unfold mwrite32 Registers.writeBar
  apply wp_ite
  · intro refused
    have outside := (sane_passes sane).not.mp (not_not.mpr refused)
    rw [wp_pure, if_neg outside]
    exact ⟨rfl, shows⟩
  · intro passes
    have inside := (sane_passes sane).mp passes
    obtain ⟨base, room⟩ := inside_base inside
    obtain ⟨bytes, stored⟩ : ∃ bytes, bytes = host.order.store 4 val.toNat := ⟨_, rfl⟩
    have length : bytes.length = 4 := by rw [stored, store_length]
    have fits : (pdev.bars i).toNat + offset.toNat + bytes.length ≤ 2 ^ 64 := by omega
    have end_i := inside.2
    rw [wp_bind, wp_storeAll, wp_pure, if_pos inside, base, ← stored]
    refine ⟨rfl, shows.config, ?_⟩
    intro j mapped x low
    dsimp only
    by_cases same : j = i
    · subst same
      rw [Function.update_self, overwrite]
      by_cases here : offset.toNat ≤ x ∧ x < offset.toNat + 4
      · have address : (pdev.bars j).toNat + x =
            (pdev.bars j).toNat + offset.toNat + (x - offset.toNat) := by omega
        obtain ⟨b, at_x⟩ : ∃ b, bytes[x - offset.toNat]? = some b :=
          ⟨_, List.getElem?_eq_getElem (by omega)⟩
        rw [if_pos here, at_x, address]
        exact writeAll_inside fits at_x
      · rw [if_neg here, ← shows.bars j mapped x low]
        exact writeAll_outside fits (by omega)
    · rw [Function.update_of_ne same, ← shows.bars j mapped x low]
      have away := apart i j (Ne.symm same) inside.1 mapped
      exact writeAll_outside fits (by omega)

end Bars

theorem wp_access (apart : Apart pdev) {a : Access} (sane : a.Sane)
    (shows : Shows pdev s t) :
    wp (access host pdev junk a) (fun r s' => r = (t.perform host pdev a).2 ∧
      Shows pdev s' (t.perform host pdev a).1) never s := by
  cases a with
  | cfgread16 offset val =>
    rw [access, wp_map, gglPciCfgread16, wp_bind]
    apply wp_post (wp_cfgread shows.config)
    rintro ⟨r, v⟩ s' ⟨same, memory, config, bars⟩
    rw [wp_pure]
    refine ⟨?_, shows.of_config memory config bars⟩
    have small : (t.read host pdev 2 offset val.toNat).2.2 < 2 ^ 16 := read_lt val.toNat_lt
    rw [← same] at small
    rw [Registers.perform, ← same, Prod.map, UInt16.toNat_ofNat', Nat.mod_eq_of_lt small]
    rfl
  | cfgread32 offset val =>
    rw [access, wp_map, gglPciCfgread32, wp_bind]
    apply wp_post (wp_cfgread shows.config)
    rintro ⟨r, v⟩ s' ⟨same, memory, config, bars⟩
    rw [wp_pure]
    refine ⟨?_, shows.of_config memory config bars⟩
    have small : (t.read host pdev 4 offset val.toNat).2.2 < 2 ^ 32 := read_lt val.toNat_lt
    rw [← same] at small
    rw [Registers.perform, ← same, Prod.map, UInt32.toNat_ofNat', Nat.mod_eq_of_lt small]
    rfl
  | cfgwrite16 offset val =>
    rw [access, wp_map, gglPciCfgwrite16]
    apply wp_post (wp_cfgwrite shows.config)
    rintro r s' ⟨same, memory, config, bars⟩
    exact ⟨same, shows.of_config memory config bars⟩
  | cfgwrite32 offset val =>
    rw [access, wp_map, gglPciCfgwrite32]
    apply wp_post (wp_cfgwrite shows.config)
    rintro r s' ⟨same, memory, config, bars⟩
    exact ⟨same, shows.of_config memory config bars⟩
  | mread32 i offset val =>
    rw [access, wp_map, onMemory, wp_zoom]
    apply wp_post (wp_mread32 sane shows)
    rintro ⟨r, v⟩ m ⟨same, bytes⟩
    refine ⟨same, shows.config, ?_⟩
    dsimp only
    rw [bytes]
    exact shows.bars
  | mwrite32 i offset val =>
    rw [access, wp_map, onMemory, wp_zoom]
    exact wp_mwrite32 apart sane shows

theorem wp_accessAll (apart : Apart pdev) : ∀ (accesses : List Access) (s : Backing)
    (t : Registers), (∀ a ∈ accesses, a.Sane) → Shows pdev s t →
    wp (accessAll host pdev junk accesses) (fun rs s' =>
      rs = (t.performAll host pdev accesses).2 ∧
        Shows pdev s' (t.performAll host pdev accesses).1) never s := by
  intro accesses
  induction accesses with
  | nil =>
    intro s t _ shows
    rw [accessAll, wp_pure]
    exact ⟨rfl, shows⟩
  | cons a accesses ih =>
    intro s t sane shows
    rw [accessAll, wp_bind]
    apply wp_post (wp_access apart (sane a List.mem_cons_self) shows)
    rintro r s' ⟨rfl, after⟩
    rw [wp_bind]
    apply wp_post (ih s' _ (fun b mem => sane b (List.mem_cons_of_mem a mem)) after)
    rintro rs u ⟨rfl, last⟩
    rw [wp_pure]
    exact ⟨rfl, last⟩

end Step

/-- Over any run of accesses a device is its bytes. The configuration space is little-endian on
every host, whatever part of a value a transfer moves, and what a register returns is what was
last put there; an access that is refused changes nothing. -/
theorem accesses_follow (host : Host) (pdev : GglPciDevice) (apart : Apart pdev)
    (junk : ℕ → UInt8) (accesses : List Access) (sane : ∀ a ∈ accesses, a.Sane) (s : Backing)
    (t : Registers) (shows : Shows pdev s t) :
    ∃ s', accessAll host pdev junk accesses s =
        .ok ((t.performAll host pdev accesses).2, s') ∧
      Shows pdev s' (t.performAll host pdev accesses).1 := by
  obtain ⟨_, s', run, rfl, after⟩ := wp_never.mp (wp_accessAll apart accesses s t sane shows)
  exact ⟨s', run, after⟩

def oneShort : Host := ⟨.big, fun n k => if n = 1 then 1 else k⟩

def zeros : Backing := ⟨fun _ => 0, 0, ⟨fun _ => 0, [], []⟩⟩

theorem firstBar_lt : 0 < kMaxPciBars := by decide

def threeAccesses : List Access :=
  [.cfgwrite32 4 0x12345678, .cfgwrite16 4 0xabcd, .mwrite32 ⟨0, firstBar_lt⟩ 12 7]

theorem oneBar_apart : Apart oneBar := by
  intro i j other hi hj
  have first : ∀ k, oneBar.bars k ≠ 0 → k = 0 := by decide
  exact absurd ((first i hi).trans (first j hj).symm) other

theorem accesses_follow_short : ∃ s',
    accessAll oneShort oneBar (fun _ => 0) threeAccesses zeros =
      .ok ([(0, 0), (-1, 0), (0, 0)], s') ∧
    Shows oneBar s' (Registers.performAll oneShort oneBar ⟨fun _ => 0, fun _ _ => 0, 0⟩
      threeAccesses).1 :=
  accesses_follow oneShort oneBar oneBar_apart (fun _ => 0) threeAccesses
    (by simp [threeAccesses, Access.Sane]) zeros ⟨fun _ => 0, fun _ _ => 0, 0⟩
    ⟨⟨rfl, rfl⟩, fun _ _ _ _ => rfl⟩

end Nanolibc.LinuxPciModel
