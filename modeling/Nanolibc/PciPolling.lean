import Nanolibc.LinuxPciPoll

set_option autoImplicit false

/-!
# The deadline of a poll on both backends

The EFI backend leaves the poll to `PollMem`, with the timeout in units of 100 ns. Time is counted
in nanoseconds from the start of the poll, and a register is its value at each of them.
-/
namespace Nanolibc.EfiPciModel

structure PollMemCall where
  barIndex : UInt8
  offset : UInt64
  mask : UInt64
  value : UInt64
  delay : UInt64

def efiTimeout : UInt64 := 0x8000000000000012

def efiError (status : UInt64) : Bool := status ≥ 0x8000000000000000

/-- The product is a 32-bit one. -/
def pollMemCall (barIndex barOffset mask expectedVal timeoutUsecs : UInt32) : PollMemCall where
  barIndex := barIndex.toUInt8
  offset := barOffset.toUInt64
  mask := mask.toUInt64
  value := (expectedVal &&& mask).toUInt64
  delay := (timeoutUsecs * 10).toUInt64

def gglPciMpoll32 (pollMem : PollMemCall → UInt64 × UInt64)
    (barIndex barOffset mask expectedVal timeoutUsecs : UInt32) (lastVal : Option UInt32) :
    ℤ × Option UInt32 :=
  let (status, result) := pollMem (pollMemCall barIndex barOffset mask expectedVal timeoutUsecs)
  let lastVal := lastVal.map fun _ => result.toUInt32
  if efiTimeout = status then (1, lastVal)
  else if efiError status then (-1, lastVal)
  else (0, lastVal)

section Status

variable {pollMem : PollMemCall → UInt64 × UInt64}
  {barIndex barOffset mask expectedVal timeoutUsecs : UInt32} {lastVal : Option UInt32}

theorem mpoll32_success (success :
    (pollMem (pollMemCall barIndex barOffset mask expectedVal timeoutUsecs)).1 = 0) :
    (gglPciMpoll32 pollMem barIndex barOffset mask expectedVal timeoutUsecs lastVal).1 = 0 := by
  have other : efiTimeout ≠ 0 ∧ efiError 0 = false := by decide
  simp [gglPciMpoll32, success, other]

end Status

end Nanolibc.EfiPciModel

namespace Nanolibc.PciPolling
open Lib.FlatMemory Lib.Polling LinuxPciModel

abbrev Register := ℕ → UInt32

/-- `PollMem` on a register polls until its value matches or the units of 100 ns are over. -/
structure Polls (pollMem : Register → EfiPciModel.PollMemCall → UInt64 × UInt64) : Prop where
  success : ∀ register call τ, τ < call.delay.toNat * 100 →
    (∀ t, τ ≤ t → (register t).toUInt64 &&& call.mask = call.value) →
    (pollMem register call).1 = 0
  timeout : ∀ register call,
    (∀ t, t ≤ call.delay.toNat * 100 → (register t).toUInt64 &&& call.mask ≠ call.value) →
    (pollMem register call).1 = EfiPciModel.efiTimeout

/-- When the loop of the Linux backend reads the register and then the clock, which was read
first at the start; time goes on. -/
structure Schedule where
  start : ℤ
  readAt : ℕ → ℕ
  clockAt : ℕ → ℕ
  read_clock : ∀ k, readAt k ≤ clockAt k
  clock_read : ∀ k, clockAt k ≤ readAt (k + 1)
  unbounded : ∀ t, ∃ k, t < clockAt k

section Poll

variable (pollMem : Register → EfiPciModel.PollMemCall → UInt64 × UInt64)
  (pdev : GglPciDevice) (barIndex : Fin kMaxPciBars)
  (barOffset mask expectedVal timeoutUsecs : UInt32) (schedule : Schedule) (register : Register)

def watched : World where
  device := fun _ => pdev
  memory := fun k => Memory.writeAll ⟨fun _ => 0, [], []⟩
    (pdev.bars barIndex + barOffset.toUInt64).toNat
    ((List.range 4).map (byte (register (schedule.readAt k)).toNat))
  now
    | 0 => schedule.start
    | k + 1 => schedule.start + schedule.clockAt k

def nanoseconds : ℕ := timeoutUsecs.toNat * 1000

def MatchesFrom (τ : ℕ) : Prop :=
  (∀ t, t < τ → register t &&& mask ≠ expectedVal &&& mask) ∧
    ∀ t, τ ≤ t → register t &&& mask = expectedVal &&& mask

def efiCall : EfiPciModel.PollMemCall :=
  EfiPciModel.pollMemCall (.ofNat barIndex) barOffset mask expectedVal timeoutUsecs

def EfiFinds : Prop := ∀ lastVal,
  (EfiPciModel.gglPciMpoll32 (pollMem register) (.ofNat barIndex) barOffset mask expectedVal
    timeoutUsecs lastVal).1 = 0

def LinuxFinds : Prop := ∀ lastVal, ∃ fuel r,
  LinuxPciModel.gglPciMpoll32 (watched pdev barIndex barOffset schedule register) barIndex barOffset
    mask expectedVal timeoutUsecs lastVal fuel = some r ∧ r.code = 0

/-- Both backends wait for the same value and to the same deadline, and find a match before it. -/
structure SamePoll : Prop where
  condition : ∀ v : UInt32, v &&& mask = expectedVal ↔
    v.toUInt64 &&& (efiCall barIndex barOffset mask expectedVal timeoutUsecs).mask =
      (efiCall barIndex barOffset mask expectedVal timeoutUsecs).value
  deadlineEfi : (efiCall barIndex barOffset mask expectedVal timeoutUsecs).delay.toNat * 100 =
    nanoseconds timeoutUsecs
  deadlineLinux : ∀ register, (watched pdev barIndex barOffset schedule register).deadline
    timeoutUsecs = schedule.start + nanoseconds timeoutUsecs
  both : ∀ register τ, MatchesFrom mask expectedVal register τ → τ < nanoseconds timeoutUsecs →
    EfiFinds pollMem barIndex barOffset mask expectedVal timeoutUsecs register ∧
      LinuxFinds pdev barIndex barOffset mask expectedVal timeoutUsecs schedule register

/-- Where the clock is first found past the deadline, the read before it was not earlier than the
last nanosecond in front of the deadline. -/
def Schedule.Prompt (deadline : ℕ) : Prop :=
  ∀ k, deadline < schedule.clockAt k → (∀ j, j < k → schedule.clockAt j ≤ deadline) →
    deadline ≤ schedule.readAt k + 1

end Poll

section Efi

variable {pollMem : Register → EfiPciModel.PollMemCall → UInt64 × UInt64}
  {barIndex : Fin kMaxPciBars} {barOffset mask expectedVal timeoutUsecs : UInt32}
  {register : Register} {τ : ℕ}

theorem efiCall_condition (v : UInt32) :
    v.toUInt64 &&& (efiCall barIndex barOffset mask expectedVal timeoutUsecs).mask =
      (efiCall barIndex barOffset mask expectedVal timeoutUsecs).value ↔
    v &&& mask = expectedVal &&& mask := by
  rw [← UInt32.toUInt64_inj, UInt32.toUInt64_and]
  rfl

theorem efiCall_deadline :
    (efiCall barIndex barOffset mask expectedVal timeoutUsecs).delay.toNat * 100 =
      nanoseconds timeoutUsecs ↔ timeoutUsecs.toNat * 10 < 2 ^ 32 := by
  have delay : (efiCall barIndex barOffset mask expectedVal timeoutUsecs).delay.toNat =
      timeoutUsecs.toNat * 10 % 2 ^ 32 := rfl
  rw [delay, nanoseconds]
  omega

theorem efi_finds (polls : Polls pollMem) (first : MatchesFrom mask expectedVal register τ)
    (early : τ <
      (efiCall barIndex barOffset mask expectedVal timeoutUsecs).delay.toNat * 100) :
    EfiFinds pollMem barIndex barOffset mask expectedVal timeoutUsecs register := by
  intro lastVal
  apply EfiPciModel.mpoll32_success
  apply polls.success register _ τ early
  intro t late
  exact (efiCall_condition (register t)).mpr (first.2 t late)

end Efi

section Linux

variable {pdev : GglPciDevice} {barIndex : Fin kMaxPciBars}
  {barOffset mask expectedVal timeoutUsecs : UInt32} {schedule : Schedule} {register : Register}
  {k τ deadline : ℕ}

theorem Schedule.readAt_mono : Monotone schedule.readAt :=
  monotone_nat_of_le_succ fun k => (schedule.read_clock k).trans (schedule.clock_read k)

theorem Schedule.first_past (schedule : Schedule) (deadline : ℕ) :
    ∃ k, deadline < schedule.clockAt k ∧ ∀ j, j < k → schedule.clockAt j ≤ deadline := by
  have past := schedule.unbounded deadline
  exact ⟨Nat.find past, Nat.find_spec past, fun j low => Nat.le_of_not_lt (Nat.find_min past low)⟩

theorem watched_deadline :
    (watched pdev barIndex barOffset schedule register).deadline timeoutUsecs =
      schedule.start + nanoseconds timeoutUsecs := by
  unfold World.deadline nanoseconds
  push_cast
  rfl

theorem watched_verdict (inside : Inside pdev barIndex barOffset.toUInt64) (k : ℕ) :
    verdict (watched pdev barIndex barOffset schedule register) barIndex barOffset mask
        expectedVal timeoutUsecs k =
      if register (schedule.readAt k) &&& mask = expectedVal &&& mask then
        some (.matched (register (schedule.readAt k)))
      else if nanoseconds timeoutUsecs < schedule.clockAt k then
        some (.expired (register (schedule.readAt k)))
      else none := by
  have value : reading (watched pdev barIndex barOffset schedule register) barIndex barOffset k =
      some (register (schedule.readAt k)) := by
    exact (if_pos inside).trans (congrArg some (registerValue_writeAll inside _))
  have past : (watched pdev barIndex barOffset schedule register).deadline timeoutUsecs <
      (watched pdev barIndex barOffset schedule register).now (k + 1) ↔
      nanoseconds timeoutUsecs < schedule.clockAt k := by
    rw [watched_deadline]
    change schedule.start + _ < schedule.start + _ ↔ _
    omega
  simp only [verdict, value, past]

theorem linux_finds (inside : Inside pdev barIndex barOffset.toUInt64)
    (within : expectedVal &&& mask = expectedVal)
    (found : register (schedule.readAt k) &&& mask = expectedVal &&& mask)
    (before : ∀ j, j < k → schedule.clockAt j ≤ nanoseconds timeoutUsecs) :
    LinuxFinds pdev barIndex barOffset mask expectedVal timeoutUsecs schedule register := by
  intro lastVal
  have returned : verdict (watched pdev barIndex barOffset schedule register) barIndex barOffset
      mask expectedVal timeoutUsecs k = some (.matched (register (schedule.readAt k))) := by
    rw [watched_verdict inside, if_pos found]
  obtain ⟨n, v, first⟩ := first_exists returned
  have round : n ≤ k := by
    by_contra high
    rw [first.2 k (by omega)] at returned
    cases returned
  have verdict := first.1
  rw [watched_verdict inside] at verdict
  have matched : register (schedule.readAt n) &&& mask = expectedVal &&& mask := by
    by_contra other
    rw [if_neg other] at verdict
    by_cases last : n = k
    · exact other (last ▸ found)
    · rw [if_neg (Nat.not_lt_of_le (before n (by omega)))] at verdict
      cases verdict
  rw [if_pos matched] at verdict
  cases verdict
  exact ⟨n + 1, _, mpoll32_verdict within first (Nat.lt_succ_self n), rfl⟩

theorem linux_gives_up (inside : Inside pdev barIndex barOffset.toUInt64)
    (within : expectedVal &&& mask = expectedVal)
    (other : ∀ j, j ≤ k → register (schedule.readAt j) &&& mask ≠ expectedVal &&& mask)
    (past : nanoseconds timeoutUsecs < schedule.clockAt k)
    (before : ∀ j, j < k → schedule.clockAt j ≤ nanoseconds timeoutUsecs) :
    ¬LinuxFinds pdev barIndex barOffset mask expectedVal timeoutUsecs schedule register := by
  intro finds
  have first : First (verdict (watched pdev barIndex barOffset schedule register) barIndex
      barOffset mask expectedVal timeoutUsecs) k (.expired (register (schedule.readAt k))) := by
    constructor
    · rw [watched_verdict inside, if_neg (other k (Nat.le_refl k)), if_pos past]
    · intro j low
      rw [watched_verdict inside, if_neg (other j (by omega)),
        if_neg (Nat.not_lt_of_le (before j low))]
  obtain ⟨fuel, r, run, zero⟩ := finds none
  rw [mpoll32_unique within first run] at zero
  cases zero

theorem linux_finds_prompt (inside : Inside pdev barIndex barOffset.toUInt64)
    (within : expectedVal &&& mask = expectedVal)
    (prompt : schedule.Prompt (nanoseconds timeoutUsecs))
    (first : MatchesFrom mask expectedVal register τ) (early : τ < nanoseconds timeoutUsecs) :
    LinuxFinds pdev barIndex barOffset mask expectedVal timeoutUsecs schedule register := by
  obtain ⟨k, past, before⟩ := schedule.first_past (nanoseconds timeoutUsecs)
  have late := prompt k past before
  exact linux_finds inside within (first.2 _ (by omega)) before

theorem linux_finds_unmasked (inside : Inside pdev barIndex barOffset.toUInt64)
    (within : expectedVal &&& 0 = expectedVal) :
    LinuxFinds pdev barIndex barOffset 0 expectedVal timeoutUsecs schedule register :=
  linux_finds (k := 0) inside within (by simp) fun j low => absurd low (Nat.not_lt_zero j)

theorem mismatch (masked : mask ≠ 0) (within : expectedVal &&& mask = expectedVal) :
    ∃ v : UInt32, v &&& mask ≠ expectedVal &&& mask := by
  by_cases zero : expectedVal = 0
  · refine ⟨mask, ?_⟩
    rw [zero, UInt32.and_self, UInt32.zero_and]
    exact masked
  · refine ⟨0, ?_⟩
    rw [UInt32.zero_and, within]
    exact Ne.symm zero

def stepAt (τ : ℕ) (v expectedVal : UInt32) : Register := fun t => if t < τ then v else expectedVal

theorem stepAt_matches {v : UInt32} (other : v &&& mask ≠ expectedVal &&& mask) (τ : ℕ) :
    MatchesFrom mask expectedVal (stepAt τ v expectedVal) τ := by
  constructor
  · intro t early
    rw [stepAt, if_pos early]
    exact other
  · intro t late
    rw [stepAt, if_neg (by omega)]

theorem not_prompt_misses (inside : Inside pdev barIndex barOffset.toUInt64)
    (within : expectedVal &&& mask = expectedVal) (masked : mask ≠ 0)
    (late : ¬schedule.Prompt (nanoseconds timeoutUsecs)) :
    ∃ register τ, MatchesFrom mask expectedVal register τ ∧ τ < nanoseconds timeoutUsecs ∧
      ¬LinuxFinds pdev barIndex barOffset mask expectedVal timeoutUsecs schedule register := by
  unfold Schedule.Prompt at late
  push Not at late
  obtain ⟨k, past, before, early⟩ := late
  obtain ⟨v, other⟩ := mismatch masked within
  refine ⟨stepAt (nanoseconds timeoutUsecs - 1) v expectedVal, nanoseconds timeoutUsecs - 1,
    stepAt_matches other _, by omega, linux_gives_up inside within ?_ past before⟩
  intro j low
  have earlier := schedule.readAt_mono low
  exact (stepAt_matches other _).1 _ (by omega)

end Linux

section Same

variable {pollMem : Register → EfiPciModel.PollMemCall → UInt64 × UInt64} {pdev : GglPciDevice}
  {barIndex : Fin kMaxPciBars} {barOffset mask expectedVal timeoutUsecs : UInt32}
  {schedule : Schedule}

/-- The backends poll alike exactly when the timeout in units of 100 ns fits in 32 bits, and on
Linux, unless nothing is asked of the value, the last read is prompt. -/
theorem mpoll32_same_iff (polls : Polls pollMem) (within : expectedVal &&& mask = expectedVal)
    (inside : Inside pdev barIndex barOffset.toUInt64) :
    SamePoll pollMem pdev barIndex barOffset mask expectedVal timeoutUsecs schedule ↔
      timeoutUsecs.toNat * 10 < 2 ^ 32 ∧
        (mask = 0 ∨ schedule.Prompt (nanoseconds timeoutUsecs)) := by
  constructor
  · intro same
    constructor
    · exact efiCall_deadline.mp same.deadlineEfi
    · by_contra neither
      obtain ⟨masked, late⟩ := not_or.mp neither
      obtain ⟨register, τ, first, early, misses⟩ := not_prompt_misses inside within masked late
      exact misses (same.both register τ first early).2
  · rintro ⟨fits, quick⟩
    have deadline : (efiCall barIndex barOffset mask expectedVal timeoutUsecs).delay.toNat * 100 =
        nanoseconds timeoutUsecs := efiCall_deadline.mpr fits
    constructor
    · intro v
      rw [efiCall_condition, within]
    · exact deadline
    · exact fun register => watched_deadline
    · intro register τ first early
      constructor
      · exact efi_finds polls first (deadline ▸ early)
      · rcases quick with rfl | prompt
        · exact linux_finds_unmasked inside within
        · exact linux_finds_prompt inside within prompt first early

def everyNanosecond (register : Register) (call : EfiPciModel.PollMemCall) : UInt64 × UInt64 :=
  let last := call.delay.toNat * 100
  let found := fun t => (register t).toUInt64 &&& call.mask == call.value
  match (List.range (last + 1)).find? found with
  | some t => (0, (register t).toUInt64)
  | none => (EfiPciModel.efiTimeout, (register last).toUInt64)

theorem everyNanosecond_polls : Polls everyNanosecond := by
  constructor
  · intro register call τ early found
    have here : ((List.range (call.delay.toNat * 100 + 1)).find? fun t =>
        (register t).toUInt64 &&& call.mask == call.value).isSome := by
      rw [List.find?_isSome]
      exact ⟨τ, List.mem_range.mpr (by omega), by simpa using found τ (Nat.le_refl τ)⟩
    obtain ⟨t, at_⟩ := Option.isSome_iff_exists.mp here
    simp only [everyNanosecond, at_]
  · intro register call other
    have nowhere : (List.range (call.delay.toNat * 100 + 1)).find? (fun t =>
        (register t).toUInt64 &&& call.mask == call.value) = none := by
      rw [List.find?_eq_none]
      intro t mem
      simpa using other t (Nat.le_of_lt_succ (List.mem_range.mp mem))
    simp only [everyNanosecond, nowhere]

def steady : Schedule where
  start := 0
  readAt k := k
  clockAt k := k
  read_clock _ := Nat.le_refl _
  clock_read _ := Nat.le_succ _
  unbounded t := ⟨t + 1, Nat.lt_succ_self t⟩

theorem mpoll32_same_iff_5 :
    SamePoll everyNanosecond oneBar 0 0 1 1 5 steady ↔
      (5 : UInt32).toNat * 10 < 2 ^ 32 ∧ ((1 : UInt32) = 0 ∨ steady.Prompt (nanoseconds 5)) :=
  mpoll32_same_iff everyNanosecond_polls (by decide) (by unfold Inside; decide)

/-- For 429 s the EFI backend polls for 400 ns. -/
theorem mpoll32_cut :
    MatchesFrom 1 1 (stepAt 500 0 1) 500 ∧ 500 < nanoseconds 429496730 ∧
      (EfiPciModel.gglPciMpoll32 (everyNanosecond (stepAt 500 0 1)) 0 0 1 1 429496730 none).1 = 1 ∧
      ¬SamePoll everyNanosecond oneBar 0 0 1 1 429496730 steady := by
  constructor
  · exact stepAt_matches (by decide) 500
  constructor
  · decide
  constructor
  · decide +kernel
  · intro same
    exact absurd (efiCall_deadline.mp same.deadlineEfi) (by decide)

end Same

end Nanolibc.PciPolling
