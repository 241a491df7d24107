import Nanolibc.LinuxPciAccess

set_option autoImplicit false

namespace Nanolibc.LinuxPciModel
open Lib.Program Lib.FlatMemory Lib.Polling CString

section Contract

variable (world : World) (barIndex : Fin kMaxPciBars)
  (barOffset mask expectedVal timeoutUsecs : UInt32)

instance (pdev : GglPciDevice) (offset : UInt64) : Decidable (Inside pdev barIndex offset) :=
  inferInstanceAs (Decidable (_ ∧ _))

def reading (k : ℕ) : Option UInt32 :=
  if Inside (world.device k) barIndex barOffset.toUInt64 then
    some (registerValue (world.device k) barIndex barOffset.toUInt64 (world.memory k))
  else none

inductive Verdict where
  | failed
  | matched (v : UInt32)
  | expired (v : UInt32)
  deriving DecidableEq

def verdict (k : ℕ) : Option Verdict :=
  match reading world barIndex barOffset k with
  | none => some .failed
  | some v =>
    if v &&& mask = expectedVal &&& mask then some (.matched v)
    else if world.deadline timeoutUsecs < world.now (k + 1) then some (.expired v)
    else none

def Honours : Verdict → Polled → Prop
  | .failed, r => r.code ≠ 0 ∧ r.code ≠ 1
  | .matched v, r => r.code = 0 ∧ r.lastVal = some v
  | .expired v, r => r.code = 1 ∧ r.lastVal = some v

/-- The poll reads up to the first round with a verdict and returns what that one asks for, or it
goes on forever. -/
structure KeepsContract (last : UInt32) : Prop where
  decided : ∀ n v, First (verdict world barIndex barOffset mask expectedVal timeoutUsecs) n v →
    ∃ enough, ∀ fuel, enough ≤ fuel → ∃ r,
      gglPciMpoll32 world barIndex barOffset mask expectedVal timeoutUsecs (some last) fuel =
        some r ∧ r.reads = n + 1 ∧ Honours v r
  undecided : (∀ k, verdict world barIndex barOffset mask expectedVal timeoutUsecs k = none) →
    ∀ fuel,
      gglPciMpoll32 world barIndex barOffset mask expectedVal timeoutUsecs (some last) fuel = none

end Contract

section Poll

variable {world : World} {barIndex : Fin kMaxPciBars}
  {barOffset mask expectedVal timeoutUsecs last : UInt32} {lastVal : Option UInt32}

/-- A 32-bit offset does not wrap around, so that the read is the one of the contract. -/
theorem mread32_reading (world : World) (barIndex : Fin kMaxPciBars) (barOffset : UInt32) (k : ℕ) :
    (∀ v, reading world barIndex barOffset k = some v →
      world.mread32 barIndex barOffset k = (0, v)) ∧
    (reading world barIndex barOffset k = none →
      (world.mread32 barIndex barOffset k).1 ≠ 0) := by
  have small : ¬WrapsInto (world.device k) barIndex barOffset.toUInt64 := by
    intro wraps
    have high := wraps.2.1
    have low := barOffset.toNat_lt
    rw [UInt32.toNat_toUInt64] at high
    omega
  obtain ⟨r, m, run, zero, inside, _⟩ :=
    wp_never.mp ((readsRegister_iff (m := world.memory k) 0).mpr small)
  have read : world.mread32 barIndex barOffset k = r := by
    rw [World.mread32, run]
  rw [read, reading]
  constructor
  · intro v value
    split_ifs at value with here
    obtain ⟨same, _⟩ := inside here
    exact Prod.ext (zero.mpr here) (same.trans (Option.some.inj value))
  · intro none
    split_ifs at none with here
    exact fun ok => here (zero.mp ok)

def answer (lastVal : Option UInt32) : Verdict → ℤ × Option UInt32
  | .failed => (-1, lastVal)
  | .matched v => (0, lastVal.map fun _ => v)
  | .expired _ => (1, lastVal)

theorem body_verdict (within : expectedVal &&& mask = expectedVal) (lastVal : Option UInt32)
    (k : ℕ) :
    mpoll32Body world barIndex barOffset mask expectedVal timeoutUsecs lastVal k =
      (verdict world barIndex barOffset mask expectedVal timeoutUsecs k).map (answer lastVal) := by
  obtain ⟨reads, fails⟩ := mread32_reading world barIndex barOffset k
  unfold mpoll32Body verdict
  rw [within]
  cases read : reading world barIndex barOffset k with
  | none =>
    simp only [fails read, ne_eq, not_false_eq_true, if_true]
    rfl
  | some v =>
    simp only [reads v read, ne_eq, not_true_eq_false, if_false, gt_iff_lt]
    split_ifs <;> rfl

theorem mpoll32_verdict (within : expectedVal &&& mask = expectedVal) {n fuel : ℕ} {v : Verdict}
    (first : First (verdict world barIndex barOffset mask expectedVal timeoutUsecs) n v)
    (enough : n < fuel) :
    gglPciMpoll32 world barIndex barOffset mask expectedVal timeoutUsecs lastVal fuel =
      some ⟨(answer lastVal v).1, (answer lastVal v).2, n + 1⟩ := by
  have ended := rounds_of_first (first.map (body_verdict within lastVal)) enough
  rw [gglPciMpoll32, if_neg (not_not_intro within), ended]
  rfl

theorem mpoll32_unique (within : expectedVal &&& mask = expectedVal) {n fuel : ℕ} {v : Verdict}
    {r : Polled}
    (first : First (verdict world barIndex barOffset mask expectedVal timeoutUsecs) n v)
    (run : gglPciMpoll32 world barIndex barOffset mask expectedVal timeoutUsecs lastVal fuel =
      some r) : r = ⟨(answer lastVal v).1, (answer lastVal v).2, n + 1⟩ := by
  rw [gglPciMpoll32, if_neg (not_not_intro within)] at run
  obtain ⟨⟨k, code, last⟩, ended, rfl⟩ := Option.map_eq_some_iff.mp run
  have found := first_of_rounds ended
  obtain ⟨rfl, returned⟩ := found.unique (first.map (body_verdict within lastVal))
  rw [← returned]

theorem mpoll32_no_verdict (within : expectedVal &&& mask = expectedVal)
    (open_ : ∀ k, verdict world barIndex barOffset mask expectedVal timeoutUsecs k = none)
    (fuel : ℕ) :
    gglPciMpoll32 world barIndex barOffset mask expectedVal timeoutUsecs lastVal fuel = none := by
  have goes : ∀ k,
      mpoll32Body world barIndex barOffset mask expectedVal timeoutUsecs lastVal k = none := by
    intro k
    rw [body_verdict within, open_]
    rfl
  rw [gglPciMpoll32, if_neg (not_not_intro within), rounds_none goes]
  rfl

theorem mpoll32_refused (outside : expectedVal &&& mask ≠ expectedVal) (fuel : ℕ) :
    gglPciMpoll32 world barIndex barOffset mask expectedVal timeoutUsecs lastVal fuel =
      some ⟨-1, lastVal, 0⟩ :=
  if_pos outside

theorem not_keepsContract (outside : expectedVal &&& mask ≠ expectedVal) :
    ¬KeepsContract world barIndex barOffset mask expectedVal timeoutUsecs last := by
  intro keeps
  by_cases ends : ∃ k v, verdict world barIndex barOffset mask expectedVal timeoutUsecs k = some v
  · obtain ⟨k, v, returned⟩ := ends
    obtain ⟨n, w, first⟩ := first_exists returned
    obtain ⟨enough, ends⟩ := keeps.decided n w first
    obtain ⟨r, run, reads, _⟩ := ends enough (Nat.le_refl enough)
    rw [mpoll32_refused outside] at run
    cases run
    cases reads
  · have open_ : ∀ k,
        verdict world barIndex barOffset mask expectedVal timeoutUsecs k = none := by
      intro k
      apply Option.eq_none_iff_forall_not_mem.mpr
      intro v returned
      exact ends ⟨k, v, returned⟩
    have run := keeps.undecided open_ 0
    rw [mpoll32_refused outside] at run
    cases run

/-- On a timeout `*last_val` is left as it was. -/
theorem answer_honours (v : Verdict) (reads : ℕ) :
    Honours v ⟨(answer (some last) v).1, (answer (some last) v).2, reads⟩ ↔
      ∀ w, v = .expired w → last = w := by
  cases v with
  | failed => simp [Honours, answer]
  | matched v => simp [Honours, answer]
  | expired v => simp [Honours, answer]

theorem KeepsContract.stored {v : UInt32} {n : ℕ}
    (keeps : KeepsContract world barIndex barOffset mask expectedVal timeoutUsecs last)
    (within : expectedVal &&& mask = expectedVal)
    (first : First (verdict world barIndex barOffset mask expectedVal timeoutUsecs) n
      (.expired v)) : last = v := by
  obtain ⟨enough, ends⟩ := keeps.decided n _ first
  obtain ⟨r, run, _, honours⟩ := ends (enough + n + 1) (by omega)
  rw [mpoll32_verdict within first (by omega)] at run
  cases run
  exact (answer_honours _ _).mp honours v rfl

end Poll

/-- The poll keeps its contract exactly when the expected value has no bit outside the mask and,
where the timeout comes first, `*last_val` was the last value read before the call. -/
theorem mpoll32_keepsContract_iff (world : World) (barIndex : Fin kMaxPciBars)
    (barOffset mask expectedVal timeoutUsecs last : UInt32) :
    KeepsContract world barIndex barOffset mask expectedVal timeoutUsecs last ↔
      expectedVal &&& mask = expectedVal ∧
        ∀ n v, First (verdict world barIndex barOffset mask expectedVal timeoutUsecs) n
          (.expired v) → last = v := by
  constructor
  · intro keeps
    have within : expectedVal &&& mask = expectedVal := by
      by_contra outside
      exact not_keepsContract outside keeps
    exact ⟨within, fun n v first => keeps.stored within first⟩
  · rintro ⟨within, stored⟩
    constructor
    · intro n v first
      refine ⟨n + 1, ?_⟩
      intro fuel enough
      refine ⟨_, mpoll32_verdict within first enough, rfl, ?_⟩
      rw [answer_honours]
      intro w expired
      exact stored n w (expired ▸ first)
    · intro open_ fuel
      exact mpoll32_no_verdict within open_ fuel

def idle : World where
  device := fun _ => oneBar
  memory := fun _ => ⟨fun _ => 0, [], []⟩
  now := fun k => k

/-- A timeout leaves the 7 in `*last_val`; a bit outside the mask is refused without a read. -/
theorem mpoll32_breaks_contract :
    ¬KeepsContract idle 0 0 1 1 0 7 ∧ ¬KeepsContract idle 0 0 1 2 0 7 := by
  constructor
  · intro keeps
    have first : First (verdict idle 0 0 1 1 0) 0 (.expired 0) :=
      ⟨by decide +kernel, fun j low => absurd low (Nat.not_lt_zero j)⟩
    exact absurd (keeps.stored (by decide) first) (by decide)
  · exact not_keepsContract (by decide)

end Nanolibc.LinuxPciModel
