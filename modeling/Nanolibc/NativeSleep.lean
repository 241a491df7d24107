import Mathlib.Tactic.NormNum
import Nanolibc.Lib.Program

set_option autoImplicit false

/-!
# Sleeping on the native runtime

`sleep` of the library over the runtime's `usleep`, and `nnlc_usleep64`, which asks
the host. The host's calls are logged with their answers, so that the time which passed can be
told from the log.
-/
namespace Nanolibc.NativeSleep
open Lib.Program

/-- The host's `sleep` returns the whole seconds left when it is interrupted. -/
structure Host where
  sleep : UInt32 → UInt32
  sleep_le : ∀ n, sleep n ≤ n

inductive HostCall where
  | sleep (seconds left : UInt32)
  | usleep (useconds : UInt32)
  deriving DecidableEq, Repr

abbrev Native := Prog (List HostCall) Empty

section Source

variable {σ ε : Type} (host : Host)

def hostSleep (seconds : UInt32) : Native UInt32 := do
  modify fun calls => .sleep seconds (host.sleep seconds) :: calls
  return host.sleep seconds

def hostUsleep (useconds : UInt32) : Native Unit :=
  modify fun calls => .usleep useconds :: calls

def usecsInOneSec : UInt64 := 1000000

def nnlcUsleep64 (microSeconds : UInt64) : Native UInt64 := do
  let seconds := microSeconds / usecsInOneSec
  let usecs := microSeconds % usecsInOneSec
  let rest : Native UInt64 := do
    if usecs ≠ 0 then hostUsleep usecs.toUInt32
    return 0
  if seconds ≠ 0 then do
    let rv ← hostSleep host seconds.toUInt32
    if rv > 0 then return rv.toUInt64 * usecsInOneSec
    else rest
  else rest

def sleep (usleep64 : UInt64 → Prog σ ε UInt64) (seconds : UInt32) : Prog σ ε UInt32 := do
  let left ← usleep64 (seconds.toUInt64 * 1000000)
  return left.toUInt32

end Source

section Time

/-- The microseconds that passed in a call; a `usleep` counts once it was started. -/
def HostCall.slept : HostCall → ℕ
  | sleep seconds left => (seconds.toNat - left.toNat) * 1000000
  | usleep useconds => useconds.toNat

def slept : List HostCall → ℕ
  | [] => 0
  | c :: calls => c.slept + slept calls

@[simp] theorem slept_cons (c : HostCall) (calls : List HostCall) :
    slept (c :: calls) = c.slept + slept calls := rfl

variable (host : Host) (calls : List HostCall) (us : UInt64)

theorem Host.sleep_toNat_le (n : UInt32) : (host.sleep n).toNat ≤ n.toNat :=
  UInt32.le_iff_toNat_le.mp (host.sleep_le n)

def leftSeconds : ℕ := (host.sleep (us / usecsInOneSec).toUInt32).toNat

def notStarted : ℕ :=
  if leftSeconds host us = 0 then 0 else us.toNat % 1000000

variable {us}

@[simp] theorem usecsInOneSec_toNat : usecsInOneSec.toNat = 1000000 := rfl

theorem seconds_toNat (below : us.toNat < 2 ^ 32 * 1000000) :
    (us / usecsInOneSec).toUInt32.toNat = us.toNat / 1000000 := by
  have fits : us.toNat / 1000000 < 2 ^ 32 := by omega
  simpa using Nat.mod_eq_of_lt fits

theorem usecs_toNat (us : UInt64) :
    (us % usecsInOneSec).toUInt32.toNat = us.toNat % 1000000 := by
  have fits : us.toNat % 1000000 < 2 ^ 32 := by omega
  simpa using Nat.mod_eq_of_lt fits

theorem left_toNat (r : UInt32) : (r.toUInt64 * usecsInOneSec).toNat = r.toNat * 1000000 := by
  have fits : r.toNat * 1000000 < 2 ^ 64 := by have := r.toNat_lt; omega
  simpa using Nat.mod_eq_of_lt fits

theorem leftSeconds_le (below : us.toNat < 2 ^ 32 * 1000000) :
    leftSeconds host us ≤ us.toNat / 1000000 := by
  have le := host.sleep_toNat_le (us / usecsInOneSec).toUInt32
  rwa [seconds_toNat below] at le

/-- `nnlc_usleep64` leaves out what it did not start; the rest of its answer is right. -/
theorem wp_nnlcUsleep64 (below : us.toNat < 2 ^ 32 * 1000000) :
    wp (nnlcUsleep64 host us) (fun left calls' =>
      left.toNat = leftSeconds host us * 1000000 ∧
        slept calls' + left.toNat + notStarted host us = slept calls + us.toNat) never calls := by
  have seconds := seconds_toNat below
  have le := leftSeconds_le host below
  have rest : leftSeconds host us = 0 → ∀ calls' : List HostCall,
      slept calls' + us.toNat % 1000000 = slept calls + us.toNat →
      wp (do
        if us % usecsInOneSec ≠ 0 then hostUsleep (us % usecsInOneSec).toUInt32
        return 0 : Native UInt64) (fun left calls' =>
          left.toNat = leftSeconds host us * 1000000 ∧
            slept calls' + left.toNat + notStarted host us = slept calls + us.toNat)
        never calls' := by
    intro none calls' passed
    have usecs := usecs_toNat us
    by_cases zero : us % usecsInOneSec = 0
    · rw [zero] at usecs
      simp only [zero, none, notStarted, ne_eq, not_true_eq_false, if_false, if_true, wp_pure]
      exact ⟨rfl, by rw [← passed, ← usecs]; rfl⟩
    · simp only [zero, none, notStarted, ne_eq, not_false_eq_true, if_true, wp_bind, wp_pure,
        hostUsleep, wp_modify, slept_cons, HostCall.slept, usecs]
      exact ⟨rfl, by rw [← passed, Nat.add_comm (us.toNat % 1000000)]; rfl⟩
  unfold nnlcUsleep64
  by_cases started : us / usecsInOneSec = 0
  · rw [started] at seconds
    have small : us.toNat / 1000000 = 0 := seconds.symm
    simp only [started, ne_eq, not_true_eq_false, if_false]
    exact rest (by omega) calls (by omega)
  · simp only [started, ne_eq, not_false_eq_true, if_true, hostSleep, wp_bind, wp_modify, wp_pure]
    by_cases interrupted : host.sleep (us / usecsInOneSec).toUInt32 > 0
    · have positive : leftSeconds host us ≠ 0 := by
        have := UInt32.lt_iff_toNat_lt.mp interrupted
        exact Nat.ne_of_gt this
      simp only [interrupted, if_true, wp_pure, left_toNat, notStarted, positive, if_false,
        slept_cons, HostCall.slept, seconds]
      change _ ∧ (us.toNat / 1000000 - leftSeconds host us) * 1000000 + slept calls +
        leftSeconds host us * 1000000 + us.toNat % 1000000 = _
      exact ⟨rfl, by omega⟩
    · have none : leftSeconds host us = 0 := by
        have := UInt32.lt_iff_toNat_lt.not.mp interrupted
        exact Nat.eq_zero_of_not_pos this
      simp only [interrupted, if_false]
      apply rest none
      simp only [slept_cons, HostCall.slept, seconds]
      change (us.toNat / 1000000 - leftSeconds host us) * 1000000 + slept calls + _ = _
      omega

end Time

section Reports

variable (host : Host) (calls : List HostCall)

def SleepReports (seconds : UInt32) : Prop :=
  wp (sleep (nnlcUsleep64 host) seconds) (fun left calls' =>
    left = host.sleep seconds ∧ left ≤ seconds ∧
      (left = 0 ↔ slept calls' = slept calls + seconds.toNat * 1000000)) never calls

def Usleep64Reports (us : UInt64) : Prop :=
  wp (nnlcUsleep64 host us) (fun left calls' =>
    left.toNat = leftSeconds host us * 1000000 + notStarted host us ∧
      slept calls' + left.toNat = slept calls + us.toNat) never calls

/-- 999999 and 2^32 have no common factor. -/
theorem cut_eq_iff {r : ℕ} (small : r < 2 ^ 32) : r * 1000000 % 2 ^ 32 = r ↔ r = 0 := by
  constructor
  · intro same
    have split := Nat.div_add_mod (r * 1000000) (2 ^ 32)
    rw [same] at split
    have multiple : 2 ^ 32 ∣ r * 999999 :=
      ⟨r * 1000000 / 2 ^ 32, (Nat.add_right_cancel (split.trans (Nat.mul_succ r 999999))).symm⟩
    have coprime : Nat.Coprime (2 ^ 32) 999999 := by decide +kernel
    exact Nat.eq_zero_of_dvd_of_lt (coprime.dvd_of_dvd_mul_right multiple) small
  · rintro rfl
    rfl

theorem sleepReports_iff (seconds : UInt32) :
    SleepReports host calls seconds ↔ host.sleep seconds = 0 := by
  have bound := seconds.toNat_lt
  have le := host.sleep_toNat_le seconds
  obtain ⟨us, asked, exact⟩ : ∃ us : UInt64, us = seconds.toUInt64 * 1000000 ∧
      us.toNat = seconds.toNat * 1000000 := ⟨_, rfl, left_toNat seconds⟩
  have whole : leftSeconds host us = (host.sleep seconds).toNat := by
    unfold leftSeconds
    congr 2
    rw [← UInt32.toNat_inj, seconds_toNat (by omega), exact]
    omega
  have nothing : notStarted host us = 0 := by
    unfold notStarted
    split
    · rfl
    · omega
  obtain ⟨left, calls', run, left_eq, passed⟩ :=
    wp_never.mp (wp_nnlcUsleep64 host calls (show us.toNat < 2 ^ 32 * 1000000 by omega))
  have cut : left.toUInt32.toNat = (host.sleep seconds).toNat * 1000000 % 2 ^ 32 := by
    rw [UInt64.toNat_toUInt32, left_eq, whole]
  have answer : SleepReports host calls seconds ↔ left.toUInt32 = host.sleep seconds ∧
      left.toUInt32 ≤ seconds ∧ (left.toUInt32 = 0 ↔
        slept calls' = slept calls + seconds.toNat * 1000000) := by
    simp only [SleepReports, sleep, ← asked, wp_bind, wp_pure]
    simp only [wp, run]
  rw [answer, ← UInt32.toNat_inj, ← UInt32.toNat_inj, ← UInt32.toNat_inj, UInt32.le_iff_toNat_le,
    cut, UInt32.toNat_zero]
  constructor
  · intro reports
    exact (cut_eq_iff (host.sleep seconds).toNat_lt).mp reports.1
  · intro full
    rw [whole, full] at left_eq
    rw [full]
    refine ⟨rfl, Nat.zero_le _, ?_⟩
    omega

theorem usleep64Reports_iff {us : UInt64} (below : us.toNat < 2 ^ 32 * 1000000) :
    Usleep64Reports host calls us ↔ leftSeconds host us = 0 ∨ us.toNat % 1000000 = 0 := by
  obtain ⟨left, calls', run, left_eq, passed⟩ :=
    wp_never.mp (wp_nnlcUsleep64 host calls below)
  have answer : Usleep64Reports host calls us ↔ notStarted host us = 0 := by
    simp only [Usleep64Reports, wp, run]
    omega
  rw [answer, notStarted]
  split <;> omega

/-- What is left of the time is reported exactly when the host's `sleep` is not interrupted, and
by `nnlc_usleep64` also when there are only whole seconds. -/
theorem native_sleep_iff (seconds : UInt32) {us : UInt64} (below : us.toNat < 2 ^ 32 * 1000000) :
    (SleepReports host calls seconds ↔ host.sleep seconds = 0) ∧
      (Usleep64Reports host calls us ↔
        host.sleep (us / usecsInOneSec).toUInt32 = 0 ∨ us % usecsInOneSec = 0) := by
  have none : leftSeconds host us = 0 ↔ host.sleep (us / usecsInOneSec).toUInt32 = 0 := by
    rw [← UInt32.toNat_inj]
    rfl
  have whole : us.toNat % 1000000 = 0 ↔ us % usecsInOneSec = 0 := by
    rw [← UInt64.toNat_inj, UInt64.toNat_mod]
    rfl
  rw [usleep64Reports_iff host calls below, none, whole]
  exact ⟨sleepReports_iff host calls seconds, Iff.rfl⟩

def halfway : Host where
  sleep n := n / 2
  sleep_le n := by
    rw [UInt32.le_iff_toNat_le, UInt32.toNat_div]
    exact Nat.div_le_self _ _

theorem native_sleep_iff_halfway : (SleepReports halfway [] 3 ↔ halfway.sleep 3 = 0) ∧
    (Usleep64Reports halfway [] 3500000 ↔
      halfway.sleep (3500000 / usecsInOneSec).toUInt32 = 0 ∨ 3500000 % usecsInOneSec = 0) :=
  native_sleep_iff halfway [] 3 (by decide)

/-- `sleep(3)` returns 1000000 for the one second left, and the half second is forgotten. -/
theorem native_sleep_misreports :
    ¬SleepReports halfway [] 3 ∧ ¬Usleep64Reports halfway [] 3500000 := by
  constructor
  · rw [sleepReports_iff]
    decide
  · rw [usleep64Reports_iff halfway [] (by decide)]
    decide

end Reports

end Nanolibc.NativeSleep
