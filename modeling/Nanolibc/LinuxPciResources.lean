import Mathlib.Data.List.FinRange
import Nanolibc.LinuxPciModel

set_option autoImplicit false

namespace Nanolibc.LinuxPciModel
open Lib.Program Lib.Ledger CString

section Slots

def slot (pdev : GglPciDevice) (i : Fin kMaxPciBars) : Option Resource :=
  if pdev.bars i = 0 then none else some (.mapping (pdev.bars i) (pdev.barSizesBytes i))

def mapped (pdev : GglPciDevice) : List Resource :=
  (List.finRange kMaxPciBars).filterMap (slot pdev)

variable {env : Environment} {closing : Closing} {pdev : GglPciDevice} {base : List Resource}
  {l : Account Resource} {barOffset barIndex : ℕ}

def Unset (barIndex : ℕ) (pdev : GglPciDevice) : Prop :=
  ∀ i : Fin kMaxPciBars, barIndex ≤ i.val → pdev.bars i = 0

def made (mapping : Mapping) : Option Resource :=
  if mapping.address = 0 then none else some (.mapping mapping.address mapping.size)

theorem slot_withBar (i : Fin kMaxPciBars) (mapping : Mapping) :
    slot (pdev.withBar i mapping) = Function.update (slot pdev) i (made mapping) := by
  funext j
  by_cases here : j = i
  · subst here
    simp [slot, made, GglPciDevice.withBar]
  · simp [slot, GglPciDevice.withBar, here]

theorem mapped_withBar {i : Fin kMaxPciBars} (mapping : Mapping) (unset : pdev.bars i = 0) :
    (mapped (pdev.withBar i mapping)).Perm ((made mapping).toList ++ mapped pdev) := by
  have empty : slot pdev i = none := if_pos unset
  unfold mapped
  rw [slot_withBar]
  cases new : made mapping with
  | none => rw [← empty, Function.update_eq_self, empty]; rfl
  | some r =>
    exact filterMap_update_perm (List.nodup_finRange kMaxPciBars) (List.mem_finRange i) empty

theorem wp_mapBar (barOffset : ℕ) (inside : barIndex < kMaxPciBars) (unset : Unset barIndex pdev)
    (held : l.held.Perm (mapped pdev ++ base)) :
    wp (mapBar env barOffset barIndex pdev) (fun pdev' l' => pdev'.pciConfig = pdev.pciConfig ∧
      Unset (barIndex + 1) pdev' ∧ l'.held.Perm (mapped pdev' ++ base)) never l := by
  unfold mapBar
  apply wp_ite
  · intro _
    exact ⟨rfl, fun i above => unset i (Nat.le_of_succ_le above), held⟩
  · intro _
    rw [wp_bind, mMapFile]
    generalize env.mMapFile (pdev.devicePath ++ text "/resource" ++ text (toString barOffset)) =
      mapping
    have stored : ∀ l' : Account Resource,
        l'.held.Perm ((made mapping).toList ++ (mapped pdev ++ base)) →
        wp (setBar pdev barIndex mapping) (fun pdev' l' => pdev'.pciConfig = pdev.pciConfig ∧
          Unset (barIndex + 1) pdev' ∧ l'.held.Perm (mapped pdev' ++ base)) never l' := by
      intro l' held'
      rw [setBar, dif_pos inside, wp_pure]
      refine ⟨rfl, ?_, ?_⟩
      · intro i above
        have other : i ≠ ⟨barIndex, inside⟩ := by
          rintro rfl
          exact absurd above (Nat.not_succ_le_self barIndex)
        exact (Function.update_of_ne other ..).trans (unset i (Nat.le_of_succ_le above))
      · have filled := mapped_withBar mapping (unset ⟨barIndex, inside⟩ (Nat.le_refl _))
        rw [← List.append_assoc] at held'
        exact held'.trans (filled.symm.append_right base)
    by_cases null : mapping.address = 0
    · simp only [null, ne_eq, not_true_eq_false, if_false, wp_pure]
      apply stored
      rw [made, if_pos null]
      exact held
    · simp only [null, ne_eq, not_false_eq_true, if_true, wp_bind, wp_pure]
      apply wp_acquire rfl
      intro l' held' _
      apply stored
      rw [held', made, if_neg null]
      exact held.cons _

theorem wp_mapBars (flags : Flags) : ∀ (left barOffset barIndex : ℕ) (pdev : GglPciDevice)
    (l : Account Resource), kMaxPciBars - barOffset ≤ left → barIndex ≤ barOffset →
    Unset barIndex pdev → l.held.Perm (mapped pdev ++ base) →
    wp (mapBars env flags barOffset barIndex pdev) (fun pdev' l' =>
      pdev'.pciConfig = pdev.pciConfig ∧ l'.held.Perm (mapped pdev' ++ base)) never l := by
  intro left
  induction left with
  | zero =>
    intro barOffset barIndex pdev l done _ _ held
    rw [mapBars, dif_neg (by omega), wp_pure]
    exact ⟨rfl, held⟩
  | succ left ih =>
    intro barOffset barIndex pdev l rounds behind unset held
    rw [mapBars]
    by_cases inside : barOffset < kMaxPciBars
    · rw [dif_pos inside]
      rw [wp_bind]
      apply wp_post (wp_mapBar barOffset (Nat.lt_of_le_of_lt behind inside) unset held)
      rintro pdev' l' ⟨same, unset', held'⟩
      have further : 0 < if is64BitBAR (flags ⟨barOffset, inside⟩) then 2 else 1 := by
        split <;> decide
      apply wp_post (ih _ (barIndex + 1) pdev' l' (by omega) (by omega) unset' held')
      rintro pdev'' l'' ⟨same', held''⟩
      exact ⟨same'.trans same, held''⟩
    · rw [dif_neg inside, wp_pure]
      exact ⟨rfl, held⟩

end Slots

section Flags

variable {env : Environment} {l : Account Resource}

/-- What a line at `barOffset` has to be: three fields, and up to the last BAR the third of them
a hexadecimal number. -/
def LineReadable (env : Environment) (barOffset : ℕ) (line : Bytes) : Prop :=
  barOffset ≤ kMaxPciBars → ∃ first last flags, env.strSplit line = [first, last, flags] ∧
    (barOffset < kMaxPciBars → (env.simpleHexAtoi flags).isSome)

def FlagsReadable (env : Environment) (sysfsDirpath : Bytes) : Prop :=
  ∃ lines, env.openFile (env.joinPath sysfsDirpath (text "resource")) = some lines ∧
    ∀ i line, lines[i]? = some line → LineReadable env i line

theorem forall_lines_cons {p : ℕ → Bytes → Prop} {line : Bytes} {lines : List Bytes} :
    (∀ i x, (line :: lines)[i]? = some x → p i x) ↔
      p 0 line ∧ ∀ i x, lines[i]? = some x → p (i + 1) x := by
  constructor
  · intro all
    exact ⟨all 0 line rfl, fun i x mem => all (i + 1) x mem⟩
  · rintro ⟨first, rest⟩ i x mem
    cases i with
    | zero =>
      obtain rfl : line = x := Option.some.inj mem
      exact first
    | succ i => exact rest i x mem

/-- The loop reads all lines up to the one behind the last BAR, and fails at any of them. -/
theorem barFlagsLoop_isSome (lines : List Bytes) (barOffset : ℕ) (flags : Flags)
    (low : barOffset ≤ kMaxPciBars) :
    (barFlagsLoop env lines barOffset flags).isSome ↔
      ∀ i line, lines[i]? = some line → LineReadable env (barOffset + i) line := by
  induction lines generalizing barOffset flags with
  | nil => simp [barFlagsLoop]
  | cons line lines ih =>
    rw [forall_lines_cons, barFlagsLoop]
    split
    · rename_i first last third fields
      have here : LineReadable env (barOffset + 0) line ↔
          (barOffset < kMaxPciBars → (env.simpleHexAtoi third).isSome) := by
        simp [LineReadable, low, fields]
      rw [here]
      by_cases inside : barOffset < kMaxPciBars
      · rw [dif_pos inside]
        cases hex : env.simpleHexAtoi third with
        | none => simp [inside]
        | some flag =>
          have next : ∀ i, barOffset + 1 + i = barOffset + (i + 1) := by
            intro i
            omega
          simp only [ih (barOffset + 1) _ inside, next, Option.isSome_some, imp_true_iff, true_and]
      · rw [dif_neg inside]
        have behind : ∀ i x, lines[i]? = some x → LineReadable env (barOffset + (i + 1)) x :=
          fun i x _ above => absurd above (by omega)
        constructor
        · intro _
          exact ⟨fun below => absurd below inside, behind⟩
        · intro _
          rfl
    · rename_i other
      have unreadable : ¬LineReadable env (barOffset + 0) line := by
        intro readable
        obtain ⟨first, last, third, fields, _⟩ := readable low
        exact other first last third fields
      simp only [unreadable, false_and, Option.isSome_none, Bool.false_eq_true]

theorem wp_getBARFlags (sysfsDirpath : Bytes) :
    wp (getBARFlags env sysfsDirpath) (fun flags l' =>
      (flags.isSome ↔ FlagsReadable env sysfsDirpath) ∧ l'.held = l.held) never l := by
  unfold getBARFlags FlagsReadable
  cases opened : env.openFile (env.joinPath sysfsDirpath (text "resource")) with
  | none => simp
  | some lines =>
    simp only [wp_bind, wp_pure]
    apply wp_acquire rfl
    intro l₁ held₁ _
    apply wp_release held₁ (List.mem_cons_self ..)
    intro l₂ held₂ _
    rw [List.erase_cons_head] at held₂
    refine ⟨?_, held₂⟩
    rw [barFlagsLoop_isSome lines 0 _ (Nat.zero_le _)]
    simp

end Flags

section Open

variable (env : Environment) (deviceLocator : Bytes)

def configFd : ℤ :=
  env.openFD (env.joinPath (parsePciAddress deviceLocator) (text "config"))

def Leaks : Prop :=
  parsePciAddress deviceLocator ≠ [] ∧ 0 ≤ configFd env deviceLocator ∧
    (env.fstat (configFd env deviceLocator) = none ∨
      ¬FlagsReadable env (parsePciAddress deviceLocator))

def Outcome : Option GglPciDevice → Account Resource → Prop
  | none, l => (Leaks env deviceLocator ∧ l.held = [.fd (configFd env deviceLocator)]) ∨
      (¬Leaks env deviceLocator ∧ l.held = [])
  | some pdev, l => ¬Leaks env deviceLocator ∧
      l.held.Perm (mapped pdev ++ [.fd pdev.pciConfig, .device])

theorem wp_gglPciOpen :
    wp (gglPciOpen env deviceLocator) (Outcome env deviceLocator) never Account.empty := by
  unfold gglPciOpen
  rw [wp_bind]
  apply wp_acquire rfl
  intro l₁ held₁ _
  change l₁.held = [.device] at held₁
  have only : l₁.held.Perm [.device] := held₁ ▸ .rfl
  apply wp_ite
  · intro unparsed
    rw [wp_bind]
    apply wp_release_perm only
    intro l₂ held₂
    exact .inr ⟨fun leaks => leaks.1 unparsed, held₂.eq_nil⟩
  · intro parsed
    apply wp_ite
    · intro unopened
      rw [wp_bind]
      apply wp_release_perm only
      intro l₂ held₂
      exact .inr ⟨fun leaks => absurd leaks.2.1 (by unfold configFd; omega), held₂.eq_nil⟩
    · intro opened
      rw [wp_bind]
      apply wp_acquire held₁
      intro l₂ held₂ _
      have fd : 0 ≤ configFd env deviceLocator := by unfold configFd; omega
      -- from here on a failure only frees the structure
      have leaves : Leaks env deviceLocator → ∀ l₃ : Account Resource, l₃.held = l₂.held →
          wp (do delete; return none) (Outcome env deviceLocator) never l₃ := by
        intro leaks l₃ same
        have both : l₃.held.Perm [.device, .fd (configFd env deviceLocator)] := by
          rw [same, held₂]
          exact .swap ..
        rw [wp_bind]
        apply wp_release_perm both
        intro l₄ held₄
        exact .inl ⟨leaks, List.perm_singleton.mp held₄⟩
      cases size : env.fstat (configFd env deviceLocator) with
      | none =>
        unfold configFd at size
        rw [size]
        exact leaves ⟨parsed, fd, .inl size⟩ l₂ rfl
      | some configSizeBytes =>
        unfold configFd at size
        rw [size]
        simp only [wp_bind]
        apply wp_post (wp_getBARFlags (parsePciAddress deviceLocator))
        rintro flags l₃ ⟨readable, held₃⟩
        cases flags with
        | none =>
          have unreadable := readable.not.mp (by simp)
          exact leaves ⟨parsed, fd, .inr unreadable⟩ l₃ held₃
        | some flags =>
          have fine : ¬Leaks env deviceLocator := by
            rintro ⟨_, _, none | unreadable⟩
            · unfold configFd at none
              rw [size] at none
              cases none
            · exact unreadable (readable.mp rfl)
          have base : l₃.held.Perm [.fd (configFd env deviceLocator), .device] := by
            rw [held₃, held₂]
            exact .rfl
          rw [wp_bind]
          apply wp_post (wp_mapBars flags kMaxPciBars 0 0 _ l₃ (Nat.le_refl _) (Nat.le_refl 0)
            (fun _ _ => rfl) base)
          rintro pdev l₄ ⟨same, held₄⟩
          refine ⟨fine, ?_⟩
          rw [same]
          exact held₄

end Open

section Close

variable {closing : Closing} {pdev : GglPciDevice}

def CheckFailed (e : Stop) : Prop := e = .checkFailed

theorem wp_unmapBar {l : Account Resource} {rest : List Resource} (i : Fin kMaxPciBars)
    (held : l.held.Perm ((slot pdev i).toList ++ rest)) :
    wp (unmapBar closing pdev i) (fun _ l' => l'.held.Perm rest) CheckFailed l := by
  unfold unmapBar slot at *
  by_cases null : pdev.bars i = 0
  · rw [if_pos null] at held ⊢
    exact held
  · rw [if_neg null] at held ⊢
    apply wp_ite
    · intro _
      exact wp_release_perm held fun _ held' => held'
    · intro _
      rfl

theorem wp_unmapBars {base : List Resource} : ∀ (indices : List (Fin kMaxPciBars))
    (l : Account Resource), l.held.Perm (indices.filterMap (slot pdev) ++ base) →
    wp (unmapBars closing pdev indices) (fun _ l' => l'.held.Perm base) CheckFailed l := by
  intro indices
  induction indices with
  | nil =>
    intro l held
    exact held
  | cons i indices ih =>
    intro l held
    have first : (i :: indices).filterMap (slot pdev) =
        (slot pdev i).toList ++ indices.filterMap (slot pdev) := by
      cases here : slot pdev i with
      | none => rw [List.filterMap_cons_none here]; rfl
      | some r => rw [List.filterMap_cons_some here]; rfl
    rw [first, List.append_assoc] at held
    rw [unmapBars, wp_bind]
    apply wp_post (wp_unmapBar i held)
    intro _ l' held'
    exact ih l' held'

theorem wp_gglPciClose {l : Account Resource}
    (held : l.held.Perm (mapped pdev ++ [.fd pdev.pciConfig, .device])) :
    wp (gglPciClose closing pdev) (fun code l' => code = 0 → l'.held = []) CheckFailed l := by
  unfold gglPciClose
  apply wp_ite
  · intro _ zero
    cases zero
  · intro _
    have fd : l.held.Perm (.fd pdev.pciConfig :: (mapped pdev ++ [.device])) :=
      held.trans List.perm_middle
    rw [wp_bind]
    apply wp_release_perm fd
    intro l₁ held₁
    rw [wp_bind]
    apply wp_post (wp_unmapBars _ l₁ held₁)
    intro _ l₂ held₂
    rw [wp_bind]
    apply wp_release_perm held₂
    intro l₃ held₃ _
    exact held₃.eq_nil

end Close

/-- Whatever `ggl_pci_open` returns, nothing is left over: a null pointer leaves nothing held, and
after a close of the device that succeeds all that was acquired is released, each as often. -/
def Balanced (env : Environment) (deviceLocator : Bytes) : Prop :=
  wp (gglPciOpen env deviceLocator) (fun r l =>
    match r with
    | none => l.held = []
    | some pdev => ∀ closing, wp (gglPciClose closing pdev) (fun code l' =>
        code = 0 → l'.held = [] ∧ l'.acquired.Perm l'.released) CheckFailed l) never Account.empty

theorem not_balanced {env : Environment} {deviceLocator : Bytes}
    (leaks : Leaks env deviceLocator) : ¬Balanced env deviceLocator := by
  intro balanced
  obtain ⟨r, l, run, outcome⟩ := wp_never.mp (wp_gglPciOpen env deviceLocator)
  have after := wp_ok balanced run
  cases r with
  | none =>
    rcases outcome with ⟨_, held⟩ | ⟨fine, _⟩
    · rw [held] at after
      cases after
    · exact fine leaks
  | some pdev => exact outcome.1 leaks

/-- Nothing is left over exactly when the descriptor, once open, is not given up again. -/
theorem gglPciOpen_balanced_iff (env : Environment) (deviceLocator : Bytes) :
    Balanced env deviceLocator ↔ ¬(parsePciAddress deviceLocator ≠ [] ∧
      0 ≤ configFd env deviceLocator ∧ (env.fstat (configFd env deviceLocator) = none ∨
        ¬FlagsReadable env (parsePciAddress deviceLocator))) := by
  constructor
  · intro balanced leaks
    exact not_balanced leaks balanced
  · intro fine
    apply wp_post (wp_gglPciOpen env deviceLocator)
    intro r l outcome
    cases r with
    | none =>
      rcases outcome with ⟨leaks, _⟩ | ⟨_, held⟩
      · exact (fine leaks).elim
      · exact held
    | some pdev =>
      intro closing
      apply wp_post (wp_gglPciClose outcome.2)
      intro code l' released zero
      exact ⟨released zero, l'.all_released (released zero)⟩

def noSize : Environment where
  joinPath dir name := dir ++ ch '/' :: name
  openFD _ := 3
  fstat _ := none
  openFile _ := none
  strSplit line := (line.splitOnP (· == ch ' ')).filter (· ≠ [])
  simpleHexAtoi _ := none
  fileExists _ := false
  mMapFile _ := ⟨0, 0, by decide⟩

/-- For `00:1f.3` the descriptor 3 stays open. -/
theorem gglPciOpen_leaks : ¬Balanced noSize [48, 48, 58, 49, 102, 46, 51] := by
  apply not_balanced
  refine ⟨by decide +kernel, by decide, .inl rfl⟩

end Nanolibc.LinuxPciModel
