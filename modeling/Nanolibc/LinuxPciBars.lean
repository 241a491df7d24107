import Nanolibc.LinuxPciResources

set_option autoImplicit false

namespace Nanolibc.LinuxPciModel
open Lib.Program Lib.Ledger CString

section Offsets

/-- The register at the offset is not the upper half of a 64-bit BAR. -/
def isBar (wide : ℕ → Bool) : ℕ → Bool
  | 0 => true
  | barOffset + 1 => !(isBar wide barOffset && wide barOffset)

def barOffsets (wide : ℕ → Bool) : List ℕ := (List.range kMaxPciBars).filter (isBar wide)

/-- The index that is next at an offset. -/
def barsBelow (wide : ℕ → Bool) (barOffset : ℕ) : ℕ :=
  ((List.range barOffset).filter (isBar wide)).length

variable {wide : ℕ → Bool} {barOffset : ℕ}

def nextBar (wide : ℕ → Bool) (barOffset : ℕ) : ℕ := barOffset + if wide barOffset then 2 else 1

theorem barsBelow_succ : barsBelow wide (barOffset + 1) =
    barsBelow wide barOffset + if isBar wide barOffset then 1 else 0 := by
  rw [barsBelow, List.range_succ, List.filter_append, List.length_append, List.filter_singleton]
  cases isBar wide barOffset with
  | false => rfl
  | true => rfl

theorem isBar_next (here : isBar wide barOffset) : isBar wide (nextBar wide barOffset) := by
  unfold nextBar
  cases two : wide barOffset with
  | false => simp [isBar, two]
  | true => simp [isBar, here, two]

theorem barsBelow_next (here : isBar wide barOffset) :
    barsBelow wide (nextBar wide barOffset) = barsBelow wide barOffset + 1 := by
  unfold nextBar
  cases two : wide barOffset with
  | false => rw [if_neg (by simp), barsBelow_succ, if_pos here]
  | true =>
    have upper : isBar wide (barOffset + 1) = false := by simp [isBar, here, two]
    rw [if_pos rfl, barsBelow_succ, upper, barsBelow_succ, if_pos here]
    rfl

theorem barOffsets_at (here : isBar wide barOffset) (inside : barOffset < kMaxPciBars) :
    (barOffsets wide)[barsBelow wide barOffset]? = some barOffset := by
  obtain ⟨above, sum⟩ := Nat.exists_eq_add_of_lt inside
  have split : List.range kMaxPciBars = List.range barOffset ++
      (barOffset :: (List.range above).map (barOffset + 1 + ·)) := by
    rw [sum, Nat.add_assoc, List.range_add, List.range_succ_eq_map, List.map_cons, List.map_map]
    refine congrArg (List.range barOffset ++ barOffset :: ·) (List.map_congr_left fun i _ => ?_)
    change barOffset + (i + 1) = _
    omega
  rw [barOffsets, split, List.filter_append, List.filter_cons_of_pos here, barsBelow,
    List.getElem?_append_right (Nat.le_refl _), Nat.sub_self]
  rfl

theorem barsBelow_all (beyond : kMaxPciBars ≤ barOffset) :
    (barOffsets wide).length ≤ barsBelow wide barOffset := by
  obtain ⟨more, rfl⟩ := Nat.exists_eq_add_of_le beyond
  have front : List.range kMaxPciBars <+: List.range (kMaxPciBars + more) :=
    ⟨_, List.range_add.symm⟩
  exact (front.filter (isBar wide)).length_le

end Offsets

/-- The example of a device with a 64-bit BAR in front, and one with nothing else. -/
example : barOffsets (fun barOffset => barOffset = 0 || barOffset = 4) = [0, 2, 3, 4] := by decide

example : barOffsets (fun _ => true) = [0, 2, 4] := by decide

section Mapping

variable (env : Environment)

def resourceXPath (devicePath : Bytes) (barOffset : ℕ) : Bytes :=
  devicePath ++ text "/resource" ++ text (toString barOffset)

def unmapped : UInt64 × UInt64 := (0, 0)

def barAt (devicePath : Bytes) (barOffset : ℕ) : UInt64 × UInt64 :=
  if env.fileExists (resourceXPath devicePath barOffset) then
    ((env.mMapFile (resourceXPath devicePath barOffset)).address,
      (env.mMapFile (resourceXPath devicePath barOffset)).size)
  else unmapped

def barOf (devicePath : Bytes) (wide : ℕ → Bool) (barIndex : ℕ) : UInt64 × UInt64 :=
  match (barOffsets wide)[barIndex]? with
  | none => unmapped
  | some barOffset => barAt env devicePath barOffset

def GglPciDevice.bar (pdev : GglPciDevice) (i : Fin kMaxPciBars) : UInt64 × UInt64 :=
  (pdev.bars i, pdev.barSizesBytes i)

variable {env} {wide : ℕ → Bool} {pdev : GglPciDevice} {barOffset barIndex : ℕ}
  {l : Account Resource}

def Filled (env : Environment) (wide : ℕ → Bool) (barIndex : ℕ) (pdev : GglPciDevice) : Prop :=
  ∀ i, pdev.bar i = if i.val < barIndex then barOf env pdev.devicePath wide i else unmapped

theorem barsBelow_le (wide : ℕ → Bool) (barOffset : ℕ) : barsBelow wide barOffset ≤ barOffset := by
  have few := List.length_filter_le (isBar wide) (List.range barOffset)
  rwa [List.length_range] at few

theorem filled_all (beyond : kMaxPciBars ≤ barOffset) (index : barsBelow wide barOffset = barIndex)
    (filled : Filled env wide barIndex pdev) (i : Fin kMaxPciBars) :
    pdev.bar i = barOf env pdev.devicePath wide i.val := by
  rw [filled]
  by_cases below : i.val < barIndex
  · rw [if_pos below]
  · have all : (barOffsets wide).length ≤ barsBelow wide barOffset := barsBelow_all beyond
    rw [if_neg below, barOf, List.getElem?_eq_none (by omega)]

theorem bar_withBar {i : Fin kMaxPciBars} (mapping : Mapping) (j : Fin kMaxPciBars) :
    (pdev.withBar i mapping).bar j = if j = i then (mapping.address, mapping.size)
      else pdev.bar j := by
  by_cases here : j = i
  · subst here
    simp [GglPciDevice.bar, GglPciDevice.withBar]
  · simp [GglPciDevice.bar, GglPciDevice.withBar, here]

theorem wp_mMapFile (path : Bytes) :
    wp (mMapFile env path) (fun mapping _ => mapping = env.mMapFile path) never l := by
  unfold mMapFile
  dsimp only
  apply wp_ite
  · intro _
    rw [wp_bind]
    exact wp_acquire rfl fun _ _ _ => rfl
  · intro _
    exact rfl

theorem wp_mapBar_bar (inside : barIndex < kMaxPciBars)
    (empty : pdev.bar ⟨barIndex, inside⟩ = unmapped) :
    wp (mapBar env barOffset barIndex pdev) (fun pdev' _ =>
      pdev'.devicePath = pdev.devicePath ∧ ∀ j : Fin kMaxPciBars, pdev'.bar j =
        if j.val = barIndex then barAt env pdev.devicePath barOffset else pdev.bar j) never l := by
  unfold mapBar
  apply wp_ite
  · intro missing
    have none : env.fileExists (resourceXPath pdev.devicePath barOffset) = false := by
      change (!env.fileExists (resourceXPath pdev.devicePath barOffset)) = true at missing
      simpa only [Bool.not_eq_true'] using missing
    rw [wp_pure]
    refine ⟨rfl, ?_⟩
    intro j
    rw [barAt, none]
    by_cases here : j.val = barIndex
    · have same : j = ⟨barIndex, inside⟩ := Fin.ext here
      rw [if_pos here, same, empty]
      rfl
    · rw [if_neg here]
  · intro present
    have exists_file : env.fileExists (resourceXPath pdev.devicePath barOffset) = true := by
      change ¬(!env.fileExists (resourceXPath pdev.devicePath barOffset)) = true at present
      simpa only [Bool.not_eq_true', Bool.not_eq_false] using present
    rw [wp_bind]
    apply wp_post (wp_mMapFile _)
    rintro mapping l' rfl
    rw [setBar, dif_pos inside, wp_pure]
    refine ⟨rfl, ?_⟩
    intro j
    rw [bar_withBar, barAt, exists_file]
    exact if_congr Fin.ext_iff rfl rfl

/-- The loop fills in the BARs in their order. -/
theorem wp_mapBars_filled (flags : Flags) (wide_eq : ∀ barOffset (inside : barOffset < kMaxPciBars),
      is64BitBAR (flags ⟨barOffset, inside⟩) = wide barOffset) :
    ∀ (left barOffset barIndex : ℕ) (pdev : GglPciDevice) (l : Account Resource),
    kMaxPciBars - barOffset ≤ left → isBar wide barOffset → barsBelow wide barOffset = barIndex →
    Filled env wide barIndex pdev →
    wp (mapBars env flags barOffset barIndex pdev) (fun pdev' _ =>
      pdev'.devicePath = pdev.devicePath ∧
        ∀ i, pdev'.bar i = barOf env pdev.devicePath wide i.val) never l := by
  intro left
  induction left with
  | zero =>
    intro barOffset barIndex pdev l done _ index filled
    rw [mapBars, dif_neg (by omega), wp_pure]
    exact ⟨rfl, fun i => filled_all (by omega) index filled i⟩
  | succ left ih =>
    intro barOffset barIndex pdev l rounds here index filled
    rw [mapBars]
    by_cases inside : barOffset < kMaxPciBars
    · have low : barIndex < kMaxPciBars := by
        have behind := barsBelow_le wide barOffset
        omega
      have empty : pdev.bar ⟨barIndex, low⟩ = unmapped := by
        rw [filled, if_neg (Nat.lt_irrefl _)]
      have next : (barOffset + if is64BitBAR (flags ⟨barOffset, inside⟩) then 2 else 1) =
          nextBar wide barOffset := by
        rw [wide_eq, nextBar]
      rw [dif_pos inside, wp_bind]
      apply wp_post (wp_mapBar_bar low empty)
      rintro pdev' l' ⟨path, bars⟩
      have further : barOffset < nextBar wide barOffset := by
        unfold nextBar
        split <;> omega
      have filled' : Filled env wide (barIndex + 1) pdev' := by
        intro j
        rw [bars, path]
        by_cases last : j.val = barIndex
        · rw [if_pos last, if_pos (by omega), barOf, last, ← index, barOffsets_at here inside]
        · rw [if_neg last, filled]
          exact if_congr (by omega) rfl rfl
      rw [next]
      apply wp_post (ih _ (barIndex + 1) pdev' l' (by omega) (isBar_next here)
        (by rw [barsBelow_next here, index]) filled')
      rintro pdev'' l'' ⟨same, all⟩
      rw [path] at same all
      exact ⟨same, all⟩
    · rw [dif_neg inside, wp_pure]
      exact ⟨rfl, fun i => filled_all (by omega) index filled i⟩

end Mapping

section Open

variable (env : Environment)

/-- The flags that a line of the resource file gives. -/
def lineFlag (line : Bytes) : UInt64 :=
  match env.strSplit line with
  | [_, _, v2] => (env.simpleHexAtoi v2).getD 0
  | _ => 0

def flagsAt (lines : List Bytes) (barOffset : ℕ) : UInt64 :=
  (lines[barOffset]?.map (lineFlag env)).getD 0

variable {env} {l : Account Resource}

theorem barFlagsLoop_at : ∀ (lines : List Bytes) (barOffset : ℕ) (flags flags' : Flags),
    (∀ i : Fin kMaxPciBars, barOffset ≤ i.val → flags i = 0) →
    barFlagsLoop env lines barOffset flags = some flags' → ∀ i : Fin kMaxPciBars,
      flags' i = if i.val < barOffset then flags i else flagsAt env lines (i.val - barOffset) := by
  intro lines
  induction lines with
  | nil =>
    intro barOffset flags flags' zero run i
    cases run
    by_cases low : i.val < barOffset
    · rw [if_pos low]
    · rw [if_neg low, zero i (by omega)]
      rfl
  | cons line lines ih =>
    intro barOffset flags flags' zero run i
    rw [barFlagsLoop] at run
    split at run
    · rename_i first last v2 fields
      by_cases inside : barOffset < kMaxPciBars
      · rw [dif_pos inside] at run
        cases hex : env.simpleHexAtoi v2 with
        | none =>
          rw [hex] at run
          cases run
        | some flag =>
          rw [hex] at run
          have after : ∀ j : Fin kMaxPciBars, barOffset + 1 ≤ j.val →
              Function.update flags ⟨barOffset, inside⟩ flag j = 0 := by
            intro j above
            have other : j ≠ ⟨barOffset, inside⟩ := by
              rintro rfl
              exact absurd above (Nat.not_succ_le_self barOffset)
            rw [Function.update_of_ne other, zero j (by omega)]
          rw [ih (barOffset + 1) _ flags' after run i]
          rcases Nat.lt_trichotomy i.val barOffset with below | here | above
          · have other : i ≠ ⟨barOffset, inside⟩ := by
              rintro rfl
              exact Nat.lt_irrefl _ below
            rw [if_pos (by omega), if_pos below, Function.update_of_ne other]
          · have same : i = ⟨barOffset, inside⟩ := Fin.ext here
            rw [if_pos (by omega), if_neg (by omega), same, Function.update_self, Nat.sub_self]
            simp [flagsAt, lineFlag, fields, hex]
          · obtain ⟨k, sum⟩ := Nat.exists_eq_add_of_lt above
            rw [if_neg (by omega), if_neg (by omega), sum,
              show barOffset + k + 1 - barOffset = k + 1 by omega,
              show barOffset + k + 1 - (barOffset + 1) = k by omega]
            rfl
      · rw [dif_neg inside] at run
        cases run
        rw [if_pos (by omega)]
    · cases run

theorem wp_getBARFlags_at (sysfsDirpath : Bytes) :
    wp (getBARFlags env sysfsDirpath) (fun r _ => ∀ flags, r = some flags →
      ∃ lines, env.openFile (env.joinPath sysfsDirpath (text "resource")) = some lines ∧
        ∀ i, flags i = flagsAt env lines i.val) (fun _ => True) l := by
  unfold getBARFlags
  cases opened : env.openFile (env.joinPath sysfsDirpath (text "resource")) with
  | none => exact fun _ none => nomatch none
  | some lines =>
    rw [wp_bind]
    apply wp_acquire rfl
    intro l₁ _ _
    rw [wp_bind]
    apply wp_any
    intro _ l₂
    rw [wp_pure]
    intro flags run
    refine ⟨lines, rfl, ?_⟩
    intro i
    rw [barFlagsLoop_at lines 0 _ flags (fun _ _ => rfl) run i, if_neg (Nat.not_lt_zero _)]
    rfl

/-- The BARs of a device that was opened, by the resource file of the directory. -/
def Indexed (env : Environment) (devicePath : Bytes) (pdev : GglPciDevice) : Prop :=
  ∃ lines, env.openFile (env.joinPath devicePath (text "resource")) = some lines ∧
    ∀ i : Fin kMaxPciBars, pdev.bar i =
      barOf env devicePath (fun barOffset => is64BitBAR (flagsAt env lines barOffset)) i.val

theorem wp_gglPciOpen_indexed (deviceLocator : Bytes) :
    wp (gglPciOpen env deviceLocator) (fun r _ => ∀ pdev, r = some pdev →
      Indexed env (parsePciAddress deviceLocator) pdev) (fun _ => True) Account.empty := by
  have failed : ∀ l : Account Resource, wp (do
      delete
      return none) (fun r _ => ∀ pdev, r = some pdev →
        Indexed env (parsePciAddress deviceLocator) pdev) (fun _ => True) l := by
    intro l
    rw [wp_bind]
    apply wp_any
    intro _ l' pdev none
    cases none
  unfold gglPciOpen
  rw [wp_bind]
  apply wp_acquire rfl
  intro l₁ _ _
  apply wp_ite
  · intro _
    exact failed l₁
  · intro _
    apply wp_ite
    · intro _
      exact failed l₁
    · intro _
      rw [wp_bind]
      apply wp_acquire rfl
      intro l₂ _ _
      split
      · exact failed l₂
      · rename_i configSizeBytes _
        rw [wp_bind]
        apply wp_post (wp_getBARFlags_at (parsePciAddress deviceLocator))
        intro flags l₃ read
        cases flags with
        | none => exact failed l₃
        | some flags =>
          obtain ⟨lines, opened, at_lines⟩ := read flags rfl
          dsimp only
          rw [wp_bind]
          apply wp_mono (wp_mapBars_filled flags (fun barOffset inside =>
            congrArg is64BitBAR (at_lines ⟨barOffset, inside⟩)) kMaxPciBars 0 0 _ l₃ (Nat.le_refl _)
            rfl rfl (fun _ => rfl))
          · rintro pdev l₄ ⟨_, bars⟩ _ same
            cases same
            exact ⟨lines, opened, bars⟩
          · exact fun _ _ => trivial

end Open

/-- A device that `ggl_pci_open` returns has its BARs by their index, that is the number of the
BARs below, while the resource files are numbered by the registers' offsets: the mapping of each
file that is there, and nothing behind the last BAR. -/
theorem open_indexes_bars (env : Environment) (deviceLocator : Bytes) :
    ∃ r l, gglPciOpen env deviceLocator Account.empty = .ok (r, l) ∧
      ∀ pdev, r = some pdev → Indexed env (parsePciAddress deviceLocator) pdev := by
  obtain ⟨r, l, run, _⟩ := wp_never.mp (wp_gglPciOpen env deviceLocator)
  exact ⟨r, l, run, wp_ok (wp_gglPciOpen_indexed deviceLocator) run⟩

end Nanolibc.LinuxPciModel
