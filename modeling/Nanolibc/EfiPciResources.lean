import Nanolibc.EfiPciModel
import Nanolibc.StrtoxCorrect

set_option autoImplicit false

namespace Nanolibc.EfiPciModel
open Lib.Program Lib.ArrayHeap Lib.Ledger CString Ctype StrtoxModel

section Parsing

theorem item_eq (t : Text) : item t.buffer =
    .ok ((Variant.unsigned.saturated (subject t.bytes 16)).toNat,
      some ((subject t.bytes 16).endc t.buffer)) := by
  have valid : (16 : ℤ) = 0 ∨ (2 ≤ (16 : ℤ) ∧ (16 : ℤ) ≤ 36) := by decide
  have base : (16 : ℤ).toNat = 16 := rfl
  unfold item strtoul
  rw [strtox_eq, ok_bind, expected, if_pos valid]
  simp only [base, if_true, pure_ok]

theorem item_ok (t : Text) : ∃ n, ∃ t' : Text, item t.buffer = .ok (n, some t'.buffer) := by
  obtain ⟨t', endc⟩ := endc_text t 16
  rw [item_eq, endc]
  exact ⟨_, t', rfl⟩

theorem charAt_zero (t : Text) : ∃ c, charAt t.buffer 0 = .ok c ∧
    (c ≠ 0 → ∃ t' : Text, t.buffer = c :: t'.buffer) := by
  obtain ⟨bytes, nonzero⟩ := t
  cases bytes with
  | nil => exact ⟨0, rfl, fun h => absurd rfl h⟩
  | cons c bytes =>
    refine ⟨c, rfl, fun _ => ⟨⟨bytes, fun d hd => nonzero d (List.mem_cons_of_mem _ hd)⟩, rfl⟩⟩

theorem item_behind {t t₁ : Text} {c : UInt8} (split : t.buffer = c :: t₁.buffer) :
    ∃ digit n, ∃ t₂ : Text, charAt t.buffer 1 = .ok digit ∧
      item (t.buffer.drop 1) = .ok (n, some t₂.buffer) := by
  obtain ⟨digit, first, _⟩ := charAt_zero t₁
  obtain ⟨n, t₂, run⟩ := item_ok t₁
  refine ⟨digit, n, t₂, ?_, ?_⟩
  · rw [split]
    exact first
  · rw [split, List.drop_one, List.tail_cons, run]

theorem parseFunction_ok (a b c : ℕ) (t : Text) : ∃ r, parseFunction a b c t.buffer = .ok r := by
  obtain ⟨dot, run, rest⟩ := charAt_zero t
  unfold parseFunction
  rw [run, ok_bind]
  by_cases isDot : dot = ch '.'
  · obtain ⟨t₁, split⟩ := rest (by rw [isDot]; decide)
    obtain ⟨digit, n, t₂, second, run₂⟩ := item_behind split
    obtain ⟨e, run₃, _⟩ := charAt_zero t₂
    rw [if_neg (not_not_intro isDot), second, ok_bind, run₂]
    simp only [ok_bind, run₃, pure_ok]
    split_ifs <;> exact ⟨_, rfl⟩
  · rw [if_pos isDot]
    exact ⟨_, rfl⟩

theorem parseRest_ok (a b : ℕ) (t : Text) : ∃ r, parseRest a b t.buffer = .ok r := by
  obtain ⟨separator, run, rest⟩ := charAt_zero t
  unfold parseRest
  rw [run, ok_bind]
  by_cases ended : separator = 0
  · rw [if_pos ended]
    exact ⟨_, rfl⟩
  · obtain ⟨t₁, split⟩ := rest ended
    obtain ⟨digit, n, t₂, second, run₂⟩ := item_behind split
    obtain ⟨e, run₃, _⟩ := charAt_zero t₂
    obtain ⟨r, run₄⟩ := parseFunction_ok a b n t₂
    rw [if_neg ended, second, ok_bind, run₂]
    simp only [ok_bind, run₃, run₄, pure_ok]
    split_ifs <;> exact ⟨_, rfl⟩

theorem parsePciAddress_ok (locator : Option Text) :
    ∃ r, parsePciAddress (locator.map Text.buffer) = .ok r := by
  cases locator with
  | none => exact ⟨none, rfl⟩
  | some t =>
    obtain ⟨first, run, _⟩ := charAt_zero t
    obtain ⟨n, t₁, run₁⟩ := item_ok t
    obtain ⟨colon, run₂, rest⟩ := charAt_zero t₁
    simp only [Option.map_some, parsePciAddress, run, ok_bind, run₁, run₂, pure_ok]
    by_cases isColon : colon = ch ':'
    · obtain ⟨t₂, split⟩ := rest (by rw [isColon]; decide)
      obtain ⟨digit, n', t₃, second, run₃⟩ := item_behind split
      obtain ⟨r, run₄⟩ := parseRest_ok n n' t₃
      rw [if_neg (not_not_intro isColon), second]
      simp only [ok_bind, run₃, run₄]
      split_ifs <;> exact ⟨_, rfl⟩
    · rw [if_pos isColon]
      split_ifs <;> exact ⟨_, rfl⟩

end Parsing

def Matches (env : Environment) (location : GglPciLocator) (i : ℕ) : Prop :=
  (∃ pciIo, env.openProtocol i = .ok pciIo) ∧ env.getLocation i = .ok location

section Lookup

variable {env : Environment} {location : GglPciLocator} {bad : Fault → Prop}

def OnlyProtocols (l l' : Account Resource) : Prop :=
  ∀ r, (∀ h, r ≠ .protocol h) → l'.acquired.count r = l.acquired.count r

def Searched (env : Environment) (location : GglPciLocator) (i : ℕ) (handles : List Handle)
    (held : List Resource) : Option (Handle × Interface) → Account Resource → Prop
  | none, l => l.held = held ∧ ∀ j, j < handles.length → ¬Matches env location (i + j)
  | some found, l => l.held = .protocol found.1 :: held ∧
    ∃ j, handles[j]? = some found.1 ∧ Matches env location (i + j) ∧
      ∀ k, k < j → ¬Matches env location (i + k)

theorem searched_skip {i : ℕ} {h : Handle} {handles : List Handle} {held : List Resource}
    {found : Option (Handle × Interface)} {l : Account Resource} (miss : ¬Matches env location i)
    (rest : Searched env location (i + 1) handles held found l) :
    Searched env location i (h :: handles) held found l := by
  have shift : ∀ j, i + 1 + j = i + (j + 1) := fun j => by omega
  cases found with
  | none =>
    refine ⟨rest.1, ?_⟩
    intro j hj
    cases j with
    | zero => exact miss
    | succ j =>
      rw [← shift]
      exact rest.2 j (by simpa using hj)
  | some found =>
    obtain ⟨held', j, at_j, hit, before⟩ := rest
    refine ⟨held', j + 1, at_j, shift j ▸ hit, ?_⟩
    intro k hk
    cases k with
    | zero => exact miss
    | succ k =>
      rw [← shift]
      exact before k (by omega)

theorem wp_lookupLoop : ∀ {handles : List Handle} {i : ℕ} {held : List Resource}
    {l : Account Resource}, l.held = held →
    wp (lookupLoop env location i handles) (fun found l' =>
      Searched env location i handles held found l' ∧ OnlyProtocols l l') bad l := by
  intro handles
  induction handles with
  | nil =>
    intro i held l same
    exact ⟨⟨same, fun j hj => by cases hj⟩, fun _ _ => rfl⟩
  | cons h handles ih =>
    intro i held l same
    unfold lookupLoop
    cases opened : env.openProtocol i with
    | error status =>
      have miss : ¬Matches env location i := by
        rintro ⟨⟨pciIo, ok⟩, _⟩
        rw [opened] at ok
        cases ok
      apply wp_post (ih same)
      rintro found l' ⟨rest, only⟩
      exact ⟨searched_skip miss rest, only⟩
    | ok pciIo =>
      simp only [wp_bind]
      refine wp_acquire same ?_
      intro l₁ held₁ acquired₁
      -- the protocol is closed again before the next handle
      have goesOn : ¬Matches env location i → wp (do
          closeProtocol h
          lookupLoop env location (i + 1) handles) (fun found l' =>
          Searched env location i (h :: handles) held found l' ∧ OnlyProtocols l l') bad l₁ := by
        intro miss
        rw [wp_bind]
        refine wp_release held₁ (List.mem_cons_self ..) ?_
        intro l₂ held₂ acquired₂
        rw [List.erase_cons_head] at held₂
        apply wp_post (ih held₂)
        rintro found l' ⟨rest, only⟩
        refine ⟨searched_skip miss rest, ?_⟩
        intro r other
        rw [only r other, acquired₂, acquired₁, List.count_cons_of_ne (Ne.symm (other h))]
      cases reported : env.getLocation i with
      | error status =>
        refine goesOn ?_
        rintro ⟨_, ok⟩
        rw [reported] at ok
        cases ok
      | ok id =>
        refine wp_ite ?_ ?_
        · rintro rfl
          refine ⟨⟨held₁, 0, rfl, ⟨⟨pciIo, opened⟩, reported⟩, fun k hk => by omega⟩, ?_⟩
          intro r other
          rw [acquired₁, List.count_cons_of_ne (Ne.symm (other h))]
        · intro apart
          refine goesOn ?_
          rintro ⟨_, ok⟩
          rw [reported] at ok
          cases ok
          exact apart rfl

def LookedUp (env : Environment) (location : GglPciLocator) (held : List Resource) :
    Option (Handle × Interface) → Account Resource → Prop
  | none, l => l.held = held ∧ l.acquired.count .handleBuffer ≤ 1
  | some found, l => l.held = .protocol found.1 :: held ∧ l.acquired.count .handleBuffer = 1 ∧
    ∃ handles i, env.locateHandleBuffer = .ok handles ∧ handles[i]? = some found.1 ∧
      Matches env location i ∧ ∀ k, k < i → ¬Matches env location k

theorem wp_lookupPciDevice {held : List Resource} {l : Account Resource} (same : l.held = held)
    (unused : l.acquired.count .handleBuffer = 0) :
    wp (lookupPciDevice env location) (fun found l' => LookedUp env location held found l' ∧
      l'.acquired.count .device = l.acquired.count .device) bad l := by
  unfold lookupPciDevice
  cases located : env.locateHandleBuffer with
  | error status => exact ⟨⟨same, by omega⟩, rfl⟩
  | ok handles =>
    simp only [wp_bind, wp_pure]
    refine wp_acquire same ?_
    intro l₁ held₁ acquired₁
    apply wp_post (wp_lookupLoop held₁)
    rintro found l₂ ⟨searched, only⟩
    have buffers : l₂.acquired.count .handleBuffer = 1 := by
      rw [only _ (fun h => by simp), acquired₁, List.count_cons_self, unused]
    have devices : l₂.acquired.count .device = l.acquired.count .device := by
      rw [only _ (fun h => by simp), acquired₁, List.count_cons_of_ne (by simp)]
    cases found with
    | none =>
      refine wp_release searched.1 (List.mem_cons_self ..) ?_
      intro l₃ held₃ acquired₃
      rw [List.erase_cons_head] at held₃
      rw [← acquired₃] at buffers devices
      exact ⟨⟨held₃, buffers.le⟩, devices⟩
    | some found =>
      obtain ⟨held₂, i, at_i, hit, before⟩ := searched
      refine wp_release held₂ (by simp) ?_
      intro l₃ held₃ acquired₃
      rw [List.erase_cons_tail (by simp), List.erase_cons_head] at held₃
      rw [← acquired₃] at buffers devices
      simp only [Nat.zero_add] at hit before
      exact ⟨⟨held₃, buffers, handles, i, located, at_i, hit, before⟩, devices⟩

end Lookup

section Open

variable {env : Environment}

/-- Nothing is held, and what was acquired was released as often. -/
structure Balanced (l : Account Resource) : Prop where
  nothing : l.held = []
  released : l.acquired.Perm l.released

theorem wp_gglPciClose {bad : Fault → Prop} (pdev : GglPciDevice) {pciIo : Interface}
    {l : Account Resource} (opened : pdev.pciIo = some pciIo)
    (held : l.held = [.protocol pdev.handle, .device]) :
    wp (gglPciClose pdev) (fun r l' => r = 0 ∧ Balanced l' ∧ l'.acquired = l.acquired) bad l := by
  unfold gglPciClose
  rw [opened]
  simp only [wp_bind, wp_pure, true_and]
  refine wp_release held (List.mem_cons_self ..) ?_
  intro l₁ held₁ acquired₁
  rw [List.erase_cons_head] at held₁
  refine wp_release held₁ (List.mem_cons_self ..) ?_
  intro l₂ held₂ acquired₂
  rw [List.erase_cons_head] at held₂
  exact ⟨⟨held₂, l₂.all_released held₂⟩, acquired₂.trans acquired₁⟩

/-- After a failed open: the structure and the buffer were allocated at most once, and all that
was acquired is released. -/
structure Failed (l : Account Resource) : Prop where
  balanced : Balanced l
  device : l.acquired.count .device ≤ 1
  buffer : l.acquired.count .handleBuffer ≤ 1

structure Opened (env : Environment) (locator : Option Text) (pdev : GglPciDevice)
    (l : Account Resource) : Prop where
  parsed : parsePciAddress (locator.map Text.buffer) = .ok (some pdev.location)
  first : ∃ handles i, env.locateHandleBuffer = .ok handles ∧ handles[i]? = some pdev.handle ∧
    Matches env pdev.location i ∧ ∀ k, k < i → ¬Matches env pdev.location k
  holds : l.held = [.protocol pdev.handle, .device]
  freed : l.released.count .handleBuffer = 1
  closes : ∃ l', gglPciClose pdev l = .ok (0, l') ∧ Balanced l' ∧ l'.acquired = l.acquired

def Outcome (env : Environment) (locator : Option Text) :
    Option GglPciDevice → Account Resource → Prop
  | none, l => Failed l
  | some pdev, l => Opened env locator pdev l

theorem wp_gglPciOpen (locator : Option Text) :
    wp (gglPciOpen env (locator.map Text.buffer)) (Outcome env locator) never Account.empty := by
  unfold gglPciOpen
  refine wp_ite ?_ ?_
  · intro _
    exact ⟨⟨rfl, .nil⟩, Nat.zero_le 1, Nat.zero_le 1⟩
  · intro _
    rw [wp_bind]
    refine wp_acquire rfl ?_
    intro l₁ held₁ acquired₁
    change l₁.held = [.device] at held₁
    change l₁.acquired = [.device] at acquired₁
    obtain ⟨location, parsed⟩ := parsePciAddress_ok locator
    rw [parsed, wp_bind, wp_lift_ok]
    cases location with
    | none =>
      simp only [wp_bind, wp_pure]
      refine wp_release held₁ (List.mem_cons_self ..) ?_
      intro l₂ held₂ acquired₂
      rw [acquired₁] at acquired₂
      refine ⟨⟨held₂, l₂.all_released held₂⟩, ?_, ?_⟩ <;> rw [acquired₂] <;> decide
    | some location =>
      simp only [wp_bind]
      have unused : l₁.acquired.count .handleBuffer = 0 := by rw [acquired₁]; decide
      apply wp_post (wp_lookupPciDevice held₁ unused)
      rintro found l₂ ⟨looked, devices⟩
      replace devices : l₂.acquired.count .device = 1 := by rw [devices, acquired₁]; decide
      cases found with
      | none =>
        simp only [wp_bind, wp_pure]
        refine wp_release looked.1 (List.mem_cons_self ..) ?_
        intro l₃ held₃ acquired₃
        refine ⟨⟨held₃, l₃.all_released held₃⟩, ?_, ?_⟩ <;> rw [acquired₃]
        · exact devices.le
        · exact looked.2
      | some found =>
        obtain ⟨held₂, buffers, first⟩ := looked
        refine wp_ite ?_ ?_
        · intro _
          simp only [wp_bind, wp_pure]
          apply wp_post (wp_gglPciClose _ rfl held₂)
          rintro _ l₃ ⟨_, balanced, acquired₃⟩
          exact ⟨balanced, acquired₃ ▸ devices.le, acquired₃ ▸ buffers.le⟩
        · intro _
          have freed : l₂.released.count .handleBuffer = 1 := by
            have count := l₂.count_eq .handleBuffer
            rw [held₂, buffers] at count
            simpa using count.symm
          obtain ⟨_, l', run, rfl, after⟩ := wp_never.mp
            (wp_gglPciClose ⟨location, found.1, some found.2⟩ rfl held₂)
          exact ⟨parsed, first, held₂, freed, l', run, after⟩

/-- Every run of `ggl_pci_open` returns, and what it holds then is told by what it returned. -/
theorem open_holds_device_or_nothing (env : Environment) (locator : Option Text) :
    ∃ r l, gglPciOpen env (locator.map Text.buffer) Account.empty = .ok (r, l) ∧
      Outcome env locator r l :=
  wp_never.mp (wp_gglPciOpen locator)

end Open

end Nanolibc.EfiPciModel
