import Mathlib.Data.List.Perm.Basic
import Nanolibc.Lib.Program

set_option autoImplicit false

namespace Lib.Ledger
open Lib.Program

structure Account (ρ : Type) where
  acquired : List ρ
  held : List ρ
  released : List ρ
  balance : acquired.Perm (held ++ released)

variable {ρ ε : Type}

def Account.empty : Account ρ := ⟨[], [], [], .nil⟩

def acquire (r : ρ) : Prog (Account ρ) ε Unit :=
  modify fun l => ⟨r :: l.acquired, r :: l.held, l.released, l.balance.cons r⟩

theorem Account.all_released (l : Account ρ) (none : l.held = []) :
    l.acquired.Perm l.released := by
  have balance := l.balance
  rwa [none, List.nil_append] at balance

theorem wp_acquire {post : Unit → Account ρ → Prop} {bad : ε → Prop} {l : Account ρ} {r : ρ}
    {rest : List ρ} (held : l.held = rest)
    (h : ∀ l' : Account ρ, l'.held = r :: rest → l'.acquired = r :: l.acquired → post () l') :
    wp (acquire r) post bad l :=
  h _ (by rw [← held]) rfl

section Slots

variable {ι : Type} [DecidableEq ι] {slot : ι → Option ρ} {i : ι} {r : ρ}

theorem filterMap_update_none {indices : List ι} (out : i ∉ indices) (v : Option ρ) :
    indices.filterMap (Function.update slot i v) = indices.filterMap slot := by
  apply List.filterMap_congr
  intro j mem
  have other : j ≠ i := by
    rintro rfl
    exact out mem
  rw [Function.update_of_ne other]

theorem filterMap_update_perm {indices : List ι} (nodup : indices.Nodup) (mem : i ∈ indices)
    (empty : slot i = none) :
    (indices.filterMap (Function.update slot i (some r))).Perm (r :: indices.filterMap slot) := by
  induction indices with
  | nil => cases mem
  | cons j indices ih =>
    obtain ⟨out, nodup⟩ := List.nodup_cons.mp nodup
    by_cases here : j = i
    · subst here
      rw [List.filterMap_cons_some (Function.update_self ..), List.filterMap_cons_none empty,
        filterMap_update_none out]
    · have rest := ih nodup ((List.mem_cons.mp mem).resolve_left (Ne.symm here))
      have same : Function.update slot i (some r) j = slot j := Function.update_of_ne here ..
      cases kept : slot j with
      | none =>
        rw [List.filterMap_cons_none (same.trans kept), List.filterMap_cons_none kept]
        exact rest
      | some q =>
        rw [List.filterMap_cons_some (same.trans kept), List.filterMap_cons_some kept]
        exact (rest.cons q).trans (List.Perm.swap r q _)

end Slots

variable [DecidableEq ρ]

theorem release_balance (l : Account ρ) {r : ρ} (held : r ∈ l.held) :
    l.acquired.Perm (l.held.erase r ++ r :: l.released) := by
  have split := (List.perm_cons_erase held).append_right l.released
  exact l.balance.trans (split.trans List.perm_middle.symm)

theorem Account.count_eq (l : Account ρ) (r : ρ) :
    l.acquired.count r = l.held.count r + l.released.count r := by
  rw [l.balance.count_eq, List.count_append]

def release (notHeld : ε) (r : ρ) : Prog (Account ρ) ε Unit := do
  let l ← get
  if held : r ∈ l.held then set (⟨l.acquired, l.held.erase r, r :: l.released,
    release_balance l held⟩ : Account ρ)
  else throw notHeld

theorem wp_release {post : Unit → Account ρ → Prop} {bad : ε → Prop} {l : Account ρ} {e : ε} {r : ρ}
    {rest : List ρ} (held : l.held = rest) (mem : r ∈ rest)
    (h : ∀ l' : Account ρ, l'.held = rest.erase r → l'.acquired = l.acquired → post () l') :
    wp (release e r) post bad l := by
  subst held
  simp only [release, wp_bind, wp_get, mem, dite_true, wp_set]
  exact h _ rfl rfl

theorem wp_release_perm {post : Unit → Account ρ → Prop} {bad : ε → Prop} {l : Account ρ} {e : ε}
    {r : ρ} {rest : List ρ} (held : l.held.Perm (r :: rest))
    (h : ∀ l' : Account ρ, l'.held.Perm rest → post () l') : wp (release e r) post bad l := by
  have mem : r ∈ l.held := held.mem_iff.mpr (List.mem_cons_self ..)
  apply wp_release rfl mem
  intro l' held' _
  apply h l'
  rw [held']
  have erased := held.erase r
  rwa [List.erase_cons_head] at erased

end Lib.Ledger
