import Nanolibc.Lib.ArrayHeap

set_option autoImplicit false

namespace Lib.OwnedArray
open Lib.ArrayHeap

variable {α : Type}

def Buffer (h : Heap α) (p : Option ℕ) (zs : List α) : Prop :=
  match p with
  | none => zs = []
  | some a => h.cells a = some zs ∧ a < h.next

theorem buffer_unique {h : Heap α} {p : Option ℕ} {zs ws : List α} (one : Buffer h p zs)
    (two : Buffer h p ws) : zs = ws := by
  cases p with
  | none => exact Eq.trans one (Eq.symm two)
  | some a => exact Option.some.inj (one.1.symm.trans two.1)

/-- The heap after a method: the buffer `p` became `p'` with slots `zs`; `dead` are the elements
destroyed with the old buffer. -/
inductive Effect (h : Heap α) : Option ℕ → Heap α → Option ℕ → List α → List α → Prop where
  | idle : Effect h none h none [] []
  | inPlace (a : ℕ) (zs : List α) : Effect h (some a) (h.put a zs) (some a) zs []
  | first (zs : List α) : Effect h none (h.push zs) (some h.next) zs []
  | moved (a : ℕ) (zs dead : List α) :
      Effect h (some a) ((h.push zs).release a dead) (some h.next) zs dead
  | dropped (a : ℕ) (dead : List α) : Effect h (some a) (h.release a dead) none [] dead

namespace Effect

variable {h h' : Heap α} {p p' : Option ℕ} {a : ℕ} {zs ws dead : List α}

theorem refl (buffer : Buffer h p zs) : Effect h p h p zs [] := by
  cases p with
  | none =>
    cases buffer
    exact .idle
  | some a =>
    have same := Effect.inPlace (h := h) a zs
    rwa [Heap.put_cell h a zs buffer.1] at same

theorem after (buffer : Buffer h p ws) (e : Effect h p h' p' zs dead) : Buffer h' p' zs := by
  cases e with
  | idle => rfl
  | inPlace a zs => exact ⟨Heap.put_self h a zs, buffer.2⟩
  | first zs => exact ⟨Heap.push_self h zs, Nat.lt_succ_self _⟩
  | moved a zs dead =>
    have apart : h.next ≠ a := by have := buffer.2; omega
    refine ⟨?_, Nat.lt_succ_self _⟩
    rw [Heap.release_other _ _ apart, Heap.push_self]
  | dropped a dead => rfl

theorem store (buffer : Buffer h p ws) (e : Effect h p h' (some a) zs dead) (ys : List α) :
    Effect h p (h'.put a ys) (some a) ys dead := by
  cases e with
  | inPlace a zs =>
    rw [Heap.put_put]
    exact .inPlace a ys
  | first zs =>
    rw [Heap.push_put]
    exact .first ys
  | moved b zs dead =>
    have apart : b ≠ h.next := by have := buffer.2; omega
    have same : ((h.push zs).release b dead).put h.next ys = (h.push ys).release b dead := by
      simp only [Heap.push, Heap.put, Heap.release, Heap.mk.injEq, and_true]
      rw [Function.update_comm apart, Function.update_idem, Function.update_comm apart.symm]
    rw [same]
    exact .moved b ys dead

theorem next_le (e : Effect h p h' p' zs dead) : h.next ≤ h'.next := by
  cases e <;> simp

theorem countP (buffer : Buffer h p ws) (e : Effect h p h' p' zs dead) (q : α → Bool) :
    h'.elements.countP q + ws.countP q = h.elements.countP q + zs.countP q := by
  cases e with
  | idle =>
    cases buffer
    rfl
  | inPlace a zs => exact Heap.countP_put buffer.1 buffer.2 zs
  | first zs =>
    cases buffer
    rw [Heap.countP_push, List.countP_nil, Nat.add_zero]
  | moved a zs dead =>
    have apart : a ≠ h.next := Nat.ne_of_lt buffer.2
    have cell : (h.push zs).cells a = some ws := (Heap.push_other h zs apart).trans buffer.1
    rw [Heap.countP_release cell (Nat.lt_succ_of_lt buffer.2), Heap.countP_push]
  | dropped a dead => rw [Heap.countP_release buffer.1 buffer.2, List.countP_nil, Nat.add_zero]

theorem destroyed (e : Effect h p h' p' zs dead) : h'.destroyed = dead ++ h.destroyed := by
  cases e <;> rfl

theorem other (e : Effect h p h' p' zs dead) {b : ℕ} (foreign : p ≠ some b) (old : b < h.next) :
    h'.cells b = h.cells b := by
  cases e with
  | idle => rfl
  | inPlace a zs =>
    exact Heap.put_other h zs (fun same => foreign (congrArg some same.symm))
  | first zs => exact Heap.push_other h zs (by omega)
  | moved a zs dead =>
    rw [Heap.release_other _ _ (fun same => foreign (congrArg some same.symm)),
      Heap.push_other h zs (by omega)]
  | dropped a dead =>
    exact Heap.release_other h dead (fun same => foreign (congrArg some same.symm))

theorem tidy (buffer : Buffer h p ws) (t : h.Tidy) (e : Effect h p h' p' zs dead) : h'.Tidy := by
  cases e with
  | idle => exact t
  | inPlace a zs => exact t.put zs buffer.1
  | first zs => exact t.push zs
  | moved a zs dead =>
    have apart : a ≠ h.next := by have := buffer.2; omega
    exact (t.push zs).release dead ((Heap.push_other h zs apart).trans buffer.1)
  | dropped a dead => exact t.release dead buffer.1

theorem live (e : Effect h p h' p' zs dead) {b : ℕ} {ys : List α} (cell : h'.cells b = some ys) :
    p' = some b ∨ (p ≠ some b ∧ h.cells b = some ys) := by
  cases e with
  | idle => exact .inr ⟨by simp, cell⟩
  | inPlace a zs =>
    by_cases same : b = a
    · exact .inl (congrArg some same.symm)
    · rw [Heap.put_other h zs same] at cell
      exact .inr ⟨fun h => same (Option.some.inj h).symm, cell⟩
  | first zs =>
    by_cases same : b = h.next
    · exact .inl (congrArg some same.symm)
    · rw [Heap.push_other h zs same] at cell
      exact .inr ⟨by simp, cell⟩
  | moved a zs dead =>
    by_cases gone : b = a
    · subst gone
      rw [Heap.release_self] at cell
      cases cell
    · rw [Heap.release_other _ _ gone] at cell
      by_cases same : b = h.next
      · exact .inl (congrArg some same.symm)
      · rw [Heap.push_other h zs same] at cell
        exact .inr ⟨fun h => gone (Option.some.inj h).symm, cell⟩
  | dropped a dead =>
    by_cases gone : b = a
    · subst gone
      rw [Heap.release_self] at cell
      cases cell
    · rw [Heap.release_other _ _ gone] at cell
      exact .inr ⟨fun h => gone (Option.some.inj h).symm, cell⟩

theorem gone (e : Effect h (some a) h' p' zs dead) (lost : dead ≠ []) : h'.cells a = none := by
  cases e with
  | inPlace => exact absurd rfl lost
  | moved => exact Heap.release_self _ _ _
  | dropped => exact Heap.release_self _ _ _

theorem new_or_old (e : Effect h p h' (some a) zs dead) :
    p = some a ∨ (a = h.next ∧ h'.next = h.next + 1) := by
  cases e with
  | inPlace => exact .inl rfl
  | first => exact .inr ⟨rfl, rfl⟩
  | moved => exact .inr ⟨rfl, rfl⟩

end Effect

end Lib.OwnedArray
