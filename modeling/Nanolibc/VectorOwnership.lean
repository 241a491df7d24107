import Nanolibc.VectorSystem
import Mathlib.Data.List.Nodup

set_option autoImplicit false

namespace Nanolibc.VectorSystem
open Lib.Program Lib.ArrayHeap Lib.OwnedArray VectorModel
open Lib.ObjectPool hiding Holds Left

variable {α : Type} {T : Element α}

structure Exclusive (s : System α) : Prop where
  owner : ∀ a, a < s.heap.next → a ∉ s.heap.deleted → ∃! i, ∃ v, Alive s i v ∧ v.data = some a
  once : ∀ a, s.heap.deleted.count a ≤ 1
  all : (∀ i v, ¬Alive s i v) → ∀ a, a < s.heap.next → s.heap.deleted.count a = 1

/-- A move assignment has a target whose `_data` is NULL. -/
def TargetOwnsNothing (s : System α) : Op α → Prop
  | .moveAssign i _ => ∀ v, Alive s i v → v.data = none
  | _ => True

section

variable {s s' : System α} {op : Op α}

theorem exclusive_iff (inv : Inv (vectorClass α) s) : Exclusive s ↔ NoneLost (vectorClass α) s := by
  constructor
  · intro exclusive a zs cell
    have old := inv.tidy.live_lt cell
    have kept : a ∉ s.heap.deleted := by
      rw [inv.tidy.logged, cell]
      simp
    obtain ⟨i, ⟨v, alive, here⟩, _⟩ := exclusive.owner a old kept
    exact ⟨i, v, alive, here⟩
  · intro none
    have cell : ∀ a, a < s.heap.next → a ∉ s.heap.deleted → ∃ zs, s.heap.cells a = some zs := by
      intro a old kept
      rw [inv.tidy.logged] at kept
      exact Option.ne_none_iff_exists'.mp (fun gone => kept ⟨old, gone⟩)
    refine ⟨?_, ?_, ?_⟩
    · intro a old kept
      obtain ⟨zs, hz⟩ := cell a old kept
      obtain ⟨i, v, alive, here⟩ := none a zs hz
      refine ⟨i, ⟨v, alive, here⟩, ?_⟩
      rintro j ⟨w, alive', here'⟩
      exact inv.apart j i w v a alive' alive here' here
    · exact fun a => List.nodup_iff_count_le_one.mp inv.tidy.once a
    · intro empty a old
      by_contra missing
      have kept : a ∉ s.heap.deleted := by
        intro mem
        exact missing (List.count_eq_one_of_mem inv.tidy.once mem)
      obtain ⟨zs, hz⟩ := cell a old kept
      obtain ⟨i, v, alive, _⟩ := none a zs hz
      exact empty i v alive

/-- A step loses no array, except a move assignment to a vector that owns one. -/
theorem change_noneLost (inv : Inv (vectorClass α) s) (none : NoneLost (vectorClass α) s)
    (change : Change T s op s') : NoneLost (vectorClass α) s' ↔ TargetOwnsNothing s op := by
  cases change with
  | create what left shown =>
    have meets : TargetOwnsNothing s op := by cases what <;> trivial
    exact ⟨fun _ => meets, fun _ => noneLost_create none left⟩
  | update alive holds what left shown =>
    have meets : TargetOwnsNothing s op := by cases what <;> trivial
    exact ⟨fun _ => meets, fun _ => noneLost_update none alive left⟩
  | steal source => exact ⟨fun _ => trivial, fun _ => noneLost_steal none source⟩
  | drop alive holds effect => exact ⟨fun _ => trivial, fun _ => noneLost_drop none alive effect⟩
  | hand target source =>
    refine (noneLost_hand inv none target source).trans ⟨?_, fun meets => meets _ target⟩
    intro empty u there
    cases target.unique there
    exact empty

end

/-- The faults that are not about memory: a vector that does not exist, `abort()`, and a size
for which the growth loop of `_reserve` never ends. -/
def Benign (e : Fault) : Prop := e = .noObject ∨ e = .aborted ∨ e = .diverged

theorem mayFault_benign {s : System α} {op : Op α} (e : Fault) (h : MayFault T s op e) :
    Benign e := by
  cases e with
  | null => exact h.elim
  | dead => exact h.elim
  | bounds => exact h.elim
  | noObject => exact .inl rfl
  | aborted => exact .inr (.inl rfl)
  | diverged => exact .inr (.inr rfl)

theorem step_change {s s' : System α} {op : Op α} (inv : Inv (vectorClass α) s)
    (run : step T op s = .ok ((), s')) : Change T s op s' := by
  have changed := wp_ok (wp_step T op inv mayFault_benign) run
  exact changed

/-- No run deletes an array twice or uses a deleted one. Every array that is not deleted is the
`_data` of exactly one vector, in every state of a run, exactly when every move assignment of the
run has a target that owns no array. -/
theorem arrays_owned_once_iff (ops : List (Op α)) :
    (∀ e, runAll (step T) ops System.init = .error e → e ≠ .dead) ∧
    (Throughout (step T) Exclusive ops System.init ↔
      Along (step T) TargetOwnsNothing ops System.init) := by
  constructor
  · intro e run
    have keeps : ∀ op s, Inv (vectorClass α) s →
        wp (step T op) (fun _ t => Inv (vectorClass α) t) Benign s :=
      fun op s inv => wp_post (wp_step T op inv mayFault_benign)
        (fun _ _ change => change_inv inv change)
    have benign := wp_error (wp_runAll keeps ops System.init inv_empty) run
    rcases benign with rfl | rfl | rfl <;> simp
  · have keeps : ∀ op (s t : System α), Inv (vectorClass α) s → step T op s = .ok ((), t) →
        Inv (vectorClass α) t :=
      fun op s t inv run => change_inv inv (step_change inv run)
    refine throughout_iff_along keeps ?_ ops System.init inv_empty
      ((exclusive_iff inv_empty).mpr noneLost_empty)
    · intro op s t inv exclusive run
      have change := step_change inv run
      rw [exclusive_iff (change_inv inv change)]
      exact change_noneLost inv ((exclusive_iff inv).mp exclusive) change

/-- A vector with an element is assigned an empty vector by move; when both are destroyed the
array of the first is still there. -/
theorem moveAssign_loses_array :
    ¬Throughout (step intElement) Exclusive
      [.construct, .pushBack 0 5, .construct, .moveAssign 0 1, .destroy 0, .destroy 1]
      System.init := by
  intro exclusive
  have final := throughout_end exclusive rfl
  have gone := final.all (by
    intro i v alive
    match i, alive with
    | 0, alive => cases alive
    | 1, alive => cases alive
    | _ + 2, alive => cases alive) 0 (by decide)
  revert gone
  decide

end Nanolibc.VectorSystem
