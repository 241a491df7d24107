import Mathlib.Data.List.Nodup
import Mathlib.Logic.Function.Basic
import Mathlib.Data.Nat.Notation
import Mathlib.Tactic.Common

set_option autoImplicit false

namespace Lib.IndexChain

/-- Following `next` from `start` visits the listed indexes and then ends. -/
def Chain (next : ℕ → Option ℕ) : Option ℕ → List ℕ → Prop
  | start, [] => start = none
  | start, i :: l => start = some i ∧ Chain next (next i) l

section

variable {next next' : ℕ → Option ℕ} {start : Option ℕ} {i p : ℕ} {l xs ys : List ℕ}

theorem chain_congr (same : ∀ j ∈ l, next' j = next j) (chain : Chain next start l) :
    Chain next' start l := by
  induction l generalizing start with
  | nil => exact chain
  | cons j l ih =>
    obtain ⟨here, rest⟩ := chain
    refine ⟨here, ?_⟩
    rw [same j (List.mem_cons_self ..)]
    exact ih (fun k hk => same k (List.mem_cons_of_mem _ hk)) rest

theorem chain_unlink (chain : Chain next start (xs ++ p :: i :: ys))
    (nodup : (xs ++ p :: i :: ys).Nodup) :
    Chain (Function.update next p (next i)) start (xs ++ p :: ys) := by
  have away : ∀ j, j ∈ xs ∨ j ∈ ys → j ≠ p := by
    rintro j hj rfl
    rw [List.nodup_append] at nodup
    obtain ⟨_, tail, apart⟩ := nodup
    rcases hj with hj | hj
    · exact apart j hj j (List.mem_cons_self ..) rfl
    · exact (List.nodup_cons.mp tail).1 (List.mem_cons_of_mem _ hj)
  have stays : ∀ j, j ∈ xs ∨ j ∈ ys → Function.update next p (next i) j = next j :=
    fun j hj => Function.update_of_ne (away j hj) _ _
  induction xs generalizing start with
  | nil =>
    obtain ⟨here, _, rest⟩ := chain
    refine ⟨here, ?_⟩
    rw [Function.update_self]
    exact chain_congr (fun j hj => stays j (.inr hj)) rest
  | cons j xs ih =>
    obtain ⟨here, rest⟩ := chain
    refine ⟨here, ?_⟩
    rw [stays j (.inl (List.mem_cons_self ..))]
    exact ih rest (List.nodup_cons.mp nodup).2
      (fun k hk => away k (hk.imp_left (List.mem_cons_of_mem _)))
      (fun k hk => stays k (hk.imp_left (List.mem_cons_of_mem _)))

end

variable {β : Type}

/-- The list of class `b` visits exactly the indexes of `S` in that class, each once. -/
structure Thread (next : ℕ → Option ℕ) (head : β → Option ℕ) (S : ℕ → Prop) (cls : ℕ → β)
    (b : β) (l : List ℕ) : Prop where
  chain : Chain next (head b) l
  nodup : l.Nodup
  mem : ∀ i, i ∈ l ↔ S i ∧ cls i = b

def Threads (next : ℕ → Option ℕ) (head : β → Option ℕ) (S : ℕ → Prop) (cls : ℕ → β) : Prop :=
  ∀ b, ∃ l, Thread next head S cls b l

variable {next : ℕ → Option ℕ} {head : β → Option ℕ} {S : ℕ → Prop} {cls : ℕ → β}
variable {i : ℕ}

theorem threads_none (empty : ∀ i, ¬S i) : Threads next (fun _ : β => none) S cls := by
  intro b
  refine ⟨[], rfl, List.nodup_nil, ?_⟩
  intro i
  simp [empty i]

theorem Threads.congr {next' : ℕ → Option ℕ} {head' : β → Option ℕ} {S' : ℕ → Prop}
    {cls' : ℕ → β} (threads : Threads next head S cls) (members : ∀ j, S' j ↔ S j)
    (links : ∀ j, S j → next' j = next j) (heads : ∀ b, head' b = head b)
    (classes : ∀ j, S j → cls' j = cls j) : Threads next' head' S' cls' := by
  intro b
  obtain ⟨l, thread⟩ := threads b
  refine ⟨l, ?_, thread.nodup, ?_⟩
  · rw [heads b]
    exact chain_congr (fun j hj => links j ((thread.mem j).mp hj).1) thread.chain
  · intro j
    rw [thread.mem j, members j]
    exact and_congr_right (fun hj => by rw [classes j hj])

variable {xs ys : List ℕ}

/-- What the list of `i`'s class visits when `i` is left out. -/
theorem Thread.without (thread : Thread next head S cls (cls i) (xs ++ i :: ys)) :
    (xs ++ ys).Nodup ∧ ∀ j, j ∈ xs ++ ys ↔ (S j ∧ j ≠ i) ∧ cls j = cls i := by
  have shuffled := List.nodup_cons.mp (List.perm_middle.nodup_iff.mp thread.nodup)
  refine ⟨shuffled.2, ?_⟩
  intro j
  have whole : j = i ∨ j ∈ xs ++ ys ↔ S j ∧ cls j = cls i := by
    rw [← thread.mem j]
    simp only [List.mem_append, List.mem_cons]
    tauto
  constructor
  · intro hj
    obtain ⟨hs, hc⟩ := whole.mp (.inr hj)
    refine ⟨⟨hs, ?_⟩, hc⟩
    rintro rfl
    exact shuffled.1 hj
  · rintro ⟨⟨hs, hn⟩, hc⟩
    exact (whole.mpr ⟨hs, hc⟩).resolve_left hn

theorem Thread.other {b : β} {l : List ℕ} (thread : Thread next head S cls b l)
    (away : b ≠ cls i) : ∀ j, j ∈ l ↔ (S j ∧ j ≠ i) ∧ cls j = b := by
  intro j
  rw [thread.mem j]
  constructor
  · rintro ⟨hs, hc⟩
    refine ⟨⟨hs, ?_⟩, hc⟩
    rintro rfl
    exact away hc.symm
  · rintro ⟨⟨hs, _⟩, hc⟩
    exact ⟨hs, hc⟩

variable [DecidableEq β]

theorem Threads.link (threads : Threads next head S cls) (fresh : ¬S i) :
    Threads (Function.update next i (head (cls i))) (Function.update head (cls i) (some i))
      (fun j => S j ∨ j = i) cls := by
  intro b
  obtain ⟨l, thread⟩ := threads b
  have outside : i ∉ l := fun hi => fresh ((thread.mem i).mp hi).1
  have stays : ∀ j ∈ l, Function.update next i (head (cls i)) j = next j := by
    intro j hj
    refine Function.update_of_ne ?_ _ _
    rintro rfl
    exact outside hj
  have chain := chain_congr stays thread.chain
  by_cases here : b = cls i
  · subst here
    refine ⟨i :: l, ⟨?_, ?_⟩, List.nodup_cons.mpr ⟨outside, thread.nodup⟩, ?_⟩
    · exact Function.update_self ..
    · rw [Function.update_self]
      exact chain
    · intro j
      rw [List.mem_cons, thread.mem j]
      constructor
      · rintro (rfl | ⟨hj, hc⟩)
        · exact ⟨.inr rfl, rfl⟩
        · exact ⟨.inl hj, hc⟩
      · rintro ⟨hj | rfl, hc⟩
        · exact .inr ⟨hj, hc⟩
        · exact .inl rfl
  · refine ⟨l, ?_, thread.nodup, ?_⟩
    · rw [Function.update_of_ne here]
      exact chain
    · intro j
      rw [thread.mem j]
      constructor
      · rintro ⟨hj, hc⟩
        exact ⟨.inl hj, hc⟩
      · rintro ⟨hj | rfl, hc⟩
        · exact ⟨hj, hc⟩
        · exact absurd hc.symm here

theorem Threads.unlink_first (threads : Threads next head S cls)
    (thread : Thread next head S cls (cls i) (i :: ys)) :
    Threads next (Function.update head (cls i) (next i)) (fun j => S j ∧ j ≠ i) cls := by
  intro b
  by_cases here : b = cls i
  · subst here
    have whole : Thread next head S cls (cls i) ([] ++ i :: ys) := thread
    obtain ⟨nodup, mem⟩ := whole.without
    refine ⟨ys, ?_, nodup, mem⟩
    rw [Function.update_self]
    exact thread.chain.2
  · obtain ⟨l, other⟩ := threads b
    refine ⟨l, ?_, other.nodup, other.other here⟩
    rw [Function.update_of_ne here]
    exact other.chain

theorem Threads.unlink_after {p : ℕ} (threads : Threads next head S cls)
    (thread : Thread next head S cls (cls i) (xs ++ p :: i :: ys)) :
    Threads (Function.update next p (next i)) head (fun j => S j ∧ j ≠ i) cls := by
  have class_p : cls p = cls i := ((thread.mem p).mp (by simp)).2
  intro b
  by_cases here : b = cls i
  · subst here
    have around : Thread next head S cls (cls i) ((xs ++ [p]) ++ i :: ys) := by
      simpa using thread
    have apart := around.without
    simp only [List.append_assoc, List.singleton_append] at apart
    exact ⟨xs ++ p :: ys, chain_unlink thread.chain thread.nodup, apart.1, apart.2⟩
  · obtain ⟨l, other⟩ := threads b
    refine ⟨l, ?_, other.nodup, other.other here⟩
    refine chain_congr ?_ other.chain
    intro j hj
    refine Function.update_of_ne ?_ _ _
    rintro rfl
    exact here (((other.mem j).mp hj).2.symm.trans class_p)

end Lib.IndexChain
