import Mathlib.Computability.StateTransition
import Nanolibc.Lib.Program

set_option autoImplicit false

/-!
# Exceptions over one jump buffer

Function bodies in which a try statement notes where to go on in a buffer, the same buffer for all
of them, and a throw goes there. `eval` takes the try statements for what they are meant to be. The
machine has activations of functions instead: a throw may go back to the activation that has last
set the buffer, or that has returned since. The two agree where try statements are not nested.
-/
namespace Lib.JumpBuffer
open Lib.Program StateTransition Relation

/-- A function body. In `attempt g next caught` the function `g` is called inside of a try
statement, and the body goes on with `next` after it and with `caught` if it throws. -/
inductive Code (σ ε β α : Type) where
  | ret (a : α)
  | act (p : Prog σ ε β) (next : β → Code σ ε β α)
  | call (g : Code σ ε β α) (next : α → Code σ ε β α)
  | attempt (g : Code σ ε β α) (next : α → Code σ ε β α) (caught : Code σ ε β α)
  | throw

variable {σ ε β α : Type}

def Code.eval : Code σ ε β α → Prog σ ε (Option α)
  | .ret a => return some a
  | .act p next => do
    let b ← p
    (next b).eval
  | .call g next => do
    match ← g.eval with
    | none => return none
    | some a => (next a).eval
  | .attempt g next caught => do
    match ← g.eval with
    | none => caught.eval
    | some a => (next a).eval
  | .throw => return none

section Eval

variable {p : Prog σ ε β} {after : β → Code σ ε β α} {g caught : Code σ ε β α}
  {next : α → Code σ ε β α} {s t : σ} {a : α} {b : β} {result : Option α}

end Eval

structure Frame (σ ε β α : Type) where
  activation : ℕ
  next : α → Code σ ε β α

/-- The activation that has set the buffer, and where it goes on after a throw. -/
structure Buffer (σ ε β α : Type) where
  activation : ℕ
  caught : Code σ ε β α

structure Running (σ ε β α : Type) where
  code : Code σ ε β α
  activation : ℕ
  callers : List (Frame σ ε β α)
  fresh : ℕ
  buffer : Option (Buffer σ ε β α)
  state : σ

/-- How a run ends. It is lost when it jumps to an activation that has returned, or through a buffer
that was never set. -/
inductive Outcome (σ ε α : Type) where
  | returned (a : α) (s : σ)
  | failed (e : ε)
  | lost (s : σ)

inductive Machine (σ ε β α : Type) where
  | running (m : Running σ ε β α)
  | halted (o : Outcome σ ε α)

def unwind (activation : ℕ) : ℕ → List (Frame σ ε β α) → Option (List (Frame σ ε β α))
  | here, [] => if here = activation then some [] else none
  | here, f :: callers =>
    if here = activation then some (f :: callers) else unwind activation f.activation callers

def Running.step (m : Running σ ε β α) : Machine σ ε β α :=
  match m.code with
  | .ret a =>
    match m.callers with
    | [] => .halted (.returned a m.state)
    | f :: callers =>
      .running { m with code := f.next a, activation := f.activation, callers := callers }
  | .act p next =>
    match p m.state with
    | .ok (b, t) => .running { m with code := next b, state := t }
    | .error e => .halted (.failed e)
  | .call g next =>
    .running { m with
      code := g
      activation := m.fresh
      callers := ⟨m.activation, next⟩ :: m.callers
      fresh := m.fresh + 1 }
  | .attempt g next caught =>
    .running { m with
      code := g
      activation := m.fresh
      callers := ⟨m.activation, next⟩ :: m.callers
      fresh := m.fresh + 1
      buffer := some ⟨m.activation, caught⟩ }
  | .throw =>
    match m.buffer with
    | none => .halted (.lost m.state)
    | some b =>
      match unwind b.activation m.activation m.callers with
      | none => .halted (.lost m.state)
      | some callers =>
        .running { m with code := b.caught, activation := b.activation, callers := callers }

def step : Machine σ ε β α → Option (Machine σ ε β α)
  | .running m => some m.step
  | .halted _ => none

def start (code : Code σ ε β α) (buffer : Option (Buffer σ ε β α)) (s : σ) : Machine σ ε β α :=
  .running ⟨code, 0, [], 1, buffer, s⟩

def Ends (m : Machine σ ε β α) (o : Outcome σ ε α) : Prop := .halted o ∈ StateTransition.eval step m

def Forever (m : Machine σ ε β α) : Prop := ¬ (StateTransition.eval step m).Dom

section Runs

variable {m m' : Machine σ ε β α} {o : Outcome σ ε α} {P : Machine σ ε β α → Prop}

theorem ends_iff : Ends m o ↔ Reaches step m (.halted o) := by
  rw [Ends, mem_eval]
  exact and_iff_left rfl

theorem Ends.of_reaches (reaches : Reaches step m m') (ends : Ends m' o) : Ends m o := by
  rw [Ends, reaches_eval reaches]
  exact ends

theorem Forever.of_reaches (reaches : Reaches step m m') (forever : Forever m') : Forever m := by
  rw [Forever, reaches_eval reaches]
  exact forever

/-- A run does not end that comes again and again to where `P` holds. -/
theorem forever_of_recurrent (again : ∀ m, P m → ∃ m', Reaches₁ step m m' ∧ P m') (here : P m) :
    Forever m := by
  intro ends
  obtain ⟨last, stops⟩ := Part.dom_iff_mem.mp ends
  have never_here : ¬ ∃ m', Reaches step m m' ∧ P m' := by
    refine evalInduction (C := fun a => ¬ ∃ m', Reaches step a m' ∧ P m') stops ?_
    rintro a - ih ⟨b, reaches, holds⟩
    obtain ⟨c, onward, later⟩ := again b holds
    obtain ⟨a', first, rest⟩ := TransGen.head'_iff.mp (TransGen.trans_right reaches onward)
    exact ih a' first ⟨c, rest, later⟩
  exact never_here ⟨m, ReflTransGen.refl, here⟩

end Runs

def Code.Plain : Code σ ε β α → Prop
  | .ret _ => True
  | .act _ next => ∀ b, (next b).Plain
  | .call g next => g.Plain ∧ ∀ a, (next a).Plain
  | .attempt .. => False
  | .throw => True

def Code.Flat : Code σ ε β α → Prop
  | .ret _ => True
  | .act _ next => ∀ b, (next b).Flat
  | .call g next => g.Flat ∧ ∀ a, (next a).Flat
  | .attempt g next caught => g.Plain ∧ (∀ a, (next a).Flat) ∧ caught.Flat
  | .throw => False

section Simulation

variable {c g caught : Code σ ε β α} {next : α → Code σ ε β α} {here n i : ℕ}
  {callers : List (Frame σ ε β α)} {buffer : Option (Buffer σ ε β α)} {s : σ}

theorem unwind_here : unwind i i callers = some callers := by
  cases callers with
  | nil => exact if_pos rfl
  | cons f callers => exact if_pos rfl

theorem unwind_fresh (old : i < n) :
    unwind i n (⟨here, next⟩ :: callers) = unwind i here callers := if_neg (Nat.ne_of_gt old)

theorem reaches_step {m : Running σ ε β α} {m' : Machine σ ε β α}
    (rest : Reaches step m.step m') : Reaches step (.running m) m' :=
  ReflTransGen.head rfl rest

theorem step_act {p : Prog σ ε β} {after : β → Code σ ε β α} {b : β} {t : σ}
    (run : p s = .ok (b, t)) :
    Running.step ⟨.act p after, here, callers, n, buffer, s⟩ =
      .running ⟨after b, here, callers, n, buffer, t⟩ := by
  simp only [Running.step, run]

theorem step_act_error {p : Prog σ ε β} {after : β → Code σ ε β α} {e : ε}
    (run : p s = .error e) :
    Running.step ⟨.act p after, here, callers, n, buffer, s⟩ = .halted (.failed e) := by
  simp only [Running.step, run]

theorem step_throw {b : Buffer σ ε β α} {above : List (Frame σ ε β α)}
    (live : unwind b.activation here callers = some above) :
    Running.step ⟨.throw, here, callers, n, some b, s⟩ =
      .running ⟨b.caught, b.activation, above, n, some b, s⟩ := by
  simp only [Running.step, live]

theorem step_throw_dead {b : Buffer σ ε β α} (dead : unwind b.activation here callers = none) :
    Running.step ⟨.throw, here, callers, n, some b, s⟩ = .halted (.lost s) := by
  simp only [Running.step, dead]

/-- Where a machine that runs plain code comes to: to the return or to the throw that `eval` tells,
and what a throw unwinds is what it would have unwound at the start. -/
def ComesTo (m : Running σ ε β α) : Option α → σ → Prop
  | some a, t => ∃ n, m.fresh ≤ n ∧
    Reaches step (.running m) (.running { m with code := .ret a, fresh := n, state := t })
  | none, t => ∃ n here callers, m.fresh ≤ n ∧
    (∀ i < m.fresh, unwind i here callers = unwind i m.activation m.callers) ∧
    Reaches step (.running m) (.running ⟨.throw, here, callers, n, m.buffer, t⟩)

theorem ComesTo.head {m m' : Running σ ε β α} (first : Reaches step (.running m) (.running m'))
    (activation : m'.activation = m.activation) (callers : m'.callers = m.callers)
    (buffer : m'.buffer = m.buffer) (fresh : m.fresh ≤ m'.fresh) :
    ∀ result t, ComesTo m' result t → ComesTo m result t := by
  obtain ⟨code, here, callers₀, n, buffer₀, s⟩ := m
  obtain ⟨code', here', callers', n', buffer', s'⟩ := m'
  dsimp only at *
  subst activation callers buffer
  intro result t after
  cases result with
  | some a =>
    obtain ⟨k, le, reaches⟩ := after
    exact ⟨k, fresh.trans le, first.trans reaches⟩
  | none =>
    obtain ⟨k, there, above, le, same, reaches⟩ := after
    exact ⟨k, there, above, fresh.trans le, fun i less => same i (lt_of_lt_of_le less fresh),
      first.trans reaches⟩

/-- The machine runs plain code as it is meant. -/
theorem plain_run : ∀ (c : Code σ ε β α), c.Plain → ∀ (here n : ℕ) (callers : List (Frame σ ε β α))
    (buffer : Option (Buffer σ ε β α)) (s : σ),
    wp c.eval (ComesTo ⟨c, here, callers, n, buffer, s⟩)
      (fun e => Reaches step (.running ⟨c, here, callers, n, buffer, s⟩) (.halted (.failed e)))
      s := by
  intro c
  induction c with
  | ret a =>
    intro _ here n callers buffer s
    rw [Code.eval, wp_pure]
    exact ⟨n, Nat.le_refl n, ReflTransGen.refl⟩
  | act p next ih =>
    intro plain here n callers buffer s
    rw [Code.eval, wp_bind, wp_iff]
    constructor
    · intro b t run
      have first : Reaches step (.running ⟨.act p next, here, callers, n, buffer, s⟩)
          (.running ⟨next b, here, callers, n, buffer, t⟩) := by
        apply reaches_step
        rw [step_act run]
        exact ReflTransGen.refl
      exact wp_mono (ih b (plain b) here n callers buffer t)
        (ComesTo.head first rfl rfl rfl (Nat.le_refl n)) (fun e => first.trans)
    · intro e run
      apply reaches_step
      rw [step_act_error run]
      exact ReflTransGen.refl
  | call g next ihg ih =>
    intro ⟨plain, plain_next⟩ here n callers buffer s
    have first : Reaches step (.running ⟨.call g next, here, callers, n, buffer, s⟩)
        (.running ⟨g, n, ⟨here, next⟩ :: callers, n + 1, buffer, s⟩) :=
      reaches_step ReflTransGen.refl
    rw [Code.eval, wp_bind]
    apply wp_mono (ihg plain n (n + 1) (⟨here, next⟩ :: callers) buffer s)
    · intro result t after
      cases result with
      | none =>
        obtain ⟨k, there, above, le, same, reaches⟩ := after
        rw [wp_pure]
        refine ⟨k, there, above, Nat.le_of_succ_le le, ?_, first.trans reaches⟩
        intro i old
        exact (same i (Nat.lt_succ_of_lt old)).trans (unwind_fresh old)
      | some a =>
        obtain ⟨k, le, reaches⟩ := after
        have back : Reaches step (.running ⟨.call g next, here, callers, n, buffer, s⟩)
            (.running ⟨next a, here, callers, k, buffer, t⟩) :=
          first.trans (reaches.trans (reaches_step ReflTransGen.refl))
        exact wp_mono (ih a (plain_next a) here k callers buffer t)
          (ComesTo.head back rfl rfl rfl (Nat.le_of_succ_le le)) (fun e => back.trans)
    · intro e reaches
      exact first.trans reaches
  | attempt g next caught =>
    intro plain
    exact plain.elim
  | throw =>
    intro _ here n callers buffer s
    rw [Code.eval, wp_pure]
    exact ⟨n, here, callers, Nat.le_refl n, fun _ _ => rfl, ReflTransGen.refl⟩

theorem reaches_caught {t : σ} {above : List (Frame σ ε β α)}
    (comes : ComesTo ⟨c, here, callers, n, some ⟨i, caught⟩, s⟩ none t) (old : i < n)
    (live : unwind i here callers = some above) :
    ∃ k, n ≤ k ∧ Reaches₁ step (.running ⟨c, here, callers, n, some ⟨i, caught⟩, s⟩)
      (.running ⟨caught, i, above, k, some ⟨i, caught⟩, t⟩) := by
  obtain ⟨k, there, callers', le, same, reaches⟩ := comes
  refine ⟨k, le, TransGen.tail' reaches ?_⟩
  exact congrArg some (step_throw ((same i old).trans live))

theorem reaches_lost {t : σ}
    (comes : ComesTo ⟨c, here, callers, n, some ⟨i, caught⟩, s⟩ none t) (old : i < n)
    (dead : unwind i here callers = none) :
    Reaches step (.running ⟨c, here, callers, n, some ⟨i, caught⟩, s⟩) (.halted (.lost t)) := by
  obtain ⟨k, there, callers', le, same, reaches⟩ := comes
  apply reaches.trans
  apply reaches_step
  rw [step_throw_dead ((same i old).trans dead)]
  exact ReflTransGen.refl

/-- The machine runs try statements as they are meant, where they are not nested. -/
theorem flat_run : ∀ (c : Code σ ε β α), c.Flat → ∀ (here n : ℕ) (callers : List (Frame σ ε β α))
    (buffer : Option (Buffer σ ε β α)) (s : σ), here < n →
    wp c.eval (fun result t => ∃ a k buffer', result = some a ∧ n ≤ k ∧
      Reaches step (.running ⟨c, here, callers, n, buffer, s⟩)
        (.running ⟨.ret a, here, callers, k, buffer', t⟩))
      (fun e => Reaches step (.running ⟨c, here, callers, n, buffer, s⟩) (.halted (.failed e)))
      s := by
  intro c
  induction c with
  | ret a =>
    intro _ here n callers buffer s _
    rw [Code.eval, wp_pure]
    exact ⟨a, n, buffer, rfl, Nat.le_refl n, ReflTransGen.refl⟩
  | act p next ih =>
    intro flat here n callers buffer s old
    rw [Code.eval, wp_bind, wp_iff]
    constructor
    · intro b t run
      have first : Reaches step (.running ⟨.act p next, here, callers, n, buffer, s⟩)
          (.running ⟨next b, here, callers, n, buffer, t⟩) := by
        apply reaches_step
        rw [step_act run]
        exact ReflTransGen.refl
      apply wp_mono (ih b (flat b) here n callers buffer t old)
      · rintro result u ⟨a, k, buffer', rfl, le, reaches⟩
        exact ⟨a, k, buffer', rfl, le, first.trans reaches⟩
      · exact fun e => first.trans
    · intro e run
      apply reaches_step
      rw [step_act_error run]
      exact ReflTransGen.refl
  | call g next ihg ih =>
    intro ⟨flat, flat_next⟩ here n callers buffer s old
    have first : Reaches step (.running ⟨.call g next, here, callers, n, buffer, s⟩)
        (.running ⟨g, n, ⟨here, next⟩ :: callers, n + 1, buffer, s⟩) :=
      reaches_step ReflTransGen.refl
    rw [Code.eval, wp_bind]
    apply wp_mono (ihg flat n (n + 1) (⟨here, next⟩ :: callers) buffer s (Nat.lt_succ_self n))
    · rintro result t ⟨a, k, buffer', rfl, le, reaches⟩
      have back : Reaches step (.running ⟨.call g next, here, callers, n, buffer, s⟩)
          (.running ⟨next a, here, callers, k, buffer', t⟩) :=
        first.trans (reaches.trans (reaches_step ReflTransGen.refl))
      apply wp_mono (ih a (flat_next a) here k callers buffer' t (by omega))
      · rintro result u ⟨a', k', buffer'', rfl, le', onward⟩
        exact ⟨a', k', buffer'', rfl, by omega, back.trans onward⟩
      · exact fun e => back.trans
    · intro e reaches
      exact first.trans reaches
  | attempt g next caught ihg ih ihc =>
    intro ⟨plain, flat_next, flat_caught⟩ here n callers buffer s old
    have first : Reaches step (.running ⟨.attempt g next caught, here, callers, n, buffer, s⟩)
        (.running ⟨g, n, ⟨here, next⟩ :: callers, n + 1, some ⟨here, caught⟩, s⟩) :=
      reaches_step ReflTransGen.refl
    rw [Code.eval, wp_bind]
    apply wp_mono (plain_run g plain n (n + 1) (⟨here, next⟩ :: callers) (some ⟨here, caught⟩) s)
    · intro result t after
      cases result with
      | none =>
        obtain ⟨k, le, reaches⟩ := reaches_caught after (Nat.lt_succ_of_lt old)
          ((unwind_fresh old).trans unwind_here)
        have back := first.trans reaches.to_reflTransGen
        apply wp_mono (ihc flat_caught here k callers (some ⟨here, caught⟩) t (by omega))
        · rintro result u ⟨a', k', buffer'', rfl, le', onward⟩
          exact ⟨a', k', buffer'', rfl, by omega, back.trans onward⟩
        · exact fun e => back.trans
      | some a =>
        obtain ⟨k, le, reaches⟩ := after
        dsimp only at *
        have back : Reaches step (.running ⟨.attempt g next caught, here, callers, n, buffer, s⟩)
            (.running ⟨next a, here, callers, k, some ⟨here, caught⟩, t⟩) :=
          first.trans (reaches.trans (reaches_step ReflTransGen.refl))
        apply wp_mono (ih a (flat_next a) here k callers (some ⟨here, caught⟩) t (by omega))
        · rintro result u ⟨a', k', buffer'', rfl, le', onward⟩
          exact ⟨a', k', buffer'', rfl, by omega, back.trans onward⟩
        · exact fun e => back.trans
    · intro e reaches
      exact first.trans reaches
  | throw =>
    intro flat
    exact flat.elim

variable (buffer) in
theorem flat_ends (flat : c.Flat) :
    wp c.eval (fun result t => ∃ a, result = some a ∧ Ends (start c buffer s) (.returned a t))
      (fun e => Ends (start c buffer s) (.failed e)) s := by
  apply wp_mono (flat_run c flat 0 1 [] buffer s Nat.one_pos)
  · rintro result t ⟨a, k, buffer', rfl, _, reaches⟩
    refine ⟨a, rfl, ends_iff.mpr (reaches.trans ?_)⟩
    exact reaches_step ReflTransGen.refl
  · intro e reaches
    exact ends_iff.mpr reaches

inductive Settles (caught : Code σ ε β α) : σ → α → σ → Prop
  | returns {s t : σ} {a : α} (run : caught.eval s = .ok (some a, t)) : Settles caught s a t
  | again {s t u : σ} {a : α} (run : caught.eval s = .ok (none, t)) (rest : Settles caught t a u) :
    Settles caught s a u

def Code.Sound (c : Code σ ε β α) : Prop := ∀ s, ∃ result t, c.eval s = .ok (result, t)

theorem plain_comes (plain : c.Plain) {result : Option α} {t : σ}
    (run : c.eval s = .ok (result, t)) : ComesTo ⟨c, here, callers, n, buffer, s⟩ result t :=
  wp_ok (plain_run c plain here n callers buffer s) run

/-- Behind a try statement, whose buffer is still set, a throw goes back into it. -/
theorem spent_reaches (plain : caught.Plain) {a : α} {t : σ} (settles : Settles caught s a t) :
    ∀ n, here < n → ∃ k, n ≤ k ∧
      Reaches step (.running ⟨caught, here, callers, n, some ⟨here, caught⟩, s⟩)
        (.running ⟨.ret a, here, callers, k, some ⟨here, caught⟩, t⟩) := by
  induction settles with
  | returns run =>
    intro n _
    exact plain_comes plain run
  | again run rest ih =>
    intro n old
    obtain ⟨k, le, back⟩ := reaches_caught (plain_comes plain run) old unwind_here
    obtain ⟨k', le', onward⟩ := ih k (lt_of_lt_of_le old le)
    exact ⟨k', le.trans le', back.to_reflTransGen.trans onward⟩

theorem spent_forever (plain : caught.Plain) (sound : caught.Sound)
    (unsettled : ¬ ∃ a t, Settles caught s a t) (old : here < n) :
    Forever (.running ⟨caught, here, callers, n, some ⟨here, caught⟩, s⟩) := by
  apply forever_of_recurrent (P := fun m => ∃ n s, here < n ∧ (¬ ∃ a t, Settles caught s a t) ∧
    m = .running ⟨caught, here, callers, n, some ⟨here, caught⟩, s⟩) ?_ ⟨n, s, old, unsettled, rfl⟩
  rintro m ⟨k, t, less, open_end, rfl⟩
  obtain ⟨result, u, run⟩ := sound t
  cases result with
  | some a => exact absurd ⟨a, u, .returns run⟩ open_end
  | none =>
    obtain ⟨k', le, back⟩ := reaches_caught (plain_comes plain run) less unwind_here
    refine ⟨_, back, k', u, lt_of_lt_of_le less le, ?_, rfl⟩
    rintro ⟨a, last, settles⟩
    exact open_end ⟨a, last, .again run settles⟩

/-- What a function does whose try statement is followed by plain code: a throw behind it does not
leave the function. -/
inductive Resumes (g : Code σ ε β α) (next : α → Code σ ε β α) (caught : Code σ ε β α) (s : σ) :
    α → σ → Prop
  | returns {a r : α} {t u : σ} (run : g.eval s = .ok (some a, t))
    (rest : (next a).eval t = .ok (some r, u)) : Resumes g next caught s r u
  | back {a r : α} {t u v : σ} (run : g.eval s = .ok (some a, t))
    (rest : (next a).eval t = .ok (none, u)) (settles : Settles caught u r v) :
    Resumes g next caught s r v
  | thrown {r : α} {t u : σ} (run : g.eval s = .ok (none, t)) (settles : Settles caught t r u) :
    Resumes g next caught s r u

section Resume

variable (plain : g.Plain) (plain_next : ∀ a, (next a).Plain) (plain_caught : caught.Plain)

include plain in
theorem attempt_reaches (old : here < n) {result : Option α} {t : σ}
    (run : g.eval s = .ok (result, t)) : ∃ k, here < k ∧
      Reaches step (.running ⟨.attempt g next caught, here, callers, n, buffer, s⟩)
        (.running ⟨result.elim caught next, here, callers, k, some ⟨here, caught⟩, t⟩) := by
  have first : Reaches step (.running ⟨.attempt g next caught, here, callers, n, buffer, s⟩)
      (.running ⟨g, n, ⟨here, next⟩ :: callers, n + 1, some ⟨here, caught⟩, s⟩) :=
    reaches_step ReflTransGen.refl
  have comes : ComesTo ⟨g, n, ⟨here, next⟩ :: callers, n + 1, some ⟨here, caught⟩, s⟩ result t :=
    plain_comes plain run
  cases result with
  | none =>
    obtain ⟨k, le, reaches⟩ := reaches_caught comes (Nat.lt_succ_of_lt old)
      ((unwind_fresh old).trans unwind_here)
    exact ⟨k, by omega, first.trans reaches.to_reflTransGen⟩
  | some a =>
    obtain ⟨k, le, reaches⟩ := comes
    dsimp only at *
    exact ⟨k, by omega, first.trans (reaches.trans (reaches_step ReflTransGen.refl))⟩

include plain plain_next plain_caught in
theorem resumes_reaches (old : here < n) {r : α} {u : σ} (resumes : Resumes g next caught s r u) :
    ∃ k, here < k ∧
      Reaches step (.running ⟨.attempt g next caught, here, callers, n, buffer, s⟩)
        (.running ⟨.ret r, here, callers, k, some ⟨here, caught⟩, u⟩) := by
  cases resumes with
  | returns run rest =>
    obtain ⟨k, less, first⟩ := attempt_reaches plain old run
    obtain ⟨k', le, onward⟩ := plain_comes (plain_next _) rest
    exact ⟨k', lt_of_lt_of_le less le, first.trans onward⟩
  | back run rest settles =>
    obtain ⟨k, less, first⟩ := attempt_reaches plain old run
    obtain ⟨k', le, back⟩ := reaches_caught (plain_comes (plain_next _) rest) less unwind_here
    have more := lt_of_lt_of_le less le
    obtain ⟨k'', le', onward⟩ := spent_reaches plain_caught settles k' more
    exact ⟨k'', lt_of_lt_of_le more le', first.trans (back.to_reflTransGen.trans onward)⟩
  | thrown run settles =>
    obtain ⟨k, less, first⟩ := attempt_reaches plain old run
    obtain ⟨k', le, onward⟩ := spent_reaches plain_caught settles k less
    exact ⟨k', lt_of_lt_of_le less le, first.trans onward⟩

include plain plain_next plain_caught in
theorem resumes_forever (sound : g.Sound) (sound_next : ∀ a, (next a).Sound)
    (sound_caught : caught.Sound) (old : here < n)
    (unsettled : ¬ ∃ r u, Resumes g next caught s r u) :
    Forever (.running ⟨.attempt g next caught, here, callers, n, buffer, s⟩) := by
  obtain ⟨result, t, run⟩ := sound s
  obtain ⟨k, less, first⟩ : ∃ k, here < k ∧
      Reaches step (.running ⟨.attempt g next caught, here, callers, n, buffer, s⟩)
        (.running ⟨result.elim caught next, here, callers, k, some ⟨here, caught⟩, t⟩) :=
    attempt_reaches plain old run
  apply Forever.of_reaches first
  cases result with
  | none =>
    apply spent_forever plain_caught sound_caught _ less
    rintro ⟨r, u, settles⟩
    exact unsettled ⟨r, u, .thrown run settles⟩
  | some a =>
    obtain ⟨result, u, rest⟩ := sound_next a t
    cases result with
    | some r => exact absurd ⟨r, u, .returns run rest⟩ unsettled
    | none =>
      obtain ⟨k', le, back⟩ := reaches_caught (plain_comes (plain_next a) rest) less unwind_here
      apply Forever.of_reaches back.to_reflTransGen
      apply spent_forever plain_caught sound_caught _ (lt_of_lt_of_le less le)
      rintro ⟨r, v, settles⟩
      exact unsettled ⟨r, v, .back run rest settles⟩

end Resume

theorem unwind_dead (other : here ≠ i) (dead : ∀ f ∈ callers, f.activation ≠ i) :
    unwind i here callers = none := by
  induction callers generalizing here with
  | nil => exact if_neg other
  | cons f callers ih =>
    rw [unwind, if_neg other]
    exact ih (dead f List.mem_cons_self) fun f' mem => dead f' (List.mem_cons_of_mem f mem)

end Simulation

end Lib.JumpBuffer
