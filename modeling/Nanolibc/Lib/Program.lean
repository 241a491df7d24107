import Mathlib.Logic.Function.Basic
import Mathlib.Data.Nat.Notation
import Mathlib.Tactic.Common

set_option autoImplicit false

/-!
# Programs over a state that may stop at a fault

`wp p post bad s` says what one run of `p` from `s` does: a return satisfies `post`, a fault
satisfies `bad`. With `bad` nowhere true it is total correctness. The rules below follow the
program's own sequencing, branching and counted loops, and the last section lifts one step of a
system to whole runs of it.
-/
namespace Lib.Program

abbrev Prog (σ ε α : Type) := StateT σ (Except ε) α

variable {σ τ ε α β ι : Type}

def wp (p : Prog σ ε α) (post : α → σ → Prop) (bad : ε → Prop) (s : σ) : Prop :=
  match p s with
  | .ok (a, t) => post a t
  | .error e => bad e

def never : ε → Prop := fun _ => False

theorem wp_ok {p : Prog σ ε α} {post : α → σ → Prop} {bad : ε → Prop} {s t : σ} {a : α}
    (h : wp p post bad s) (run : p s = .ok (a, t)) : post a t := by
  simpa only [wp, run] using h

theorem wp_error {p : Prog σ ε α} {post : α → σ → Prop} {bad : ε → Prop} {s : σ} {e : ε}
    (h : wp p post bad s) (run : p s = .error e) : bad e := by
  simpa only [wp, run] using h

theorem wp_never {p : Prog σ ε α} {post : α → σ → Prop} {s : σ} :
    wp p post never s ↔ ∃ a t, p s = .ok (a, t) ∧ post a t := by
  unfold wp never
  constructor
  · intro h
    split at h
    · rename_i a t run
      exact ⟨a, t, run, h⟩
    · exact h.elim
  · rintro ⟨a, t, run, h⟩
    simpa only [run] using h

theorem wp_iff {p : Prog σ ε α} {post : α → σ → Prop} {bad : ε → Prop} {s : σ} :
    wp p post bad s ↔
      (∀ a t, p s = .ok (a, t) → post a t) ∧ ∀ e, p s = .error e → bad e := by
  refine ⟨fun h => ⟨fun _ _ => wp_ok h, fun _ => wp_error h⟩, ?_⟩
  rintro ⟨good, fault⟩
  unfold wp
  cases run : p s with
  | error e => exact fault e run
  | ok r => exact good r.1 r.2 run

theorem wp_mono {p : Prog σ ε α} {post post' : α → σ → Prop} {bad bad' : ε → Prop} {s : σ}
    (h : wp p post bad s) (hp : ∀ a t, post a t → post' a t) (hb : ∀ e, bad e → bad' e) :
    wp p post' bad' s := by
  unfold wp at h ⊢
  split at h
  · exact hp _ _ h
  · exact hb _ h

theorem wp_post {p : Prog σ ε α} {post post' : α → σ → Prop} {bad : ε → Prop} {s : σ}
    (h : wp p post bad s) (hp : ∀ a t, post a t → post' a t) : wp p post' bad s :=
  wp_mono h hp (fun _ he => he)

theorem wp_and {p : Prog σ ε α} {post post' : α → σ → Prop} {bad bad' : ε → Prop} {s : σ}
    (h : wp p post bad s) (h' : wp p post' bad' s) :
    wp p (fun a t => post a t ∧ post' a t) bad s := by
  unfold wp at h h' ⊢
  cases run : p s with
  | error e =>
    rw [run] at h
    exact h
  | ok r =>
    rw [run] at h h'
    exact ⟨h, h'⟩

theorem wp_any {p : Prog σ ε α} {post : α → σ → Prop} {s : σ} (h : ∀ a t, post a t) :
    wp p post (fun _ => True) s := by
  unfold wp
  split
  · exact h _ _
  · trivial

theorem run_bind {p : Prog σ ε α} {f : α → Prog σ ε β} {s t : σ} {a : α}
    (run : p s = .ok (a, t)) : (p >>= f) s = f a t := by
  change (p s >>= fun r => f r.1 r.2) = f a t
  rw [run]
  rfl

theorem run_bind_error {p : Prog σ ε α} {f : α → Prog σ ε β} {s : σ} {e : ε}
    (run : p s = .error e) : (p >>= f) s = .error e := by
  change (p s >>= fun r => f r.1 r.2) = .error e
  rw [run]
  rfl

theorem run_error {p : Prog σ ε α} {s : σ} {e : ε}
    (h : wp p (fun _ _ => False) (fun e' => e' = e) s) : p s = .error e := by
  unfold wp at h
  split at h
  · exact h.elim
  · rename_i e' run
    rw [run, h]

@[simp] theorem wp_pure (a : α) (post : α → σ → Prop) (bad : ε → Prop) (s : σ) :
    wp (pure a : Prog σ ε α) post bad s = post a s := rfl

@[simp] theorem wp_throw (e : ε) (post : α → σ → Prop) (bad : ε → Prop) (s : σ) :
    wp (throw e : Prog σ ε α) post bad s = bad e := rfl

@[simp] theorem wp_get (post : σ → σ → Prop) (bad : ε → Prop) (s : σ) :
    wp (get : Prog σ ε σ) post bad s = post s s := rfl

@[simp] theorem wp_set (t : σ) (post : PUnit → σ → Prop) (bad : ε → Prop) (s : σ) :
    wp (set t : Prog σ ε PUnit) post bad s = post ⟨⟩ t := rfl

@[simp] theorem wp_modify (f : σ → σ) (post : PUnit → σ → Prop) (bad : ε → Prop) (s : σ) :
    wp (modify f : Prog σ ε PUnit) post bad s = post ⟨⟩ (f s) := rfl

@[simp] theorem wp_bind (p : Prog σ ε α) (f : α → Prog σ ε β) (post : β → σ → Prop)
    (bad : ε → Prop) (s : σ) :
    wp (p >>= f) post bad s = wp p (fun a t => wp (f a) post bad t) bad s := by
  change (match (p s >>= fun r => f r.1 r.2) with
    | .ok (a, t) => post a t
    | .error e => bad e) = _
  unfold wp
  cases p s with
  | error e => rfl
  | ok r => rfl

@[simp] theorem wp_map (f : α → β) (p : Prog σ ε α) (post : β → σ → Prop)
    (bad : ε → Prop) (s : σ) :
    wp (f <$> p) post bad s = wp p (fun a t => post (f a) t) bad s := by
  change (match (p s >>= fun r => Except.ok (f r.1, r.2)) with
    | .ok (a, t) => post a t
    | .error e => bad e) = _
  unfold wp
  cases p s with
  | error e => rfl
  | ok r => rfl

theorem wp_ite {c : Prop} [Decidable c] {p q : Prog σ ε α} {post : α → σ → Prop}
    {bad : ε → Prop} {s : σ} (hp : c → wp p post bad s) (hq : ¬c → wp q post bad s) :
    wp (if c then p else q) post bad s := by
  split
  · exact hp ‹_›
  · exact hq ‹_›

def lift (r : Except ε α) : Prog σ ε α := fun s => r.map fun a => (a, s)

@[simp] theorem wp_lift_ok (a : α) (post : α → σ → Prop) (bad : ε → Prop) (s : σ) :
    wp (lift (.ok a)) post bad s = post a s := rfl

def loop : ℕ → ℕ → (ℕ → Prog σ ε Unit) → Prog σ ε Unit
  | 0, _, _ => pure ()
  | count + 1, start, body => do
    body start
    loop count (start + 1) body

theorem loop_shift (d : ℕ) (body : ℕ → Prog σ ε Unit) : ∀ count start : ℕ,
    loop count (d + start) (fun k => body (k - d)) = loop count start body := by
  intro count
  induction count with
  | zero =>
    intro start
    rfl
  | succ count ih =>
    intro start
    rw [loop, loop, Nat.add_sub_cancel_left, Nat.add_assoc, ih (start + 1)]

/-- The loop rule: `inv i` holds each time the counter is `i`. -/
theorem wp_loop (inv : ℕ → σ → Prop) {bad : ε → Prop} {body : ℕ → Prog σ ε Unit} :
    ∀ (count start : ℕ) (s : σ), inv start s →
      (∀ i t, start ≤ i → i < start + count → inv i t →
        wp (body i) (fun _ u => inv (i + 1) u) bad t) →
      wp (loop count start body) (fun _ t => inv (start + count) t) bad s := by
  intro count
  induction count with
  | zero =>
    intro start s hs _
    exact hs
  | succ count ih =>
    intro start s hs step
    have first := step start s (Nat.le_refl _) (by omega) hs
    rw [loop, wp_bind]
    apply wp_post first
    intro _ t ht
    have rest := ih (start + 1) t ht (fun i u hi hu => step i u (by omega) (by omega))
    simpa only [Nat.add_assoc, Nat.add_comm 1] using rest

def zoom (view : τ → σ) (update : τ → σ → τ) (p : Prog σ ε α) : Prog τ ε α := fun t =>
  match p (view t) with
  | .ok (a, s) => .ok (a, update t s)
  | .error e => .error e

@[simp] theorem wp_zoom (view : τ → σ) (update : τ → σ → τ) (p : Prog σ ε α)
    (post : α → τ → Prop) (bad : ε → Prop) (t : τ) :
    wp (zoom view update p) post bad t =
      wp p (fun a s => post a (update t s)) bad (view t) := by
  unfold wp zoom
  cases p (view t) with
  | error e => rfl
  | ok r => rfl

def relabel {ε' : Type} (f : ε → ε') (p : Prog σ ε α) : Prog σ ε' α := fun s => (p s).mapError f

@[simp] theorem wp_relabel {ε' : Type} (f : ε → ε') (p : Prog σ ε α) (post : α → σ → Prop)
    (bad : ε' → Prop) (s : σ) :
    wp (relabel f p) post bad s = wp p post (fun e => bad (f e)) s := by
  unfold wp relabel
  cases p s with
  | error e => rfl
  | ok r => rfl

/-- Run `p` beside a local variable that starts as `d`, and return what it is in the end. -/
def withLocal {δ : Type} (d : δ) (p : Prog (δ × σ) ε α) : Prog σ ε (α × δ) := fun s =>
  match p (d, s) with
  | .ok (a, t) => .ok ((a, t.1), t.2)
  | .error e => .error e

@[simp] theorem wp_withLocal {δ : Type} (d : δ) (p : Prog (δ × σ) ε α) (post : α × δ → σ → Prop)
    (bad : ε → Prop) (s : σ) :
    wp (withLocal d p) post bad s = wp p (fun a t => post (a, t.1) t.2) bad (d, s) := by
  unfold wp withLocal
  cases p (d, s) with
  | error e => rfl
  | ok r => rfl

section Runs

def runAll (step : ι → Prog σ ε Unit) : List ι → Prog σ ε Unit
  | [] => pure ()
  | op :: ops => do
    step op
    runAll step ops

/-- The same run of a partial specification; `none` when an operation is not allowed. -/
def specAll (spec : ι → τ → Option τ) : List ι → τ → Option τ
  | [], t => some t
  | op :: ops, t => (spec op t).bind (specAll spec ops)

/-- A step preserves the invariant, so every run does. -/
theorem wp_runAll {step : ι → Prog σ ε Unit} {inv : σ → Prop} {bad : ε → Prop}
    (hstep : ∀ op s, inv s → wp (step op) (fun _ t => inv t) bad s) :
    ∀ ops s, inv s → wp (runAll step ops) (fun _ t => inv t) bad s := by
  intro ops
  induction ops with
  | nil =>
    intro s hs
    exact hs
  | cons op ops ih =>
    intro s hs
    rw [runAll, wp_bind]
    exact wp_post (hstep op s hs) (fun _ t ht => ih t ht)

/-- A run against a specification that allows every operation; `rel` may count the operations
that are still to come. -/
theorem wp_follows (rel : ℕ → σ → τ → Prop) {step : ι → Prog σ ε Unit} {spec : ι → τ → τ}
    {bad : ε → Prop}
    (hstep : ∀ op k s t, rel (k + 1) s t → wp (step op) (fun _ s' => rel k s' (spec op t)) bad s) :
    ∀ ops s t, rel ops.length s t →
      wp (runAll step ops) (fun _ s' => rel 0 s' (ops.foldl (fun t op => spec op t) t)) bad s := by
  intro ops
  induction ops with
  | nil =>
    intro s t hs
    exact hs
  | cons op ops ih =>
    intro s t hs
    rw [runAll, wp_bind]
    exact wp_post (hstep op ops.length s t hs) (fun _ s' hs' => ih s' _ hs')

theorem wp_runAll_done (inv : List ι → σ → Prop) {step : ι → Prog σ ε Unit} {bad : ε → Prop}
    {n : ℕ} (hstep : ∀ done op s, done.length < n → inv done s →
      wp (step op) (fun _ t => inv (done ++ [op]) t) bad s) :
    ∀ ops done s, done.length + ops.length ≤ n → inv done s →
      wp (runAll step ops) (fun _ t => inv (done ++ ops) t) bad s := by
  intro ops
  induction ops with
  | nil =>
    intro done s _ hs
    rw [List.append_nil]
    exact hs
  | cons op ops ih =>
    intro done s room hs
    rw [List.length_cons] at room
    rw [runAll, wp_bind]
    apply wp_post (hstep done op s (by omega) hs)
    intro _ t ht
    have rest := ih (done ++ [op]) t (by rw [List.length_append, List.length_singleton]; omega) ht
    simpa only [List.append_assoc, List.singleton_append] using rest

/-- Forward simulation: each allowed step of the specification is matched without a fault, so
each allowed run is. -/
theorem wp_simulates {step : ι → Prog σ ε Unit} {spec : ι → τ → Option τ} {rel : σ → τ → Prop}
    (hstep : ∀ op s t t', rel s t → spec op t = some t' →
      wp (step op) (fun _ s' => rel s' t') never s) :
    ∀ ops s t t', rel s t → specAll spec ops t = some t' →
      wp (runAll step ops) (fun _ s' => rel s' t') never s := by
  intro ops
  induction ops with
  | nil =>
    intro s t t' hs ht
    cases ht
    exact hs
  | cons op ops ih =>
    intro s t t' hs ht
    obtain ⟨u, hu, hrest⟩ := Option.bind_eq_some_iff.mp ht
    rw [runAll, wp_bind]
    exact wp_post (hstep op s t u hs hu) (fun _ s' hs' => ih s' u t' hs' hrest)

def Meets (step : ι → Prog σ ε Unit) (C : σ → ι → Prop) : List ι → σ → Prop
  | [], _ => True
  | op :: ops, s => C s op ∧ ∀ t, step op s = .ok ((), t) → Meets step C ops t

theorem meets_cons {step : ι → Prog σ ε Unit} {C : σ → ι → Prop} {op : ι} {ops : List ι} {s t : σ}
    (first : C s op) (run : step op s = .ok ((), t)) (rest : Meets step C ops t) :
    Meets step C (op :: ops) s := by
  refine ⟨first, ?_⟩
  intro u run'
  rw [run] at run'
  cases run'
  exact rest

theorem wp_meets {step : ι → Prog σ ε Unit} {inv : σ → Prop} {C : σ → ι → Prop}
    (hstep : ∀ op s, inv s → C s op → wp (step op) (fun _ t => inv t) never s) :
    ∀ ops s, inv s → Meets step C ops s → wp (runAll step ops) (fun _ t => inv t) never s := by
  intro ops
  induction ops with
  | nil =>
    intro s hs _
    exact hs
  | cons op ops ih =>
    intro s hs allowed
    obtain ⟨⟨⟩, t, run, ht⟩ := wp_never.mp (hstep op s hs allowed.1)
    have rest := ih t ht (allowed.2 t run)
    have first : wp (step op) (fun _ u => u = t) never s := by
      rw [wp_never]
      exact ⟨(), t, run, rfl⟩
    rw [runAll, wp_bind]
    refine wp_post first ?_
    rintro _ u rfl
    exact rest

def Throughout (step : ι → Prog σ ε Unit) (P : σ → Prop) : List ι → σ → Prop
  | [], s => P s
  | op :: ops, s => P s ∧ ∀ t, step op s = .ok ((), t) → Throughout step P ops t

/-- Every step that the run takes meets the condition `C` in the state before it. -/
def Along (step : ι → Prog σ ε Unit) (C : σ → ι → Prop) : List ι → σ → Prop
  | [], _ => True
  | op :: ops, s => ∀ t, step op s = .ok ((), t) → C s op ∧ Along step C ops t

theorem runAll_cons_ok {step : ι → Prog σ ε Unit} {op : ι} {ops : List ι} {s u : σ}
    (run : runAll step (op :: ops) s = .ok ((), u)) :
    ∃ t, step op s = .ok ((), t) ∧ runAll step ops t = .ok ((), u) := by
  change (step op s >>= fun r => runAll step ops r.2) = .ok ((), u) at run
  cases first : step op s with
  | error e =>
    rw [first] at run
    cases run
  | ok r =>
    rw [first] at run
    exact ⟨r.2, rfl, run⟩

theorem throughout_end {step : ι → Prog σ ε Unit} {P : σ → Prop} :
    ∀ {ops : List ι} {s t : σ},
      Throughout step P ops s → runAll step ops s = .ok ((), t) → P t := by
  intro ops
  induction ops with
  | nil =>
    intro s t h run
    cases run
    exact h
  | cons op ops ih =>
    intro s t h run
    obtain ⟨u, first, rest⟩ := runAll_cons_ok run
    exact ih (h.2 u first) rest

/-- Where a step keeps `P` exactly when it meets `C`, a run keeps `P` throughout exactly when all
its steps meet `C`. -/
theorem throughout_iff_along {step : ι → Prog σ ε Unit} {inv P : σ → Prop} {C : σ → ι → Prop}
    (keeps : ∀ op s t, inv s → step op s = .ok ((), t) → inv t)
    (exact : ∀ op s t, inv s → P s → step op s = .ok ((), t) → (P t ↔ C s op)) :
    ∀ ops s, inv s → P s → (Throughout step P ops s ↔ Along step C ops s) := by
  intro ops
  induction ops with
  | nil =>
    intro s _ hp
    exact ⟨fun _ => trivial, fun _ => hp⟩
  | cons op ops ih =>
    intro s hi hp
    constructor
    · rintro ⟨_, rest⟩ t taken
      have after := rest t taken
      have ht : P t := by
        cases ops with
        | nil => exact after
        | cons _ _ => exact after.1
      exact ⟨(exact op s t hi hp taken).mp ht, (ih t (keeps op s t hi taken) ht).mp after⟩
    · intro along
      refine ⟨hp, ?_⟩
      intro t taken
      obtain ⟨met, rest⟩ := along t taken
      exact (ih t (keeps op s t hi taken) ((exact op s t hi hp taken).mpr met)).mpr rest

theorem throughout_of_inv {step : ι → Prog σ ε Unit} {inv P : σ → Prop}
    (keeps : ∀ op s t, inv s → step op s = .ok ((), t) → inv t) (holds : ∀ s, inv s → P s) :
    ∀ ops s, inv s → Throughout step P ops s := by
  intro ops
  induction ops with
  | nil =>
    intro s hi
    exact holds s hi
  | cons op ops ih =>
    intro s hi
    exact ⟨holds s hi, fun t taken => ih t (keeps op s t hi taken)⟩

theorem throughout_mono {step : ι → Prog σ ε Unit} {inv P Q : σ → Prop}
    (keeps : ∀ op s t, inv s → step op s = .ok ((), t) → inv t)
    (weaker : ∀ s, inv s → P s → Q s) :
    ∀ ops s, inv s → Throughout step P ops s → Throughout step Q ops s := by
  intro ops
  induction ops with
  | nil =>
    intro s hi hp
    exact weaker s hi hp
  | cons op ops ih =>
    intro s hi hp
    exact ⟨weaker s hi hp.1, fun t taken => ih t (keeps op s t hi taken) (hp.2 t taken)⟩

theorem along_mono {step : ι → Prog σ ε Unit} {C D : σ → ι → Prop}
    (weaker : ∀ s op, C s op → D s op) :
    ∀ ops s, Along step C ops s → Along step D ops s := by
  intro ops
  induction ops with
  | nil =>
    intro s _
    trivial
  | cons op ops ih =>
    intro s along t taken
    exact ⟨weaker s op (along t taken).1, ih t (along t taken).2⟩

/-- Where a loss of `P` is never made good, the end of a run tells whether all its steps met
`C`. -/
theorem end_iff_along {step : ι → Prog σ ε Unit} {inv P : σ → Prop} {C : σ → ι → Prop}
    (keeps : ∀ op s t, inv s → step op s = .ok ((), t) → inv t)
    (exact : ∀ op s t, inv s → step op s = .ok ((), t) → (P t ↔ P s ∧ C s op)) :
    ∀ ops s t, inv s → runAll step ops s = .ok ((), t) → (P t ↔ P s ∧ Along step C ops s) := by
  intro ops
  induction ops with
  | nil =>
    intro s t _ run
    cases run
    exact ⟨fun hp => ⟨hp, trivial⟩, fun hp => hp.1⟩
  | cons op ops ih =>
    intro s t hi run
    obtain ⟨u, first, rest⟩ := runAll_cons_ok run
    rw [ih u t (keeps op s u hi first) rest, exact op s u hi first]
    constructor
    · rintro ⟨⟨hp, hc⟩, along⟩
      refine ⟨hp, ?_⟩
      intro u' first'
      rw [first] at first'
      cases first'
      exact ⟨hc, along⟩
    · rintro ⟨hp, along⟩
      exact ⟨⟨hp, (along u first).1⟩, (along u first).2⟩

end Runs

end Lib.Program
