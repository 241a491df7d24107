import Nanolibc.Lib.OwnedArray

set_option autoImplicit false

/-!
# Objects that each own an array

A program constructs objects of one class, each of which owns at most one array of the heap, and
names them by number; a destroyed object keeps its number. The invariant of such a program is kept
by every method that works in its own array, whatever the class. `Rel` compares the objects with
the lists they show.
-/
namespace Lib.ObjectPool
open Lib.Program Lib.ArrayHeap Lib.OwnedArray

/-- A class: which array an object points to, how many elements it uses, what the fields say of
the slots, and the fields of an object that was moved from. -/
structure Class (O α : Type) where
  data : O → Option ℕ
  size : O → ℕ
  fits : O → List α → Prop
  null : O
  null_data : data null = none
  null_fits : fits null []

structure Pool (O α : Type) where
  heap : Heap α
  objs : List (Option O)

variable {O α β : Type}

def Pool.empty : Pool O α := ⟨.empty, []⟩

def Alive (s : Pool O α) (i : ℕ) (v : O) : Prop := s.objs[i]? = some (some v)

section Programs

def object (i : ℕ) : Prog (Pool O α) Fault O := do
  let s ← get
  match s.objs[i]? with
  | some (some v) => return v
  | _ => throw .noObject

def method (m : Prog (Heap α) Fault β) : Prog (Pool O α) Fault β :=
  zoom Pool.heap (fun s h => { s with heap := h }) m

def assign (i : ℕ) (v : Option O) : Prog (Pool O α) Fault Unit :=
  modify fun s => { s with objs := s.objs.set i v }

def create (v : O) : Prog (Pool O α) Fault Unit :=
  modify fun s => { s with objs := s.objs ++ [some v] }

def update (i : ℕ) (m : O → Prog (Heap α) Fault O) : Prog (Pool O α) Fault Unit := do
  let v ← object i
  let v ← method (m v)
  assign i (some v)

variable {s : Pool O α} {bad : Fault → Prop} {i : ℕ} {v : O}

theorem wp_object {post : O → Pool O α → Prop} (alive : Alive s i v) :
    wp (object i) post bad s = post v s := by
  unfold Alive at alive
  simp only [object, wp_bind, wp_get, alive, wp_pure]

theorem wp_object_or {post : O → Pool O α → Prop} (missing : (∀ v, ¬Alive s i v) → bad .noObject)
    (found : ∀ v, Alive s i v → post v s) : wp (object i) post bad s := by
  by_cases live : ∃ v, Alive s i v
  · obtain ⟨v, alive⟩ := live
    rw [wp_object alive]
    exact found v alive
  · have gone : ∀ v, ¬Alive s i v := fun v alive => live ⟨v, alive⟩
    have fault := missing gone
    simp only [object, wp_bind, wp_get]
    cases get : s.objs[i]? with
    | none => exact fault
    | some slot =>
      cases slot with
      | none => exact fault
      | some v => exact (gone v get).elim

@[simp] theorem wp_method {m : Prog (Heap α) Fault β} {post : β → Pool O α → Prop} :
    wp (method m) post bad s = wp m (fun b h => post b { s with heap := h }) bad s.heap := by
  simp only [method, wp_zoom]

@[simp] theorem wp_assign {v : Option O} {post : Unit → Pool O α → Prop} :
    wp (assign i v) post bad s = post () { s with objs := s.objs.set i v } := rfl

@[simp] theorem wp_create {post : Unit → Pool O α → Prop} :
    wp (create v) post bad s = post () { s with objs := s.objs ++ [some v] } := rfl

end Programs

section Objects

variable {s : Pool O α} {h' : Heap α} {i j k : ℕ} {u v v' w : O}

theorem Alive.lt (alive : Alive s i v) : i < s.objs.length :=
  (List.getElem?_eq_some_iff.mp alive).choose

theorem Alive.unique (one : Alive s i u) (two : Alive s i v) : u = v := by
  unfold Alive at one two
  simpa only [one, Option.some.injEq] using two

theorem alive_set (alive : Alive s i v) {x : Option O} :
    Alive ⟨h', s.objs.set i x⟩ k u ↔ (k = i ∧ x = some u) ∨ (k ≠ i ∧ Alive s k u) := by
  unfold Alive
  rw [List.getElem?_set]
  by_cases same : i = k
  · subst same
    simp [alive.lt]
  · rw [if_neg same]
    simp [Ne.symm same]

theorem set_alive (alive : Alive s i v) : s.objs.set i (some v) = s.objs := by
  obtain ⟨inside, get⟩ := List.getElem?_eq_some_iff.mp alive
  rw [← get, List.set_getElem_self]

theorem alive_append : Alive ⟨h', s.objs ++ [some v']⟩ k u ↔
    (k = s.objs.length ∧ u = v') ∨ Alive s k u := by
  unfold Alive
  by_cases old : k < s.objs.length
  · rw [List.getElem?_append_left old]
    simp [Nat.ne_of_lt old]
  · rw [List.getElem?_append_right (by omega), List.getElem?_eq_none (by omega : s.objs.length ≤ k)]
    by_cases last : k = s.objs.length
    · subst last
      simp [eq_comm]
    · have beyond : [some v'][k - s.objs.length]? = none :=
        List.getElem?_eq_none (by simp; omega)
      simp [beyond, last]

variable (C : Class O α)

theorem alive_hand (target : Alive s i v) (source : Alive s j w) :
    Alive ⟨h', (s.objs.set i (some w)).set j (some C.null)⟩ k u ↔
      (k = j ∧ u = C.null) ∨ (k ≠ j ∧ k = i ∧ u = w) ∨ (k ≠ j ∧ k ≠ i ∧ Alive s k u) := by
  have moved : Alive ⟨s.heap, s.objs.set i (some w)⟩ j w := by
    rw [alive_set target]
    by_cases same : j = i
    · exact .inl ⟨same, rfl⟩
    · exact .inr ⟨same, source⟩
  rw [alive_set moved, alive_set target]
  constructor
  · rintro (⟨rfl, eq⟩ | ⟨other, ⟨rfl, eq⟩ | ⟨other', old⟩⟩)
    · exact .inl ⟨rfl, (Option.some.inj eq).symm⟩
    · exact .inr (.inl ⟨other, rfl, (Option.some.inj eq).symm⟩)
    · exact .inr (.inr ⟨other, other', old⟩)
  · rintro (⟨rfl, rfl⟩ | ⟨other, rfl, rfl⟩ | ⟨other, other', old⟩)
    · exact .inl ⟨rfl, rfl⟩
    · exact .inr ⟨other, .inl ⟨rfl, rfl⟩⟩
    · exact .inr ⟨other, .inr ⟨other', old⟩⟩

theorem alive_steal (source : Alive s j w) :
    Alive ⟨h', s.objs.set j (some C.null) ++ [some w]⟩ k u ↔
      (k = s.objs.length ∧ u = w) ∨ (k = j ∧ u = C.null) ∨ (k ≠ j ∧ Alive s k u) := by
  have base : (Alive ⟨s.heap, s.objs.set j (some C.null)⟩ k u) ↔ _ := alive_set source
  have grown : Alive ⟨h', (⟨s.heap, s.objs.set j (some C.null)⟩ : Pool O α).objs ++ [some w]⟩
      k u ↔ _ := alive_append
  rw [List.length_set] at grown
  rw [grown, base]
  constructor
  · rintro (⟨rfl, rfl⟩ | ⟨rfl, eq⟩ | ⟨other, old⟩)
    · exact .inl ⟨rfl, rfl⟩
    · exact .inr (.inl ⟨rfl, (Option.some.inj eq).symm⟩)
    · exact .inr (.inr ⟨other, old⟩)
  · rintro (⟨rfl, rfl⟩ | ⟨rfl, rfl⟩ | ⟨other, old⟩)
    · exact .inl ⟨rfl, rfl⟩
    · exact .inr (.inl ⟨rfl, rfl⟩)
    · exact .inr (.inr ⟨other, old⟩)

end Objects

structure Holds (C : Class O α) (h : Heap α) (v : O) (zs : List α) : Prop where
  buffer : Buffer h (C.data v) zs
  fits : C.fits v zs

structure Left (C : Class O α) (h : Heap α) (v : O) (h' : Heap α) (v' : O) (zs' dead : List α) :
    Prop where
  effect : Effect h (C.data v) h' (C.data v') zs' dead
  fits : C.fits v' zs'

/-- What holds of every state a run reaches: arrays are live, no two objects share one, and the
log of deletions is the list of the arrays that are gone. -/
structure Inv (C : Class O α) (s : Pool O α) : Prop where
  holds : ∀ i v, Alive s i v → ∃ zs, Holds C s.heap v zs
  apart : ∀ i j v w a, Alive s i v → Alive s j w → C.data v = some a → C.data w = some a → i = j
  tidy : s.heap.Tidy

def NoneLost (C : Class O α) (s : Pool O α) : Prop :=
  ∀ a zs, s.heap.cells a = some zs → ∃ i v, Alive s i v ∧ C.data v = some a

section Preservation

variable {C : Class O α} {s s' : Pool O α} {h' : Heap α} {i j k : ℕ} {u v v' w : O}
  {us zs zs' dead : List α}

theorem holds_null (h : Heap α) : Holds C h C.null [] :=
  ⟨by rw [C.null_data]; rfl, C.null_fits⟩

theorem inv_empty : Inv C Pool.empty where
  holds := by intro i v h; simp [Alive, Pool.empty] at h
  apart := by intro i j v w a h; simp [Alive, Pool.empty] at h
  tidy := Heap.tidy_empty

theorem noneLost_empty : NoneLost C Pool.empty := by
  intro a zs cell
  cases cell

theorem Holds.frame {h : Heap α} {p p' : Option ℕ} (holds : Holds C h u us)
    (e : Effect h p h' p' zs dead) (apart : ∀ a, C.data u = some a → p ≠ some a) :
    Holds C h' u us := by
  refine ⟨?_, holds.fits⟩
  have buffer := holds.buffer
  cases here : C.data u with
  | none => rwa [here] at buffer
  | some a =>
    rw [here] at buffer
    obtain ⟨cell, old⟩ := buffer
    refine ⟨?_, lt_of_lt_of_le old e.next_le⟩
    rw [e.other (apart a here) old, cell]

theorem Left.holds {h : Heap α} (holds : Holds C h v zs) (left : Left C h v h' v' zs' dead) :
    Holds C h' v' zs' :=
  ⟨left.effect.after holds.buffer, left.fits⟩

theorem bystander (inv : Inv C s) {p p' : Option ℕ} (e : Effect s.heap p h' p' zs' dead)
    (alive : Alive s k u) (foreign : ∀ a, C.data u = some a → p ≠ some a) :
    (∀ zs, Holds C s.heap u zs → Holds C h' u zs) ∧ ∀ a, C.data u = some a → p' ≠ some a := by
  refine ⟨fun zs holds => holds.frame e foreign, ?_⟩
  rintro a here rfl
  rcases e.new_or_old with old | ⟨fresh, _⟩
  · exact foreign a here old
  · obtain ⟨zs, holds⟩ := inv.holds k u alive
    have buffer := holds.buffer
    rw [here] at buffer
    have := buffer.2
    omega

theorem Inv.foreign (inv : Inv C s) (alive : Alive s i v) :
    ∀ k u, k ≠ i → Alive s k u → ∀ a, C.data u = some a → C.data v ≠ some a :=
  fun k u other there a hereu herev => other (inv.apart k i u v a there alive hereu herev)

theorem inv_create (inv : Inv C s) (left : Left C s.heap C.null h' v' zs' dead) :
    Inv C ⟨h', s.objs ++ [some v']⟩ := by
  have null := (holds_null (C := C) s.heap).buffer
  have foreign : ∀ (u : O) a, C.data u = some a → C.data C.null ≠ some a := by
    simp [C.null_data]
  refine ⟨?_, ?_, left.effect.tidy null inv.tidy⟩
  · intro k u alive
    rcases alive_append.mp alive with ⟨_, rfl⟩ | old
    · exact ⟨zs', left.holds (holds_null s.heap)⟩
    · obtain ⟨zs, holds⟩ := inv.holds k u old
      exact ⟨zs, (bystander inv left.effect old (foreign u)).1 zs holds⟩
  · intro k l u w a aliveu alivew hereu herew
    rcases alive_append.mp aliveu with ⟨ku, rfl⟩ | oldu <;>
      rcases alive_append.mp alivew with ⟨lw, rfl⟩ | oldw
    · omega
    · exact ((bystander inv left.effect oldw (foreign w)).2 a herew hereu).elim
    · exact ((bystander inv left.effect oldu (foreign u)).2 a hereu herew).elim
    · exact inv.apart k l u w a oldu oldw hereu herew

theorem inv_update (inv : Inv C s) (alive : Alive s i v) (holds : Holds C s.heap v zs)
    (left : Left C s.heap v h' v' zs' dead) : Inv C ⟨h', s.objs.set i (some v')⟩ := by
  have foreign := inv.foreign alive
  refine ⟨?_, ?_, left.effect.tidy holds.buffer inv.tidy⟩
  · intro k u there
    rcases (alive_set alive).mp there with ⟨_, eq⟩ | ⟨other, old⟩
    · cases eq
      exact ⟨zs', left.holds holds⟩
    · obtain ⟨us, holdsu⟩ := inv.holds k u old
      exact ⟨us, (bystander inv left.effect old (foreign k u other old)).1 us holdsu⟩
  · intro k l u w a aliveu alivew hereu herew
    rcases (alive_set alive).mp aliveu with ⟨ku, eu⟩ | ⟨otheru, oldu⟩ <;>
      rcases (alive_set alive).mp alivew with ⟨lw, ew⟩ | ⟨otherw, oldw⟩
    · omega
    · cases eu
      exact ((bystander inv left.effect oldw (foreign l w otherw oldw)).2 a herew hereu).elim
    · cases ew
      exact ((bystander inv left.effect oldu (foreign k u otheru oldu)).2 a hereu herew).elim
    · exact inv.apart k l u w a oldu oldw hereu herew

theorem inv_drop (inv : Inv C s) (alive : Alive s i v) (holds : Holds C s.heap v zs)
    (effect : Effect s.heap (C.data v) h' none [] dead) : Inv C ⟨h', s.objs.set i none⟩ := by
  have foreign := inv.foreign alive
  refine ⟨?_, ?_, effect.tidy holds.buffer inv.tidy⟩
  · intro k u there
    rcases (alive_set alive).mp there with ⟨_, eq⟩ | ⟨other, old⟩
    · cases eq
    · obtain ⟨us, holdsu⟩ := inv.holds k u old
      exact ⟨us, (bystander inv effect old (foreign k u other old)).1 us holdsu⟩
  · intro k l u w a aliveu alivew hereu herew
    rcases (alive_set alive).mp aliveu with ⟨_, eq⟩ | ⟨_, oldu⟩
    · cases eq
    · rcases (alive_set alive).mp alivew with ⟨_, eq⟩ | ⟨_, oldw⟩
      · cases eq
      · exact inv.apart k l u w a oldu oldw hereu herew

theorem inv_hand (inv : Inv C s) (target : Alive s i v) (source : Alive s j w) :
    Inv C ⟨s.heap, (s.objs.set i (some w)).set j (some C.null)⟩ := by
  have empty : ∀ a, C.data C.null ≠ some a := by simp [C.null_data]
  refine ⟨?_, ?_, inv.tidy⟩
  · intro k u alive
    rcases (alive_hand C target source).mp alive with ⟨_, rfl⟩ | ⟨_, _, rfl⟩ | ⟨_, _, old⟩
    · exact ⟨[], holds_null s.heap⟩
    · exact inv.holds j u source
    · exact inv.holds k u old
  · intro k l u x a aliveu alivex hereu herex
    rcases (alive_hand C target source).mp aliveu with ⟨_, rfl⟩ | ⟨nu, ku, rfl⟩ | ⟨nu, mu, oldu⟩
    · exact (empty a hereu).elim
    · rcases (alive_hand C target source).mp alivex with ⟨_, rfl⟩ | ⟨_, lx, _⟩ | ⟨nx, _, oldx⟩
      · exact (empty a herex).elim
      · omega
      · exact (nx (inv.apart l j x u a oldx source herex hereu)).elim
    · rcases (alive_hand C target source).mp alivex with ⟨_, rfl⟩ | ⟨_, lx, rfl⟩ | ⟨nx, _, oldx⟩
      · exact (empty a herex).elim
      · exact (nu (inv.apart k j u x a oldu source hereu herex)).elim
      · exact inv.apart k l u x a oldu oldx hereu herex

theorem inv_steal (inv : Inv C s) (source : Alive s j w) :
    Inv C ⟨s.heap, s.objs.set j (some C.null) ++ [some w]⟩ := by
  have empty : ∀ a, C.data C.null ≠ some a := by simp [C.null_data]
  refine ⟨?_, ?_, inv.tidy⟩
  · intro k u alive
    rcases (alive_steal C source).mp alive with ⟨_, rfl⟩ | ⟨_, rfl⟩ | ⟨_, old⟩
    · exact inv.holds j u source
    · exact ⟨[], holds_null s.heap⟩
    · exact inv.holds k u old
  · intro k l u x a aliveu alivex hereu herex
    rcases (alive_steal C source).mp aliveu with ⟨ku, rfl⟩ | ⟨_, rfl⟩ | ⟨nu, oldu⟩
    · rcases (alive_steal C source).mp alivex with ⟨lx, _⟩ | ⟨_, rfl⟩ | ⟨nx, oldx⟩
      · omega
      · exact (empty a herex).elim
      · exact (nx (inv.apart l j x u a oldx source herex hereu)).elim
    · exact (empty a hereu).elim
    · rcases (alive_steal C source).mp alivex with ⟨lx, rfl⟩ | ⟨_, rfl⟩ | ⟨nx, oldx⟩
      · exact (nu (inv.apart k j u x a oldu source hereu herex)).elim
      · exact (empty a herex).elim
      · exact inv.apart k l u x a oldu oldx hereu herex

theorem noneLost_effect {p p' : Option ℕ} (none : NoneLost C s)
    (e : Effect s.heap p h' p' zs' dead) (heap : s'.heap = h')
    (mine : ∀ a, p' = some a → ∃ i v, Alive s' i v ∧ C.data v = some a)
    (others : ∀ k u a, Alive s k u → C.data u = some a → p ≠ some a → Alive s' k u) :
    NoneLost C s' := by
  intro a zs cell
  rw [heap] at cell
  rcases e.live cell with here | ⟨foreign, old⟩
  · exact mine a here
  · obtain ⟨k, u, alive, here⟩ := none a zs old
    exact ⟨k, u, others k u a alive here foreign, here⟩

theorem noneLost_create (none : NoneLost C s) (left : Left C s.heap C.null h' v' zs' dead) :
    NoneLost C ⟨h', s.objs ++ [some v']⟩ :=
  noneLost_effect none left.effect rfl
    (fun _ here => ⟨_, v', alive_append.mpr (.inl ⟨rfl, rfl⟩), here⟩)
    (fun _ _ _ alive _ _ => alive_append.mpr (.inr alive))

theorem noneLost_update (none : NoneLost C s) (alive : Alive s i v)
    (left : Left C s.heap v h' v' zs' dead) : NoneLost C ⟨h', s.objs.set i (some v')⟩ := by
  refine noneLost_effect none left.effect rfl
    (fun _ here => ⟨i, v', (alive_set alive).mpr (.inl ⟨rfl, rfl⟩), here⟩) ?_
  intro k u a there here foreign
  refine (alive_set alive).mpr (.inr ⟨?_, there⟩)
  rintro rfl
  cases alive.unique there
  exact foreign here

theorem noneLost_drop (none : NoneLost C s) (alive : Alive s i v)
    (effect : Effect s.heap (C.data v) h' .none [] dead) : NoneLost C ⟨h', s.objs.set i .none⟩ := by
  refine noneLost_effect none effect rfl (fun _ here => by cases here) ?_
  intro k u a there here foreign
  refine (alive_set alive).mpr (.inr ⟨?_, there⟩)
  rintro rfl
  cases alive.unique there
  exact foreign here

theorem noneLost_steal (none : NoneLost C s) (source : Alive s j w) :
    NoneLost C ⟨s.heap, s.objs.set j (some C.null) ++ [some w]⟩ := by
  intro a zs cell
  obtain ⟨k, u, alive, here⟩ := none a zs cell
  by_cases same : k = j
  · subst same
    cases source.unique alive
    exact ⟨_, w, (alive_steal C source).mpr (.inl ⟨rfl, rfl⟩), here⟩
  · exact ⟨k, u, (alive_steal C source).mpr (.inr (.inr ⟨same, alive⟩)), here⟩

/-- To move an array to another object loses none exactly when that object has none. -/
theorem noneLost_hand (inv : Inv C s) (none : NoneLost C s) (target : Alive s i v)
    (source : Alive s j w) :
    NoneLost C ⟨s.heap, (s.objs.set i (some w)).set j (some C.null)⟩ ↔ C.data v = .none := by
  constructor
  · intro after
    by_contra owns
    obtain ⟨b, here⟩ := Option.ne_none_iff_exists'.mp owns
    obtain ⟨zs, holds⟩ := inv.holds i v target
    have buffer := holds.buffer
    rw [here] at buffer
    -- nobody else held `b`, and the target now holds the source's pointer
    obtain ⟨k, x, alive, herex⟩ := after b zs buffer.1
    rcases (alive_hand C target source).mp alive with ⟨_, rfl⟩ | ⟨nj, ki, rfl⟩ | ⟨_, ni, old⟩
    · rw [C.null_data] at herex
      cases herex
    · have same := inv.apart i j v x b target source here herex
      omega
    · exact ni (inv.apart k i x v b old target herex here)
  · intro empty a zs cell
    obtain ⟨k, u, alive, here⟩ := none a zs cell
    have ni : k ≠ i := by
      rintro rfl
      cases target.unique alive
      rw [empty] at here
      cases here
    by_cases same : k = j
    · subst same
      cases source.unique alive
      exact ⟨i, w, (alive_hand C target source).mpr (.inr (.inl ⟨Ne.symm ni, rfl, rfl⟩)), here⟩
    · exact ⟨k, u, (alive_hand C target source).mpr (.inr (.inr ⟨same, ni, alive⟩)), here⟩

end Preservation

section Contents

/-- A list for each object constructed so far, `none` for a destroyed one. -/
abbrev ListPool (α : Type) := List (Option (List α))

def contents (ls : ListPool α) (i : ℕ) : Option (List α) := (ls[i]?).join

variable {C : Class O α} {s s' : Pool O α} {ls ls' : ListPool α} {h' : Heap α} {i j k : ℕ}
  {u v v' w : O} {xs ys zs zs' dead : List α}

theorem contents_lt (h : contents ls i = some xs) : i < ls.length := by
  unfold contents at h
  by_contra far
  rw [List.getElem?_eq_none (by omega)] at h
  cases h

theorem contents_set (hi : i < ls.length) {x : Option (List α)} (k : ℕ) :
    contents (ls.set i x) k = if k = i then x else contents ls k := by
  unfold contents
  rw [List.getElem?_set]
  by_cases same : i = k
  · subst same
    simp [hi]
  · rw [if_neg same, if_neg (Ne.symm same)]

theorem contents_append {x : Option (List α)} (k : ℕ) :
    contents (ls ++ [x]) k = if k = ls.length then x else contents ls k := by
  unfold contents
  by_cases old : k < ls.length
  · rw [List.getElem?_append_left old, if_neg (Nat.ne_of_lt old)]
  · rw [List.getElem?_append_right (by omega)]
    by_cases last : k = ls.length
    · subst last
      simp
    · rw [if_neg last, List.getElem?_eq_none (by simp; omega),
        List.getElem?_eq_none (by omega : ls.length ≤ k)]

theorem contents_iff : contents ls i = some xs ↔ ls[i]? = some (some xs) := by
  unfold contents
  cases ls[i]? with
  | none => simp
  | some slot => cases slot <;> simp

def Shows (C : Class O α) (s : Pool O α) (i : ℕ) (xs : List α) : Prop :=
  ∃ v zs, Alive s i v ∧ Holds C s.heap v zs ∧ zs.take (C.size v) = xs

theorem Shows.unique (one : Shows C s i xs) (two : Shows C s i ys) : xs = ys := by
  obtain ⟨v, zs, alive, holds, rfl⟩ := one
  obtain ⟨w, ws, alive', holds', rfl⟩ := two
  cases alive.unique alive'
  rw [buffer_unique holds.buffer holds'.buffer]

theorem Shows.frame {p p' : Option ℕ} {objs' : List (Option O)} (inv : Inv C s)
    (shows : Shows C s k xs) (e : Effect s.heap p h' p' zs' dead)
    (foreign : ∀ u a, Alive s k u → C.data u = some a → p ≠ some a)
    (still : ∀ u, Alive s k u → Alive ⟨h', objs'⟩ k u) : Shows C ⟨h', objs'⟩ k xs := by
  obtain ⟨u, us, alive, holds, rfl⟩ := shows
  exact ⟨u, us, still u alive,
    (bystander inv e alive (fun a here => foreign u a alive here)).1 us holds, rfl⟩

structure Rel (C : Class O α) (s : Pool O α) (ls : ListPool α) : Prop where
  inv : Inv C s
  length : s.objs.length = ls.length
  shown : ∀ i xs, contents ls i = some xs → Shows C s i xs
  listed : ∀ i v, Alive s i v → ∃ xs, contents ls i = some xs

def lists (C : Class O α) (s : Pool O α) : ListPool α :=
  s.objs.map fun slot => slot.map fun v => (((C.data v).bind s.heap.cells).getD []).take (C.size v)

theorem Shows.listed (shows : Shows C s i xs) : contents (lists C s) i = some xs := by
  obtain ⟨v, zs, alive, holds, rfl⟩ := shows
  have slots : ((C.data v).bind s.heap.cells).getD [] = zs := by
    have buffer := holds.buffer
    cases here : C.data v with
    | none =>
      rw [here] at buffer
      exact Eq.symm buffer
    | some a =>
      rw [here] at buffer
      simp [buffer.1]
  unfold Alive at alive
  simp [contents, lists, alive, slots]

theorem rel_lists (inv : Inv C s) : Rel C s (lists C s) := by
  have every : ∀ i v, Alive s i v → ∃ xs, Shows C s i xs := by
    intro i v alive
    obtain ⟨zs, holds⟩ := inv.holds i v alive
    exact ⟨_, v, zs, alive, holds, rfl⟩
  refine ⟨inv, by simp [lists], ?_, ?_⟩
  · intro i xs h
    have slot := contents_iff.mp h
    simp only [lists, List.getElem?_map, Option.map_eq_some_iff] at slot
    obtain ⟨_, alive, v, rfl, _⟩ := slot
    obtain ⟨ys, shows⟩ := every i v alive
    have same := shows.listed.symm.trans h
    cases same
    exact shows
  · intro i v alive
    obtain ⟨xs, shows⟩ := every i v alive
    exact ⟨xs, shows.listed⟩

theorem rel_empty : Rel C Pool.empty [] where
  inv := inv_empty
  length := rfl
  shown := by intro i xs h; simp [contents] at h
  listed := by intro i v h; simp [Alive, Pool.empty] at h

theorem Rel.found (rel : Rel C s ls) (h : contents ls i = some xs) :
    ∃ v zs, Alive s i v ∧ Holds C s.heap v zs ∧ zs.take (C.size v) = xs := rel.shown i xs h

theorem Rel.alive_iff (rel : Rel C s ls) :
    (∃ v, Alive s i v) ↔ ∃ xs, ls[i]? = some (some xs) := by
  constructor
  · rintro ⟨v, alive⟩
    obtain ⟨xs, hx⟩ := rel.listed i v alive
    exact ⟨xs, contents_iff.mp hx⟩
  · rintro ⟨xs, hx⟩
    obtain ⟨v, _, alive, _⟩ := rel.found (contents_iff.mpr hx)
    exact ⟨v, alive⟩

theorem rel_create (rel : Rel C s ls) (left : Left C s.heap C.null h' v' zs' dead)
    (shown : zs'.take (C.size v') = ys) : Rel C ⟨h', s.objs ++ [some v']⟩ (ls ++ [some ys]) := by
  refine ⟨inv_create rel.inv left, ?_, ?_, ?_⟩
  · simp [rel.length]
  · intro k xs h
    rw [contents_append] at h
    split_ifs at h with last
    · cases h
      exact ⟨v', zs', alive_append.mpr (.inl ⟨by rw [last, rel.length], rfl⟩),
        left.holds (holds_null s.heap), shown⟩
    · refine (rel.shown k xs h).frame rel.inv left.effect (by simp [C.null_data]) ?_
      exact fun u alive => alive_append.mpr (.inr alive)
  · intro k u alive
    rcases alive_append.mp alive with ⟨last, rfl⟩ | old
    · exact ⟨ys, by rw [contents_append, if_pos (by rw [last, rel.length])]⟩
    · obtain ⟨xs, hx⟩ := rel.listed k u old
      exact ⟨xs, by rw [contents_append, if_neg (Nat.ne_of_lt (contents_lt hx)), hx]⟩

theorem rel_update (rel : Rel C s ls) (alive : Alive s i v) (holds : Holds C s.heap v zs)
    (left : Left C s.heap v h' v' zs' dead) (shown : zs'.take (C.size v') = ys) :
    Rel C ⟨h', s.objs.set i (some v')⟩ (ls.set i (some ys)) := by
  obtain ⟨xs, hx⟩ := rel.listed i v alive
  have hi := contents_lt hx
  refine ⟨inv_update rel.inv alive holds left, ?_, ?_, ?_⟩
  · simp [rel.length]
  · intro k us h
    rw [contents_set hi] at h
    split_ifs at h with same
    · cases h
      exact ⟨v', zs', (alive_set alive).mpr (.inl ⟨same, rfl⟩), left.holds holds, shown⟩
    · refine (rel.shown k us h).frame rel.inv left.effect ?_ ?_
      · exact fun u a there => rel.inv.foreign alive k u same there a
      · exact fun u there => (alive_set alive).mpr (.inr ⟨same, there⟩)
  · intro k u there
    rcases (alive_set alive).mp there with ⟨same, _⟩ | ⟨other, old⟩
    · exact ⟨ys, by rw [contents_set hi, if_pos same]⟩
    · obtain ⟨us, hu⟩ := rel.listed k u old
      exact ⟨us, by rw [contents_set hi, if_neg other, hu]⟩

theorem rel_drop (rel : Rel C s ls) (alive : Alive s i v) (holds : Holds C s.heap v zs)
    (effect : Effect s.heap (C.data v) h' none [] dead) :
    Rel C ⟨h', s.objs.set i none⟩ (ls.set i none) := by
  obtain ⟨xs, hx⟩ := rel.listed i v alive
  have hi := contents_lt hx
  refine ⟨inv_drop rel.inv alive holds effect, ?_, ?_, ?_⟩
  · simp [rel.length]
  · intro k us h
    rw [contents_set hi] at h
    split_ifs at h with same
    refine (rel.shown k us h).frame rel.inv effect ?_ ?_
    · exact fun u a there => rel.inv.foreign alive k u same there a
    · exact fun u there => (alive_set alive).mpr (.inr ⟨same, there⟩)
  · intro k u there
    rcases (alive_set alive).mp there with ⟨_, eq⟩ | ⟨other, old⟩
    · cases eq
    · obtain ⟨us, hu⟩ := rel.listed k u old
      exact ⟨us, by rw [contents_set hi, if_neg other, hu]⟩

theorem rel_hand (rel : Rel C s ls) (target : Alive s i v) (source : Alive s j w)
    (hy : contents ls j = some ys) :
    Rel C ⟨s.heap, (s.objs.set i (some w)).set j (some C.null)⟩
      ((ls.set i (some ys)).set j (some [])) := by
  obtain ⟨xs, hx⟩ := rel.listed i v target
  have hi := contents_lt hx
  have hj := contents_lt hy
  have final : ∀ k, contents ((ls.set i (some ys)).set j (some [])) k =
      if k = j then some [] else if k = i then some ys else contents ls k := by
    intro k
    rw [contents_set (by rw [List.length_set]; exact hj), contents_set hi]
  refine ⟨inv_hand rel.inv target source, ?_, ?_, ?_⟩
  · simp [rel.length]
  · intro k us h
    rw [final] at h
    split_ifs at h with atj ati
    · cases h
      exact ⟨C.null, [], (alive_hand C target source).mpr (.inl ⟨atj, rfl⟩), holds_null s.heap,
        List.take_nil⟩
    · cases h
      obtain ⟨u, zs, there, holds, rfl⟩ := rel.shown j _ hy
      cases source.unique there
      exact ⟨w, zs, (alive_hand C target source).mpr (.inr (.inl ⟨atj, ati, rfl⟩)), holds, rfl⟩
    · obtain ⟨u, zs, there, holds, rfl⟩ := rel.shown k us h
      exact ⟨u, zs, (alive_hand C target source).mpr (.inr (.inr ⟨atj, ati, there⟩)), holds, rfl⟩
  · intro k u there
    rcases (alive_hand C target source).mp there with ⟨atj, _⟩ | ⟨nj, ati, _⟩ | ⟨nj, ni, old⟩
    · exact ⟨[], by rw [final, if_pos atj]⟩
    · exact ⟨ys, by rw [final, if_neg nj, if_pos ati]⟩
    · obtain ⟨us, hu⟩ := rel.listed k u old
      exact ⟨us, by rw [final, if_neg nj, if_neg ni, hu]⟩

theorem rel_steal (rel : Rel C s ls) (source : Alive s j w) (hy : contents ls j = some ys) :
    Rel C ⟨s.heap, s.objs.set j (some C.null) ++ [some w]⟩ (ls.set j (some []) ++ [some ys]) := by
  have hj := contents_lt hy
  have final : ∀ k, contents (ls.set j (some []) ++ [some ys]) k =
      if k = ls.length then some ys else if k = j then some [] else contents ls k := by
    intro k
    rw [contents_append, List.length_set, contents_set hj]
  refine ⟨inv_steal rel.inv source, ?_, ?_, ?_⟩
  · simp [rel.length]
  · intro k us h
    rw [final] at h
    split_ifs at h with last atj
    · cases h
      obtain ⟨u, zs, there, holds, rfl⟩ := rel.shown j _ hy
      cases source.unique there
      exact ⟨w, zs, (alive_steal C source).mpr (.inl ⟨by rw [last, rel.length], rfl⟩), holds, rfl⟩
    · cases h
      exact ⟨C.null, [], (alive_steal C source).mpr (.inr (.inl ⟨atj, rfl⟩)), holds_null s.heap,
        List.take_nil⟩
    · obtain ⟨u, zs, there, holds, rfl⟩ := rel.shown k us h
      exact ⟨u, zs, (alive_steal C source).mpr (.inr (.inr ⟨atj, there⟩)), holds, rfl⟩
  · intro k u there
    rcases (alive_steal C source).mp there with ⟨last, _⟩ | ⟨atj, _⟩ | ⟨nj, old⟩
    · exact ⟨ys, by rw [final, if_pos (by rw [last, rel.length])]⟩
    · exact ⟨[], by rw [final, if_neg (by omega), if_pos atj]⟩
    · obtain ⟨us, hu⟩ := rel.listed k u old
      exact ⟨us, by rw [final, if_neg (Nat.ne_of_lt (contents_lt hu)), if_neg nj, hu]⟩

end Contents

end Lib.ObjectPool
