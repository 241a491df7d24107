import Nanolibc.VectorContents

set_option autoImplicit false

namespace Nanolibc.VectorSystem
open Lib.Program Lib.ArrayHeap Lib.OwnedArray VectorModel
open Lib.ObjectPool hiding Holds Left

abbrev System (α : Type) := Pool Vec α

def System.init {α : Type} : System α := Pool.empty

inductive Op (α : Type) where
  | construct
  | sized (n : ℕ)
  | ofRange (range : List α)
  | copyConstruct (j : ℕ)
  | moveConstruct (j : ℕ)
  | destroy (i : ℕ)
  | copyAssign (i j : ℕ)
  | moveAssign (i j : ℕ)
  | reserve (i n : ℕ)
  | resize (i n : ℕ)
  | clear (i : ℕ)
  | pushBack (i : ℕ) (x : α)
  | pushBackMove (i : ℕ) (x : α)
  | popBack (i : ℕ)
  | erase (i it : ℕ)

variable {α : Type} (T : Element α)

abbrev Sys (α β : Type) := Prog (System α) Fault β

def step : Op α → Sys α Unit
  | .construct => create Vec.null
  | .sized n => do
    let v ← method (Vec.sized T n)
    create v
  | .ofRange range => do
    let v ← method (Vec.ofRange T range)
    create v
  | .copyConstruct j => do
    let w ← object j
    let v ← method (Vec.copyConstruct T w)
    create v
  | .moveConstruct j => do
    let w ← object j
    assign j (some (Vec.moveConstruct w).2)
    create (Vec.moveConstruct w).1
  | .destroy i => do
    let v ← object i
    method (Vec.destroy v)
    assign i none
  | .copyAssign i j => do
    let w ← object j
    update i fun v => Vec.copyAssign T v w
  | .moveAssign i j => do
    let v ← object i
    let w ← object j
    assign i (some (Vec.moveAssign v w).1)
    assign j (some (Vec.moveAssign v w).2)
  | .reserve i n => update i fun v => Vec.reserve T v n
  | .resize i n => update i fun v => Vec.resize T v n
  | .clear i => update i fun v => Vec.clear T v
  | .pushBack i x => update i fun v => Vec.pushBack T v (.temp x)
  | .pushBackMove i x => update i fun v => Vec.pushBackMove T v (.temp x)
  | .popBack i => update i fun v => Vec.popBack T v
  | .erase i it => update i fun v => Vec.erase T v it

def Op.objects : Op α → List ℕ
  | .construct | .sized _ | .ofRange _ => []
  | .copyConstruct i | .moveConstruct i | .destroy i | .reserve i _ | .resize i _ | .clear i
  | .pushBack i _ | .pushBackMove i _ | .popBack i | .erase i _ => [i]
  | .copyAssign i j | .moveAssign i j => [i, j]

def Op.demand (s : System α) : Op α → ℕ → Prop
  | .sized n, m | .reserve _ n, m | .resize _ n, m => m = n
  | .ofRange range, m => m = range.length
  | .copyConstruct j, m | .copyAssign _ j, m => ∃ w, Alive s j w ∧ m = w.nitems
  | .pushBack i _, m | .pushBackMove i _, m => ∃ v, Alive s i v ∧ m = v.nitems + 1
  | _, _ => False

/-- The faults an operation can raise, and when. -/
def MayFault (s : System α) (op : Op α) : Fault → Prop
  | .noObject => ∃ i ∈ op.objects, ∀ v, ¬Alive s i v
  | .aborted =>
    match op with
    | .popBack i => ∃ v, Alive s i v ∧ v.nitems = 0
    | .erase i it => ∃ v, Alive s i v ∧ v.nitems ≤ it
    | _ => False
  | .diverged => ∃ n, op.demand s n ∧ 2 ^ 62 < n * T.size
  | _ => False

inductive Creates (s : System α) : Op α → List α → Prop where
  | construct : Creates s .construct []
  | sized (n : ℕ) : Creates s (.sized n) (List.replicate n T.dflt)
  | ofRange (range : List α) : Creates s (.ofRange range) range
  | copyConstruct (j : ℕ) (ys : List α) (source : Shows (vectorClass α) s j ys) :
      Creates s (.copyConstruct j) ys

inductive Updates (s : System α) : Op α → ℕ → List α → List α → Prop where
  | copyAssign (i j : ℕ) (xs ys : List α) (source : Shows (vectorClass α) s j ys) :
      Updates s (.copyAssign i j) i xs ys
  | reserve (i n : ℕ) (xs : List α) : Updates s (.reserve i n) i xs xs
  | resize (i n : ℕ) (xs : List α) :
      Updates s (.resize i n) i xs (xs.take n ++ List.replicate (n - xs.length) T.dflt)
  | clear (i : ℕ) (xs : List α) : Updates s (.clear i) i xs []
  | pushBack (i : ℕ) (x : α) (xs : List α) : Updates s (.pushBack i x) i xs (xs ++ [x])
  | pushBackMove (i : ℕ) (x : α) (xs : List α) : Updates s (.pushBackMove i x) i xs (xs ++ [x])
  | popBack (i : ℕ) (xs : List α) : Updates s (.popBack i) i xs xs.dropLast
  | erase (i it : ℕ) (xs : List α) : Updates s (.erase i it) i xs (xs.eraseIdx it)

inductive Change (s : System α) : Op α → System α → Prop where
  | create {op : Op α} {h' : Heap α} {v' : Vec} {zs' dead : List α} {ys : List α}
      (what : Creates T s op ys) (left : Left s.heap Vec.null h' v' zs' dead)
      (shown : zs'.take v'.nitems = ys) : Change s op ⟨h', s.objs ++ [some v']⟩
  | update {op : Op α} {i : ℕ} {v v' : Vec} {zs zs' dead ys : List α} {h' : Heap α}
      (alive : Alive s i v) (holds : Holds s.heap v zs)
      (what : Updates T s op i (zs.take v.nitems) ys) (left : Left s.heap v h' v' zs' dead)
      (shown : zs'.take v'.nitems = ys) : Change s op ⟨h', s.objs.set i (some v')⟩
  | steal {j : ℕ} {w : Vec} (alive : Alive s j w) :
      Change s (.moveConstruct j) ⟨s.heap, s.objs.set j (some Vec.null) ++ [some w]⟩
  | hand {i j : ℕ} {v w : Vec} (target : Alive s i v) (source : Alive s j w) :
      Change s (.moveAssign i j) ⟨s.heap, (s.objs.set i (some w)).set j (some Vec.null)⟩
  | drop {i : ℕ} {v : Vec} {zs dead : List α} {h' : Heap α} (alive : Alive s i v)
      (holds : Holds s.heap v zs) (effect : Effect s.heap v.data h' none [] dead) :
      Change s (.destroy i) ⟨h', s.objs.set i none⟩

section Step

variable {T} {s : System α} {bad : Fault → Prop} {i : ℕ}

theorem wp_update {m : Vec → Method α Vec} {op : Op α} (inv : Inv (vectorClass α) s)
    (missing : (∀ v, ¬Alive s i v) → bad .noObject)
    (run : ∀ v zs, Alive s i v → Holds s.heap v zs →
      wp (m v) (fun v' h' => ∃ zs' dead ys, Left s.heap v h' v' zs' dead ∧
        Updates T s op i (zs.take v.nitems) ys ∧ zs'.take v'.nitems = ys) bad s.heap) :
    wp (update i m) (fun _ s' => Change T s op s') bad s := by
  simp only [update, wp_bind]
  refine wp_object_or missing ?_
  intro v alive
  obtain ⟨zs, holds⟩ := inv.holds i v alive
  simp only [wp_method]
  refine wp_post (run v zs alive holds) ?_
  rintro v' h' ⟨zs', dead, ys, left, what, shown⟩
  simp only [wp_assign]
  exact .update alive holds what left shown

end Step

/-- The step lemma: an operation that does not fault changes the system as `Change` says. -/
theorem wp_step {s : System α} {bad : Fault → Prop} (op : Op α) (inv : Inv (vectorClass α) s)
    (faults : ∀ e, MayFault T s op e → bad e) :
    wp (step T op) (fun _ s' => Change T s op s') bad s := by
  have missing : ∀ i ∈ op.objects, (∀ v, ¬Alive s i v) → bad .noObject :=
    fun i mem gone => faults .noObject ⟨i, mem, gone⟩
  have fits : ∀ n, op.demand s n → n * T.size ≤ 2 ^ 63 ∨ bad .diverged := by
    intro n asked
    by_cases small : n * T.size ≤ 2 ^ 62
    · exact .inl (small.trans (Nat.pow_le_pow_right (by omega) (by omega)))
    · exact .inr (faults .diverged ⟨n, asked, Nat.lt_of_not_le small⟩)
  cases op with
  | construct =>
    have left : Left s.heap Vec.null s.heap Vec.null [] [] := ⟨.idle, rfl, Nat.le_refl _⟩
    exact .create .construct left rfl
  | sized n =>
    simp only [step, Vec.sized, wp_bind, wp_method]
    refine wp_post (wp_resize (holds_null s.heap) fun _ => fits n rfl) ?_
    rintro v' h' ⟨zs', dead, left, size, shown⟩
    refine .create (.sized n) left ?_
    rw [size, shown]
    simp [Vec.null]
  | ofRange range =>
    simp only [step, wp_bind, wp_method]
    refine wp_post (wp_ofRange (fits _ rfl)) ?_
    rintro v' h' ⟨zs', dead, left, size, shown⟩
    exact .create (.ofRange range) left (by rw [size, shown])
  | copyConstruct j =>
    simp only [step, wp_bind]
    refine wp_object_or (missing j (by simp [Op.objects])) ?_
    intro w alive
    obtain ⟨ws, source⟩ := inv.holds j w alive
    simp only [wp_method, Vec.copyConstruct]
    refine wp_post (wp_copyAssign (holds_null s.heap) source (by simp [Vec.null])
      (fits _ ⟨w, alive, rfl⟩)) ?_
    rintro v' h' ⟨zs', dead, left, size, shown⟩
    exact .create (.copyConstruct j _ ⟨w, ws, alive, source, rfl⟩) left (by rw [size]; exact shown)
  | moveConstruct j =>
    simp only [step, wp_bind]
    refine wp_object_or (missing j (by simp [Op.objects])) ?_
    intro w alive
    exact .steal alive
  | destroy i =>
    simp only [step, wp_bind]
    refine wp_object_or (missing i (by simp [Op.objects])) ?_
    intro v alive
    obtain ⟨zs, holds⟩ := inv.holds i v alive
    simp only [wp_method]
    refine wp_post (wp_destroy holds) ?_
    intro _ h' effect
    exact .drop alive holds effect
  | copyAssign i j =>
    simp only [step, wp_bind]
    refine wp_object_or (missing j (by simp [Op.objects])) ?_
    intro w source
    obtain ⟨ws, holdsw⟩ := inv.holds j w source
    refine wp_update inv (missing i (by simp [Op.objects])) ?_
    intro v zs alive holds
    by_cases same : i = j
    · subst same
      have vw : v = w := by
        unfold Alive at alive source
        simpa only [alive, Option.some.injEq] using source
      subst vw
      refine wp_post (wp_copyAssign_self holds) ?_
      rintro v' h' ⟨left, len⟩
      exact ⟨zs, [], _, left, .copyAssign i i _ _ ⟨v, zs, alive, holds, rfl⟩, by rw [len]; rfl⟩
    · refine wp_post (wp_copyAssign holds holdsw
        (fun a here there => same (inv.apart i j v w a alive source here there))
        (fits _ ⟨w, source, rfl⟩)) ?_
      rintro v' h' ⟨zs', dead, left, size, shown⟩
      exact ⟨zs', dead, _, left, .copyAssign i j _ _ ⟨w, ws, source, holdsw, rfl⟩,
        by rw [size]; exact shown⟩
  | moveAssign i j =>
    simp only [step, wp_bind]
    refine wp_object_or (missing i (by simp [Op.objects])) ?_
    intro v target
    refine wp_object_or (missing j (by simp [Op.objects])) ?_
    intro w source
    exact .hand target source
  | reserve i n =>
    refine wp_update inv (missing i (by simp [Op.objects])) ?_
    intro v zs alive holds
    have size := holds.size_le
    have cap := holds.capacity
    refine wp_post (wp_reserve holds (by omega) (fun _ => fits n rfl)) ?_
    rintro v' h' ⟨zs', dead, effect, kept, same, cap', _, more, _⟩
    refine ⟨zs', dead, _, ⟨effect, cap', by omega⟩, .reserve i n _, ?_⟩
    rw [same, kept.take (by omega)]
  | resize i n =>
    refine wp_update inv (missing i (by simp [Op.objects])) ?_
    intro v zs alive holds
    have used := holds.used_le
    refine wp_post (wp_resize holds fun _ => fits n rfl) ?_
    rintro v' h' ⟨zs', dead, left, len, shown⟩
    refine ⟨zs', dead, _, left, .resize i n _, ?_⟩
    have used : (zs.take v.nitems).length = v.nitems := by simp; omega
    rw [len, shown, used]
  | clear i =>
    refine wp_update inv (missing i (by simp [Op.objects])) ?_
    intro v zs alive holds
    refine wp_post (wp_resize holds fun _ => .inl (by simp)) ?_
    rintro v' h' ⟨zs', dead, left, len, shown⟩
    refine ⟨zs', dead, _, left, .clear i _, ?_⟩
    rw [len, List.take_zero]
  | pushBack i x =>
    refine wp_update inv (missing i (by simp [Op.objects])) ?_
    intro v zs alive holds
    have used := holds.used_le
    refine wp_post (wp_pushBack holds fun _ => fits _ ⟨v, alive, rfl⟩) ?_
    rintro v' h' ⟨zs₁, dead, left, kept, room, len, _⟩
    refine ⟨_, dead, _, left, .pushBack i x _, ?_⟩
    rw [len, pushed_take kept (by omega) room]
  | pushBackMove i x =>
    refine wp_update inv (missing i (by simp [Op.objects])) ?_
    intro v zs alive holds
    have used := holds.used_le
    rw [pushBackMove_temp]
    refine wp_post (wp_pushBack holds fun _ => fits _ ⟨v, alive, rfl⟩) ?_
    rintro v' h' ⟨zs₁, dead, left, kept, room, len, _⟩
    refine ⟨_, dead, _, left, .pushBackMove i x _, ?_⟩
    rw [len, pushed_take kept (by omega) room]
  | popBack i =>
    refine wp_update inv (missing i (by simp [Op.objects])) ?_
    intro v zs alive holds
    have used := holds.used_le
    by_cases items : v.nitems = 0
    · have fault := faults .aborted ⟨v, alive, items⟩
      simpa only [Vec.popBack, items, if_true, wp_throw] using fault
    · refine wp_post (wp_popBack holds items) ?_
      rintro v' h' ⟨left, len⟩
      refine ⟨_, _, _, left, .popBack i _, ?_⟩
      rw [len, popped_take (by omega)]
  | erase i it =>
    refine wp_update inv (missing i (by simp [Op.objects])) ?_
    intro v zs alive holds
    have used := holds.used_le
    by_cases inside : it < v.nitems
    · refine wp_post (wp_erase holds inside) ?_
      rintro v' h' ⟨hole, left, len, _⟩
      refine ⟨_, _, _, left, .erase i it _, ?_⟩
      rw [len, erased_take inside (by omega)]
    · have fault := faults .aborted ⟨v, alive, Nat.le_of_not_lt inside⟩
      simpa only [Vec.erase, inside, if_false, wp_throw] using fault

variable {T} in
theorem change_inv {s s' : System α} {op : Op α} (inv : Inv (vectorClass α) s)
    (change : Change T s op s') : Inv (vectorClass α) s' := by
  cases change with
  | create what left shown => exact inv_create inv left
  | update alive holds what left shown => exact inv_update inv alive holds left
  | steal source => exact inv_steal inv source
  | hand target source => exact inv_hand inv target source
  | drop alive holds effect => exact inv_drop inv alive holds effect

end Nanolibc.VectorSystem
