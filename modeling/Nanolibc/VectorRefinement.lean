import Nanolibc.VectorSystem

set_option autoImplicit false

namespace Nanolibc.VectorSystem
open Lib.Program Lib.ArrayHeap Lib.OwnedArray VectorModel
open Lib.ObjectPool hiding Holds Left

variable {α : Type} (T : Element α)

def Fits (n : ℕ) : Prop := n * T.size ≤ 2 ^ 62

instance (n : ℕ) : Decidable (Fits T n) := inferInstanceAs (Decidable (_ ≤ _))

def listStep : Op α → ListPool α → Option (ListPool α)
  | .construct, ls => some (ls ++ [some []])
  | .sized n, ls => if Fits T n then some (ls ++ [some (List.replicate n T.dflt)]) else none
  | .ofRange range, ls => if Fits T range.length then some (ls ++ [some range]) else none
  | .copyConstruct j, ls => (contents ls j).bind fun ys =>
      if Fits T ys.length then some (ls ++ [some ys]) else none
  | .moveConstruct j, ls => (contents ls j).bind fun ys =>
      some (ls.set j (some []) ++ [some ys])
  | .destroy i, ls => (contents ls i).bind fun _ => some (ls.set i none)
  | .copyAssign i j, ls => (contents ls i).bind fun _ => (contents ls j).bind fun ys =>
      if Fits T ys.length then some (ls.set i (some ys)) else none
  | .moveAssign i j, ls => (contents ls i).bind fun _ => (contents ls j).bind fun ys =>
      if i = j then none else some ((ls.set i (some ys)).set j (some []))
  | .reserve i n, ls => (contents ls i).bind fun xs =>
      if Fits T n then some (ls.set i (some xs)) else none
  | .resize i n, ls => (contents ls i).bind fun xs =>
      if Fits T n then
        some (ls.set i (some (xs.take n ++ List.replicate (n - xs.length) T.dflt)))
      else none
  | .clear i, ls => (contents ls i).bind fun _ => some (ls.set i (some []))
  | .pushBack i x, ls | .pushBackMove i x, ls => (contents ls i).bind fun xs =>
      if Fits T (xs.length + 1) then some (ls.set i (some (xs ++ [x]))) else none
  | .popBack i, ls => (contents ls i).bind fun xs =>
      if xs = [] then none else some (ls.set i (some xs.dropLast))
  | .erase i it, ls => (contents ls i).bind fun xs =>
      if it < xs.length then some (ls.set i (some (xs.eraseIdx it))) else none

section Views

variable {T} {s s' : System α} {ls ls' : ListPool α} {op : Op α} {i j : ℕ} {xs ys : List α}

theorem size_shown {v : Vec} (shows : Shows (vectorClass α) s i xs) (alive : Alive s i v) :
    v.nitems = xs.length := by
  obtain ⟨w, zs, alive', holds, rfl⟩ := shows
  cases alive.unique alive'
  have size := holds.fits.size_le
  have cap := holds.fits.capacity
  change v.nitems = (zs.take v.nitems).length
  rw [List.length_take]
  omega

theorem allowed (rel : Rel (vectorClass α) s ls) (h : listStep T op ls = some ls') (e : Fault) :
    ¬MayFault T s op e := by
  have named : ∀ k ∈ op.objects, ∃ xs, contents ls k = some xs := by
    intro k mem
    cases op <;> simp only [Op.objects, List.mem_cons, List.not_mem_nil, or_false] at mem
    case copyAssign i j =>
      simp only [listStep, Option.bind_eq_some_iff] at h
      obtain ⟨xs, hx, ys, hy, _⟩ := h
      rcases mem with rfl | rfl
      · exact ⟨xs, hx⟩
      · exact ⟨ys, hy⟩
    case moveAssign i j =>
      simp only [listStep, Option.bind_eq_some_iff] at h
      obtain ⟨xs, hx, ys, hy, _⟩ := h
      rcases mem with rfl | rfl
      · exact ⟨xs, hx⟩
      · exact ⟨ys, hy⟩
    all_goals
      subst mem
      simp only [listStep, Option.bind_eq_some_iff] at h
      obtain ⟨xs, hx, _⟩ := h
      exact ⟨xs, hx⟩
  cases e with
  | null => exact id
  | dead => exact id
  | bounds => exact id
  | noObject =>
    rintro ⟨k, mem, gone⟩
    obtain ⟨xs, hx⟩ := named k mem
    obtain ⟨v, _, alive, _⟩ := rel.found hx
    exact gone v alive
  | aborted =>
    intro fault
    cases op <;> simp only [MayFault] at fault
    case popBack i =>
      obtain ⟨v, alive, zero⟩ := fault
      simp only [listStep, Option.bind_eq_some_iff] at h
      obtain ⟨xs, hx, rest⟩ := h
      have size := size_shown (rel.shown i xs hx) alive
      have empty : xs = [] := List.eq_nil_of_length_eq_zero (by omega)
      simp [empty] at rest
    case erase i it =>
      obtain ⟨v, alive, far⟩ := fault
      simp only [listStep, Option.bind_eq_some_iff] at h
      obtain ⟨xs, hx, rest⟩ := h
      have size := size_shown (rel.shown i xs hx) alive
      rw [if_neg (by omega)] at rest
      cases rest
  | diverged =>
    rintro ⟨n, asked, big⟩
    have tooBig : ¬Fits T n := Nat.not_le_of_lt big
    cases op <;> simp only [Op.demand] at asked
    case sized m => simp [listStep, ← asked, tooBig] at h
    case ofRange range => simp [listStep, ← asked, tooBig] at h
    case reserve i m =>
      subst asked
      simp only [listStep, Option.bind_eq_some_iff] at h
      obtain ⟨xs, _, rest⟩ := h
      simp [tooBig] at rest
    case resize i m =>
      subst asked
      simp only [listStep, Option.bind_eq_some_iff] at h
      obtain ⟨xs, _, rest⟩ := h
      simp [tooBig] at rest
    case copyConstruct j =>
      obtain ⟨w, alive, rfl⟩ := asked
      simp only [listStep, Option.bind_eq_some_iff] at h
      obtain ⟨ys, hy, rest⟩ := h
      rw [size_shown (rel.shown j ys hy) alive] at tooBig
      simp [tooBig] at rest
    case copyAssign i j =>
      obtain ⟨w, alive, rfl⟩ := asked
      simp only [listStep, Option.bind_eq_some_iff] at h
      obtain ⟨_, _, ys, hy, rest⟩ := h
      rw [size_shown (rel.shown j ys hy) alive] at tooBig
      simp [tooBig] at rest
    case pushBack i x =>
      obtain ⟨v, alive, rfl⟩ := asked
      simp only [listStep, Option.bind_eq_some_iff] at h
      obtain ⟨xs, hx, rest⟩ := h
      rw [size_shown (rel.shown i xs hx) alive] at tooBig
      simp [tooBig] at rest
    case pushBackMove i x =>
      obtain ⟨v, alive, rfl⟩ := asked
      simp only [listStep, Option.bind_eq_some_iff] at h
      obtain ⟨xs, hx, rest⟩ := h
      rw [size_shown (rel.shown i xs hx) alive] at tooBig
      simp [tooBig] at rest

theorem creates_list (rel : Rel (vectorClass α) s ls) (what : Creates T s op ys)
    (h : listStep T op ls = some ls') : ls' = ls ++ [some ys] := by
  cases what with
  | construct => exact (Option.some.inj h).symm
  | sized n =>
    simp only [listStep] at h
    split_ifs at h
    exact (Option.some.inj h).symm
  | ofRange range =>
    simp only [listStep] at h
    split_ifs at h
    exact (Option.some.inj h).symm
  | copyConstruct j ys shows =>
    simp only [listStep, Option.bind_eq_some_iff] at h
    obtain ⟨xs, hx, rest⟩ := h
    cases (rel.shown j xs hx).unique shows
    split_ifs at rest
    exact (Option.some.inj rest).symm

theorem updates_list (rel : Rel (vectorClass α) s ls) (what : Updates T s op i xs ys)
    (now : Shows (vectorClass α) s i xs) (h : listStep T op ls = some ls') :
    ls' = ls.set i (some ys) := by
  cases what <;> simp only [listStep, Option.bind_eq_some_iff] at h <;>
    obtain ⟨zs, hz, rest⟩ := h <;> cases (rel.shown i zs hz).unique now
  case copyAssign j shows =>
    obtain ⟨ws, hw, rest⟩ := rest
    cases (rel.shown j ws hw).unique shows
    split_ifs at rest
    exact (Option.some.inj rest).symm
  case clear => exact (Option.some.inj rest).symm
  all_goals
    split_ifs at rest
    exact (Option.some.inj rest).symm

end Views

section Simulation

variable {T} {s s' : System α} {ls ls' : ListPool α} {op : Op α} {i k : ℕ} {v v' : Vec}
  {h' : Heap α} {xs ys zs zs' dead : List α}

theorem step_simulates (op : Op α) (s : System α) (ls ls' : ListPool α)
    (rel : Rel (vectorClass α) s ls) (h : listStep T op ls = some ls') :
    wp (step T op) (fun _ s' => Rel (vectorClass α) s' ls') never s := by
  apply wp_post (wp_step T op rel.inv (fun e fault => (allowed rel h e fault).elim))
  intro _ s' change
  cases change with
  | create what left shown =>
    rw [creates_list rel what h]
    exact rel_create rel left shown
  | update alive holds what left shown =>
    rw [updates_list rel what ⟨_, _, alive, holds, rfl⟩ h]
    exact rel_update rel alive holds left shown
  | steal source =>
    simp only [listStep, Option.bind_eq_some_iff] at h
    obtain ⟨ys, hy, rest⟩ := h
    cases rest
    exact rel_steal rel source hy
  | hand target source =>
    simp only [listStep, Option.bind_eq_some_iff] at h
    obtain ⟨_, _, ys, hy, rest⟩ := h
    split_ifs at rest
    cases rest
    exact rel_hand rel target source hy
  | drop alive holds effect =>
    simp only [listStep, Option.bind_eq_some_iff] at h
    obtain ⟨_, _, rest⟩ := h
    cases rest
    exact rel_drop rel alive holds effect

end Simulation

/-- Every run of vector operations that the lists allow goes through without a fault, and then
each vector holds its list in a buffer of exactly `capacity()` slots. -/
theorem vectors_are_lists (ops : List (Op α)) (ls : ListPool α)
    (h : specAll (listStep T) ops [] = some ls) :
    ∃ s, runAll (step T) ops System.init = .ok ((), s) ∧
      (∀ i, (∃ v, Alive s i v) ↔ ∃ xs, ls[i]? = some (some xs)) ∧
      ∀ i v xs, Alive s i v → ls[i]? = some (some xs) → ∃ slots,
        Buffer s.heap v.data slots ∧ slots.length = v.maxNitems ∧ v.nitems ≤ v.maxNitems ∧
        v.nitems = xs.length ∧ slots.take v.nitems = xs := by
  have run := wp_simulates (step_simulates (T := T)) ops _ _ _ rel_empty h
  obtain ⟨⟨⟩, s, done, rel⟩ := wp_never.mp run
  refine ⟨s, done, fun i => rel.alive_iff, ?_⟩
  intro i v xs alive hx
  have shows := rel.shown i xs (contents_iff.mpr hx)
  obtain ⟨u, zs, there, holds, taken⟩ := id shows
  cases alive.unique there
  exact ⟨zs, holds.buffer, holds.fits.capacity, holds.fits.size_le, size_shown shows alive, taken⟩

theorem vectors_are_lists_int : ∃ s, runAll (step intElement)
      [.construct, .pushBack 0 5, .pushBack 0 6, .resize 0 1, .resize 0 3, .erase 0 0,
        .copyConstruct 0, .moveConstruct 1, .ofRange [9], .moveAssign 0 3] System.init =
        .ok ((), s) ∧
      (∀ i, (∃ v, Alive s i v) ↔
        ∃ xs, ([some [9], some [], some [0, 0], some []] : ListPool ℕ)[i]? = some (some xs)) ∧
      ∀ i v xs, Alive s i v →
        ([some [9], some [], some [0, 0], some []] : ListPool ℕ)[i]? = some (some xs) → ∃ slots,
        Buffer s.heap v.data slots ∧ slots.length = v.maxNitems ∧ v.nitems ≤ v.maxNitems ∧
        v.nitems = xs.length ∧ slots.take v.nitems = xs :=
  vectors_are_lists intElement _ _ (by decide)

end Nanolibc.VectorSystem
