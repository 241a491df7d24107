import Nanolibc.StringRefinement

set_option autoImplicit false

namespace Nanolibc.StringModel
open Lib.Program Lib.ArrayHeap Lib.OwnedArray Lib.ObjectPool CString

def HasBytes (s : System) (i : ℕ) (zs : Bytes) : Prop :=
  ∃ v slots, Alive s i v ∧ Buffer s.heap v.data slots ∧ v.size = zs.length ∧
    slots.take v.size = zs

section Bytes

variable {junk : ℕ → ℕ → UInt8} {s : System} {ls : ListPool UInt8} {h : Heap UInt8} {i j : ℕ}
  {xs ys zs : Bytes}

theorem hasBytes_of_shows (shows : Shows stringClass s i xs) : HasBytes s i xs := by
  obtain ⟨v, zs, alive, holds, shown⟩ := shows
  obtain ⟨keeps, rfl⟩ := keeps_of_holds holds shown
  exact ⟨v, image xs, alive, holds.buffer, keeps.size, shown⟩

theorem hasBytes_of_rel (rel : Rel stringClass s ls) (hx : contents ls i = some xs) :
    HasBytes s i xs :=
  hasBytes_of_shows (rel.shown i xs hx)

theorem wp_loadByte_keeps {p : Pointer} :
    wp (loadByte p i) (fun _ t => t = h) (fun _ => True) h := by
  cases p with
  | client object =>
    rw [loadByte]
    cases charAt object i with
    | error e => trivial
    | ok c => rfl
  | array data offset => exact wp_read_keeps

theorem HasBytes.unique (one : HasBytes s i xs) (two : HasBytes s i ys) : xs = ys := by
  obtain ⟨v, zs, alive, buffer, _, rfl⟩ := one
  obtain ⟨w, ws, alive', buffer', _, rfl⟩ := two
  cases alive.unique alive'
  rw [buffer_unique buffer buffer']

/-- A copy that is longer than the room behind the destination does not end well. -/
theorem memcpy_overruns {a d n : ℕ} {p : Pointer} (cell : h.cells a = some zs)
    (start : d ≤ zs.length) (short : zs.length < d + n) :
    wp (memcpy (.array (some a) d) p n) (fun _ _ => False) (fun _ => True) h := by
  let inv : ℕ → Heap UInt8 → Prop := fun i t =>
    d + i ≤ zs.length ∧ ∃ ws : Bytes, t.cells a = some ws ∧ ws.length = zs.length
  refine wp_post (wp_loop inv n 0 h ⟨start, zs, cell, rfl⟩ ?_) ?_
  · rintro i t _ _ ⟨inside, ws, cell', size⟩
    rw [wp_bind]
    refine wp_post wp_loadByte_keeps ?_
    rintro c u rfl
    by_cases room : d + i < ws.length
    · rw [storeByte, wp_write cell' room]
      refine ⟨by omega, ws.set (d + i) c, Heap.put_self _ _ _, ?_⟩
      rw [List.length_set, size]
    · rw [storeByte, wp_write_outside cell' (by omega)]
      trivial
  · rintro _ t ⟨far, _⟩
    omega

end Bytes

section Copy

variable {junk : ℕ → ℕ → UInt8} {s : System} {i j : ℕ} {xs ys : Bytes}

def Copies (junk : ℕ → ℕ → UInt8) (s : System) (i j : ℕ) (ys : Bytes) : Prop :=
  ∃ s', copyAssign junk i j s = .ok ((), s') ∧ HasBytes s' i ys ∧ HasBytes s' j ys

theorem wp_copyAssign_self (junk : ℕ → ℕ → UInt8) {ls : ListPool UInt8} (rel : Rel stringClass s ls)
    (hx : contents ls i = some xs) :
    wp (copyAssign junk i i) (fun _ s' => Rel stringClass s' (ls.set i (some []))) never s := by
  have hi := contents_lt hx
  simp only [copyAssign, wp_bind]
  apply wp_post (wp_change_clear rel hx)
  intro _ s₁ rel₁
  have hx₁ : contents (ls.set i (some [])) i = some [] := by rw [contents_set hi, if_pos rfl]
  obtain ⟨v, alive, _, keeps⟩ := string_at rel₁ hx₁
  have fields : v = ⟨0, none⟩ := by
    have size := keeps.size
    have data := keeps.null_iff.mpr rfl
    cases v with
    | mk size' data' =>
      cases size
      cases data
      rfl
  subst fields
  have again : Alive ⟨s₁.heap, s₁.objs.set i (some ⟨0, none⟩)⟩ i ⟨0, none⟩ := by
    rw [set_alive alive]
    exact alive
  simp only [wp_object alive, wp_method, Str.newData, if_true, wp_pure, wp_assign,
    wp_object again]
  rw [set_alive alive]
  exact rel₁

theorem copies_self_iff (inv : Inv stringClass s) (shows : Shows stringClass s i xs) :
    Copies junk s i i xs ↔ xs = [] := by
  have hx := shows.listed
  obtain ⟨_, s', run, rel⟩ := wp_never.mp (wp_copyAssign_self junk (rel_lists inv) hx)
  have emptied : HasBytes s' i [] :=
    hasBytes_of_rel rel (by rw [contents_set (contents_lt hx), if_pos rfl])
  constructor
  · rintro ⟨s'', run', copied, _⟩
    rw [run] at run'
    cases run'
    exact copied.unique emptied
  · rintro rfl
    exact ⟨s', run, emptied, emptied⟩

theorem copies_other (inv : Inv stringClass s) (target : Shows stringClass s i xs)
    (source : Shows stringClass s j ys) (apart : i ≠ j) : Copies junk s i j ys := by
  have hx := target.listed
  have hy := source.listed
  have hi := contents_lt hx
  have assigned : wp (copyAssign junk i j) _ never s := wp_copyAssign (rel_lists inv) hx hy apart
  obtain ⟨_, s', run, rel⟩ := wp_never.mp assigned
  refine ⟨s', run, hasBytes_of_rel rel ?_, hasBytes_of_rel rel ?_⟩
  · rw [contents_set hi, if_pos rfl]
  · rw [contents_set hi, if_neg (Ne.symm apart), hy]

end Copy

/-- Copy assignment copies exactly when the source is another string or empty. -/
theorem copyAssign_copies_iff (junk : ℕ → ℕ → UInt8) (s : System) (i j : ℕ) (xs ys : Bytes)
    (inv : Inv stringClass s) (target : Shows stringClass s i xs)
    (source : Shows stringClass s j ys) : Copies junk s i j ys ↔ i ≠ j ∨ ys = [] := by
  by_cases apart : i = j
  · subst apart
    cases target.unique source
    rw [copies_self_iff inv target]
    simp
  · exact ⟨fun _ => .inl apart, fun _ => copies_other inv target source apart⟩

theorem copyAssign_copies_iff_ab : ∃ s, runAll (step fun _ _ => 7)
      [.filled 1 97, .filled 2 98] System.init = .ok ((), s) ∧
    (Copies (fun _ _ => 7) s 0 1 [98, 98] ↔ (0 : ℕ) ≠ 1 ∨ ([98, 98] : Bytes) = []) := by
  obtain ⟨s, run, rel⟩ := run_simulates (fun _ _ => 7)
    [.filled 1 97, .filled 2 98] [some [97], some [98, 98]] (by decide)
  exact ⟨s, run, copyAssign_copies_iff _ s 0 1 [97] [98, 98] rel.inv
    (rel.shown 0 [97] rfl) (rel.shown 1 [98, 98] rfl)⟩

/-- `s = s` on the string `"a"`. -/
theorem copyAssign_self_empties : ∃ s, runAll (step fun _ _ => 7) [.filled 1 97] System.init =
      .ok ((), s) ∧ Inv stringClass s ∧ Shows stringClass s 0 [97] ∧
    ¬Copies (fun _ _ => 7) s 0 0 [97] := by
  obtain ⟨s, run, rel⟩ :=
    run_simulates (fun _ _ => 7) [.filled 1 97] [some [97]] (by decide)
  have shows := rel.shown 0 [97] rfl
  refine ⟨s, run, rel.inv, shows, ?_⟩
  rw [copies_self_iff rel.inv shows]
  simp

section Append

variable {junk : ℕ → ℕ → UInt8} {s : System} {ls : ListPool UInt8} {i j : ℕ} {xs ys zs : Bytes}

/-- The operation runs without an access outside the arrays and leaves string `i` with `zs`. -/
def Leaves (m : Sys Unit) (s : System) (i : ℕ) (zs : Bytes) : Prop :=
  ∃ s', m s = .ok ((), s') ∧ HasBytes s' i zs

theorem leaves_iff {m : Sys Unit} :
    Leaves m s i zs ↔ wp m (fun _ s' => HasBytes s' i zs) never s := by
  rw [wp_never]
  constructor
  · rintro ⟨s', run, bytes⟩
    exact ⟨(), s', run, bytes⟩
  · rintro ⟨_, s', run, bytes⟩
    exact ⟨s', run, bytes⟩

theorem leaves_of_rel {m : Sys Unit} (hi : i < ls.length)
    (run : wp m (fun _ s' => Rel stringClass s' (ls.set i (some zs))) never s) :
    Leaves m s i zs :=
  leaves_iff.mpr (wp_post run fun _ _ rel =>
    hasBytes_of_rel rel (by rw [contents_set hi, if_pos rfl]))

theorem grown_at {s₁ : System} (rel : Rel stringClass s₁ (ls.set i (some zs)))
    (hi : i < ls.length) (bytes : zs ≠ []) :
    ∃ u a, Alive s₁ i u ∧ Keeps u zs ∧ u.data = some a ∧
      s₁.heap.cells a = some (zs ++ [0]) ∧ a < s₁.heap.next := by
  have hx : contents (ls.set i (some zs)) i = some zs := by rw [contents_set hi, if_pos rfl]
  obtain ⟨u, alive, holds, keeps⟩ := string_at rel hx
  obtain ⟨a, here⟩ := Option.ne_none_iff_exists'.mp (fun null => bytes (keeps.null_iff.mp null))
  have buffer : Buffer s₁.heap u.data (image zs) := holds.buffer
  rw [here, image_ne_nil bytes] at buffer
  exact ⟨u, a, alive, keeps, here, buffer.1, buffer.2⟩

/-- From two bytes on, `s.append(s)` runs past the end of the new array. -/
theorem append_self_faults (rel : Rel stringClass s ls) (hx : contents ls i = some xs)
    (long : 2 ≤ xs.length) (small : (xs ++ xs).length + 1 < 2 ^ 64) :
    wp (append junk i i) (fun _ _ => False) (fun _ => True) s := by
  refine wp_append_resize rel hx hx small ?_
  intro s₁ rel₁
  have size : (xs ++ List.replicate xs.length (0 : UInt8)).length = xs.length + xs.length := by simp
  obtain ⟨u, a, alive, keeps, here, cell, _⟩ := grown_at rel₁ (contents_lt hx) (by
    intro empty
    rw [empty, List.length_nil] at size
    omega)
  simp only [wp_bind]
  rw [wp_object alive, wp_object alive, wp_method, keeps.size, here, size]
  refine memcpy_overruns cell ?_ ?_
  · rw [List.length_append, size]
    omega
  · rw [List.length_append, size, List.length_singleton]
    omega

/-- With one byte the copy ends at the end of the array, over the NUL. -/
theorem append_self_short (rel : Rel stringClass s ls) {c : UInt8}
    (hx : contents ls i = some [c]) : Leaves (append junk i i) s i [c, c] := by
  have run : wp (append junk i i) (fun _ s' => HasBytes s' i [c, c]) never s := by
    refine wp_append_resize rel hx hx (by simp) ?_
    intro s₁ rel₁
    obtain ⟨u, a, alive, keeps, here, cell, old⟩ := grown_at rel₁ (contents_lt hx) (by simp)
    simp only [wp_bind]
    rw [wp_object alive, wp_object alive, wp_method, keeps.size, here]
    have first : (s₁.heap.put a [c, c, 0]).cells a = some [c, c, 0] := Heap.put_self _ _ _
    simp only [memcpy, loop, loadByte, storeByte, List.length_append, List.length_singleton,
      List.length_replicate, wp_bind]
    rw [wp_read cell rfl, wp_write cell (by simp)]
    change wp (read (some a) (0 + (0 + 1))) _ never (s₁.heap.put a [c, c, 0])
    rw [wp_read first rfl, wp_write first (by simp), Heap.put_put]
    refine ⟨u, [c, c, c], alive, ?_, keeps.size, ?_⟩
    · rw [here]
      exact ⟨Heap.put_self _ _ _, old⟩
    · rw [keeps.size]
      rfl
  exact leaves_iff.mpr run

theorem append_self_empty (rel : Rel stringClass s ls) (hx : contents ls i = some []) :
    Leaves (append junk i i) s i [] := by
  refine leaves_of_rel (contents_lt hx) ?_
  refine wp_append_resize rel hx hx (by simp) ?_
  intro s₁ rel₁
  have hx₁ : contents (ls.set i (some [])) i = some [] := by
    rw [contents_set (contents_lt hx), if_pos rfl]
  obtain ⟨u, alive, _, keeps⟩ := string_at rel₁ hx₁
  simp only [wp_bind]
  rw [wp_object alive, wp_object alive, wp_method, keeps.size]
  exact rel₁

theorem append_self_iff (rel : Rel stringClass s ls) (hx : contents ls i = some xs)
    (small : (xs ++ xs).length + 1 < 2 ^ 64) :
    Leaves (append junk i i) s i (xs ++ xs) ↔ xs.length ≤ 1 := by
  constructor
  · rintro ⟨s', run, _⟩
    by_contra long
    exact wp_ok (append_self_faults rel hx (by omega) small) run
  · intro short
    match xs with
    | [] => exact append_self_empty rel hx
    | [c] => exact append_self_short rel hx
    | _ :: _ :: _ =>
      simp only [List.length_cons] at short
      omega

theorem plusAssign_self_iff (rel : Rel stringClass s ls) (hx : contents ls i = some xs)
    (small : (xs ++ xs).length + 1 < 2 ^ 64) :
    Leaves (plusAssign junk i i) s i (xs ++ xs) ↔ xs.length ≤ 1 := by
  obtain ⟨v, alive, _, keeps⟩ := string_at rel hx
  have appended : Leaves (append junk i i) s i (xs ++ xs) ↔ xs.length ≤ 1 :=
    append_self_iff rel hx small
  rw [← appended, leaves_iff, leaves_iff]
  simp only [plusAssign, wp_bind]
  rw [wp_object alive, keeps.size]
  by_cases empty : xs = []
  · subst empty
    have unchanged : HasBytes s i [] := hasBytes_of_rel rel hx
    exact ⟨fun _ => leaves_iff.mp (append_self_empty rel hx), fun _ => unchanged⟩
  · rw [if_neg (by simpa using empty)]

theorem replace_leaves {pos len : ℕ} (rel : Rel stringClass s ls) (hx : contents ls i = some xs)
    (hy : contents ls j = some ys) (inside : pos ≤ xs.length)
    (small : (xs ++ ys).length + 1 < 2 ^ 64) :
    Leaves (step junk (.replace i pos len j)) s i
      (xs.take pos ++ ys ++ xs.drop (min (pos + len) xs.length)) := by
  obtain ⟨w, alive, holdsw, keepsw⟩ := string_at rel hy
  have size : (xs.take pos ++ ys ++ xs.drop (min (pos + len) xs.length)).length + 1 < 2 ^ 64 := by
    simp only [List.length_append, List.length_take, List.length_drop] at small ⊢
    omega
  refine leaves_of_rel (contents_lt hx) ?_
  simp only [step, wp_bind]
  rw [wp_object alive]
  exact wp_change rel hx (fun _ holds keeps => wp_replace holds keeps holdsw keepsw inside size)

end Append

/-- The three operations leave the right bytes exactly when the argument is another string or the
string has at most one byte. -/
theorem operations_leave_iff (junk : ℕ → ℕ → UInt8) (s : System) (i j : ℕ) (xs ys : Bytes)
    (inv : Inv stringClass s) (target : Shows stringClass s i xs)
    (argument : Shows stringClass s j ys) (small : (xs ++ ys).length + 1 < 2 ^ 64) :
    (Leaves (step junk (.plusAssign i j)) s i (xs ++ ys) ∧
      Leaves (step junk (.append i j)) s i (xs ++ ys) ∧
      ∀ pos len, pos ≤ xs.length → Leaves (step junk (.replace i pos len j)) s i
        (xs.take pos ++ ys ++ xs.drop (min (pos + len) xs.length))) ↔
      i ≠ j ∨ xs.length ≤ 1 := by
  have rel := rel_lists inv
  have hx := target.listed
  have hy := argument.listed
  have hi := contents_lt hx
  constructor
  · rintro ⟨_, appended, _⟩
    by_cases apart : i = j
    · subst apart
      cases target.unique argument
      exact .inr ((append_self_iff rel hx small).mp appended)
    · exact .inl apart
  · intro condition
    refine ⟨?_, ?_, fun pos len inside => replace_leaves rel hx hy inside small⟩
    · by_cases apart : i = j
      · subst apart
        cases target.unique argument
        exact (plusAssign_self_iff rel hx small).mpr (condition.resolve_left (fun h => h rfl))
      · exact leaves_of_rel hi (wp_plusAssign rel hx hy apart small)
    · by_cases apart : i = j
      · subst apart
        cases target.unique argument
        exact (append_self_iff rel hx small).mpr (condition.resolve_left (fun h => h rfl))
      · exact leaves_of_rel hi (wp_append rel hx hy apart small)

theorem operations_leave_iff_ab : ∃ s, runAll (step fun _ _ => 7)
      [.filled 1 97, .filled 2 98] System.init = .ok ((), s) ∧
    ((Leaves (step (fun _ _ => 7) (.plusAssign 1 1)) s 1 [98, 98, 98, 98] ∧
      Leaves (step (fun _ _ => 7) (.append 1 1)) s 1 [98, 98, 98, 98] ∧
      ∀ pos len, pos ≤ 2 → Leaves (step (fun _ _ => 7) (.replace 1 pos len 1)) s 1
        (List.take pos [98, 98] ++ [98, 98] ++ List.drop (min (pos + len) 2) [98, 98])) ↔
      (1 : ℕ) ≠ 1 ∨ 2 ≤ 1) := by
  obtain ⟨s, run, rel⟩ := run_simulates (fun _ _ => 7)
    [.filled 1 97, .filled 2 98] [some [97], some [98, 98]] (by decide)
  have shows := rel.shown 1 [98, 98] rfl
  exact ⟨s, run, operations_leave_iff _ s 1 1 [98, 98] [98, 98] rel.inv shows shows (by decide)⟩

/-- `s.append(s)` on the string `"aa"`. -/
theorem append_self_overruns : ∃ s, runAll (step fun _ _ => 7) [.filled 2 97] System.init =
      .ok ((), s) ∧ Inv stringClass s ∧ Shows stringClass s 0 [97, 97] ∧
    ¬Leaves (step (fun _ _ => 7) (.append 0 0)) s 0 [97, 97, 97, 97] := by
  obtain ⟨s, run, rel⟩ :=
    run_simulates (fun _ _ => 7) [.filled 2 97] [some [97, 97]] (by decide)
  refine ⟨s, run, rel.inv, rel.shown 0 [97, 97] rfl, ?_⟩
  intro left
  have listed : contents [some [97, 97]] 0 = some [(97 : UInt8), 97] := rfl
  have short := (append_self_iff rel listed (by decide)).mp left
  simp at short

end Nanolibc.StringModel
