import Nanolibc.StringMethods

set_option autoImplicit false

namespace Nanolibc.StringModel
open Lib.Program Lib.ArrayHeap Lib.OwnedArray Lib.ObjectPool CString

def addList (ls : ListPool UInt8) (xs : Bytes) : Option (ListPool UInt8) :=
  if xs.length < 2 ^ 62 then some (ls ++ [some xs]) else none

def setList (ls : ListPool UInt8) (i : ℕ) (xs : Bytes) : Option (ListPool UInt8) :=
  if xs.length < 2 ^ 62 then some (ls.set i (some xs)) else none

def listStep : Op → ListPool UInt8 → Option (ListPool UInt8)
  | .filled size value, ls => addList ls (List.replicate size value)
  | .ofData bytes size, ls => if size ≤ bytes.length then addList ls (bytes.take size) else none
  | .ofCString bytes, ls => if 0 ∈ bytes then addList ls (bytes.takeWhile (· ≠ 0)) else none
  | .copyConstruct j, ls => (contents ls j).bind fun ys => addList ls ys
  | .moveConstruct j, ls => (contents ls j).bind fun ys => some (ls.set j (some []) ++ [some ys])
  | .destroy i, ls => (contents ls i).bind fun _ => some (ls.set i none)
  | .copyAssign i j, ls => (contents ls i).bind fun _ => (contents ls j).bind fun ys =>
      if i = j then none else setList ls i ys
  | .moveAssign i j, ls => (contents ls i).bind fun _ => (contents ls j).bind fun ys =>
      if i = j then none else some ((ls.set i (some ys)).set j (some []))
  | .clear i, ls => (contents ls i).bind fun _ => setList ls i []
  | .resize i size c, ls => (contents ls i).bind fun xs =>
      setList ls i (xs.take size ++ List.replicate (size - xs.length) c)
  | .setChar i index c, ls => (contents ls i).bind fun xs =>
      if index < xs.length then setList ls i (xs.set index c) else none
  | .plusAssign i j, ls | .append i j, ls => (contents ls i).bind fun xs =>
      (contents ls j).bind fun ys => if i = j then none else setList ls i (xs ++ ys)
  | .replace i pos len j, ls => (contents ls i).bind fun xs => (contents ls j).bind fun ys =>
      if i = j ∨ pos > xs.length then none
      else setList ls i (xs.take pos ++ ys ++ xs.drop (min (pos + len) xs.length))
  | .substr i pos len, ls => (contents ls i).bind fun xs =>
      if pos > xs.length then none else addList ls ((xs.drop pos).take len)
  | .plus i j, ls => (contents ls i).bind fun xs => (contents ls j).bind fun ys =>
      addList ls (xs ++ ys)

section Rules

variable {junk : ℕ → ℕ → UInt8} {s : System} {ls : ListPool UInt8} {h' : Heap UInt8} {i j : ℕ}
  {xs ys zs : Bytes} {v v' w : Str}

theorem string_at (rel : Rel stringClass s ls) (hx : contents ls i = some xs) :
    ∃ v, Alive s i v ∧ Holds stringClass s.heap v (image xs) ∧ Keeps v xs := by
  obtain ⟨v, zs, alive, holds, shown⟩ := rel.found hx
  obtain ⟨keeps, rfl⟩ := keeps_of_holds holds shown
  exact ⟨v, alive, holds, keeps⟩

theorem rel_becomes (rel : Rel stringClass s ls) (alive : Alive s i v)
    (holds : Holds stringClass s.heap v zs) (becomes : Becomes s.heap v h' v' ys) :
    Rel stringClass ⟨h', s.objs.set i (some v')⟩ (ls.set i (some ys)) := by
  obtain ⟨dead, effect⟩ := becomes.effect
  have left : Left stringClass s.heap v h' v' (image ys) dead := ⟨effect, ys, becomes.keeps, rfl⟩
  refine rel_update rel alive holds left ?_
  change (image ys).take v'.size = ys
  rw [becomes.keeps.size, take_image]

theorem wp_make {m : Method Str} (rel : Rel stringClass s ls) (small : xs.length + 1 < 2 ^ 64)
    (run : wp m (fun v' h' => (v', h') = built s.heap xs) never s.heap) :
    wp (do let v ← method m; create v) (fun _ s' => Rel stringClass s' (ls ++ [some xs])) never
      s := by
  simp only [wp_bind, wp_method]
  refine wp_post run ?_
  intro v' h' made
  have keeps : Keeps (built s.heap xs).1 xs := built_keeps small
  have kept : wp (delete none) (fun _ h' =>
      Effect s.heap none h' (built s.heap xs).1.data (image xs) []) never (built s.heap xs).2 :=
    wp_delete_built rfl
  have effect : Effect s.heap none (built s.heap xs).2 (built s.heap xs).1.data (image xs) [] :=
    kept
  rw [← made] at keeps effect
  have left : Left stringClass s.heap Str.null h' v' (image xs) [] := ⟨effect, xs, keeps, rfl⟩
  have shown : (image xs).take v'.size = xs := by rw [keeps.size, take_image]
  have grown := rel_create rel left shown
  exact grown

theorem wp_change {m : Str → Method Str} (rel : Rel stringClass s ls)
    (hx : contents ls i = some xs)
    (run : ∀ v, Holds stringClass s.heap v (image xs) → Keeps v xs →
      wp (m v) (fun v' h' => Becomes s.heap v h' v' ys) never s.heap) :
    wp (update i m) (fun _ s' => Rel stringClass s' (ls.set i (some ys))) never s := by
  obtain ⟨v, alive, holds, keeps⟩ := string_at rel hx
  simp only [update, wp_bind]
  rw [wp_object alive, wp_method]
  apply wp_post (run v holds keeps)
  intro v' h' becomes
  have changed := rel_becomes rel alive holds becomes
  exact changed

theorem wp_change_clear (rel : Rel stringClass s ls) (hx : contents ls i = some xs) :
    wp (update i Str.clear) (fun _ s' => Rel stringClass s' (ls.set i (some []))) never s :=
  wp_change rel hx (fun _ holds _ => wp_clear holds)

theorem rel_inPlace {a : ℕ} (rel : Rel stringClass s ls) (alive : Alive s i v)
    (holds : Holds stringClass s.heap v (image xs)) (keeps : Keeps v xs) (here : v.data = some a)
    (size : ys.length = xs.length) :
    Rel stringClass ⟨s.heap.put a (ys ++ [0]), s.objs⟩ (ls.set i (some ys)) := by
  have bytes : ys ≠ [] := by
    rintro rfl
    have null := keeps.null_iff.mpr (List.eq_nil_of_length_eq_zero size.symm)
    rw [here] at null
    cases null
  have keeps' : Keeps v ys := by
    refine ⟨by rw [keeps.size, size], ?_, by rw [size]; exact keeps.small⟩
    simp [here, bytes]
  have becomes : Becomes s.heap v (s.heap.put a (ys ++ [0])) v ys := by
    refine ⟨keeps', [], ?_⟩
    rw [here, image_ne_nil bytes]
    exact .inPlace a _
  have rel' := rel_becomes rel alive holds becomes
  rwa [set_alive alive] at rel'

theorem wp_setChar {index : ℕ} {c : UInt8} (rel : Rel stringClass s ls)
    (hx : contents ls i = some xs) (inside : index < xs.length) :
    wp (step junk (.setChar i index c))
      (fun _ s' => Rel stringClass s' (ls.set i (some (xs.set index c)))) never s := by
  obtain ⟨v, alive, holds, keeps⟩ := string_at rel hx
  have bytes : xs ≠ [] := List.ne_nil_of_length_pos (by omega)
  obtain ⟨a, here⟩ := Option.ne_none_iff_exists'.mp (fun null => bytes (keeps.null_iff.mp null))
  have buffer : Buffer s.heap v.data (image xs) := holds.buffer
  rw [here, image_ne_nil bytes] at buffer
  simp only [step, wp_bind]
  rw [wp_object alive, wp_method, here, wp_write buffer.1 (by rw [List.length_append]; omega),
    List.set_append_left _ _ inside]
  exact rel_inPlace rel alive holds keeps here (List.length_set)

theorem wp_copyAssign (rel : Rel stringClass s ls) (hx : contents ls i = some xs)
    (hy : contents ls j = some ys) (apart : i ≠ j) :
    wp (copyAssign junk i j) (fun _ s' => Rel stringClass s' (ls.set i (some ys))) never s := by
  have hi := contents_lt hx
  simp only [copyAssign, wp_bind]
  apply wp_post (wp_change_clear rel hx)
  intro _ s₁ rel₁
  have hx₁ : contents (ls.set i (some [])) i = some [] := by rw [contents_set hi, if_pos rfl]
  have hy₁ : contents (ls.set i (some [])) j = some ys := by
    rw [contents_set hi, if_neg (Ne.symm apart), hy]
  obtain ⟨v, alivev, holdsv, keepsv⟩ := string_at rel₁ hx₁
  obtain ⟨w, alivew, holdsw, keepsw⟩ := string_at rel₁ hy₁
  have empty : v.data = none := keepsv.null_iff.mpr rfl
  have target : ∀ {h' : Heap UInt8} {v' : Str}, Alive ⟨h', s₁.objs.set i (some v')⟩ i v' :=
    (alive_set alivev).mpr (.inl ⟨rfl, rfl⟩)
  have source : ∀ {h' : Heap UInt8} {v' : Str}, Alive ⟨h', s₁.objs.set i (some v')⟩ j w :=
    (alive_set alivev).mpr (.inr ⟨Ne.symm apart, alivew⟩)
  simp only [wp_object alivew, wp_method, keepsw.size]
  by_cases none : ys = []
  · subst none
    simp only [List.length_nil, Str.newData, if_true, wp_pure, wp_assign]
    rw [wp_object target, wp_object source]
    have becomes : Becomes s₁.heap v s₁.heap ⟨0, .none⟩ [] := by
      refine ⟨keeps_null, [], ?_⟩
      rw [empty]
      exact .idle
    have rel₂ := rel_becomes rel₁ alivev holdsv becomes
    rwa [List.set_set] at rel₂
  · rw [wp_newData (by simpa using none) keepsw.small, wp_assign]
    rw [wp_object target, wp_object source, ifNonzero_memcpy]
    refine wp_post (wp_memcpy_draft (reads_front holdsw keepsw (List.prefix_refl ys)) ?_ rfl rfl) ?_
    · rw [blank_length]
    · rintro _ t rfl
      have built : Becomes s₁.heap v (draft s₁.heap ys []) ⟨ys.length, some s₁.heap.next⟩ ys := by
        refine ⟨⟨rfl, by simp [none], keepsw.small⟩, [], ?_⟩
        rw [empty, draft, List.append_nil, image_ne_nil none]
        exact .first _
      have rel₂ := rel_becomes rel₁ alivev holdsv built
      rw [List.set_set] at rel₂
      rwa [List.nil_append, List.drop_eq_nil_of_le (by rw [blank_length])]

theorem wp_moveAssign (rel : Rel stringClass s ls) (hx : contents ls i = some xs)
    (hy : contents ls j = some ys) (apart : i ≠ j) :
    wp (moveAssign i j)
      (fun _ s' => Rel stringClass s' ((ls.set i (some ys)).set j (some []))) never s := by
  have hi := contents_lt hx
  simp only [moveAssign, wp_bind]
  apply wp_post (wp_change_clear rel hx)
  intro _ s₁ rel₁
  have hx₁ : contents (ls.set i (some [])) i = some [] := by rw [contents_set hi, if_pos rfl]
  have hy₁ : contents (ls.set i (some [])) j = some ys := by
    rw [contents_set hi, if_neg (Ne.symm apart), hy]
  obtain ⟨v, alivev, _, _⟩ := string_at rel₁ hx₁
  obtain ⟨w, alivew, _, _⟩ := string_at rel₁ hy₁
  rw [wp_object alivew, wp_assign, wp_assign]
  have rel₂ := rel_hand rel₁ alivev alivew hy₁
  rwa [List.set_set] at rel₂

theorem wp_append_resize {post : Unit → System → Prop} {bad : Fault → Prop}
    (rel : Rel stringClass s ls) (hx : contents ls i = some xs) (hy : contents ls j = some ys)
    (small : (xs ++ ys).length + 1 < 2 ^ 64)
    (copy : ∀ s₁, Rel stringClass s₁ (ls.set i (some (xs ++ List.replicate ys.length 0))) →
      wp (do
        let grown ← object i
        let other ← object j
        method (memcpy (.array grown.data xs.length) (.array other.data 0) other.size))
        post bad s₁) :
    wp (append junk i j) post bad s := by
  rw [List.length_append] at small
  obtain ⟨v, alivev, _, keepsv⟩ := string_at rel hx
  obtain ⟨w, alivew, _, keepsw⟩ := string_at rel hy
  have total : (xs.length + ys.length) % 2 ^ 64 = xs.length + ys.length :=
    Nat.mod_eq_of_lt (by omega)
  have room : xs.take (xs.length + ys.length) ++
      List.replicate (xs.length + ys.length - xs.length) 0 = xs ++ List.replicate ys.length 0 := by
    rw [List.take_of_length_le (by omega), Nat.add_sub_cancel_left]
  rw [append, wp_bind, wp_object alivev, wp_bind, wp_object alivew, keepsv.size, keepsw.size, total,
    wp_bind]
  refine wp_mono (wp_change rel hx (fun _ holds keeps => wp_resize holds keeps small)) ?_
    (fun _ fault => fault.elim)
  intro _ s₁ rel₁
  rw [room] at rel₁
  exact copy s₁ rel₁

theorem wp_append (rel : Rel stringClass s ls) (hx : contents ls i = some xs)
    (hy : contents ls j = some ys) (apart : i ≠ j) (small : (xs ++ ys).length + 1 < 2 ^ 64) :
    wp (append junk i j) (fun _ s' => Rel stringClass s' (ls.set i (some (xs ++ ys)))) never s := by
  have hi := contents_lt hx
  refine wp_append_resize rel hx hy small ?_
  intro s₁ rel₁
  obtain ⟨zs, grown⟩ : ∃ zs, xs ++ List.replicate ys.length 0 = zs := ⟨_, rfl⟩
  rw [grown] at rel₁
  have hx₁ : contents (ls.set i (some zs)) i = some zs := by rw [contents_set hi, if_pos rfl]
  have hy₁ : contents (ls.set i (some zs)) j = some ys := by
    rw [contents_set hi, if_neg (Ne.symm apart), hy]
  obtain ⟨u, aliveu, holdsu, keepsu⟩ := string_at rel₁ hx₁
  obtain ⟨w, alivew, holdsw, keepsw⟩ := string_at rel₁ hy₁
  simp only [wp_bind]
  rw [wp_object aliveu, wp_object alivew, wp_method, keepsw.size]
  by_cases none : ys = []
  · subst none
    rw [List.length_nil, List.replicate_zero] at grown
    rw [grown]
    exact rel₁
  · have bytes : zs ≠ [] := by
      intro empty
      have := congrArg List.length (grown.trans empty)
      have := List.length_pos_of_ne_nil none
      simp only [List.length_append, List.length_replicate, List.length_nil] at *
      omega
    obtain ⟨a, here⟩ := Option.ne_none_iff_exists'.mp (fun null => bytes (keepsu.null_iff.mp null))
    have buffer : Buffer s₁.heap u.data (image zs) := holdsu.buffer
    rw [here, image_ne_nil bytes] at buffer
    have foreign : (Pointer.array w.data 0).base ≠ some a :=
      fun there => apart (rel₁.inv.apart i j u w a aliveu alivew here there)
    have stored : splice (zs ++ [0]) xs.length ys = xs ++ ys ++ [0] := by
      rw [← grown, List.append_assoc, splice_append, List.drop_left' List.length_replicate]
    have size : (xs ++ ys).length = zs.length := by simp [← grown]
    rw [here]
    refine wp_post
      (wp_memcpy buffer.1 ?_ (reads_front holdsw keepsw (List.prefix_refl ys)) foreign) ?_
    · rw [List.length_append, ← size, List.length_append]
      omega
    · rintro _ t rfl
      have rel₂ := rel_inPlace rel₁ aliveu holdsu keepsu here size
      rwa [List.set_set, ← stored] at rel₂

theorem wp_plusAssign (rel : Rel stringClass s ls) (hx : contents ls i = some xs)
    (hy : contents ls j = some ys) (apart : i ≠ j) (small : (xs ++ ys).length + 1 < 2 ^ 64) :
    wp (plusAssign junk i j) (fun _ s' => Rel stringClass s' (ls.set i (some (xs ++ ys)))) never
      s := by
  obtain ⟨w, alivew, _, keepsw⟩ := string_at rel hy
  simp only [plusAssign, wp_bind]
  rw [wp_object alivew, keepsw.size]
  by_cases none : ys = []
  · subst none
    have same : ls.set i (some (xs ++ [])) = ls := by
      obtain ⟨inside, get⟩ := List.getElem?_eq_some_iff.mp (contents_iff.mp hx)
      rw [List.append_nil, ← get, List.set_getElem_self]
    rw [same]
    exact rel
  · rw [if_neg (by simpa using none)]
    exact wp_append rel hx hy apart small

end Rules

section Simulation

variable {junk : ℕ → ℕ → UInt8} {s : System} {ls ls' : ListPool UInt8} {i : ℕ} {xs : Bytes}

theorem addList_eq (h : addList ls xs = some ls') :
    xs.length + 1 < 2 ^ 64 ∧ ls' = ls ++ [some xs] := by
  unfold addList at h
  split_ifs at h with small
  exact ⟨by omega, (Option.some.inj h).symm⟩

theorem setList_eq (h : setList ls i xs = some ls') :
    xs.length + 1 < 2 ^ 64 ∧ ls' = ls.set i (some xs) := by
  unfold setList at h
  split_ifs at h with small
  exact ⟨by omega, (Option.some.inj h).symm⟩

theorem step_simulates (op : Op) (s : System) (ls ls' : ListPool UInt8)
    (rel : Rel stringClass s ls) (h : listStep op ls = some ls') :
    wp (step junk op) (fun _ s' => Rel stringClass s' ls') never s := by
  cases op <;> simp only [listStep, Option.bind_eq_some_iff] at h
  case filled size value =>
    obtain ⟨small, rfl⟩ := addList_eq h
    exact wp_make rel small (wp_filled (by rwa [List.length_replicate] at small))
  case ofData bytes size =>
    split_ifs at h with room
    obtain ⟨small, rfl⟩ := addList_eq h
    have len : (bytes.take size).length = size := List.length_take_of_le room
    have reads : Reads s.heap (.client bytes) (bytes.take size) := List.take_prefix _ _
    have run : wp (Str.ofData junk (.client bytes) (bytes.take size).length) _ never s.heap :=
      wp_ofData reads small
    rw [len] at run
    exact wp_make rel small run
  case ofCString bytes =>
    split_ifs at h with ends
    obtain ⟨small, rfl⟩ := addList_eq h
    exact wp_make rel small (wp_ofCString ends small)
  case copyConstruct j =>
    obtain ⟨ys, hy, made⟩ := h
    obtain ⟨small, rfl⟩ := addList_eq made
    obtain ⟨w, alive, holds, keeps⟩ := string_at rel hy
    simp only [step, wp_bind]
    rw [wp_object alive, ← wp_bind]
    exact wp_make rel small (wp_copyConstruct holds keeps)
  case moveConstruct j =>
    obtain ⟨ys, hy, rest⟩ := h
    cases rest
    obtain ⟨w, alive, _, _⟩ := string_at rel hy
    simp only [step, wp_bind]
    rw [wp_object alive]
    exact rel_steal rel alive hy
  case destroy i =>
    obtain ⟨xs, hx, rest⟩ := h
    cases rest
    obtain ⟨v, alive, holds, _⟩ := string_at rel hx
    simp only [step, wp_bind, Str.destroy, Str.clear]
    rw [wp_object alive, wp_method]
    simp only [wp_bind]
    have deleted : wp (delete v.data) _ never (built s.heap []).2 := wp_delete_built holds.buffer
    refine wp_post deleted ?_
    intro _ h' effect
    have dropped := rel_drop rel alive holds effect
    exact dropped
  case copyAssign i j =>
    obtain ⟨xs, hx, ys, hy, rest⟩ := h
    split_ifs at rest with same
    obtain ⟨_, rfl⟩ := setList_eq rest
    exact wp_copyAssign rel hx hy same
  case moveAssign i j =>
    obtain ⟨xs, hx, ys, hy, rest⟩ := h
    split_ifs at rest with same
    cases rest
    exact wp_moveAssign rel hx hy same
  case clear i =>
    obtain ⟨xs, hx, rest⟩ := h
    obtain ⟨_, rfl⟩ := setList_eq rest
    exact wp_change_clear rel hx
  case resize i size c =>
    obtain ⟨xs, hx, rest⟩ := h
    obtain ⟨small, rfl⟩ := setList_eq rest
    have size_lt : size + 1 < 2 ^ 64 := by
      rw [List.length_append, List.length_take, List.length_replicate] at small
      omega
    exact wp_change rel hx (fun _ holds keeps => wp_resize holds keeps size_lt)
  case setChar i index c =>
    obtain ⟨xs, hx, rest⟩ := h
    split_ifs at rest with inside
    obtain ⟨_, rfl⟩ := setList_eq rest
    exact wp_setChar rel hx inside
  case plusAssign i j =>
    obtain ⟨xs, hx, ys, hy, rest⟩ := h
    split_ifs at rest with same
    obtain ⟨small, rfl⟩ := setList_eq rest
    exact wp_plusAssign rel hx hy same small
  case append i j =>
    obtain ⟨xs, hx, ys, hy, rest⟩ := h
    split_ifs at rest with same
    obtain ⟨small, rfl⟩ := setList_eq rest
    exact wp_append rel hx hy same small
  case replace i pos len j =>
    obtain ⟨xs, hx, ys, hy, rest⟩ := h
    split_ifs at rest with outside
    obtain ⟨small, rfl⟩ := setList_eq rest
    obtain ⟨w, alive, holdsw, keepsw⟩ := string_at rel hy
    simp only [step, wp_bind]
    rw [wp_object alive]
    have inside : pos ≤ xs.length := by
      by_contra far
      exact outside (.inr (by omega))
    exact wp_change rel hx
      (fun _ holds keeps => wp_replace holds keeps holdsw keepsw inside small)
  case substr i pos len =>
    obtain ⟨xs, hx, rest⟩ := h
    split_ifs at rest with outside
    obtain ⟨small, rfl⟩ := addList_eq rest
    obtain ⟨v, alive, holds, keeps⟩ := string_at rel hx
    simp only [step, wp_bind]
    rw [wp_object alive, ← wp_bind]
    exact wp_make rel small (wp_substr holds keeps (by omega))
  case plus i j =>
    obtain ⟨xs, hx, ys, hy, rest⟩ := h
    obtain ⟨small, rfl⟩ := addList_eq rest
    obtain ⟨v, alivev, holdsv, keepsv⟩ := string_at rel hx
    obtain ⟨w, alivew, holdsw, keepsw⟩ := string_at rel hy
    simp only [step, wp_bind]
    rw [wp_object alivev, wp_object alivew, ← wp_bind]
    exact wp_make rel small (wp_plus holdsv keepsv holdsw keepsw small)

theorem run_simulates (junk : ℕ → ℕ → UInt8) (ops : List Op) (ls : ListPool UInt8)
    (h : specAll listStep ops [] = some ls) :
    ∃ s, runAll (step junk) ops System.init = .ok ((), s) ∧ Rel stringClass s ls := by
  have run : wp (runAll (step junk) ops) (fun _ s' => Rel stringClass s' ls) never System.init :=
    wp_simulates step_simulates ops _ _ _ rel_empty h
  obtain ⟨⟨⟩, s, done, rel⟩ := wp_never.mp run
  exact ⟨s, done, rel⟩

end Simulation

/-- Every run of string operations that the lists allow goes through without an access outside
the arrays. At its end each string has the bytes of its list, in an array of its own that ends
with a NUL, and no array when it is empty. -/
theorem strings_are_lists (junk : ℕ → ℕ → UInt8) (ops : List Op) (ls : ListPool UInt8)
    (h : specAll listStep ops [] = some ls) :
    ∃ s, runAll (step junk) ops System.init = .ok ((), s) ∧
      (∀ i, (∃ v, Alive s i v) ↔ ∃ xs, ls[i]? = some (some xs)) ∧
      (∀ i v xs, Alive s i v → ls[i]? = some (some xs) →
        v.size = xs.length ∧ (v.data = none ↔ v.size = 0) ∧
        ∀ a, v.data = some a → s.heap.cells a = some (xs ++ [0])) ∧
      ∀ i j v w a, Alive s i v → Alive s j w → v.data = some a → w.data = some a → i = j := by
  obtain ⟨s, done, rel⟩ := run_simulates junk ops ls h
  refine ⟨s, done, fun i => rel.alive_iff, ?_, rel.inv.apart⟩
  intro i v xs alive hx
  obtain ⟨w, there, holds, keeps⟩ := string_at rel (contents_iff.mpr hx)
  cases alive.unique there
  refine ⟨keeps.size, ?_, ?_⟩
  · rw [keeps.null_iff, keeps.size, List.length_eq_zero_iff]
  · intro a here
    have buffer : Buffer s.heap v.data (image xs) := holds.buffer
    have bytes : xs ≠ [] := by
      intro empty
      rw [keeps.null_iff.mpr empty] at here
      cases here
    rw [here, image_ne_nil bytes] at buffer
    exact buffer.1

theorem strings_are_lists_replace : ∃ s, runAll (step fun _ i => 7 * i.toUInt8)
      [.ofCString [104, 105, 0, 9], .ofData [0, 1, 2] 2, .replace 0 1 (2 ^ 64 - 1) 1,
        .substr 0 1 9, .append 2 0] System.init = .ok ((), s) ∧
      (∀ i, (∃ v, Alive s i v) ↔ ∃ xs,
        ([some [104, 0, 1], some [0, 1], some [0, 1, 104, 0, 1]] : ListPool UInt8)[i]? =
          some (some xs)) ∧
      (∀ i v xs, Alive s i v →
        ([some [104, 0, 1], some [0, 1], some [0, 1, 104, 0, 1]] : ListPool UInt8)[i]? =
          some (some xs) →
        v.size = xs.length ∧ (v.data = none ↔ v.size = 0) ∧
        ∀ a, v.data = some a → s.heap.cells a = some (xs ++ [0])) ∧
      ∀ i j v w a, Alive s i v → Alive s j w → v.data = some a → w.data = some a → i = j :=
  strings_are_lists _ _ _ (by decide)

end Nanolibc.StringModel
