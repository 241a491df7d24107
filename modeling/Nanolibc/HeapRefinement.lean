import Nanolibc.HeapModel

set_option autoImplicit false

namespace Nanolibc.HeapModel
open Lib.Program Lib.FlatMemory Lib.SeparateArrays CString MemoryModel MallocModel Strndup
  StringCopies

section Arrays

variable {arrays arrays' : Store UInt8} {s : State} {answer ptr size p a n : ℕ}
  {bytes : Bytes} {m : Memory}

theorem separate_of_inv (inv : Inv ⟨s, arrays.extents⟩) : Separate (2 ^ 64) arrays := by
  refine ⟨?_, ?_, ?_⟩
  · intro e mem
    obtain ⟨b, there, sits⟩ := inv.layout.at (List.mem_map_of_mem mem)
    have inside := sits.inside
    have fits := (inv.fits b there).2
    dsimp only at inside
    omega
  · have apart := inv.layout.disjoint inv.apart
    rw [Store.extents, List.pairwise_map] at apart
    apply apart.imp
    intro e f far
    dsimp only at far
    omega
  · intro e mem
    obtain ⟨b, _, sits⟩ := inv.layout.at (List.mem_map_of_mem mem)
    exact sits.positive

theorem Shows.separate (shows : Shows arrays s) : Separate (2 ^ 64) arrays :=
  separate_of_inv shows.inv

theorem Shows.sits (shows : Shows arrays s) (mem : (ptr, bytes) ∈ arrays) :
    ∃ b ∈ s.blocks, Sits s.memory.bytes (ptr, bytes.length) b ∧ Addressable b := by
  obtain ⟨b, there, sits⟩ := shows.inv.layout.at (List.mem_map_of_mem mem)
  exact ⟨b, there, sits, shows.inv.fits b there⟩

theorem Shows.read (shows : Shows arrays s) (same : m.bytes = s.memory.bytes) :
    Shows arrays { s with memory := m } := by
  refine ⟨inv_memory shows.inv fun _ _ _ _ _ x _ _ => congrFun same x, ?_⟩
  dsimp only
  rw [same]
  exact shows.shown

/-- What is written inside an array touches no header. -/
theorem Shows.replaced (shows : Shows arrays s) (replaced : Replaced arrays a bytes arrays')
    (inside : cells m.bytes a bytes.length = bytes)
    (outside : ∀ x < 2 ^ 64, x < a ∨ a + bytes.length ≤ x → m.bytes x = s.memory.bytes x) :
    Shows arrays' { s with memory := m } := by
  refine ⟨?_, shows.shown.replaced shows.separate replaced inside outside⟩
  rw [replaced.extents shows.separate]
  apply inv_memory shows.inv
  intro l meml b there sits x low high
  obtain ⟨p, front, old, back, mem, rfl, length, _⟩ := replaced
  have below := sits.inside
  have fits := (shows.inv.fits b there).2
  apply outside x (by omega)
  by_contra between
  have extent : (p, (front ++ old ++ back).length) ∈ arrays.extents := List.mem_map_of_mem mem
  have room : x - p < (front ++ old ++ back).length := by
    rw [List.length_append, List.length_append]
    omega
  have other := shows.inv.payload_byte extent room meml low high
  omega

def Obtained (arrays : Store UInt8) (answer size p : ℕ) (t : State) : Prop :=
  ∃ bytes, New arrays (answer = 0 ∨ size = 0) p bytes size ∧ Shows (arrays.add p bytes) t

theorem new_null {fails : Prop} (failed : fails) : New arrays fails 0 bytes size :=
  ⟨iff_of_true rfl failed, fun given => absurd rfl given⟩

theorem New.of_length {fails fails' : Prop} {bytes' : Bytes} (new : New arrays fails p bytes size)
    (same : fails ↔ fails') (length : p ≠ 0 → bytes'.length = size) :
    New arrays fails' p bytes' size :=
  ⟨new.null.trans same, fun given => ⟨length given, (new.room given).2⟩⟩

theorem obtained_null (shows : Shows arrays s) (null : answer = 0 ∨ size = 0) :
    Obtained arrays answer size 0 s :=
  ⟨[], new_null null, shows⟩

theorem obtained_placed (shows : Shows arrays s) (some : size ≠ 0) (given : answer ≠ 0)
    (small : size + 31 < 2 ^ 64) (answers : Answers s answer (request size)) :
    Obtained arrays answer size (place answer) (s.placed answer size) := by
  obtain ⟨room, fresh⟩ := answers.resolve_left given
  have fits := addressable_answer (Nat.pos_of_ne_zero given) small room
  obtain ⟨aligned, header, inside⟩ := place_inside fits.2 (Nat.pos_of_ne_zero some)
  dsimp only at aligned header inside
  have placed := inv_placed shows.inv (Nat.pos_of_ne_zero some) small (Nat.pos_of_ne_zero given)
    room fresh
  have new : place answer ≠ 0 := by omega
  obtain ⟨bytes, holds⟩ :
      ∃ bytes, bytes = cells (s.placed answer size).memory.bytes (place answer) size := ⟨_, rfl⟩
  have length : bytes.length = size := by rw [holds, cells_length]
  have extents : (arrays.add (place answer) bytes).extents =
      (place answer, size) :: arrays.extents := by
    rw [Store.add, if_neg new, Store.extents, List.map_cons, length]
    rfl
  rw [← extents] at placed
  have separate := separate_of_inv placed
  rw [Store.add, if_neg new] at separate
  refine ⟨bytes, ⟨iff_of_false new (not_or.mpr ⟨given, some⟩), fun _ => ⟨length,
    Nat.pos_of_ne_zero some, aligned, ?_⟩⟩, placed, ?_⟩
  · rw [← length]
    exact (List.pairwise_cons.mp separate.pairwise).1
  · rw [Store.add, if_neg new]
    intro e mem
    rcases List.mem_cons.mp mem with rfl | old
    · dsimp only
      rw [length, holds]
    · obtain ⟨b, there, sits, _⟩ := shows.sits old
      have apart := fresh b there
      rw [request_eq, Nat.mod_eq_of_lt small, Apart] at apart
      have above := sits.header
      have below := sits.inside
      dsimp only at *
      rw [cells_congr fun x low high => placed_outside (Nat.pos_of_ne_zero some) fits (by omega)]
      exact shows.shown e old

theorem wp_malloc_shows (shows : Shows arrays s) (small : size + 31 < 2 ^ 64)
    (answers : Answers s answer (request size)) :
    wp (malloc answer size) (Obtained arrays answer size) never s := by
  by_cases zero : size = 0
  · subst zero
    rw [malloc_zero, wp_pure]
    exact obtained_null shows (.inr rfl)
  · by_cases null : answer = 0
    · subst null
      rw [wp_malloc_null zero]
      exact obtained_null ⟨inv_asked shows.inv, shows.shown⟩ (.inl rfl)
    · rw [wp_malloc_some zero null]
      exact obtained_placed shows zero null small answers

theorem wp_free_shows (shows : Shows arrays s) (mem : (ptr, bytes) ∈ arrays) :
    wp (free ptr) (fun _ t => Shows (arrays.remove ptr) t) never s := by
  obtain ⟨b, there, sits, fits⟩ := shows.sits mem
  have extent : (ptr, bytes.length) ∈ arrays.extents := List.mem_map_of_mem mem
  have kept : wp (free ptr) (fun _ t => t.memory.bytes = s.memory.bytes) never s := by
    rw [wp_free_sits sits fits there fun _ _ _ => rfl]
    rfl
  apply wp_post (wp_and (wp_free_live shows.inv extent) kept)
  rintro _ t ⟨inv, same⟩
  refine ⟨?_, ?_⟩
  · rw [extents_remove]
    exact inv
  · rw [same]
    exact shows.shown.remove ptr

theorem Shows.filled {c : UInt8} (shows : Shows arrays s)
    (replaced : Replaced arrays a (.replicate n c) arrays') (filled : Filled s.memory a c n m) :
    Shows arrays' { s with memory := m } := by
  have room := replaced.inside shows.separate
  rw [List.length_replicate] at room
  refine shows.replaced replaced ?_ ?_
  · rw [List.length_replicate, List.eq_replicate_iff]
    refine ⟨cells_length .., ?_⟩
    intro b mem
    obtain ⟨i, index, rfl⟩ := List.mem_map.mp mem
    have less := List.mem_range.mp index
    have here : offset a (a + i) = i := by
      rw [offset_eq (by omega) (by omega), Nat.add_sub_cancel_left]
    rw [filled.bytes, if_pos ⟨by omega, by omega⟩]
  · intro x small out
    rw [List.length_replicate] at out
    have far : ¬(x < 2 ^ 64 ∧ offset a x < n) := by
      unfold offset
      omega
    rw [filled.bytes, if_neg far]

theorem Shows.copied {src dst : ℕ} (shows : Shows arrays s) (part : Part arrays src bytes)
    (replaced : Replaced arrays dst bytes arrays')
    (copied : Copied s.memory dst src 0 bytes.length m) :
    Shows arrays' { s with memory := m } := by
  have same : cells m.bytes dst bytes.length = cells s.memory.bytes src bytes.length := by
    apply List.map_congr_left
    intro i index
    have less := List.mem_range.mp index
    rw [copied, if_pos (by omega), Nat.add_sub_cancel_left]
  refine shows.replaced replaced ?_ ?_
  · rw [same]
    exact shows.shown.part part
  · intro x _ out
    rw [copied, if_neg (by omega)]

end Arrays

section Calls

variable {arrays : Store UInt8} {s : State}

def Follows (arrays : Store UInt8) (op : Op) (r : Answer) (t : State) : Prop :=
  ∃ arrays', Step arrays op r arrays' ∧ Shows arrays' t

def OutOfMemory (op : Op) (e : Halt) : Prop := e = .aborted ∧ ∃ sz, op = .operatorNew sz 0

theorem wp_onHeap {β : Type} {p : Call β} {post : β → State → Prop} {bad : Halt → Prop}
    (run : wp p post never s) : wp (onHeap p) post bad s := by
  rw [onHeap, wp_relabel]
  exact wp_mono run (fun _ _ holds => holds) (fun _ none => none.elim)

theorem wp_callCalloc {num size answer : ℕ} (shows : Shows arrays s)
    (legal : Legal arrays s (.calloc num size answer)) :
    wp (MallocModel.calloc answer num size)
      (fun p => Follows arrays (.calloc num size answer) (.pointer p)) never s := by
  have refused : num * size = 0 ∨ 2 ^ 64 ≤ num * size →
      wp (MallocModel.calloc answer num size)
        (fun p => Follows arrays (.calloc num size answer) (.pointer p)) never s := by
    intro refuses
    rw [calloc_refuses answer refuses, wp_pure]
    exact ⟨_, .calloc (new_null (.inr refuses)), shows⟩
  rcases legal with wraps | ⟨small, answers, given⟩
  · exact refused (.inr wraps)
  · by_cases none : num * size = 0
    · exact refused (.inl none)
    · have some : size ≠ 0 := right_ne_zero_of_mul none
      rw [calloc_accepted answer some (by omega), wp_bind]
      apply wp_post (wp_malloc_shows shows small answers)
      rintro p t ⟨bytes, new, shows'⟩
      have answered : answer ≠ 0 := fun no => none (given no)
      have placed : p ≠ 0 := new.null.not.mpr (not_or.mpr ⟨answered, none⟩)
      obtain ⟨length, _⟩ := new.room placed
      have inside := shows'.separate
      rw [← List.append_nil bytes] at shows' inside
      have same : bytes.length = (List.replicate (num * size) (0 : UInt8)).length := by
        rw [length, List.length_replicate]
      have replaced := replaced_add placed inside same
      have room := replaced.inside inside
      rw [List.length_replicate] at room
      rw [wp_bind, wp_onMemory]
      apply wp_post (wp_memset (by omega) (by omega))
      rintro _ m ⟨_, filled⟩
      rw [wp_pure]
      have fails : answer = 0 ∨ num * size = 0 ↔
          answer = 0 ∨ num * size = 0 ∨ 2 ^ 64 ≤ num * size := by omega
      refine ⟨_, .calloc (new.of_length fails fun _ => List.length_replicate), ?_⟩
      rw [← List.append_nil (List.replicate _ _)]
      exact shows'.filled replaced filled

theorem wp_callRealloc {ptr size answer : ℕ} (shows : Shows arrays s)
    (legal : Legal arrays s (.realloc ptr size answer)) :
    wp (MallocModel.realloc answer ptr size)
      (fun p => Follows arrays (.realloc ptr size answer) (.pointer p)) never s := by
  obtain ⟨small, held, answers⟩ := legal
  by_cases null : ptr = 0
  · subst null
    rw [MallocModel.realloc, if_pos rfl]
    apply wp_post (wp_malloc_shows shows small answers)
    rintro p t ⟨bytes, new, shows'⟩
    exact ⟨_, .reallocNull new, shows'⟩
  · obtain ⟨bytes, mem⟩ := held.resolve_left null
    by_cases zero : size = 0
    · subst zero
      rw [MallocModel.realloc, if_neg null, if_pos rfl, wp_bind]
      apply wp_post (wp_free_shows shows mem)
      intro _ t shows'
      exact ⟨_, .reallocZero null, shows'⟩
    · obtain ⟨b, _, sits, fits⟩ := shows.sits mem
      have positive := Nat.pos_of_ne_zero zero
      rw [wp_realloc_sits sits fits positive]
      have shows₁ : Shows arrays { s with memory := s.memory.readWord (ptr - 8) } :=
        shows.read rfl
      apply wp_ite
      · intro stays
        exact ⟨_, .reallocStays mem positive stays, shows₁⟩
      · intro less
        have grows : bytes.length < size := Nat.not_le.mp less
        rw [wp_bind]
        apply wp_post (wp_malloc_shows shows₁ small answers)
        rintro q t ⟨junk, new, shows₂⟩
        by_cases fails : q = 0
        · have null : answer = 0 := (new.null.mp fails).resolve_right zero
          subst fails
          rw [if_neg (not_not.mpr rfl), wp_bind, wp_pure, wp_bind]
          apply wp_post (wp_free_shows shows₂ mem)
          intro _ u shows₃
          have none : New arrays (answer = 0) 0 (bytes ++ []) size := new_null null
          exact ⟨_, .reallocMoves mem grows none, shows₃⟩
        · obtain ⟨length, _, _, apart⟩ := new.room fails
          have both : junk.take bytes.length ++ junk.drop bytes.length = junk :=
            List.take_append_drop ..
          have separate := shows₂.separate
          have first : (junk.take bytes.length).length = bytes.length := by
            rw [List.length_take]
            omega
          rw [← both] at separate shows₂
          have replaced := replaced_add fails separate first
          have added : (ptr, bytes) ∈ arrays.add q (junk.take bytes.length ++
              junk.drop bytes.length) := by
            rw [Store.add, if_neg fails]
            exact List.mem_cons_of_mem _ mem
          have part := part_whole added
          have far := apart _ mem
          have room := replaced.inside separate
          dsimp only at far
          rw [if_pos fails, wp_bind, wp_onMemory]
          apply wp_post (wp_memcpy room (part.inside separate) (by omega))
          rintro _ m ⟨_, copied⟩
          have shows₃ := shows₂.copied part replaced copied
          have still : (ptr, bytes) ∈ arrays.add q (bytes ++ junk.drop bytes.length) := by
            rw [Store.add, if_neg fails]
            exact List.mem_cons_of_mem _ mem
          have some := shows.separate.nonempty _ mem
          dsimp only at some
          rw [wp_bind]
          apply wp_post (wp_free_shows shows₃ still)
          intro _ u shows₄
          rw [remove_add (by omega)] at shows₄
          have long : (bytes ++ junk.drop bytes.length).length = size := by
            rw [List.length_append, List.length_drop]
            omega
          have moved := new.of_length (or_iff_left zero) fun _ => long
          exact ⟨_, .reallocMoves mem grows moved, shows₄⟩

theorem wp_callFree {ptr : ℕ} (shows : Shows arrays s) (held : Held arrays ptr) :
    wp (MallocModel.free ptr) (fun _ => Shows (arrays.remove ptr)) never s := by
  by_cases null : ptr = 0
  · subst null
    have none : arrays.remove 0 = arrays := by
      apply List.eraseP_of_forall_not
      intro e mem first
      obtain ⟨b, _, sits, fits⟩ := shows.sits mem
      exact (sits.block fits).2.2 (by simpa using first)
    rw [MallocModel.free, if_pos rfl, wp_pure, none]
    exact shows
  · obtain ⟨bytes, mem⟩ := held.resolve_left null
    exact wp_free_shows shows mem

theorem wp_callNew {sz answer : ℕ} (shows : Shows arrays s)
    (legal : Legal arrays s (.operatorNew sz answer)) :
    wp (operatorNew answer sz)
      (fun p => Follows arrays (.operatorNew sz answer) (.pointer p))
      (OutOfMemory (.operatorNew sz answer)) s := by
  obtain ⟨small, answers⟩ := legal
  have size : (if sz = 0 then 1 else sz) = max 1 sz := by
    split_ifs <;> omega
  unfold operatorNew
  dsimp only
  rw [wp_bind, size]
  apply wp_onHeap
  apply wp_post (wp_malloc_shows shows (by omega) answers)
  rintro p t ⟨bytes, new, shows'⟩
  have some : ¬max 1 sz = 0 := by omega
  have null := new.null.trans (or_iff_left some)
  apply wp_ite
  · intro given
    exact ⟨_, .operatorNew (null.not.mp given) ⟨null, new.room⟩, shows'⟩
  · intro fails
    have none : answer = 0 := null.mp (not_not.mp fails)
    subst none
    exact ⟨rfl, sz, rfl⟩

theorem whole_of_part {text : Bytes} {a answer : ℕ} (shows : Shows arrays s)
    (nonzero : ∀ c ∈ text, c ≠ 0) (part : Part arrays a (text ++ [0]))
    (small : text.length + 1 < 2 ^ 63)
    (answers : Answers s answer (request (text.length + 1))) :
    Whole s answer a text.length := by
  have size : (text ++ [(0 : UInt8)]).length = text.length + 1 := List.length_append
  have room := part.inside shows.separate
  have here := shows.shown.part part
  rw [size] at room
  refine ⟨⟨?_, ?_⟩, room, small, ?_⟩
  · rw [Nat.mod_eq_of_lt (by omega), cells_get here (by omega), List.getElem_concat_length rfl]
  · intro j less
    rw [Nat.mod_eq_of_lt (by omega), cells_get here (by omega), List.getElem_append_left less]
    exact nonzero _ (List.getElem_mem less)
  · by_cases null : answer = 0
    · exact .inl null
    · obtain ⟨fits, fresh⟩ := answers.resolve_left null
      obtain ⟨p, front, back, mem, rfl⟩ := part
      obtain ⟨b, there, sits, _⟩ := shows.sits mem
      have apart := fresh b there
      have above := sits.header
      have below := sits.inside
      unfold Apart at apart
      simp only [List.length_append, List.length_singleton] at above below apart
      refine .inr ⟨⟨Nat.pos_of_ne_zero null, fits⟩, ?_⟩
      unfold Apart
      dsimp only
      omega

theorem wp_callStrdup {a answer : ℕ} (shows : Shows arrays s)
    (legal : Legal arrays s (.strdup a answer)) :
    wp (StringCopies.strdup answer a)
      (fun p => Follows arrays (.strdup a answer) (.pointer p)) never s := by
  obtain ⟨text, nonzero, part, small, answers⟩ := legal
  have whole := whole_of_part shows nonzero part small answers
  have covered : text.length + 1 + 31 < 2 ^ 64 := by omega
  have measured : Shows arrays { s with memory := scanned s.memory a 0 text.length } :=
    shows.read rfl
  by_cases null : answer = 0
  · subst null
    apply wp_post (wp_strdup_null whole)
    rintro _ t ⟨rfl, rfl⟩
    exact ⟨_, .strdup nonzero part (new_null rfl), inv_asked measured.inv, measured.shown⟩
  · obtain ⟨junk, new, shows'⟩ :=
      obtained_placed measured (Nat.succ_ne_zero _) null covered answers
    apply wp_post (wp_strdup whole null)
    rintro _ t ⟨rfl, copy⟩
    obtain ⟨header, inside, bound, _⟩ := whole.place null
    have placed : place answer ≠ 0 := by omega
    obtain ⟨length, _⟩ := new.room placed
    have size : (text ++ [(0 : UInt8)]).length = text.length + 1 := List.length_append
    have separate := shows'.separate
    rw [← List.append_nil junk] at shows' separate
    have replaced := replaced_add placed separate (length.trans size.symm)
    have after : t = { allocated s answer a text.length with memory := t.memory } := by
      cases t
      rw [State.mk.injEq]
      exact ⟨rfl, copy.blocks, copy.requests⟩
    rw [List.append_nil (text ++ [0])] at replaced
    have copied := new.of_length (or_iff_left (Nat.succ_ne_zero _)) fun _ => size
    refine ⟨_, .strdup nonzero part copied, ?_⟩
    rw [after]
    refine shows'.replaced replaced ?_ ?_
    · have same : cells t.memory.bytes (place answer) (text ++ [(0 : UInt8)]).length =
          cells s.memory.bytes a (text ++ [(0 : UInt8)]).length := by
        apply List.map_congr_left
        intro i index
        have less := List.mem_range.mp index
        have room := part.inside shows.separate
        rw [size] at less room
        have here : offset (place answer) (place answer + i) = i := by
          rw [offset_eq (by omega) (by omega), Nat.add_sub_cancel_left]
        rw [copy.written _ (by omega), here, if_pos less, charOf, Nat.mod_eq_of_lt (by omega)]
      rw [same]
      exact shows.shown.part part
    · intro x below out
      rw [size] at out
      have far : ¬offset (place answer) x < text.length + 1 := by
        unfold offset
        omega
      rw [copy.written x below, if_neg far]
      rfl

theorem step_follows (op : Op) (shows : Shows arrays s) (legal : Legal arrays s op) :
    wp (call op) (Follows arrays op) (OutOfMemory op) s := by
  cases op with
  | malloc size answer =>
    rw [call, wp_map]
    apply wp_onHeap
    apply wp_post (wp_malloc_shows shows legal.1 legal.2)
    rintro p t ⟨bytes, new, shows'⟩
    exact ⟨_, .malloc new, shows'⟩
  | calloc num size answer =>
    rw [call, wp_map]
    exact wp_onHeap (wp_callCalloc shows legal)
  | realloc ptr size answer =>
    rw [call, wp_map]
    exact wp_onHeap (wp_callRealloc shows legal)
  | free ptr =>
    rw [call, wp_map]
    apply wp_onHeap
    apply wp_post (wp_callFree shows legal)
    intro _ t shows'
    exact ⟨_, .free, shows'⟩
  | operatorNew sz answer =>
    rw [call, wp_map]
    exact wp_callNew shows legal
  | operatorDelete ptr =>
    rw [call, wp_map, operatorDelete]
    apply wp_ite
    · intro _
      apply wp_onHeap
      apply wp_post (wp_callFree shows legal)
      intro _ t shows'
      exact ⟨_, .operatorDelete, shows'⟩
    · intro null
      have same := wp_callFree shows legal
      rw [not_not.mp null] at same ⊢
      rw [MallocModel.free, if_pos rfl, wp_pure] at same
      exact ⟨_, .operatorDelete, same⟩
  | strdup a answer =>
    rw [call, wp_map, wp_relabel]
    exact wp_mono (wp_callStrdup shows legal) (fun _ _ holds => holds) fun _ none => none.elim
  | load a =>
    obtain ⟨bytes, one, part⟩ := legal
    obtain ⟨c, rfl⟩ := List.length_eq_one_iff.mp one
    have room := part.inside shows.separate
    have here := shows.shown.part part
    have read : s.memory.bytes a = c := List.singleton_injective here
    rw [call, wp_map, wp_inMemory, wp_load, Nat.mod_eq_of_lt room, read]
    exact ⟨_, .load part, shows.read rfl⟩
  | store a c =>
    obtain ⟨bytes, one, part⟩ := legal
    have length : bytes.length = [c].length := one
    obtain ⟨arrays', replaced⟩ := part.replaced length
    have room := replaced.inside shows.separate
    rw [call, wp_map, wp_inMemory, wp_store]
    have written : (s.memory.write a c).bytes = Function.update s.memory.bytes a c := by
      rw [Memory.write, Nat.mod_eq_of_lt room]
    refine ⟨arrays', .store replaced, shows.replaced replaced ?_ ?_⟩
    · rw [written]
      exact congrArg (· :: []) (Function.update_self ..)
    · intro x _ out
      have other : x ≠ a := by
        rintro rfl
        exact out.elim (Nat.lt_irrefl x) (Nat.not_succ_le_self x)
      rw [written, Function.update_of_ne other]
  | memcpy dst src n =>
    obtain ⟨⟨old, length, into⟩, ⟨bytes, rfl, part⟩, apart⟩ := legal
    obtain ⟨arrays', replaced⟩ := into.replaced length
    rw [call, wp_map, wp_inMemory]
    apply wp_post (wp_memcpy (replaced.inside shows.separate) (part.inside shows.separate)
      (by omega))
    rintro _ m ⟨rfl, copied⟩
    exact ⟨arrays', .memcpy rfl part replaced, shows.copied part replaced copied⟩
  | memmove dst src n =>
    obtain ⟨⟨old, length, into⟩, bytes, rfl, part⟩ := legal
    obtain ⟨arrays', replaced⟩ := into.replaced length
    rw [call, wp_map, wp_inMemory]
    apply wp_post (wp_memmove (replaced.inside shows.separate) (part.inside shows.separate))
    rintro _ m ⟨rfl, copied⟩
    exact ⟨arrays', .memmove rfl part replaced, shows.copied part replaced copied⟩
  | memset dst c n =>
    obtain ⟨old, length, into⟩ := legal
    have same : old.length = (List.replicate n c).length := by rw [length, List.length_replicate]
    obtain ⟨arrays', replaced⟩ := into.replaced same
    have room := replaced.inside shows.separate
    rw [List.length_replicate] at room
    have filling : wp (MemoryModel.memset dst c n)
        (fun r m => r = dst ∧ Filled s.memory dst c n m) (OutOfMemory (.memset dst c n))
        s.memory := by
      by_cases none : n = 0
      · subst none
        exact ⟨rfl, fun x => (if_neg fun less => Nat.not_lt_zero _ less.2).symm, rfl⟩
      · exact wp_memset (by omega) (by omega)
    rw [call, wp_map, wp_inMemory]
    apply wp_post filling
    rintro _ m ⟨rfl, filled⟩
    exact ⟨arrays', .memset replaced, shows.filled replaced filled⟩

theorem wp_callAll : ∀ (ops : List Op) (arrays : Store UInt8) (s : State), Shows arrays s →
    LegalAll ops arrays s →
    wp (callAll ops) (fun rs t => ∃ arrays', Steps arrays ops rs arrays' ∧ Shows arrays' t)
      (fun e => e = .aborted ∧ ∃ sz, .operatorNew sz 0 ∈ ops) s := by
  intro ops
  induction ops with
  | nil =>
    intro arrays s shows _
    exact ⟨arrays, .nil, shows⟩
  | cons op ops ih =>
    intro arrays s shows legal
    have taken : wp (call op) (fun r t => call op s = .ok (r, t)) (fun _ => True) s :=
      wp_iff.mpr ⟨fun _ _ run => run, fun _ _ => trivial⟩
    rw [callAll, wp_bind]
    apply wp_mono (wp_and (step_follows op shows legal.1) taken)
    · rintro r t ⟨⟨arrays', step, shows'⟩, run⟩
      rw [wp_bind]
      apply wp_mono (ih arrays' t shows' (legal.2 r t arrays' run step shows'))
      · rintro rs u ⟨arrays'', steps, shows''⟩
        exact ⟨arrays'', .cons step steps, shows''⟩
      · rintro e ⟨rfl, sz, mem⟩
        exact ⟨rfl, sz, List.mem_cons_of_mem op mem⟩
    · rintro e ⟨rfl, sz, rfl⟩
      exact ⟨rfl, sz, List.mem_cons_self⟩

end Calls

/-- To a program that keeps to its own arrays the heap is a store of separate arrays: every run of
calls returns what the store gives, and the memory shows the store at the end, with one block of
the runtime for each array that is left. Only `operator new` without memory ends a run early. -/
theorem heap_is_separate_arrays (ops : List Op) (arrays : Store UInt8) (s : State)
    (shows : Shows arrays s) (legal : LegalAll ops arrays s) :
    (callAll ops s = .error .aborted ∧ ∃ sz, .operatorNew sz 0 ∈ ops) ∨
      ∃ rs t arrays', callAll ops s = .ok (rs, t) ∧ Steps arrays ops rs arrays' ∧
        Shown t.memory.bytes arrays' ∧ t.blocks.length = arrays'.length := by
  have run := wp_callAll ops arrays s shows legal
  cases ran : callAll ops s with
  | error e =>
    obtain ⟨rfl, new⟩ := wp_error run ran
    exact .inl ⟨rfl, new⟩
  | ok result =>
    obtain ⟨rs, t⟩ := result
    obtain ⟨arrays', steps, shows'⟩ := wp_ok run ran
    have count := shows'.inv.layout.length_eq
    rw [Store.extents, List.length_map] at count
    exact .inr ⟨rs, t, arrays', rfl, steps, shows'.shown, count.symm⟩

def empty : State := ⟨⟨fun _ => 0, [], []⟩, [], []⟩

theorem heap_is_separate_arrays_store :
    (callAll [.malloc 5 4100, .store 4130 7] empty = .error .aborted ∧
        ∃ sz, .operatorNew sz 0 ∈ [Op.malloc 5 4100, .store 4130 7]) ∨
      ∃ rs t arrays', callAll [.malloc 5 4100, .store 4130 7] empty = .ok (rs, t) ∧
        Steps [] [.malloc 5 4100, .store 4130 7] rs arrays' ∧
        Shown t.memory.bytes arrays' ∧ t.blocks.length = arrays'.length := by
  refine heap_is_separate_arrays [.malloc 5 4100, .store 4130 7] [] empty
    ⟨inv_init _, fun e mem => nomatch mem⟩
    ⟨⟨by decide, .inr ⟨by decide, fun b mem => nomatch mem⟩⟩, ?_⟩
  intro r s' arrays' run step shows
  refine ⟨?_, fun _ _ _ _ _ _ => trivial⟩
  cases step with
  | @malloc _ _ p bytes new =>
    have first : call (.malloc 5 4100) empty = .ok (.pointer 4128, empty.placed 4100 5) := rfl
    rw [first] at run
    cases run
    obtain ⟨length, _⟩ := new.room (by decide)
    refine ⟨[bytes[2]], rfl, 4128, bytes.take 2, bytes.drop 3, ?_, ?_⟩
    · have whole : bytes.take 2 ++ [bytes[2]] ++ bytes.drop 3 = bytes := by
        rw [List.take_append_getElem, List.take_append_drop]
      rw [whole]
      exact List.mem_cons_self
    · rw [List.length_take, length]
      rfl

end Nanolibc.HeapModel
