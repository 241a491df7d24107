import Mathlib.Data.List.TakeWhile
import Mathlib.Tactic.SplitIfs
import Nanolibc.StrtokModel

set_option autoImplicit false

namespace Nanolibc.StrtokModel
open Lib.Program Lib.ArrayHeap CString

/-- One call: the token with its position, and the position of the remaining text. -/
structure Call where
  token : Option (ℕ × Bytes)
  next : ℕ

def nextCall (text : Bytes) (d : Text) (p : ℕ) : Call :=
  let skipped := (text.drop p).takeWhile d.has
  let rest := (text.drop p).dropWhile d.has
  let word := rest.takeWhile (!d.has ·)
  if rest = [] then ⟨none, text.length⟩
  else ⟨some (p + skipped.length, word), min (p + skipped.length + word.length + 1) text.length⟩

def calls (text : Bytes) : List Text → ℕ → List Call
  | [], _ => []
  | d :: ds, p => nextCall text d p :: calls text ds (nextCall text d p).next

def Call.ending (text : Bytes) (c : Call) : Option ℕ :=
  c.token.bind fun (p, word) =>
    if p + word.length < text.length then some (p + word.length) else none

def cut (text : Bytes) (buffer : Bytes) (c : Call) : Bytes :=
  match c.ending text with
  | none => buffer
  | some i => buffer.set i 0

def segments (text : Bytes) (d : Text) : List Bytes := (text.splitOnP d.has).filter (· ≠ [])

structure Tokenized (t : Text) (junk : Bytes) (ds : List Text) (saveptr : Option ℕ)
    (tokens : List (Option ℕ)) (st : Tok) : Prop where
  pointers : tokens = (calls t.bytes ds 0).map fun c => c.token.map Prod.fst
  strings : ∀ c ∈ calls t.bytes ds 0, ∀ p word, c.token = some (p, word) →
    word ≠ [] ∧ (word ++ [0]) <+: st.buffer.drop p
  changed : st.buffer = (calls t.bytes ds 0).foldl (cut t.bytes) (t.bytes ++ 0 :: junk)
  saved : st.saveptr = ((calls t.bytes ds 0).getLast?.map Call.next).or saveptr
  inside : ∀ c ∈ calls t.bytes ds 0, c.next ≤ t.bytes.length
  ended : (calls t.bytes ds 0).Pairwise fun c c' => c.token = none → c'.token = none
  constant : ∀ n d, ds = List.replicate n d →
    (calls t.bytes ds 0).map (fun c => c.token.map Prod.snd) =
      (List.range n).map fun k => (segments t.bytes d)[k]?

section Calls

variable {text : Bytes} {d : Text} {p : ℕ}

structure Found (text : Bytes) (d : Text) (p start : ℕ) (word : Bytes) : Prop where
  skips : p ≤ start
  nonempty : word ≠ []
  fits : start + word.length ≤ text.length
  reads : text.drop start = word ++ text.drop (start + word.length)
  clean : ∀ c ∈ word, d.has c = false
  stops : ∀ c, text[start + word.length]? = some c → d.has c = true
  next : (nextCall text d p).next = min (start + word.length + 1) text.length

theorem takeWhile_drop {α : Type} {q : α → Bool} (l : List α) :
    l.drop (l.takeWhile q).length = l.dropWhile q := by
  calc
    l.drop (l.takeWhile q).length =
        (l.takeWhile q ++ l.dropWhile q).drop (l.takeWhile q).length := by
      rw [List.takeWhile_append_dropWhile]
    _ = l.dropWhile q := List.drop_left

theorem nextCall_cases (text : Bytes) (d : Text) (p : ℕ) :
    ((text.drop p).dropWhile d.has = [] ∧ nextCall text d p = ⟨none, text.length⟩) ∨
      ∃ start word, (nextCall text d p).token = some (start, word) ∧
        (text.drop p).dropWhile d.has = text.drop start ∧
        start = p + ((text.drop p).takeWhile d.has).length ∧
        word = (text.drop start).takeWhile (!d.has ·) ∧
        text.drop (start + word.length) = (text.drop start).dropWhile (!d.has ·) ∧
        Found text d p start word := by
  by_cases none : (text.drop p).dropWhile d.has = []
  · exact .inl ⟨none, by simp only [nextCall, none, if_true]⟩
  · right
    let start := p + ((text.drop p).takeWhile d.has).length
    have rest : (text.drop p).dropWhile d.has = text.drop start := by
      rw [← takeWhile_drop, List.drop_drop]
    let word := (text.drop start).takeWhile (!d.has ·)
    have after : text.drop (start + word.length) = (text.drop start).dropWhile (!d.has ·) := by
      rw [← takeWhile_drop, List.drop_drop]
    have whole : text.drop start = word ++ text.drop (start + word.length) := by
      rw [after, List.takeWhile_append_dropWhile]
    have call : nextCall text d p =
        ⟨some (start, word), min (start + word.length + 1) text.length⟩ := by
      simp only [nextCall, none, if_false]
      rw [rest]
    refine ⟨start, word, by rw [call], rest, rfl, rfl, after, ?_⟩
    have inText : start < text.length := by
      by_contra far
      rw [rest, List.drop_eq_nil_of_le (by omega)] at none
      exact none rfl
    refine ⟨by omega, ?_, ?_, whole, ?_, ?_, by rw [call]⟩
    · intro empty
      rw [rest] at none
      have first : d.has text[start] = false := by
        have head := List.head?_dropWhile_not d.has (text.drop p)
        rw [rest, List.head?_drop, List.getElem?_eq_getElem inText] at head
        simpa using head
      have goes : (text.drop start).takeWhile (!d.has ·) ≠ [] := by
        rw [List.drop_eq_getElem_cons inText, List.takeWhile_cons, first]
        simp
      exact goes empty
    · have size := congrArg List.length whole
      simp only [List.length_drop, List.length_append] at size
      omega
    · intro c mem
      have := List.mem_takeWhile_imp mem
      simpa using this
    · intro c here
      have head := List.head?_dropWhile_not (!d.has ·) (text.drop start)
      rw [← after, List.head?_drop, here] at head
      simpa using head

theorem next_le : (nextCall text d p).next ≤ text.length := by
  rcases nextCall_cases text d p with ⟨_, call⟩ | ⟨start, word, _, _, _, _, _, found⟩
  · rw [call]
  · rw [found.next]
    exact Nat.min_le_right _ _

theorem le_next (le : p ≤ text.length) : p ≤ (nextCall text d p).next := by
  rcases nextCall_cases text d p with ⟨_, call⟩ | ⟨start, word, _, _, _, _, _, found⟩
  · rw [call]
    exact le
  · have := found.skips
    rw [found.next]
    omega

theorem ending_bounds {i : ℕ}
    (here : (nextCall text d p).ending text = some i) :
    p ≤ i ∧ i < (nextCall text d p).next ∧ i < text.length := by
  rcases nextCall_cases text d p with ⟨_, call⟩ | ⟨start, word, token, _, _, _, _, found⟩
  · rw [call] at here
    cases here
  · simp only [Call.ending, token, Option.bind_some, Option.ite_none_right_eq_some] at here
    obtain ⟨inside, here⟩ := here
    cases here
    have := found.skips
    rw [found.next]
    omega

theorem cut_get {buffer : Bytes} {c : Call} {j : ℕ} (away : c.ending text ≠ some j) :
    (cut text buffer c)[j]? = buffer[j]? := by
  unfold cut
  cases here : c.ending text with
  | none => rfl
  | some i =>
    refine List.getElem?_set_ne ?_
    rintro rfl
    exact away here

end Calls

/-- The remaining text stands in the buffer as it was, with the rest of the buffer after it. -/
structure Ready (text junk buffer : Bytes) (p : ℕ) : Prop where
  le : p ≤ text.length
  here : buffer.drop p = text.drop p ++ 0 :: junk

section Steps

variable {text junk buffer : Bytes} {p : ℕ} {d : Text}

theorem Ready.from (ready : Ready text junk buffer p) {q : ℕ} (hq : p ≤ q) (le : q ≤ text.length) :
    buffer.drop q = text.drop q ++ 0 :: junk := by
  obtain ⟨k, rfl⟩ := Nat.exists_eq_add_of_le hq
  rw [← List.drop_drop, ready.here, List.drop_append_of_le_length (by rw [List.length_drop]; omega),
    List.drop_drop]

theorem Ready.get (ready : Ready text junk buffer p) {q : ℕ} (hq : p ≤ q) (le : q ≤ text.length) :
    buffer[q]? = (text.drop q ++ 0 :: junk).head? := by
  rw [← ready.from hq le, List.head?_drop]

theorem ready_next (ready : Ready text junk buffer p) :
    Ready text junk (cut text buffer (nextCall text d p)) (nextCall text d p).next := by
  have le := ready.le
  refine ⟨next_le, ?_⟩
  rw [← ready.from (le_next le) next_le]
  apply List.ext_getElem?
  intro j
  rw [List.getElem?_drop, List.getElem?_drop]
  apply cut_get
  intro here
  have := (ending_bounds here).2.1
  omega

theorem wp_byteAt {c : UInt8} {saveptr : Option ℕ} {post : UInt8 → Tok → Prop} {bad : Fault → Prop}
    (get : buffer[p]? = some c) :
    wp (byteAt p) post bad ⟨buffer, saveptr⟩ = post c ⟨buffer, saveptr⟩ := by
  simp only [byteAt, wp_bind, wp_get, get, wp_pure]

/-- One call does what `nextCall` says. -/
theorem wp_strtokR {s saveptr : Option ℕ} {bad : Fault → Prop} (nonzero : ∀ c ∈ text, c ≠ 0)
    (ready : Ready text junk buffer p) (start : s.or saveptr = some p) :
    wp (strtokR s d.buffer) (fun r st => r = (nextCall text d p).token.map Prod.fst ∧
      st = ⟨cut text buffer (nextCall text d p), some (nextCall text d p).next⟩) bad
      ⟨buffer, saveptr⟩ := by
  have le := ready.le
  have part : ∀ q, ∀ c ∈ text.drop q, c ≠ 0 := fun q c mem => nonzero c (List.mem_of_mem_drop mem)
  simp only [strtokR, wp_bind, wp_get, start, deref, wp_pure]
  rw [ready.here, strspn_eq (part p), wp_lift_ok]
  rcases nextCall_cases text d p with ⟨none, call⟩ |
    ⟨first, word, token, rest, skipped, isWord, after, found⟩
  · have all : p + ((text.drop p).takeWhile d.has).length = text.length := by
      have whole := congrArg List.length
        (List.takeWhile_append_dropWhile (p := d.has) (l := text.drop p))
      rw [none, List.append_nil, List.length_drop] at whole
      omega
    rw [all, wp_byteAt (c := 0) (by rw [ready.get le (Nat.le_refl _)]; simp)]
    simp only [if_true, setSaveptr, wp_bind, wp_modify, wp_pure]
    rw [call]
    exact ⟨rfl, rfl⟩
  · rw [← skipped]
    have skips := found.skips
    have fits := found.fits
    obtain ⟨c, word', rfl⟩ := List.exists_cons_of_ne_nil found.nonempty
    have startLe : first ≤ text.length := by omega
    have getFirst : buffer[first]? = some c := by
      rw [ready.get skips startLe, found.reads]
      rfl
    have notNul : c ≠ 0 := by
      refine part first c ?_
      rw [found.reads]
      simp
    rw [wp_byteAt getFirst, if_neg notNul]
    simp only [wp_bind]
    rw [ready.from skips startLe, strpbrk_eq (part first), wp_lift_ok, ← after, ← isWord]
    by_cases last : text.drop (first + (c :: word').length) = []
    · have atEnd : first + (c :: word').length = text.length := by
        have size := congrArg List.length last
        simp only [List.length_drop, List.length_nil] at size
        omega
      rw [if_pos last]
      simp only [wp_bind]
      rw [rawmemchr_eq (part first), wp_lift_ok]
      have length : first + (text.drop first).length = text.length := by
        rw [List.length_drop]
        omega
      simp only [setSaveptr, wp_modify, wp_pure, length]
      refine ⟨by rw [token]; rfl, ?_⟩
      have uncut : (nextCall text d p).ending text = none := by
        simp only [Call.ending, token, Option.bind_some]
        rw [if_neg (by omega)]
      simp only [cut, uncut]
      rw [found.next, Nat.min_eq_right (by omega)]
    · have inside : first + (c :: word').length < text.length := by
        by_contra far
        exact last (List.drop_eq_nil_of_le (by omega))
      rw [if_neg last]
      have room : first + (c :: word').length < buffer.length := by
        have size := congrArg List.length ready.here
        simp only [List.length_drop, List.length_append, List.length_cons] at size ⊢
        simp only [List.length_cons] at inside
        omega
      simp only [setByte, wp_bind, wp_get, room, if_true, wp_set, setSaveptr, wp_modify, wp_pure]
      refine ⟨by rw [token]; rfl, ?_⟩
      have isCut : (nextCall text d p).ending text = some (first + (c :: word').length) := by
        simp only [Call.ending, token, Option.bind_some]
        rw [if_pos inside]
      simp only [cut, isCut]
      rw [found.next, Nat.min_eq_left (by omega)]

theorem wp_callsWithNull {bad : Fault → Prop} (nonzero : ∀ c ∈ text, c ≠ 0) :
    ∀ {ds : List Text} {buffer : Bytes} {p : ℕ}, Ready text junk buffer p →
      wp (callsWithNull ds) (fun tokens st =>
        tokens = (calls text ds p).map (fun c => c.token.map Prod.fst) ∧
        st.buffer = (calls text ds p).foldl (cut text) buffer ∧
        st.saveptr = ((calls text ds p).getLast?.map Call.next).or (some p)) bad
        ⟨buffer, some p⟩ := by
  intro ds
  induction ds with
  | nil =>
    intro buffer p _
    exact ⟨rfl, rfl, rfl⟩
  | cons d ds ih =>
    intro buffer p ready
    simp only [callsWithNull, wp_bind]
    apply wp_post (wp_strtokR nonzero (d := d) ready rfl)
    rintro token st ⟨rfl, rfl⟩
    apply wp_post (ih (ready_next (d := d) ready))
    rintro tokens st ⟨rfl, buffer', saveptr'⟩
    refine ⟨rfl, buffer', ?_⟩
    rw [saveptr', calls, List.getLast?_cons]
    cases (calls text ds (nextCall text d p).next).getLast? <;> rfl

/-- Bytes before the remaining text, and from the NUL on, stay as they are. -/
theorem calls_keep {j : ℕ} :
    ∀ {ds : List Text} {buffer : Bytes} {p : ℕ}, p ≤ text.length → j < p ∨ text.length ≤ j →
      ((calls text ds p).foldl (cut text) buffer)[j]? = buffer[j]? := by
  intro ds
  induction ds with
  | nil =>
    intro buffer p _ _
    rfl
  | cons d ds ih =>
    intro buffer p le away
    rw [calls, List.foldl_cons, ih next_le]
    · apply cut_get
      intro here
      have := ending_bounds here
      omega
    · have : p ≤ (nextCall text d p).next := le_next le
      omega

theorem token_string {ds : List Text} {start : ℕ} {word : Bytes} (ready : Ready text junk buffer p)
    (token : (nextCall text d p).token = some (start, word)) :
    word ≠ [] ∧
      (word ++ [0]) <+: ((calls text (d :: ds) p).foldl (cut text) buffer).drop start := by
  have le := ready.le
  rcases nextCall_cases text d p with ⟨_, call⟩ |
    ⟨first, word', token', _, _, _, _, found⟩
  · rw [call] at token
    cases token
  rw [token] at token'
  cases token'
  refine ⟨found.nonempty, ?_⟩
  have skips := found.skips
  have fits := found.fits
  -- the byte after the token: the NUL of the text, or the delimiter that became one
  have stop :
      ((calls text (d :: ds) p).foldl (cut text) buffer)[start + word.length]? = some 0 := by
    rw [calls, List.foldl_cons]
    by_cases last : start + word.length = text.length
    · rw [calls_keep next_le (.inr (by omega)), cut_get, ready.get (by omega) (by omega), last,
        List.drop_length]
      · rfl
      · intro here
        have := (ending_bounds here).2.2
        omega
    · have isCut : (nextCall text d p).ending text = some (start + word.length) := by
        simp only [Call.ending, token, Option.bind_some]
        rw [if_pos (by omega)]
      rw [calls_keep next_le (.inl (ending_bounds isCut).2.1), cut, isCut]
      refine List.getElem?_set_self ?_
      have size := congrArg List.length ready.here
      simp only [List.length_drop, List.length_append, List.length_cons] at size
      omega
  have body : ∀ j, j < word.length →
      ((calls text (d :: ds) p).foldl (cut text) buffer)[start + j]? = word[j]? := by
    intro j hj
    rw [calls, List.foldl_cons, calls_keep next_le (.inl (by rw [found.next]; omega)), cut_get]
    · have get := congrArg (fun l => l[j]?) (ready.from skips (by omega))
      simp only [found.reads, List.append_assoc, List.getElem?_drop] at get
      rw [get, List.getElem?_append_left hj]
    · simp only [Call.ending, token, Option.bind_some]
      split_ifs
      · simp only [ne_eq, Option.some.injEq]
        omega
      · simp
  rw [List.prefix_iff_getElem?]
  intro j hj
  rw [List.length_append, List.length_singleton] at hj
  rw [List.getElem?_drop]
  by_cases inWord : j < word.length
  · rw [body j inWord, List.getElem_append_left inWord, List.getElem?_eq_getElem inWord]
  · have at_end : j = word.length := by omega
    subst at_end
    rw [stop, List.getElem_append_right (Nat.le_refl _)]
    simp

theorem all_strings :
    ∀ {ds : List Text} {buffer : Bytes} {p : ℕ}, Ready text junk buffer p →
      ∀ c ∈ calls text ds p, ∀ start word, c.token = some (start, word) →
        word ≠ [] ∧ (word ++ [0]) <+: ((calls text ds p).foldl (cut text) buffer).drop start := by
  intro ds
  induction ds with
  | nil =>
    intro buffer p _ c mem
    cases mem
  | cons d ds ih =>
    intro buffer p ready c mem start word token
    rcases List.mem_cons.mp mem with rfl | later
    · exact token_string ready token
    · exact ih (ready_next ready) c later start word token

theorem calls_inside : ∀ {ds : List Text} {p : ℕ}, ∀ c ∈ calls text ds p, c.next ≤ text.length := by
  intro ds
  induction ds with
  | nil =>
    intro p c mem
    cases mem
  | cons d ds ih =>
    intro p c mem
    rcases List.mem_cons.mp mem with rfl | later
    · exact next_le
    · exact ih c later

theorem calls_end : ∀ {ds : List Text}, ∀ c ∈ calls text ds text.length, c.token = none := by
  intro ds
  induction ds with
  | nil =>
    intro c mem
    cases mem
  | cons d ds ih =>
    have call : nextCall text d text.length = ⟨none, text.length⟩ := by
      simp [nextCall]
    intro c mem
    rw [calls, call] at mem
    rcases List.mem_cons.mp mem with rfl | later
    · rfl
    · exact ih c later

theorem calls_ended : ∀ {ds : List Text} {p : ℕ},
    (calls text ds p).Pairwise fun c c' => c.token = none → c'.token = none := by
  intro ds
  induction ds with
  | nil => exact fun {_} => List.Pairwise.nil
  | cons d ds ih =>
    intro p
    refine List.pairwise_cons.mpr ⟨?_, ih⟩
    intro c later ended
    rcases nextCall_cases text d p with ⟨_, call⟩ |
      ⟨start, word, token, _⟩
    · rw [call] at later
      exact calls_end c later
    · rw [token] at ended
      cases ended

end Steps

section Constant

variable {text : Bytes} {d : Text}

theorem segments_skip (l : Bytes) : segments (l.dropWhile d.has) d = segments l d := by
  induction l with
  | nil => rfl
  | cons c l ih =>
    rw [List.dropWhile_cons]
    split_ifs with skips
    · rw [ih]
      unfold segments
      rw [List.splitOnP_cons_eq_if_modifyHead, if_pos skips, List.filter_cons_of_neg (by simp)]
    · rfl

theorem segments_word {word rest : Bytes} (clean : ∀ c ∈ word, d.has c = false)
    (nonempty : word ≠ []) (stops : ∀ c, rest.head? = some c → d.has c = true) :
    segments (word ++ rest) d = word :: segments rest.tail d := by
  unfold segments
  cases rest with
  | nil =>
    rw [List.append_nil, List.splitOnP_eq_singleton clean]
    simp [nonempty]
  | cons c rest =>
    rw [List.splitOnP_append_cons_of_forall_mem clean c (stops c rfl), List.tail_cons,
      List.filter_cons_of_pos (by simpa using nonempty)]

theorem calls_constant : ∀ {n p : ℕ},
    (calls text (List.replicate n d) p).map (fun c => c.token.map Prod.snd) =
      (List.range n).map fun k => (segments (text.drop p) d)[k]? := by
  intro n
  induction n with
  | zero =>
    intro p
    rfl
  | succ n ih =>
    intro p
    rw [List.replicate_succ, calls, List.map_cons, ih, List.range_succ_eq_map,
      List.map_cons, List.map_map]
    rw [← segments_skip (text.drop p)]
    rcases nextCall_cases text d p with ⟨none, call⟩ |
      ⟨start, word, token, rest, _, _, _, found⟩
    · rw [call, none, List.drop_length]
      have empty : segments [] d = [] := rfl
      simp [empty, Function.comp_def]
    · have fits := found.fits
      have tail : (text.drop (start + word.length)).tail = text.drop (nextCall text d p).next := by
        rw [List.tail_drop, found.next]
        by_cases last : start + word.length = text.length
        · rw [Nat.min_eq_right (by omega), List.drop_eq_nil_of_le (by omega), List.drop_length]
        · rw [Nat.min_eq_left (by omega)]
      rw [rest, found.reads, segments_word found.clean found.nonempty, tail, token]
      · rfl
      · intro c head
        rw [List.head?_drop] at head
        exact found.stops c head

end Constant

/-- Every sequence of calls returns the tokens of the text, whatever follows its NUL. -/
theorem tokenize_run (t : Text) (junk : Bytes) (ds : List Text) (saveptr : Option ℕ) :
    ∃ tokens st, tokenize ds ⟨t.bytes ++ 0 :: junk, saveptr⟩ = .ok (tokens, st) ∧
      Tokenized t junk ds saveptr tokens st := by
  have ready : Ready t.bytes junk (t.bytes ++ 0 :: junk) 0 := ⟨Nat.zero_le _, rfl⟩
  have run : wp (tokenize ds) (fun tokens st =>
      tokens = (calls t.bytes ds 0).map (fun c => c.token.map Prod.fst) ∧
      st.buffer = (calls t.bytes ds 0).foldl (cut t.bytes) (t.bytes ++ 0 :: junk) ∧
      st.saveptr = ((calls t.bytes ds 0).getLast?.map Call.next).or saveptr) never
      ⟨t.bytes ++ 0 :: junk, saveptr⟩ := by
    cases ds with
    | nil => exact ⟨rfl, rfl, rfl⟩
    | cons d ds =>
      simp only [tokenize, wp_bind]
      apply wp_post (wp_strtokR t.nonzero (d := d) ready rfl)
      rintro token st ⟨rfl, rfl⟩
      apply wp_post (wp_callsWithNull t.nonzero (ready_next (d := d) ready))
      rintro tokens st ⟨rfl, buffer', saveptr'⟩
      refine ⟨rfl, buffer', ?_⟩
      rw [saveptr', calls, List.getLast?_cons]
      cases (calls t.bytes ds (nextCall t.bytes d 0).next).getLast? <;> rfl
  obtain ⟨tokens, st, run, pointers, changed, saved⟩ := wp_never.mp run
  refine ⟨tokens, st, run, pointers, ?_, changed, saved, calls_inside, calls_ended,
    ?_⟩
  · rw [changed]
    exact all_strings ready
  · rintro n d rfl
    exact calls_constant

end Nanolibc.StrtokModel
