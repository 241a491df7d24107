import Nanolibc.CStringOrder
import Nanolibc.Lib.Position

set_option autoImplicit false

namespace Nanolibc.CString
open Lib.ArrayHeap Lib.Position

def convert (c : Int32) : UInt8 := UInt8.ofInt c.toInt

def memchr : Bytes → Int32 → ℕ → Except Fault (Option ℕ)
  | _, _, 0 => pure none
  | d :: s, c, n + 1 =>
    if d = convert c then pure (some 0)
    else do
      let found ← memchr s c n
      return found.map (· + 1)
  | [], _, _ + 1 => throw .bounds

def strchr : Bytes → Int32 → Except Fault (Option ℕ)
  | [], _ => throw .bounds
  | d :: s, i =>
    if d = 0 then pure none
    else if schar d = i.toInt then pure (some 0)
    else do
      let found ← strchr s i
      return found.map (· + 1)

/-- The loop of `strrchr` at the distance `pos`. -/
def strrchrLoop (i : Int32) : Bytes → ℕ → Option ℕ → Except Fault (Option ℕ)
  | [], _, _ => throw .bounds
  | d :: s, pos, last =>
    if d = 0 then pure last
    else strrchrLoop i s (pos + 1) (if schar d = i.toInt then some pos else last)

def strrchr (s : Bytes) (i : Int32) : Except Fault (Option ℕ) := strrchrLoop i s 0 none

section Searches

variable {t rest done : Bytes} {i c : Int32} {last : Option ℕ}

theorem memchr_first {s : Bytes} (rest : Bytes) :
    ∃ o, memchr (s ++ rest) c s.length = .ok o ∧ FirstAt (· = convert c) s o := by
  induction s with
  | nil => exact ⟨none, by rw [List.length_nil, memchr]; rfl, by simp [PickAt]⟩
  | cons d s ih =>
    rw [List.cons_append, List.length_cons, memchr]
    by_cases here : d = convert c
    · rw [if_pos here]
      exact ⟨some 0, rfl, firstAt_cons_pos here⟩
    · obtain ⟨o, run, first⟩ := ih
      rw [if_neg here, run]
      exact ⟨o.map (· + 1), rfl, firstAt_cons_neg here first⟩

theorem strchr_first (nonzero : ∀ d ∈ t, d ≠ 0) :
    ∃ o, strchr (t ++ 0 :: rest) i = .ok o ∧ FirstAt (schar · = i.toInt) t o := by
  induction t with
  | nil => exact ⟨none, rfl, by simp [PickAt]⟩
  | cons d t ih =>
    rw [List.cons_append, strchr, if_neg (nonzero d (List.mem_cons_self ..))]
    by_cases here : schar d = i.toInt
    · rw [if_pos here]
      exact ⟨some 0, rfl, firstAt_cons_pos here⟩
    · obtain ⟨o, run, first⟩ := ih fun e he => nonzero e (List.mem_cons_of_mem d he)
      rw [if_neg here, run]
      exact ⟨o.map (· + 1), rfl, firstAt_cons_neg here first⟩

/-- `last` is right for the characters `done` that the loop has passed. -/
theorem strrchrLoop_last (nonzero : ∀ d ∈ t, d ≠ 0)
    (passed : LastAt (schar · = i.toInt) done last) :
    ∃ o, strrchrLoop i (t ++ 0 :: rest) done.length last = .ok o ∧
      LastAt (schar · = i.toInt) (done ++ t) o := by
  induction t generalizing done last with
  | nil => exact ⟨last, rfl, by rwa [List.append_nil]⟩
  | cons d t ih =>
    have later := fun e he => nonzero e (List.mem_cons_of_mem d he)
    have next : LastAt (schar · = i.toInt) (done ++ [d])
        (if schar d = i.toInt then some done.length else last) := by
      split_ifs with here
      · exact lastAt_snoc_pos here
      · exact (pickAt_snoc_iff (p := fun e => schar e = i.toInt) here).mpr passed
    obtain ⟨o, run, found⟩ := ih later next
    rw [List.length_append, List.length_singleton] at run
    rw [List.cons_append, strrchrLoop, if_neg (nonzero d (List.mem_cons_self ..)), run]
    exact ⟨o, rfl, by rwa [List.append_assoc, List.singleton_append] at found⟩

theorem strrchr_last (nonzero : ∀ d ∈ t, d ≠ 0) :
    ∃ o, strrchr (t ++ 0 :: rest) i = .ok o ∧ LastAt (schar · = i.toInt) t o := by
  have start : LastAt (schar · = i.toInt) [] none := by simp [PickAt]
  obtain ⟨o, run, found⟩ : ∃ o, strrchrLoop i (t ++ 0 :: rest) 0 none = .ok o ∧
      LastAt (schar · = i.toInt) ([] ++ t) o := strrchrLoop_last nonzero start
  exact ⟨o, run, found⟩

end Searches

section Conversion

variable {c : Int32} {d : UInt8} {xs : Bytes}

/-- The character can be found by an unconverted comparison, or is not there to be found. -/
def Plain (xs : Bytes) (c : Int32) : Prop :=
  convert c ≠ 0 ∧ (-128 ≤ c.toInt ∧ c.toInt ≤ 127 ∨ convert c ∉ xs)

theorem convert_toNat (c : Int32) : ((convert c).toNat : ℤ) = c.toInt % 256 := by
  simp only [convert, UInt8.ofInt, UInt8.toNat_ofNat']
  omega

theorem convert_of_schar (same : schar d = c.toInt) : d = convert c := by
  have hd := d.toNat_lt
  have value := convert_toNat c
  apply UInt8.toNat_inj.mp
  unfold schar at same
  split_ifs at same <;> omega

theorem schar_range (d : UInt8) : -128 ≤ schar d ∧ schar d ≤ 127 := by
  have hd := d.toNat_lt
  unfold schar
  split_ifs <;> omega

theorem schar_convert (range : -128 ≤ c.toInt ∧ c.toInt ≤ 127) : schar (convert c) = c.toInt := by
  have value := convert_toNat c
  unfold schar
  split_ifs <;> omega

theorem matches_iff (plain : Plain xs c) (here : d ∈ xs) :
    schar d = c.toInt ↔ d = convert c := by
  constructor
  · exact convert_of_schar
  · rintro rfl
    exact schar_convert (plain.2.resolve_right (not_not.mpr here))

/-- Where it does matter, a search without it misses a character that is there. -/
theorem misses (crooked : ¬Plain xs c) :
    (∃ d ∈ xs ++ [0], d = convert c) ∧ ∀ d ∈ xs, d ≠ 0 → schar d ≠ c.toInt := by
  unfold Plain at crooked
  by_cases nul : convert c = 0
  · refine ⟨⟨0, by simp, nul.symm⟩, ?_⟩
    intro d _ nonzero same
    exact nonzero ((convert_of_schar same).trans nul)
  · have wide : ¬(-128 ≤ c.toInt ∧ c.toInt ≤ 127) := fun range => crooked ⟨nul, .inl range⟩
    have there : convert c ∈ xs := by
      by_contra absent
      exact crooked ⟨nul, .inr absent⟩
    refine ⟨⟨convert c, List.mem_append_left _ there, rfl⟩, ?_⟩
    intro d _ _ same
    exact wide (same ▸ schar_range d)

end Conversion

/-- `strchr` is `memchr` on the string with its NUL and finds the first byte equal to the converted
character there; `strrchr` finds the last. -/
def Finds (t : Text) (rest : Bytes) (c : Int32) : Prop :=
  (∃ n o, strlen (t.bytes ++ 0 :: rest) = .ok n ∧ strchr (t.bytes ++ 0 :: rest) c = .ok o ∧
    memchr (t.bytes ++ 0 :: rest) c (n + 1) = .ok o ∧ FirstAt (· = convert c) t.buffer o) ∧
  ∃ o, strrchr (t.bytes ++ 0 :: rest) c = .ok o ∧ LastAt (· = convert c) t.buffer o

section Agreement

variable {t : Text} {rest : Bytes} {c : Int32}

theorem plain_pick {before : ℕ → ℕ → Prop} {o : Option ℕ} (plain : Plain t.bytes c)
    (found : PickAt before (schar · = c.toInt) t.bytes o) :
    PickAt before (· = convert c) t.buffer o := by
  have end_ : ¬(0 : UInt8) = convert c := fun nul => plain.1 nul.symm
  exact (pickAt_snoc_iff (p := fun d => d = convert c) end_).mpr
    (pickAt_congr (fun d hd => matches_iff plain hd) found)

theorem crooked_pick {before : ℕ → ℕ → Prop} {o : Option ℕ} (crooked : ¬Plain t.bytes c)
    (found : PickAt before (schar · = c.toInt) t.bytes o) :
    ¬PickAt before (· = convert c) t.buffer o := by
  obtain ⟨⟨d, there, is⟩, missed⟩ := misses crooked
  have nowhere := (pickAt_none_iff found).mpr fun e he => missed e he (t.nonzero e he)
  intro found'
  exact (pickAt_none_iff found').mp nowhere d there is

theorem strlen_text (t : Text) (rest : Bytes) :
    strlen (t.bytes ++ 0 :: rest) = .ok t.bytes.length := by
  rw [strlen_eq (by simp), takeWhile_text t.nonzero]

theorem memchr_text (t : Text) (rest : Bytes) (c : Int32) :
    ∃ o, memchr (t.bytes ++ 0 :: rest) c (t.bytes.length + 1) = .ok o ∧
      FirstAt (· = convert c) t.buffer o := by
  have run : ∃ o, memchr (t.buffer ++ rest) c t.buffer.length = .ok o ∧
      FirstAt (· = convert c) t.buffer o := memchr_first rest
  rwa [Text.buffer, List.append_assoc, List.singleton_append, List.length_append,
    List.length_singleton] at run

end Agreement

/-- `strchr` and `strrchr` find what they should exactly for a character other than NUL that is a
`char`, or that does not occur. -/
theorem searches_iff (t : Text) (rest : Bytes) (c : Int32) :
    Finds t rest c ↔ Plain t.bytes c := by
  obtain ⟨o, chr, first⟩ : ∃ o, strchr (t.bytes ++ 0 :: rest) c = .ok o ∧
      FirstAt (schar · = c.toInt) t.bytes o := strchr_first t.nonzero
  obtain ⟨o', rchr, last⟩ : ∃ o, strrchr (t.bytes ++ 0 :: rest) c = .ok o ∧
      LastAt (schar · = c.toInt) t.bytes o := strrchr_last t.nonzero
  constructor
  · rintro ⟨⟨_, q, _, run, _, found⟩, _⟩
    rw [chr] at run
    cases run
    by_contra crooked
    exact crooked_pick crooked first found
  · intro plain
    obtain ⟨q, run, found⟩ := memchr_text t rest c
    have same : q = o := pickAt_unique found (plain_pick plain first)
    rw [same] at run
    exact ⟨⟨_, o, strlen_text t rest, chr, run, plain_pick plain first⟩,
      o', rchr, plain_pick plain last⟩

/-- `strchr("a", 0)` and `strchr("\x80", 128)`. -/
theorem searches_miss :
    ¬Finds ⟨[97], by simp⟩ [] 0 ∧ ¬Finds ⟨[128], by simp⟩ [] 128 := by
  constructor
  · rintro ⟨⟨n, o, length, chr, mem, _⟩, _⟩
    cases length
    cases chr
    cases mem
  · rintro ⟨⟨n, o, length, chr, mem, _⟩, _⟩
    cases length
    cases chr
    cases mem

end Nanolibc.CString
