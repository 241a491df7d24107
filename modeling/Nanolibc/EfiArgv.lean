import Nanolibc.CString
import Nanolibc.MallocInvariant

set_option autoImplicit false

/-!
# `retrieve_argv`

The shell's arguments are wide strings, each the list of the characters to the end of its object.
The table of pointers and the strings go into one block from `malloc` in the flat memory, a pointer
being a word. `StrLen` is the firmware library's.
-/
namespace Nanolibc.EfiArgv
open Lib.Program Lib.FlatMemory MallocModel CString

inductive Stop where
  | fault (e : Fault)
  | bounds

section Model

variable (strLen : List UInt16 → ℕ)

def sizeLoop : List (List UInt16) → ℕ → ℕ
  | [], sz => sz
  | s16 :: argv, sz => sizeLoop argv ((sz + (strLen s16 + 1)) % 2 ^ 64)

def copyLoop : List UInt16 → ℕ → Prog Memory Stop ℕ
  | [], _ => throw .bounds
  | w :: s16, buff =>
    if w ≠ 0 then do
      store buff w.toUInt8
      copyLoop s16 (buff + 1)
    else return buff

def packLoop (argv : ℕ) : List (List UInt16) → ℕ → ℕ → Prog Memory Stop Unit
  | [], _, _ => return ()
  | s16 :: rest, i, buff => do
    storeWord ((argv + 8 * i) % 2 ^ 64) buff
    let buff ← copyLoop s16 buff
    store buff 0
    packLoop argv rest (i + 1) (buff + 1)

/-- The result and `*argv`. The shell has the `Argc` entries of `Argv`, or fails with a negative
`Argc`. -/
def retrieveArgv (answer : ℕ) (shell : Option (List (List UInt16))) :
    Prog State Stop (Int32 × ℕ) :=
  match shell with
  | none => return (-1, 0)
  | some Argv => do
    let sz := sizeLoop strLen Argv 0
    if sz = 0 then return (-1, 0)
    else do
      let data ← relabel .fault (malloc answer (((Argv.length + 1) * 8 + sz) % 2 ^ 64))
      if data = 0 then return (-1, 0)
      else do
        inMemory (packLoop data Argv 0 (data + (Argv.length + 1) * 8))
        inMemory (storeWord ((data + 8 * Argv.length) % 2 ^ 64) 0)
        return (Int32.ofNat Argv.length, data)

end Model

structure Argument where
  chars : List UInt16
  ascii : ∀ c ∈ chars, 1 ≤ c.toNat ∧ c.toNat ≤ 127
  behind : List UInt16

namespace Argument

def object (a : Argument) : List UInt16 := a.chars ++ 0 :: a.behind

def converted (a : Argument) : Bytes := a.chars.map UInt16.toUInt8 ++ [0]

theorem nonzero (a : Argument) : ∀ c ∈ a.chars, c ≠ 0 := by
  intro c hc zero
  have positive := (a.ascii c hc).1
  rw [zero] at positive
  exact absurd positive (by decide)

theorem converted_length (a : Argument) : a.converted.length = a.chars.length + 1 := by
  rw [converted, List.length_append, List.length_map, List.length_singleton]

end Argument

def stringBytes (args : List Argument) : ℕ := (args.map fun a => a.chars.length + 1).sum

def blockSize (args : List Argument) : ℕ := (args.length + 1) * 8 + stringBytes args

section Sizes

variable {args : List Argument} {strLen : List UInt16 → ℕ}

@[simp] theorem stringBytes_cons (a : Argument) (args : List Argument) :
    stringBytes (a :: args) = a.chars.length + 1 + stringBytes args := by
  rw [stringBytes, List.map_cons, List.sum_cons, stringBytes]

theorem length_le_stringBytes (args : List Argument) : args.length ≤ stringBytes args := by
  induction args with
  | nil => exact Nat.le_refl 0
  | cons a args ih =>
    rw [List.length_cons, stringBytes_cons]
    omega

/-- `StrLen` counts the characters before the NUL. -/
def Counts (strLen : List UInt16 → ℕ) : Prop :=
  ∀ chars behind : List UInt16, (∀ c ∈ chars, c ≠ 0) → strLen (chars ++ 0 :: behind) = chars.length

theorem sizeLoop_eq (counts : Counts strLen) : ∀ (args : List Argument) (sz : ℕ),
    sz + stringBytes args < 2 ^ 64 →
    sizeLoop strLen (args.map Argument.object) sz = sz + stringBytes args := by
  intro args
  induction args with
  | nil =>
    intro sz _
    rfl
  | cons a args ih =>
    intro sz small
    rw [stringBytes_cons] at small ⊢
    have length : strLen a.object = a.chars.length := counts a.chars a.behind a.nonzero
    have total : (sz + (a.chars.length + 1)) % 2 ^ 64 = sz + (a.chars.length + 1) :=
      Nat.mod_eq_of_lt (by omega)
    rw [List.map_cons, sizeLoop, length, total, ih _ (by omega), Nat.add_assoc]

end Sizes

section Packing

variable {m : Memory} {argv i buff : ℕ} {args : List Argument} {bad : Stop → Prop}

theorem wp_copyLoop (behind : List UInt16) : ∀ (chars : List UInt16) (buff : ℕ) (m : Memory),
    (∀ c ∈ chars, c ≠ 0) →
    wp (copyLoop (chars ++ 0 :: behind) buff)
      (fun r t => r = buff + chars.length ∧ t = m.writeAll buff (chars.map UInt16.toUInt8))
      bad m := by
  intro chars
  induction chars with
  | nil =>
    intro buff m _
    exact ⟨rfl, rfl⟩
  | cons c chars ih =>
    intro buff m nonzero
    have first : c ≠ 0 := nonzero c (List.mem_cons_self ..)
    rw [List.cons_append, copyLoop, if_pos first, wp_bind, wp_store]
    apply wp_post (ih (buff + 1) (m.write buff c.toUInt8)
      fun d hd => nonzero d (List.mem_cons_of_mem c hd))
    rintro r _ ⟨rfl, rfl⟩
    rw [List.map_cons, writeAll_cons, List.length_cons]
    exact ⟨by omega, rfl⟩

/-- The arguments from `i` on stand in the table and in the strings from `buff` on. -/
def Packed (bytes : ℕ → UInt8) (argv : ℕ) : List Argument → ℕ → ℕ → Prop
  | [], _, _ => True
  | a :: args, i, buff =>
    word bytes (argv + 8 * i) = buff ∧
      (∀ j c, a.converted[j]? = some c → bytes (buff + j) = c) ∧
      Packed bytes argv args (i + 1) (buff + (a.chars.length + 1))

theorem wp_copyLoop_converted (a : Argument) :
    wp (copyLoop a.object buff) (fun r t => r + 1 = buff + (a.chars.length + 1) ∧
      t.write r 0 = m.writeAll buff a.converted) bad m := by
  apply wp_post (wp_copyLoop a.behind a.chars buff m a.nonzero)
  rintro r _ ⟨rfl, rfl⟩
  rw [Argument.converted, writeAll_snoc, List.length_map]
  exact ⟨Nat.add_assoc .., rfl⟩

/-- Only the part of the table and of the string area that is left to fill is written. -/
theorem wp_packLoop : ∀ (args : List Argument) (i buff : ℕ) (m : Memory),
    argv + 8 * (i + args.length) ≤ buff → buff + stringBytes args ≤ 2 ^ 64 →
    wp (packLoop argv (args.map Argument.object) i buff)
      (fun _ t => Packed t.bytes argv args i buff ∧
        (∀ x, (x < argv + 8 * i ∨ argv + 8 * (i + args.length) ≤ x) →
          (x < buff ∨ buff + stringBytes args ≤ x) → t.bytes x = m.bytes x) ∧
        ∃ new, t.writes = new ++ m.writes ∧
          ∀ x ∈ new, argv + 8 * i ≤ x ∧ x < buff + stringBytes args) bad m := by
  intro args
  induction args with
  | nil =>
    intro i buff m _ _
    exact ⟨trivial, fun _ _ _ => rfl, [], rfl, by simp⟩
  | cons a args ih =>
    intro i buff m table room
    rw [List.length_cons] at table ⊢
    rw [stringBytes_cons] at room ⊢
    have size := a.converted_length
    have some := length_le_stringBytes args
    have entry : (argv + 8 * i) % 2 ^ 64 = argv + 8 * i := Nat.mod_eq_of_lt (by omega)
    simp only [List.map_cons, packLoop, wp_bind, wp_storeWord, wp_store, entry]
    apply wp_post (wp_copyLoop_converted a)
    rintro r u ⟨next, stored⟩
    rw [next, stored]
    apply wp_post (ih (i + 1) (buff + (a.chars.length + 1)) _ (by omega) (by omega))
    rintro _ t ⟨packed, frame, new, writes, area⟩
    refine ⟨⟨?_, ?_, packed⟩, ?_, new ++ ((span buff a.converted.length).reverse ++
      span (argv + 8 * i) 8), ?_, ?_⟩
    · have kept : word t.bytes (argv + 8 * i) =
          word (m.writeWord (argv + 8 * i) buff).bytes (argv + 8 * i) := by
        refine word_congr (by omega) fun x low high => ?_
        rw [frame x (.inl (by omega)) (.inl (by omega)),
          writeAll_outside (by omega) (.inl (by omega))]
      rw [kept, word_writeWord m (by omega) (by omega)]
    · intro j c here
      have inside := (List.getElem?_eq_some_iff.mp here).choose
      rw [frame _ (.inr (by omega)) (.inl (by omega))]
      exact writeAll_inside (by omega) here
    · intro x outTable outArea
      rw [frame x (by omega) (by omega), writeAll_outside (by omega) (by omega),
        writeWord_outside _ (by omega) (by omega)]
    · rw [writes, writeAll_writes]
      simp only [Memory.writeWord, List.append_assoc]
    · intro x hx
      rcases List.mem_append.mp hx with later | here
      · have := area x later
        omega
      · rcases List.mem_append.mp here with string | pointer
        · have := (mem_span (by omega)).mp (List.mem_reverse.mp string)
          omega
        · have := (mem_span (by omega)).mp pointer
          omega

end Packing

/-- What the shell passes: the table and the strings stand in memory side by side. -/
structure Arguments where
  list : List Argument
  stored : 8 * list.length + 2 * stringBytes list ≤ 2 ^ 64

def stringAt (args : List Argument) (argv i : ℕ) : ℕ :=
  argv + (args.length + 1) * 8 + stringBytes (args.take i)

/-- All is written inside the one new block: the table with a pointer to each string and NULL at
its end, then the strings, one right behind the other up to the end of the block's size. -/
structure Retrieved (s t : State) (answer : ℕ) (args : List Argument) (argv : ℕ) : Prop where
  blocks : t.blocks = (answer, request (blockSize args)) :: s.blocks
  requests : t.requests = request (blockSize args) :: s.requests
  inside : answer ≤ argv ∧ argv + blockSize args ≤ answer + request (blockSize args)
  writes : ∃ new, t.memory.writes = new ++ s.memory.writes ∧
    ∀ x ∈ new, answer ≤ x ∧ x < answer + request (blockSize args)
  first : stringAt args argv 0 = argv + (args.length + 1) * 8
  next : ∀ i a, args[i]? = some a → stringAt args argv (i + 1) =
    stringAt args argv i + (a.chars.length + 1)
  last : stringAt args argv args.length = argv + blockSize args
  pointer : ∀ i, i < args.length → word t.memory.bytes (argv + 8 * i) = stringAt args argv i
  string : ∀ i a, args[i]? = some a →
    (∀ j c, a.chars[j]? = some c →
      (t.memory.bytes (stringAt args argv i + j)).toNat = c.toNat) ∧
    t.memory.bytes (stringAt args argv i + a.chars.length) = 0
  null : word t.memory.bytes (argv + 8 * args.length) = 0

section Layout

variable {bytes : ℕ → UInt8} {argv i buff : ℕ} {args : List Argument} {a : Argument}

theorem stringBytes_take_succ (here : args[i]? = some a) :
    stringBytes (args.take (i + 1)) = stringBytes (args.take i) + (a.chars.length + 1) := by
  rw [List.take_add_one, here]
  simp [stringBytes]

theorem Packed.at : ∀ {args : List Argument} {i buff : ℕ}, Packed bytes argv args i buff →
    ∀ {j : ℕ} {a : Argument}, args[j]? = some a →
      word bytes (argv + 8 * (i + j)) = buff + stringBytes (args.take j) ∧
      ∀ k c, a.converted[k]? = some c → bytes (buff + stringBytes (args.take j) + k) = c := by
  intro args
  induction args with
  | nil =>
    intro i buff _ j a here
    cases here
  | cons b args ih =>
    intro i buff packed j a here
    obtain ⟨pointer, string, rest⟩ := packed
    cases j with
    | zero =>
      cases here
      exact ⟨pointer, string⟩
    | succ j =>
      have later := ih rest (j := j) (a := a) here
      rw [List.take_succ_cons, stringBytes_cons, ← Nat.add_assoc buff]
      rwa [Nat.add_assoc i, Nat.add_comm 1] at later

theorem converted_char {j : ℕ} {c : UInt16} (here : a.chars[j]? = some c) :
    a.converted[j]? = some c.toUInt8 ∧ c.toUInt8.toNat = c.toNat := by
  have inside := (List.getElem?_eq_some_iff.mp here).choose
  have small := (a.ascii c (List.mem_of_getElem? here)).2
  constructor
  · rw [Argument.converted, List.getElem?_append_left (by rwa [List.length_map]),
      List.getElem?_map, here]
    rfl
  · rw [UInt16.toNat_toUInt8]
    omega

theorem converted_nul (a : Argument) : a.converted[a.chars.length]? = some 0 := by
  rw [Argument.converted, List.getElem?_append_right (by rw [List.length_map]), List.length_map,
    Nat.sub_self]
  rfl

end Layout

section Run

variable {strLen : List UInt16 → ℕ} {s : State} {answer : ℕ} {bad : Stop → Prop}

theorem Arguments.small (args : Arguments) : blockSize args.list + 31 < 2 ^ 64 := by
  have stored := args.stored
  have some := length_le_stringBytes args.list
  unfold blockSize
  omega

theorem wp_pack (args : Arguments) (fits : Addressable (answer, request (blockSize args.list))) :
    wp (packLoop (place answer) (args.list.map Argument.object) 0
        (place answer + (args.list.length + 1) * 8))
      (fun _ u => Retrieved s { s.placed answer (blockSize args.list) with
        memory := u.writeWord (place answer + 8 * args.list.length) 0 } answer args.list
          (place answer)) bad (s.placed answer (blockSize args.list)).memory := by
  obtain ⟨args, stored⟩ := args
  have small : blockSize args + 31 < 2 ^ 64 := Arguments.small ⟨args, stored⟩
  have asked : request (blockSize args) = blockSize args + 31 := by
    rw [request_eq, Nat.mod_eq_of_lt small]
  have size : blockSize args = (args.length + 1) * 8 + stringBytes args := rfl
  have room : answer + (blockSize args + 31) ≤ 2 ^ 64 := asked ▸ fits.2
  obtain ⟨_, header, inside⟩ := place_inside room (by omega)
  have block : getMallocBlock (place answer) = place answer - 16 :=
    getMallocBlock_eq (by omega) (by omega)
  obtain ⟨argv, here⟩ : ∃ argv, place answer = argv := ⟨_, rfl⟩
  simp only [here] at header inside block ⊢
  apply wp_post (wp_packLoop args 0 (argv + (args.length + 1) * 8) _ (by omega) (by omega))
  rintro _ u ⟨packed, _, new, writes, area⟩
  have table : ∀ x, x < argv + 8 * args.length ∨ argv + 8 * args.length + 8 ≤ x →
      (u.writeWord (argv + 8 * args.length) 0).bytes x = u.bytes x :=
    fun x out => writeWord_outside u (by omega) out
  constructor
  case blocks => rfl
  case requests => rfl
  case inside => exact ⟨by omega, by omega⟩
  case first => rfl
  case next =>
    intro i a here
    rw [stringAt, stringBytes_take_succ here, ← Nat.add_assoc]
    rfl
  case last =>
    rw [stringAt, List.take_length, size, Nat.add_assoc]
  case null => exact word_writeWord u (by omega) (by omega)
  case pointer =>
    intro i hi
    have pointed := (packed.at (List.getElem?_eq_getElem hi)).1
    rw [Nat.zero_add] at pointed
    rw [stringAt, ← pointed]
    exact word_congr (by omega) fun x low high => table x (.inl (by omega))
  case string =>
    intro i a here
    have chars := (packed.at here).2
    have end_ := stringBytes_take_succ here
    constructor
    · intro j c get
      obtain ⟨get', value⟩ := converted_char get
      rw [table _ (.inr (by unfold stringAt; omega)), stringAt, chars j _ get', value]
    · rw [table _ (.inr (by unfold stringAt; omega)), stringAt, chars _ _ (converted_nul a)]
  case writes =>
    refine ⟨span (argv + 8 * args.length) 8 ++ (new ++ (span (argv - 8) 8 ++ span (argv - 16) 8)),
      ?_, ?_⟩
    · have at_size : argv - 16 + 8 = argv - 8 := by omega
      simp only [Memory.writeWord, writes, State.placed, here, block, at_size, List.append_assoc]
    · intro x hx
      simp only [List.mem_append] at hx
      rcases hx with end_ | loop_ | header_ | header_
      · have := (mem_span (by omega)).mp end_
        omega
      · have := area x loop_
        omega
      · have := (mem_span (by omega)).mp header_
        omega
      · have := (mem_span (by omega)).mp header_
        omega

theorem wp_retrieveArgv (counts : Counts strLen) (args : Arguments) (some : args.list ≠ [])
    (fits : Addressable (answer, request (blockSize args.list))) :
    wp (retrieveArgv strLen answer (.some (args.list.map Argument.object)))
      (fun r t => r = (Int32.ofNat args.list.length, place answer) ∧
        Retrieved s t answer args.list (place answer)) bad s := by
  have small := args.small
  have positive : 0 < args.list.length := List.length_pos_iff.mpr some
  have strings := length_le_stringBytes args.list
  have given : answer ≠ 0 := Nat.ne_of_gt fits.1
  have asked : request (blockSize args.list) = blockSize args.list + 31 := by
    rw [request_eq, Nat.mod_eq_of_lt small]
  have room : answer + (blockSize args.list + 31) ≤ 2 ^ 64 := asked ▸ fits.2
  have placed := (place_inside room (by unfold blockSize; omega)).2.1
  have size : sizeLoop strLen (args.list.map Argument.object) 0 = stringBytes args.list := by
    rw [sizeLoop_eq counts _ _ (by unfold blockSize at small; omega), Nat.zero_add]
  have total : ((args.list.length + 1) * 8 + stringBytes args.list) % 2 ^ 64 =
      blockSize args.list := Nat.mod_eq_of_lt (by unfold blockSize at small; omega)
  simp only [retrieveArgv, size, List.length_map, total]
  rw [if_neg (by omega), wp_bind, wp_relabel, wp_malloc_some (by unfold blockSize; omega) given,
    if_neg (by omega)]
  have entry : (place answer + 8 * args.list.length) % 2 ^ 64 =
      place answer + 8 * args.list.length := by
    have := (place_inside room (by unfold blockSize; omega)).2.2
    unfold blockSize at this room
    exact Nat.mod_eq_of_lt (by omega)
  simp only [wp_bind, wp_inMemory, wp_storeWord, wp_pure, entry]
  apply wp_post (wp_pack args fits)
  intro _ u retrieved
  exact ⟨trivial, retrieved⟩

end Run

/-- With a block from the runtime, `retrieve_argv` packs all arguments into it and returns their
number as an `int`, which is the number itself below 2^31. -/
theorem retrieveArgv_packs (strLen : List UInt16 → ℕ) (counts : Counts strLen) (args : Arguments)
    (some : args.list ≠ []) (s : State) (answer : ℕ)
    (fits : Addressable (answer, request (blockSize args.list))) :
    ∃ r argv t, retrieveArgv strLen answer (.some (args.list.map Argument.object)) s =
        .ok ((r, argv), t) ∧
      Retrieved s t answer args.list argv ∧ r = Int32.ofNat args.list.length ∧
      (args.list.length < 2 ^ 31 → r.toInt = args.list.length) := by
  have run : wp (retrieveArgv strLen answer (.some (args.list.map Argument.object))) _ never s :=
    wp_retrieveArgv counts args some fits
  obtain ⟨_, t, done, rfl, retrieved⟩ := wp_never.mp run
  exact ⟨_, _, t, done, retrieved, rfl, Int32.toInt_ofNat_of_lt⟩

def strLen (s16 : List UInt16) : ℕ := (s16.takeWhile (· ≠ 0)).length

theorem strLen_counts : Counts strLen := by
  intro chars behind nonzero
  rw [strLen, takeWhile_text nonzero]

def listLong : Arguments where
  list := [⟨[108, 115], by simp, []⟩, ⟨[45, 108], by simp, [7]⟩]
  stored := by decide

theorem retrieveArgv_packs_ls : ∃ r argv t,
    retrieveArgv strLen 4096 (.some [[108, 115, 0], [45, 108, 0, 7]])
        ⟨⟨fun _ => 7, [], []⟩, [], []⟩ = .ok ((r, argv), t) ∧
      Retrieved ⟨⟨fun _ => 7, [], []⟩, [], []⟩ t 4096 listLong.list argv ∧ r = Int32.ofNat 2 ∧
      (2 < 2 ^ 31 → r.toInt = 2) :=
  retrieveArgv_packs strLen strLen_counts listLong (by decide) _ 4096 ⟨by decide, by decide⟩

def manyEmpty (n : ℕ) : List Argument := List.replicate n ⟨[], by simp, []⟩

theorem length_manyEmpty (n : ℕ) : (manyEmpty n).length = n := List.length_replicate

theorem stringBytes_manyEmpty (n : ℕ) : stringBytes (manyEmpty n) = n := by
  induction n with
  | zero => rfl
  | succ n ih =>
    rw [manyEmpty, List.replicate_succ, stringBytes_cons, ← manyEmpty, ih]
    exact Nat.add_comm 1 n

theorem retrieveArgv_manyEmpty (s : State) {n : ℕ} (some : 0 < n) (room : n ≤ 2 ^ 40) :
    ∃ argv t, retrieveArgv strLen 4096 (.some ((manyEmpty n).map Argument.object)) s =
      .ok ((Int32.ofNat n, argv), t) := by
  have stored : 8 * (manyEmpty n).length + 2 * stringBytes (manyEmpty n) ≤ 2 ^ 64 := by
    rw [stringBytes_manyEmpty, length_manyEmpty]
    omega
  have size : blockSize (manyEmpty n) = (n + 1) * 8 + n := by
    rw [blockSize, stringBytes_manyEmpty, length_manyEmpty]
  have fits : Addressable (4096, request (blockSize (manyEmpty n))) := by
    rw [request_eq, size, Nat.mod_eq_of_lt (by omega)]
    exact ⟨Nat.succ_pos _, by omega⟩
  have nonempty : manyEmpty n ≠ [] := by
    apply List.length_pos_iff.mp
    rwa [length_manyEmpty]
  have run : wp (retrieveArgv strLen 4096 (.some ((manyEmpty n).map Argument.object))) _ never s :=
    wp_retrieveArgv strLen_counts ⟨manyEmpty n, stored⟩ nonempty fits
  obtain ⟨_, t, done, rfl, _⟩ := wp_never.mp run
  rw [length_manyEmpty] at done
  exact ⟨_, t, done⟩

/-- An `int` cannot hold 2^31, the number of the arguments here. -/
theorem retrieveArgv_negative : (manyEmpty (2 ^ 31)).length = 2 ^ 31 ∧ ∃ r argv t,
    retrieveArgv strLen 4096 (.some ((manyEmpty (2 ^ 31)).map Argument.object))
        ⟨⟨fun _ => 7, [], []⟩, [], []⟩ = .ok ((r, argv), t) ∧ r.toInt = -2147483648 := by
  obtain ⟨argv, t, run⟩ := retrieveArgv_manyEmpty ⟨⟨fun _ => 7, [], []⟩, [], []⟩ (n := 2 ^ 31)
    (by omega) (by omega)
  exact ⟨length_manyEmpty _, _, argv, t, run, by decide⟩

end Nanolibc.EfiArgv
