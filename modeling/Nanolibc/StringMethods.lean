import Nanolibc.StringModel

set_option autoImplicit false

namespace Nanolibc.StringModel
open Lib.Program Lib.ArrayHeap Lib.OwnedArray Lib.ObjectPool CString

def image (xs : Bytes) : Bytes := if xs = [] then [] else xs ++ [0]

structure Keeps (v : Str) (xs : Bytes) : Prop where
  size : v.size = xs.length
  null_iff : v.data = none ↔ xs = []
  small : xs.length + 1 < 2 ^ 64

theorem keeps_null : Keeps Str.null [] := ⟨rfl, by simp [Str.null], by simp⟩

def stringClass : Class Str UInt8 where
  data := Str.data
  size := Str.size
  fits v zs := ∃ xs, Keeps v xs ∧ zs = image xs
  null := Str.null
  null_data := rfl
  null_fits := ⟨[], keeps_null, rfl⟩

section Images

variable {v : Str} {xs ys : Bytes} {h : Heap UInt8}

@[simp] theorem image_nil : image [] = [] := rfl

theorem image_ne_nil (some : xs ≠ []) : image xs = xs ++ [0] := if_neg some

theorem take_image (xs : Bytes) : (image xs).take xs.length = xs := by
  by_cases empty : xs = []
  · subst empty
    rfl
  · rw [image_ne_nil empty, List.take_left']
    rfl

theorem prefix_image (xs : Bytes) : xs <+: image xs := by
  have taken := List.take_prefix xs.length (image xs)
  rwa [take_image] at taken

theorem keeps_of_holds {zs : Bytes} (holds : Holds stringClass h v zs)
    (shown : zs.take v.size = xs) : Keeps v xs ∧ zs = image xs := by
  obtain ⟨ys, keeps, rfl⟩ := holds.fits
  rw [keeps.size, take_image] at shown
  subst shown
  exact ⟨keeps, rfl⟩

end Images

section Reading

variable {h : Heap UInt8} {a b d : ℕ} {p : Pointer} {xs ys zs : Bytes} {bad : Fault → Prop}

def Reads (h : Heap UInt8) : Pointer → Bytes → Prop
  | .client object, ys => ys <+: object
  | .array none _, ys => ys = []
  | .array (some a) offset, ys => ∃ zs, h.cells a = some zs ∧ a < h.next ∧ ys <+: zs.drop offset

def Pointer.base : Pointer → Option ℕ
  | .client _ => none
  | .array data _ => data

theorem reads_put (reads : Reads h p ys) (apart : p.base ≠ some a) : Reads (h.put a zs) p ys := by
  match p with
  | .client _ | .array none _ => exact reads
  | .array (some b) offset =>
    obtain ⟨ws, cell, old, bytes⟩ := reads
    have other : b ≠ a := fun same => apart (congrArg some same)
    exact ⟨ws, (Heap.put_other h zs other).trans cell, old, bytes⟩

theorem reads_push (reads : Reads h p ys) : Reads (h.push zs) p ys := by
  match p with
  | .client _ | .array none _ => exact reads
  | .array (some b) offset =>
    obtain ⟨ws, cell, old, bytes⟩ := reads
    exact ⟨ws, (Heap.push_other h zs (Nat.ne_of_lt old)).trans cell, Nat.lt_succ_of_lt old, bytes⟩

theorem reads_old (reads : Reads h p ys) : p.base ≠ some h.next := by
  match p with
  | .client _ | .array none _ => exact Option.some_ne_none _ |>.symm
  | .array (some b) offset =>
    obtain ⟨_, _, old, _⟩ := reads
    intro same
    exact Nat.ne_of_lt old (Option.some.inj same)

theorem reads_data {v : Str} (holds : Holds stringClass h v (image xs)) (keeps : Keeps v xs)
    (offset : ℕ) (part : ys <+: xs.drop offset) : Reads h (.array v.data offset) ys := by
  have buffer := holds.buffer
  change Buffer h v.data (image xs) at buffer
  cases here : v.data with
  | none =>
    rw [keeps.null_iff.mp here, List.drop_nil] at part
    exact List.prefix_nil.mp part
  | some a =>
    rw [here] at buffer
    obtain ⟨rest, all⟩ := prefix_image xs
    refine ⟨image xs, buffer.1, buffer.2, part.trans ?_⟩
    rw [← all, List.drop_append]
    exact List.prefix_append _ _

theorem reads_front {v : Str} (holds : Holds stringClass h v (image xs)) (keeps : Keeps v xs)
    (part : ys <+: xs) : Reads h (.array v.data 0) ys :=
  reads_data holds keeps 0 (by rwa [List.drop_zero])

theorem reads_dataPtr {v : Str} (holds : Holds stringClass h v (image xs)) (keeps : Keeps v xs) :
    Reads h (Str.dataPtr v) xs := by
  have reads := reads_front holds keeps (List.prefix_refl xs)
  unfold Str.dataPtr
  cases here : v.data with
  | none =>
    rw [keeps.null_iff.mp here]
    exact List.nil_prefix
  | some a =>
    rw [here] at reads
    exact reads

theorem wp_loadByte {post : UInt8 → Heap UInt8 → Prop} {j : ℕ} {y : UInt8}
    (reads : Reads h p ys) (get : ys[j]? = some y) :
    wp (loadByte p j) post bad h = post y h := by
  have inside : ∀ {zs : Bytes}, ys <+: zs → zs[j]? = some y := by
    rintro zs ⟨rest, rfl⟩
    rw [List.getElem?_append_left (List.getElem?_eq_some_iff.mp get).choose, get]
  match p with
  | .client object =>
    have byte : charAt object j = .ok y := by
      rw [charAt, inside reads]
      rfl
    rw [loadByte, byte, wp_lift_ok]
  | .array none offset =>
    cases reads
    cases get
  | .array (some a) offset =>
    obtain ⟨zs, cell, _, bytes⟩ := reads
    have here := inside bytes
    rw [List.getElem?_drop] at here
    exact wp_read cell here

theorem wp_memcpy (cell : h.cells a = some zs) (room : d + ys.length ≤ zs.length)
    (reads : Reads h p ys) (apart : p.base ≠ some a) :
    wp (memcpy (.array (some a) d) p ys.length)
      (fun _ t => t = h.put a (splice zs d ys)) bad h := by
  unfold memcpy
  rw [← loop_shift d, Nat.add_zero]
  refine wp_store cell room ?_
  intro j y t get here eq
  subst eq
  have inside : j < ys.length := (List.getElem?_eq_some_iff.mp get).choose
  have short : (ys.take j).length = j := by rw [List.length_take]; omega
  have slot : d + j < (splice zs d (ys.take j)).length := by
    rw [splice_length (by omega)]
    omega
  simp only [Nat.add_sub_cancel_left, wp_bind]
  rw [wp_loadByte (reads_put reads apart) get]
  exact (wp_write here slot).mpr rfl

theorem wp_memset {n : ℕ} {c : UInt8} (cell : h.cells a = some zs) (room : d + n ≤ zs.length) :
    wp (memset (.array (some a) d) c n)
      (fun _ t => t = h.put a (splice zs d (List.replicate n c))) bad h := by
  obtain ⟨ys, bytes⟩ : ∃ ys, ys = List.replicate n c := ⟨_, rfl⟩
  have len : n = ys.length := by rw [bytes, List.length_replicate]
  unfold memset
  rw [← bytes, len, ← loop_shift d, Nat.add_zero]
  refine wp_store cell (by omega) ?_
  intro j y t get here _
  have same : y = c := by
    rw [bytes] at get
    exact List.eq_of_mem_replicate (List.mem_of_getElem? get)
  have inside : j < ys.length := (List.getElem?_eq_some_iff.mp get).choose
  have short : (ys.take j).length = j := by rw [List.length_take]; omega
  have slot : d + j < (splice zs d (ys.take j)).length := by
    rw [splice_length (by omega)]
    omega
  simp only [Nat.add_sub_cancel_left]
  subst same
  exact (wp_write here slot).mpr rfl

theorem ifNonzero_memcpy (dst src : Pointer) (n : ℕ) :
    ifNonzero n (memcpy dst src n) = memcpy dst src n := by
  cases n <;> rfl

theorem ifNonzero_memset (dst : Pointer) (c : UInt8) (n : ℕ) :
    ifNonzero n (memset dst c n) = memset dst c n := by
  cases n <;> rfl

end Reading

section Drafts

variable {junk : ℕ → ℕ → UInt8} {h : Heap UInt8} {d n : ℕ} {p : Pointer} {ws rest xs ys zs : Bytes}
  {bad : Fault → Prop} {v : Str}

def draft (h : Heap UInt8) (ws rest : Bytes) : Heap UInt8 := h.push (ws ++ rest ++ [0])

def blank (junk : ℕ → ℕ → UInt8) (h : Heap UInt8) (size : ℕ) : Bytes :=
  (List.range size).map (junk h.next)

@[simp] theorem blank_length (size : ℕ) : (blank junk h size).length = size := by
  simp [blank]

theorem wp_newData {post : Option ℕ → Heap UInt8 → Prop} (some : n ≠ 0) (small : n + 1 < 2 ^ 64) :
    wp (Str.newData junk n) post bad h = post (.some h.next) (draft h [] (blank junk h n)) := by
  have size : (n + 1) % 2 ^ 64 = n + 1 := Nat.mod_eq_of_lt (by omega)
  have slots : ((List.range (n + 1)).map (junk h.next)).set n 0 = blank junk h n ++ [0] := by
    rw [List.range_succ, List.map_append, List.set_append_right _ _ (by simp)]
    simp [blank]
  simp only [Str.newData, some, if_false, wp_bind, wp_get, wp_alloc, wp_pure, size]
  rw [wp_write (Heap.push_self _ _) (by simp), slots, Heap.push_put]
  rfl

theorem draft_splice (room : ys.length ≤ rest.length) :
    (draft h ws rest).put h.next (splice (ws ++ rest ++ [0]) ws.length ys) =
      draft h (ws ++ ys) (rest.drop ys.length) := by
  unfold draft
  rw [Heap.push_put, List.append_assoc ws, splice_append, List.drop_append_of_le_length room]
  simp only [List.append_assoc]

theorem wp_memcpy_draft (reads : Reads h p ys) (room : ys.length ≤ rest.length)
    (here : d = ws.length) (count : n = ys.length) :
    wp (memcpy (.array (some h.next) d) p n)
      (fun _ t => t = draft h (ws ++ ys) (rest.drop n)) bad (draft h ws rest) := by
  subst here count
  refine wp_post (wp_memcpy (Heap.push_self _ _) ?_ (reads_push reads) (reads_old reads)) ?_
  · simp only [List.length_append]
    omega
  · rintro _ t rfl
    exact draft_splice room

theorem wp_memset_draft {c : UInt8} (room : n ≤ rest.length) (here : d = ws.length) :
    wp (memset (.array (some h.next) d) c n)
      (fun _ t => t = draft h (ws ++ List.replicate n c) (rest.drop n)) bad (draft h ws rest) := by
  subst here
  refine wp_post (wp_memset (Heap.push_self _ _) ?_) ?_
  · simp only [List.length_append]
    omega
  · rintro _ t rfl
    have len : (List.replicate n c).length = n := List.length_replicate
    have stored : (draft h ws rest).put h.next _ = _ := draft_splice (by rwa [len])
    rwa [len] at stored

def built (h : Heap UInt8) (xs : Bytes) : Str × Heap UInt8 :=
  if xs = [] then (Str.null, h) else (⟨xs.length, some h.next⟩, h.push (xs ++ [0]))

theorem built_keeps (small : xs.length + 1 < 2 ^ 64) : Keeps (built h xs).1 xs := by
  unfold built
  split
  · rename_i empty
    subst empty
    exact keeps_null
  · rename_i bytes
    exact ⟨rfl, by simp [bytes], small⟩

theorem built_draft (bytes : xs ≠ []) :
    built h xs = (⟨xs.length, some h.next⟩, draft h xs []) := by
  unfold built draft
  rw [if_neg bytes, List.append_nil]

end Drafts

section Creation

variable {junk : ℕ → ℕ → UInt8} {h : Heap UInt8} {n : ℕ} {p : Pointer} {xs ys zs : Bytes}
  {bad : Fault → Prop} {v w : Str}

theorem wp_filled {c : UInt8} (small : n + 1 < 2 ^ 64) :
    wp (Str.filled junk n c)
      (fun v' h' => (v', h') = built h (List.replicate n c)) bad h := by
  simp only [Str.filled, wp_bind, ifNonzero_memset]
  by_cases zero : n = 0
  · subst zero
    rfl
  · rw [wp_newData zero small]
    refine wp_post (wp_memset_draft (by simp) rfl) ?_
    rintro _ t rfl
    simp only [wp_pure]
    have bytes : List.replicate n c ≠ [] := by simp [zero]
    rw [built_draft bytes, List.nil_append, List.drop_eq_nil_of_le (by simp), List.length_replicate]

theorem wp_ofData (reads : Reads h p ys) (small : ys.length + 1 < 2 ^ 64) :
    wp (Str.ofData junk p ys.length) (fun v' h' => (v', h') = built h ys) bad h := by
  simp only [Str.ofData, wp_bind, ifNonzero_memcpy]
  by_cases empty : ys = []
  · subst empty
    rfl
  · rw [wp_newData (by simpa using empty) small]
    refine wp_post (wp_memcpy_draft reads (by simp) rfl rfl) ?_
    rintro _ t rfl
    simp only [wp_pure]
    rw [built_draft empty, List.nil_append, List.drop_eq_nil_of_le (by simp)]

theorem wp_ofCString (ends : 0 ∈ ys) (small : (ys.takeWhile (· ≠ 0)).length + 1 < 2 ^ 64) :
    wp (Str.ofCString junk ys) (fun v' h' => (v', h') = built h (ys.takeWhile (· ≠ 0))) bad h := by
  simp only [Str.ofCString, strlen_eq ends, wp_bind, wp_lift_ok]
  have reads : Reads h (.client ys) (ys.takeWhile (· ≠ 0)) := List.takeWhile_prefix _
  exact wp_ofData reads small

theorem wp_copyConstruct (holds : Holds stringClass h w (image ys)) (keeps : Keeps w ys) :
    wp (Str.copyConstruct junk w) (fun v' h' => (v', h') = built h ys) bad h := by
  rw [Str.copyConstruct, keeps.size]
  exact wp_ofData (reads_front holds keeps (List.prefix_refl ys)) keeps.small

theorem wp_substr {pos len : ℕ} (holds : Holds stringClass h v (image xs)) (keeps : Keeps v xs)
    (inside : pos ≤ xs.length) :
    wp (Str.substr junk v pos len) (fun v' h' => (v', h') = built h ((xs.drop pos).take len))
      bad h := by
  have clamped : (if len > xs.length - pos then xs.length - pos else len) =
      ((xs.drop pos).take len).length := by
    rw [List.length_take, List.length_drop]
    split <;> omega
  have small : ((xs.drop pos).take len).length + 1 < 2 ^ 64 := by
    have := keeps.small
    rw [List.length_take, List.length_drop]
    omega
  rw [Str.substr, keeps.size, if_neg (by omega), clamped]
  exact wp_ofData (reads_data holds keeps pos (List.take_prefix _ _)) small

theorem wp_plus (holds : Holds stringClass h v (image xs)) (keeps : Keeps v xs)
    (holdsw : Holds stringClass h w (image ys)) (keepsw : Keeps w ys)
    (small : (xs ++ ys).length + 1 < 2 ^ 64) :
    wp (Str.plus junk v w) (fun v' h' => (v', h') = built h (xs ++ ys)) bad h := by
  rw [List.length_append] at small
  have total : (xs.length + ys.length) % 2 ^ 64 = xs.length + ys.length :=
    Nat.mod_eq_of_lt (by omega)
  simp only [Str.plus, keeps.size, keepsw.size, total, wp_bind]
  apply wp_post (wp_filled small)
  intro v' h' made
  by_cases empty : xs ++ ys = []
  · obtain ⟨rfl, rfl⟩ := List.append_eq_nil_iff.mp empty
    exact made
  · have bytes : List.replicate (xs.length + ys.length) (0 : UInt8) ≠ [] := by
      intro none
      have := congrArg List.length none
      have := List.length_pos_of_ne_nil empty
      simp only [List.length_replicate, List.length_append, List.length_nil] at *
      omega
    rw [built_draft bytes] at made
    cases made
    have first : draft h (List.replicate (xs.length + ys.length) 0) [] =
        draft h [] (List.replicate (xs.length + ys.length) 0) := by simp [draft]
    simp only [Str.dataPtr, Pointer.add, first]
    refine wp_post (wp_memcpy_draft (reads_dataPtr holds keeps) (by simp) rfl rfl) ?_
    rintro _ t rfl
    apply wp_post (wp_memcpy_draft (reads_dataPtr holdsw keepsw) (by simp) (by simp) rfl)
    rintro _ t rfl
    simp only [wp_pure]
    rw [built_draft empty, List.nil_append, List.drop_eq_nil_of_le (by simp), List.length_replicate,
      List.length_append]

end Creation

section Change

variable {junk : ℕ → ℕ → UInt8} {h h' : Heap UInt8} {n : ℕ} {p : Option ℕ} {rest xs ys zs : Bytes}
  {bad : Fault → Prop} {v v' w : Str}

structure Becomes (h : Heap UInt8) (v : Str) (h' : Heap UInt8) (v' : Str) (ys : Bytes) : Prop where
  keeps : Keeps v' ys
  effect : ∃ dead, Effect h v.data h' v'.data (image ys) dead

theorem wp_delete_built (buffer : Buffer h p zs) :
    wp (delete p) (fun _ h' => Effect h p h' (built h xs).1.data (image xs) zs) bad
      (built h xs).2 := by
  by_cases empty : xs = []
  · subst empty
    cases p with
    | none =>
      cases buffer
      exact .idle
    | some a =>
      change wp (delete (some a)) _ bad h
      rw [wp_delete buffer.1]
      exact .dropped a zs
  · rw [image_ne_nil empty, built, if_neg empty]
    cases p with
    | none =>
      cases buffer
      exact .first _
    | some a =>
      have apart : a ≠ h.next := Nat.ne_of_lt buffer.2
      rw [wp_delete ((Heap.push_other h _ apart).trans buffer.1)]
      exact .moved a _ zs

theorem wp_clear (holds : Holds stringClass h v zs) :
    wp (Str.clear v) (fun v' h' => Becomes h v h' v' []) bad h := by
  simp only [Str.clear, wp_bind]
  have deleted : wp (delete v.data) _ bad (built h []).2 := wp_delete_built holds.buffer
  refine wp_post deleted ?_
  intro _ h' effect
  exact ⟨keeps_null, zs, effect⟩

/-- The draft is complete and takes the place of the old array. -/
theorem wp_delete_draft (holds : Holds stringClass h v zs) (written : rest = []) (some : n ≠ 0)
    (size : ys.length = n) (small : n + 1 < 2 ^ 64) :
    wp (delete v.data) (fun _ h' => Becomes h v h' ⟨n, .some h.next⟩ ys) bad (draft h ys rest) := by
  have bytes : ys ≠ [] := by
    rintro rfl
    exact some size.symm
  have finished := built_draft (h := h) bytes
  have deleted : wp (delete v.data) _ bad (built h ys).2 := wp_delete_built holds.buffer
  have keeps : Keeps (built h ys).1 ys := built_keeps (by omega)
  rw [finished] at deleted keeps
  rw [written]
  subst size
  exact wp_post deleted (fun _ h' effect => ⟨keeps, zs, effect⟩)

theorem wp_resize {c : UInt8} (holds : Holds stringClass h v (image xs)) (keeps : Keeps v xs)
    (small : n + 1 < 2 ^ 64) :
    wp (Str.resize junk v n c)
      (fun v' h' => Becomes h v h' v' (xs.take n ++ List.replicate (n - xs.length) c)) bad h := by
  have copied : (if n ≤ xs.length then n else xs.length) = (xs.take n).length := by
    rw [List.length_take]
    split <;> omega
  have padded : n - (xs.take n).length = n - xs.length := by
    rw [List.length_take]
    omega
  simp only [Str.resize, keeps.size, copied, padded, wp_bind, ifNonzero_memcpy, ifNonzero_memset]
  by_cases zero : n = 0
  · subst zero
    have cleared : wp (Str.clear v) _ bad h := wp_clear holds
    simp only [Str.clear, wp_bind, wp_pure] at cleared
    simpa only [Str.newData, if_true, wp_pure, List.take_zero, List.length_nil, Nat.zero_sub,
      memcpy, memset, loop, Str.clear, wp_bind, List.replicate_zero, List.append_nil] using cleared
  · rw [wp_newData zero small]
    refine wp_post (wp_memcpy_draft (reads_front holds keeps (List.take_prefix n xs)) ?_ rfl rfl) ?_
    · simp
    rintro _ t rfl
    refine wp_post (wp_memset_draft ?_ (by simp)) ?_
    · rw [List.length_drop, blank_length, padded]
    rintro _ t rfl
    simp only [Str.clear, wp_bind, wp_pure]
    refine wp_delete_draft holds ?_ zero ?_ small
    · rw [List.drop_drop, List.drop_eq_nil_of_le]
      rw [blank_length]
      omega
    · rw [List.length_append, List.length_replicate, List.length_take]
      omega

theorem wp_replace {pos len : ℕ} (holds : Holds stringClass h v (image xs)) (keeps : Keeps v xs)
    (holdsw : Holds stringClass h w (image ys)) (keepsw : Keeps w ys) (inside : pos ≤ xs.length)
    (small : (xs.take pos ++ ys ++ xs.drop (min (pos + len) xs.length)).length + 1 < 2 ^ 64) :
    wp (Str.replace junk v pos len w)
      (fun v' h' => Becomes h v h' v' (xs.take pos ++ ys ++ xs.drop (min (pos + len) xs.length)))
      bad h := by
  obtain ⟨cut, clamped⟩ : ∃ cut, (if len > xs.length - pos then xs.length - pos else len) = cut :=
    ⟨_, rfl⟩
  have last : min (pos + len) xs.length = pos + cut := by
    rw [← clamped]
    split <;> omega
  have short := keeps.small
  have short' := keepsw.small
  have front : (xs.take pos).length = pos := by rw [List.length_take]; omega
  have total : (xs.take pos ++ ys ++ xs.drop (pos + cut)).length = xs.length + ys.length - cut := by
    simp only [List.length_append, List.length_drop, front]
    omega
  rw [last, total] at small
  have newSize : (xs.length + ys.length + (2 ^ 64 - cut)) % 2 ^ 64 =
      xs.length + ys.length - cut := by
    omega
  have within : ¬pos > xs.length := by omega
  rw [last]
  simp only [Str.replace, keeps.size, keepsw.size, clamped, newSize, within, if_false]
  by_cases zero : xs.length + ys.length - cut = 0
  · have empty : xs.take pos ++ ys ++ xs.drop (pos + cut) = [] :=
      List.eq_nil_of_length_eq_zero (total.trans zero)
    rw [if_pos zero, empty]
    exact wp_clear holds
  · rw [if_neg zero]
    simp only [wp_bind, wp_pure]
    rw [wp_newData zero small]
    -- the three parts are written one after the other
    refine wp_post (wp_memcpy_draft (reads_front holds keeps (List.take_prefix pos xs)) ?_ rfl
      front.symm) ?_
    · rw [front, blank_length]
      omega
    rintro _ t rfl
    refine wp_post (wp_memcpy_draft (reads_front holdsw keepsw (List.prefix_refl ys)) ?_ ?_ rfl) ?_
    · rw [List.length_drop, blank_length]
      omega
    · rw [List.nil_append, front]
    rintro _ t rfl
    refine wp_post (wp_memcpy_draft (reads_data holds keeps (pos + cut) (List.prefix_refl _)) ?_ ?_
      ?_) ?_
    · rw [List.length_drop, List.length_drop, List.length_drop, blank_length]
      omega
    · rw [List.nil_append, List.length_append, front]
    · rw [List.length_drop]
      omega
    rintro _ t rfl
    refine wp_delete_draft holds ?_ zero ?_ small
    · rw [List.drop_drop, List.drop_drop, List.drop_eq_nil_of_le]
      rw [blank_length]
      omega
    · exact total

end Change

end Nanolibc.StringModel
