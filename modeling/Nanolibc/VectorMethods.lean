import Mathlib.Tactic.NormNum
import Nanolibc.Lib.ObjectPool
import Nanolibc.VectorModel

set_option autoImplicit false

namespace Nanolibc.VectorModel
open Lib.Program Lib.ArrayHeap Lib.OwnedArray Lib.ObjectPool

variable {α : Type} {T : Element α}

theorem growLoop_enough {size n m : ℕ} :
    ∀ {rounds nbytes : ℕ}, growLoop size n rounds nbytes = some m → n ≤ m := by
  intro rounds
  induction rounds with
  | zero => intro nbytes h; simp [growLoop] at h
  | succ rounds ih =>
    intro nbytes h
    rw [growLoop] at h
    split_ifs at h with small
    · exact ih h
    · cases h
      omega

theorem growLoop_bytes {size n m : ℕ} :
    ∀ {rounds nbytes : ℕ}, nbytes < 2 ^ 64 → growLoop size n rounds nbytes = some m →
      m * size < 2 ^ 64 := by
  intro rounds
  induction rounds with
  | zero => intro nbytes _ h; simp [growLoop] at h
  | succ rounds ih =>
    intro nbytes bound h
    rw [growLoop] at h
    split_ifs at h with small
    · exact ih (Nat.mod_lt _ (by norm_num)) h
    · cases h
      exact lt_of_le_of_lt (Nat.div_mul_le_self nbytes size) bound

theorem growLoop_ends {size n : ℕ} (hsize : 0 < size) (fits : n * size ≤ 2 ^ 63) :
    ∀ {rounds e : ℕ}, e ≤ 63 → 63 - e < rounds → ∃ m, growLoop size n rounds (2 ^ e) = some m := by
  intro rounds
  induction rounds with
  | zero => intro e _ h; omega
  | succ rounds ih =>
    intro e he hr
    rw [growLoop]
    split_ifs with small
    · have below : e < 63 := by
        by_contra top
        have e63 : e = 63 := by omega
        have : n ≤ 2 ^ e / size := (Nat.le_div_iff_mul_le hsize).mpr (e63 ▸ fits)
        omega
      have bound : 2 ^ (e + 1) ≤ 2 ^ 63 := Nat.pow_le_pow_right (by omega) (by omega)
      have step : 2 ^ e * 2 % 2 ^ 64 = 2 ^ (e + 1) := by
        rw [← pow_succ]
        exact Nat.mod_eq_of_lt (lt_of_le_of_lt bound (by norm_num))
      rw [step]
      exact ih (by omega) (by omega)
    · exact ⟨_, rfl⟩

/-- The byte count is a power of two until it wraps to 0. -/
theorem growLoop_le {size n m : ℕ} : ∀ {rounds e : ℕ},
    growLoop size n rounds (2 ^ e % 2 ^ 64) = some m → m * size ≤ 2 ^ 63 := by
  intro rounds
  induction rounds with
  | zero => intro e h; simp [growLoop] at h
  | succ rounds ih =>
    intro e h
    rw [growLoop] at h
    split_ifs at h with small
    · refine ih (e := e + 1) ?_
      rw [pow_succ, Nat.mul_mod, Nat.mod_eq_of_lt (by norm_num : 2 < 2 ^ 64)]
      exact h
    · cases h
      refine le_trans (Nat.div_mul_le_self _ size) ?_
      rcases Nat.lt_or_ge e 64 with low | high
      · exact le_trans (Nat.mod_le _ _) (Nat.pow_le_pow_right (by omega) (by omega))
      · obtain ⟨d, rfl⟩ := Nat.exists_eq_add_of_le high
        rw [pow_add, Nat.mul_mod_right]
        exact Nat.zero_le _

theorem growLoop_some_iff {size n : ℕ} (hsize : 0 < size) :
    (∃ m, growLoop size n 60 64 = some m) ↔ n * size ≤ 2 ^ 63 := by
  constructor
  · rintro ⟨m, h⟩
    have small : m * size ≤ 2 ^ 63 := growLoop_le (e := 6) h
    exact le_trans (Nat.mul_le_mul_right size (growLoop_enough h)) small
  · intro fits
    exact growLoop_ends (e := 6) hsize fits (by omega) (by omega)

structure Sized (v : Vec) (zs : List α) : Prop where
  capacity : zs.length = v.maxNitems
  size_le : v.nitems ≤ v.maxNitems

def vectorClass (α : Type) : Class Vec α where
  data := Vec.data
  size := Vec.nitems
  fits := Sized
  null := Vec.null
  null_data := rfl
  null_fits := ⟨rfl, Nat.le_refl _⟩

abbrev Holds (h : Heap α) (v : Vec) (zs : List α) : Prop :=
  Lib.ObjectPool.Holds (vectorClass α) h v zs

abbrev Left (h : Heap α) (v : Vec) (h' : Heap α) (v' : Vec) (zs' dead : List α) : Prop :=
  Lib.ObjectPool.Left (vectorClass α) h v h' v' zs' dead

theorem vec_null (h : Heap α) : Holds h Vec.null [] := holds_null h

section Fields

variable {h h' : Heap α} {v v' : Vec} {zs zs' dead : List α}

theorem Holds.buffer (holds : Holds h v zs) : Buffer h v.data zs :=
  Lib.ObjectPool.Holds.buffer holds

theorem Holds.capacity (holds : Holds h v zs) : zs.length = v.maxNitems := holds.fits.capacity

theorem Holds.size_le (holds : Holds h v zs) : v.nitems ≤ v.maxNitems := holds.fits.size_le

theorem Holds.used_le (holds : Holds h v zs) : v.nitems ≤ zs.length := by
  rw [holds.capacity]
  exact holds.size_le

theorem Left.effect (left : Left h v h' v' zs' dead) : Effect h v.data h' v'.data zs' dead :=
  Lib.ObjectPool.Left.effect left

theorem Left.capacity (left : Left h v h' v' zs' dead) : zs'.length = v'.maxNitems :=
  left.fits.capacity

theorem Left.size_le (left : Left h v h' v' zs' dead) : v'.nitems ≤ v'.maxNitems :=
  left.fits.size_le

end Fields

/-- What `_reserve(n, copy_only)` leaves of the slots `zs`: the new slots, and the old ones as
`delete[]` finds them. -/
def Kept (T : Element α) (copyOnly : ℕ) (zs zs' dead : List α) : Prop :=
  (zs' = zs ∧ dead = []) ∨
    ∃ m, zs.length < m ∧ zs' = splice ((List.range m).map T.fresh) 0 (zs.take copyOnly) ∧
      dead = splice zs 0 ((zs.take copyOnly).map T.husk)

theorem Kept.take {copyOnly : ℕ} {zs zs' dead : List α} (kept : Kept T copyOnly zs zs' dead)
    (inside : copyOnly ≤ zs.length) : zs'.take copyOnly = zs.take copyOnly := by
  rcases kept with ⟨rfl, _⟩ | ⟨m, larger, rfl, _⟩
  · rfl
  · simp [splice, inside]

theorem Kept.replaced {copyOnly : ℕ} {zs zs' dead : List α} (kept : Kept T copyOnly zs zs' dead)
    (inside : copyOnly ≤ zs.length) (some_slot : 0 < zs.length) (larger : zs.length < zs'.length) :
    dead ≠ [] := by
  rcases kept with ⟨rfl, _⟩ | ⟨m, _, _, rfl⟩
  · omega
  · have len : (splice zs 0 ((zs.take copyOnly).map T.husk)).length = zs.length :=
      splice_length (by simp only [List.length_map, List.length_take]; omega)
    intro empty
    rw [empty, List.length_nil] at len
    omega

section Reserve

variable {h : Heap α} {v : Vec} {zs : List α} {bad : Fault → Prop}

/-- The copy loop of `_reserve`: element `i` goes to the new array and leaves its husk behind. -/
theorem wp_moveLoop {a b : ℕ} {ws : List α} {count : ℕ} (apart : a ≠ b)
    (ca : h.cells a = some zs) (cb : h.cells b = some ws) (ha : count ≤ zs.length)
    (hb : count ≤ ws.length) :
    wp (loop count 0 fun i => do
        let x ← moveOut T (some a) i
        write (some b) i x)
      (fun _ t => t = (h.put a (splice zs 0 ((zs.take count).map T.husk))).put b
        (splice ws 0 (zs.take count))) bad h := by
  let inv : ℕ → Heap α → Prop := fun i t =>
    t = (h.put a (splice zs 0 ((zs.take i).map T.husk))).put b (splice ws 0 (zs.take i))
  have init : inv 0 h := by
    simp only [inv, List.take_zero, List.map_nil, splice_nil]
    rw [Heap.put_cell h a zs ca, Heap.put_cell h b ws cb]
  refine wp_post (wp_loop inv count 0 h init ?_) ?_
  · intro i t _ hi ht
    have lz : i < zs.length := by omega
    have len : (splice zs 0 ((zs.take i).map T.husk)).length = zs.length :=
      splice_length (by simp only [List.length_map, List.length_take]; omega)
    have lenw : (splice ws 0 (zs.take i)).length = ws.length :=
      splice_length (by simp only [List.length_take]; omega)
    have ta : t.cells a = some (splice zs 0 ((zs.take i).map T.husk)) := by
      rw [ht, Heap.put_other _ _ apart, Heap.put_self]
    have read : (splice zs 0 ((zs.take i).map T.husk))[i]? = some zs[i] := by
      rw [splice_get (by simp only [List.length_map, List.length_take]; omega)]
      simp only [List.length_map, List.length_take]
      rw [if_neg (by omega), if_neg (by omega), List.getElem?_eq_getElem lz]
    have husk : ((zs.take count).map T.husk)[i]? = some (T.husk zs[i]) := by
      rw [List.getElem?_map, List.getElem?_take_of_lt (by omega), List.getElem?_eq_getElem lz]
      rfl
    have plain : (zs.take count)[i]? = some zs[i] := by
      rw [List.getElem?_take_of_lt (by omega), List.getElem?_eq_getElem lz]
    have rooma : 0 + ((zs.take count).map T.husk).length ≤ zs.length := by
      simp only [List.length_map, List.length_take]
      omega
    have roomb : 0 + (zs.take count).length ≤ ws.length := by
      simp only [List.length_take]
      omega
    have stepa := splice_set rooma husk
    have stepb := splice_set roomb plain
    simp only [Nat.zero_add, ← List.map_take, List.take_take] at stepa stepb
    rw [Nat.min_eq_left (by omega), Nat.min_eq_left (by omega)] at stepa stepb
    simp only [moveOut, wp_bind, wp_read ta read, wp_write ta (by omega : i < _), wp_pure]
    have tb : (t.put a ((splice zs 0 ((zs.take i).map T.husk)).set i (T.husk zs[i]))).cells b =
        some (splice ws 0 (zs.take i)) := by
      rw [Heap.put_other _ _ apart.symm, ht, Heap.put_self]
    rw [wp_write tb (by omega), stepa, stepb, ht]
    simp only [inv, Heap.put, Heap.mk.injEq, and_true]
    rw [Function.update_comm apart, Function.update_idem, Function.update_comm apart.symm,
      Function.update_idem, Function.update_comm apart]
  · intro _ t ht
    simpa only [inv, Nat.zero_add] using ht

theorem wp_reserve {n copyOnly : ℕ} (holds : Holds h v zs) (copies : copyOnly ≤ zs.length)
    (fits : v.maxNitems < n → n * T.size ≤ 2 ^ 63 ∨ bad .diverged) :
    wp (Vec._reserve T v n copyOnly) (fun v' h' => ∃ zs' dead,
      Effect h v.data h' v'.data zs' dead ∧ Kept T copyOnly zs zs' dead ∧
      v'.nitems = v.nitems ∧ zs'.length = v'.maxNitems ∧ n ≤ v'.maxNitems ∧
      v.maxNitems ≤ v'.maxNitems ∧ (n ≤ zs.length → zs' = zs)) bad h := by
  unfold Vec._reserve
  refine wp_ite ?_ ?_
  · intro enough
    exact ⟨zs, [], .refl holds.buffer, .inl ⟨rfl, rfl⟩, rfl, holds.capacity, enough,
      Nat.le_refl _, fun _ => rfl⟩
  · intro small
    cases grow : growLoop T.size n 60 64 with
    | none =>
      rcases fits (Nat.lt_of_not_le small) with fits | fits
      · obtain ⟨m, hm⟩ := (growLoop_some_iff T.size_pos).mpr fits
        rw [grow] at hm
        cases hm
      · exact fits
    | some m =>
      have enough := growLoop_enough grow
      have cap := holds.capacity
      have lens : ((List.range m).map T.fresh).length = m := by simp
      simp only [newArray, wp_bind, wp_alloc]
      cases v with
      | mk data maxNitems nitems =>
        cases data with
        | none =>
          have empty : zs = [] := holds.buffer
          subst empty
          have zero : copyOnly = 0 := by simpa using copies
          subst zero
          simp only [loop, wp_pure, wp_delete_null]
          refine ⟨_, [], .first _, .inr ⟨m, ?_, ?_, ?_⟩, trivial, lens, enough, ?_,
            fun fits => absurd fits ?_⟩
          · simp only [List.length_nil] at cap ⊢
            omega
          · simp
          · simp
          · simp only at small ⊢
            omega
          · simp only at small cap
            omega
        | some a =>
          obtain ⟨cell, old⟩ := holds.buffer
          have apart : a ≠ h.next := Nat.ne_of_lt old
          have ca : (h.push ((List.range m).map T.fresh)).cells a = some zs := by
            rw [Heap.push_other _ _ apart, cell]
          simp only at cap small
          apply wp_post (wp_moveLoop apart ca (Heap.push_self _ _) copies (by omega))
          intro _ t ht
          have ta : t.cells a = some (splice zs 0 ((zs.take copyOnly).map T.husk)) := by
            rw [ht, Heap.put_other _ _ apart, Heap.put_self]
          rw [wp_delete ta]
          refine ⟨splice ((List.range m).map T.fresh) 0 (zs.take copyOnly),
            splice zs 0 ((zs.take copyOnly).map T.husk), ?_, .inr ⟨m, ?_, rfl, rfl⟩, rfl, ?_,
            enough, ?_, fun fits => absurd fits ?_⟩
          · have same : t.release a (splice zs 0 ((zs.take copyOnly).map T.husk)) =
                (h.push (splice ((List.range m).map T.fresh) 0 (zs.take copyOnly))).release a
                  (splice zs 0 ((zs.take copyOnly).map T.husk)) := by
              rw [ht]
              simp only [Heap.release, Heap.put, Heap.push, Heap.mk.injEq, and_true]
              rw [Function.update_comm apart.symm, Function.update_idem,
                Function.update_comm apart, Function.update_idem,
                Function.update_comm apart.symm]
            rw [same]
            exact .moved _ _ _
          · omega
          · rw [splice_length (by simp only [List.length_take, lens]; omega), lens]
          · simp only
            omega
          · omega

theorem wp_reserve_diverges {n copyOnly : ℕ} (grows : v.maxNitems < n)
    (large : 2 ^ 63 < n * T.size) :
    wp (Vec._reserve T v n copyOnly) (fun _ _ => False) (fun _ => True) h := by
  unfold Vec._reserve
  rw [if_neg (by omega)]
  cases grow : growLoop T.size n 60 64 with
  | none => trivial
  | some m =>
    have small := (growLoop_some_iff T.size_pos).mp ⟨m, grow⟩
    omega

/-- No array that `_reserve` makes takes 2^64 bytes or more. -/
theorem wp_reserve_bytes {n copyOnly : ℕ} (bytes : v.maxNitems * T.size < 2 ^ 64) :
    wp (Vec._reserve T v n copyOnly) (fun v' _ => v'.maxNitems * T.size < 2 ^ 64)
      (fun _ => True) h := by
  unfold Vec._reserve
  refine wp_ite (fun _ => bytes) ?_
  intro _
  cases grow : growLoop T.size n 60 64 with
  | none => trivial
  | some m =>
    simp only [wp_bind, wp_pure]
    exact wp_any fun _ _ => wp_any fun _ _ => wp_any fun _ _ =>
      growLoop_bytes (by norm_num) grow

theorem wp_resize_bytes {n : ℕ} (bytes : v.maxNitems * T.size < 2 ^ 64) :
    wp (Vec.resize T v n) (fun v' _ => v'.maxNitems * T.size < 2 ^ 64) (fun _ => True) h := by
  simp only [Vec.resize, Vec.reserve, wp_bind, wp_pure]
  exact wp_post (wp_reserve_bytes bytes) (fun _ _ kept => wp_any fun _ _ => kept)

end Reserve

section Methods

variable {h h₁ : Heap α} {v : Vec} {p p₁ : Option ℕ} {zs zs₁ ws dead : List α}
  {bad : Fault → Prop}

theorem wp_storeSlots {start : ℕ} {ys : List α} {body : ℕ → Method α Unit}
    (buffer : Buffer h p ws) (e : Effect h p h₁ p₁ zs₁ dead)
    (room : start + ys.length ≤ zs₁.length)
    (hbody : ∀ a j y us t, p₁ = some a → ys[j]? = some y → start + j < us.length →
      Effect h p t p₁ us dead →
      wp (body (start + j)) (fun _ u => u = t.put a (us.set (start + j) y)) bad t) :
    wp (loop ys.length start body)
      (fun _ t => Effect h p t p₁ (splice zs₁ start ys) dead) bad h₁ := by
  have after := e.after buffer
  cases p₁ with
  | none =>
    have empty : zs₁ = [] := after
    subst empty
    have none : ys = [] := List.eq_nil_of_length_eq_zero (by
      simp only [List.length_nil] at room
      omega)
    subst none
    simpa only [loop, List.length_nil, wp_pure, splice_nil] using e
  | some a =>
    refine wp_post (wp_store after.1 room ?_) ?_
    · intro j y t hy ht same
      have hj : j < ys.length := (List.getElem?_eq_some_iff.mp hy).choose
      have len : (splice zs₁ start (ys.take j)).length = zs₁.length :=
        splice_length (by simp only [List.length_take]; omega)
      refine hbody a j y _ t rfl hy (by omega) ?_
      rw [same]
      exact e.store buffer _
    · intro _ t same
      rw [same]
      exact e.store buffer _

theorem wp_fillSlots {start : ℕ} {ys : List α} {f : ℕ → α}
    (buffer : Buffer h p ws) (e : Effect h p h₁ p₁ zs₁ dead)
    (room : start + ys.length ≤ zs₁.length) (hf : ∀ j y, ys[j]? = some y → f (start + j) = y) :
    wp (loop ys.length start fun i => write p₁ i (f i))
      (fun _ t => Effect h p t p₁ (splice zs₁ start ys) dead) bad h₁ := by
  apply wp_storeSlots buffer e room
  intro a j y us t here hy inside now
  subst here
  rw [wp_write (now.after buffer).1 inside, hf j y hy]

/-- The slots of the resized vector: those kept by `reserve`, with `T()` stored after the old
elements. -/
theorem wp_resizeSlots {n : ℕ} (holds : Holds h v zs)
    (fits : v.maxNitems < n → n * T.size ≤ 2 ^ 63 ∨ bad .diverged) :
    wp (Vec.resize T v n) (fun v' h' => ∃ zs₁ dead,
      Left h v h' v' (splice zs₁ v.nitems (List.replicate (n - v.nitems) T.dflt)) dead ∧
      Kept T v.nitems zs zs₁ dead ∧ n ≤ zs₁.length ∧ v'.nitems = n ∧
      (n ≤ zs.length → zs₁ = zs)) bad h := by
  have size := holds.size_le
  have cap := holds.capacity
  simp only [Vec.resize, Vec.reserve, wp_bind]
  apply wp_post (wp_reserve holds (by omega) fits)
  rintro v₁ h₁ ⟨zs₁, dead, effect, kept, same, cap₁, enough, more, idle⟩
  have count : (List.replicate (n - v.nitems) T.dflt).length = n - v.nitems :=
    List.length_replicate
  have room : v.nitems + (List.replicate (n - v.nitems) T.dflt).length ≤ zs₁.length := by omega
  have filled : wp (loop _ v.nitems fun i => write v₁.data i T.dflt) _ bad h₁ :=
    wp_fillSlots holds.buffer effect room (fun j y hy => by
      rw [List.getElem?_replicate] at hy
      split_ifs at hy
      exact Option.some.inj hy)
  rw [count] at filled
  rw [same]
  refine wp_post filled ?_
  intro _ h₂ effect₂
  simp only [wp_pure]
  exact ⟨zs₁, dead, ⟨effect₂, by rw [splice_length room, cap₁], enough⟩, kept, cap₁ ▸ enough,
    trivial, idle⟩

theorem resized_take {n k : ℕ} {x : α} (kept : Kept T k zs zs₁ dead) (inside : k ≤ zs.length)
    (room : n ≤ zs₁.length) :
    (splice zs₁ k (List.replicate (n - k) x)).take n =
      (zs.take k).take n ++ List.replicate (n - k) x := by
  have grown := kept.take inside
  by_cases more : k ≤ n
  · have part : (zs₁.take k).length = k := by
      simp only [List.length_take]
      omega
    rw [splice, List.append_assoc, List.take_append, part, grown, List.take_take,
      List.take_append_of_le_length (by simp)]
    simp [Nat.min_eq_right more]
  · have none : n - k = 0 := by omega
    rw [none, List.replicate_zero, splice_nil, List.append_nil, ← grown, List.take_take,
      Nat.min_eq_left (by omega)]

theorem wp_resize {n : ℕ} (holds : Holds h v zs)
    (fits : v.maxNitems < n → n * T.size ≤ 2 ^ 63 ∨ bad .diverged) :
    wp (Vec.resize T v n) (fun v' h' => ∃ zs' dead, Left h v h' v' zs' dead ∧ v'.nitems = n ∧
      zs'.take n = (zs.take v.nitems).take n ++ List.replicate (n - v.nitems) T.dflt) bad h := by
  have used := holds.used_le
  apply wp_post (wp_resizeSlots holds fits)
  rintro v' h' ⟨zs₁, dead, left, kept, room, len, _⟩
  exact ⟨_, dead, left, len, resized_take kept (by omega) room⟩

theorem wp_ofRange {range : List α} (fits : range.length * T.size ≤ 2 ^ 63 ∨ bad .diverged) :
    wp (Vec.ofRange T range) (fun v' h' => ∃ zs' dead, Left h Vec.null h' v' zs' dead ∧
      v'.nitems = range.length ∧ zs'.take range.length = range) bad h := by
  simp only [Vec.ofRange, wp_bind]
  apply wp_post (wp_resize (vec_null h) fun _ => fits)
  rintro v₁ h₁ ⟨zs₁, dead, left, len, _⟩
  have effect := left.effect
  have cap₁ := left.capacity
  have size₁ := left.size_le
  have room : 0 + range.length ≤ zs₁.length := by omega
  refine wp_post (wp_storeSlots (vec_null h).buffer effect room ?_) ?_
  · intro a j y us t here hy inside now
    rw [here] at now ⊢
    simp only [Nat.zero_add] at inside
    simp only [Nat.zero_add, hy]
    rw [wp_write (now.after (vec_null h).buffer).1 inside]
  · intro _ h₂ effect₂
    refine ⟨_, dead, ⟨effect₂, by rw [splice_length room, cap₁], size₁⟩, len, ?_⟩
    simp [splice]

theorem wp_pushBack {x : α} (holds : Holds h v zs)
    (fits : v.maxNitems < v.nitems + 1 → (v.nitems + 1) * T.size ≤ 2 ^ 63 ∨ bad .diverged) :
    wp (Vec.pushBack T v (.temp x)) (fun v' h' => ∃ zs₁ dead,
      Left h v h' v' (zs₁.set v.nitems x) dead ∧ Kept T v.nitems zs zs₁ dead ∧
      v.nitems < zs₁.length ∧ v'.nitems = v.nitems + 1 ∧
      (v.nitems < zs.length → zs₁ = zs)) bad h := by
  have used := holds.used_le
  simp only [Vec.pushBack, Vec.reserve, load, wp_bind, wp_pure]
  apply wp_post (wp_reserve holds (by omega) fits)
  rintro v₁ h₁ ⟨zs₁, dead, effect, kept, same, cap₁, enough, _, idle⟩
  have after := effect.after holds.buffer
  obtain ⟨data, m, k⟩ := v₁
  simp only at effect same cap₁ enough after
  cases data with
  | none =>
    have empty : zs₁ = [] := after
    subst empty
    simp at cap₁
    omega
  | some a =>
    have inside : v.nitems < zs₁.length := by omega
    simp only [same]
    rw [wp_write after.1 inside]
    exact ⟨zs₁, dead, ⟨effect.store holds.buffer _, by simpa using cap₁, enough⟩, kept, inside,
      trivial, idle⟩

theorem pushBackMove_temp (x : α) : Vec.pushBackMove T v (.temp x) = Vec.pushBack T v (.temp x) :=
  rfl

theorem wp_copyAssign {w : Vec} (holds : Holds h v zs) (source : Holds h w ws)
    (apart : ∀ a, v.data = some a → w.data ≠ some a)
    (fits : w.nitems * T.size ≤ 2 ^ 63 ∨ bad .diverged) :
    wp (Vec.copyAssign T v w) (fun v' h' => ∃ zs' dead, Left h v h' v' zs' dead ∧
      v'.nitems = w.nitems ∧ zs'.take w.nitems = ws.take w.nitems) bad h := by
  have size := source.size_le
  have cap := source.capacity
  simp only [Vec.copyAssign, wp_bind]
  apply wp_post (wp_reserve holds (Nat.zero_le _) (fun _ => fits))
  rintro v₁ h₁ ⟨zs₁, dead, effect, _, _, cap₁, enough, _⟩
  have count : w.nitems = (ws.take w.nitems).length := by simp; omega
  have room : 0 + (ws.take w.nitems).length ≤ zs₁.length := by omega
  rw [count]
  refine wp_post (wp_storeSlots holds.buffer effect room ?_) ?_
  · intro a j y us t here hy inside now
    have hj : j < w.nitems := by
      have := (List.getElem?_eq_some_iff.mp hy).choose
      omega
    rw [List.getElem?_take_of_lt hj] at hy
    have sourceBuffer := source.buffer
    obtain ⟨data, m, k⟩ := w
    cases data with
    | none =>
      have empty : ws = [] := sourceBuffer
      subst empty
      simp at hy
    | some b =>
      have cell : t.cells b = some ws := by
        rw [now.other (fun same => apart b same rfl) sourceBuffer.2, sourceBuffer.1]
      simp only at hj
      rw [here] at now ⊢
      simp only [Vec.at_, Nat.zero_add, hj, if_true, wp_bind]
      rw [wp_read cell hy, wp_write (now.after holds.buffer).1 (by omega)]
  · intro _ h₂ effect₂
    simp only [wp_pure]
    refine ⟨_, dead, ⟨effect₂, by rw [splice_length room, cap₁], ?_⟩, ?_, ?_⟩
    · simpa only [← count] using enough
    · trivial
    · simp [splice]

theorem wp_copyAssign_self (holds : Holds h v zs) :
    wp (Vec.copyAssign T v v) (fun v' h' => Left h v h' v' zs [] ∧ v'.nitems = v.nitems) bad h := by
  have size := holds.size_le
  have cap := holds.capacity
  have buffer := holds.buffer
  simp only [Vec.copyAssign, Vec._reserve, size, if_true, wp_bind, wp_pure]
  have idle : Left h v h v zs [] := ⟨.refl buffer, cap, size⟩
  refine wp_post (wp_loop (fun _ t => t = h) v.nitems 0 h rfl ?_) ?_
  · intro i t _ hi same
    obtain ⟨data, m, k⟩ := v
    simp only at size cap hi
    have inside : i < zs.length := by omega
    cases data with
    | none =>
      have empty : zs = [] := buffer
      subst empty
      simp at inside
    | some a =>
      have cell : t.cells a = some zs := by rw [same, buffer.1]
      simp only [Vec.at_, Nat.zero_add] at hi ⊢
      simp only [hi, if_true, wp_bind, wp_read cell (List.getElem?_eq_getElem inside)]
      rw [wp_write cell inside, List.set_getElem_self, Heap.put_cell t a zs cell]
      exact same
  · intro _ t same
    rw [same]
    exact ⟨idle, trivial⟩

theorem wp_popBack (holds : Holds h v zs) (items : v.nitems ≠ 0) :
    wp (Vec.popBack T v) (fun v' h' => Left h v h' v' (zs.set (v.nitems - 1) T.dflt) [] ∧
      v'.nitems = v.nitems - 1) bad h := by
  have size := holds.size_le
  have cap := holds.capacity
  have buffer := holds.buffer
  obtain ⟨data, m, k⟩ := v
  cases data with
  | none =>
    have empty : zs = [] := buffer
    subst empty
    simp at cap size items
    omega
  | some a =>
    simp only at size cap items
    simp only [Vec.popBack, items, if_false, wp_bind]
    rw [wp_write buffer.1 (by omega)]
    exact ⟨⟨.inPlace _ _, by simpa using cap, by simp only; omega⟩, rfl⟩

def holed (zs : List α) (it j : ℕ) (hole : α) : List α :=
  zs.take it ++ ((zs.drop (it + 1)).take j ++ hole :: zs.drop (it + 1 + j))

theorem holed_length {it j : ℕ} {hole : α} (inside : it + j < zs.length) :
    (holed zs it j hole).length = zs.length := by
  simp only [holed, List.length_append, List.length_take, List.length_drop, List.length_cons]
  omega

theorem holed_zero {it : ℕ} {hole : α} (inside : it < zs.length) :
    zs.set it hole = holed zs it 0 hole := by
  rw [List.set_eq_take_append_cons_drop, if_pos inside]
  simp [holed]

/-- Moving the element above the hole into it moves the hole up. -/
theorem holed_step {it j : ℕ} {hole hole' y : α} (hy : zs[it + j + 1]? = some y) :
    ((holed zs it j hole).set (it + j + 1) hole').set (it + j) y = holed zs it (j + 1) hole' := by
  have inside : it + j + 1 < zs.length := (List.getElem?_eq_some_iff.mp hy).choose
  have rest : zs.drop (it + 1 + j) = y :: zs.drop (it + 1 + (j + 1)) := by
    have get : zs[it + 1 + j]? = some y := by rw [← hy]; congr 1; omega
    obtain ⟨lt, eq⟩ := List.getElem?_eq_some_iff.mp get
    rw [List.drop_eq_getElem_cons lt, eq]
    rfl
  have low : (zs.take it).length = it := by simp; omega
  have mid : ((zs.drop (it + 1)).take j).length = j := by simp; omega
  have grown : (zs.drop (it + 1)).take (j + 1) = (zs.drop (it + 1)).take j ++ [y] := by
    rw [List.take_add_one, List.getElem?_drop, show it + 1 + j = it + j + 1 by omega, hy]
    rfl
  have outer : ∀ (l : List α) (i : ℕ) (x : α),
      (zs.take it ++ l).set (it + i) x = zs.take it ++ l.set i x := by
    intro l i x
    rw [List.set_append_right _ _ (by omega), low, Nat.add_sub_cancel_left]
  have inner : ∀ (l : List α) (i : ℕ) (x : α),
      ((zs.drop (it + 1)).take j ++ l).set (j + i) x = (zs.drop (it + 1)).take j ++ l.set i x := by
    intro l i x
    rw [List.set_append_right _ _ (by omega), mid, Nat.add_sub_cancel_left]
  unfold holed
  rw [rest, grown, show it + j + 1 = it + (j + 1) by omega, outer, outer, inner]
  have hole_at := inner (hole :: hole' :: zs.drop (it + 1 + (j + 1))) 0 y
  rw [Nat.add_zero] at hole_at
  simpa using hole_at

theorem wp_erase {it : ℕ} (holds : Holds h v zs) (inside : it < v.nitems) :
    wp (Vec.erase T v it) (fun v' h' => ∃ hole,
      Left h v h' v' (holed zs it (v.nitems - (it + 1)) hole) [] ∧ v'.nitems = v.nitems - 1 ∧
      (hole = T.dflt ∨ ∃ x, hole = T.husk x)) bad h := by
  have size := holds.size_le
  have cap := holds.capacity
  have buffer := holds.buffer
  obtain ⟨data, m, k⟩ := v
  cases data with
  | none =>
    have empty : zs = [] := buffer
    subst empty
    simp at cap size inside
    omega
  | some a =>
    simp only at size cap inside
    simp only [Vec.erase, inside, if_true, wp_bind]
    rw [wp_write buffer.1 (by omega), holed_zero (by omega)]
    let inv : ℕ → Heap α → Prop := fun p t => ∃ hole,
      t = h.put a (holed zs it (p - it) hole) ∧ (hole = T.dflt ∨ ∃ x, hole = T.husk x)
    have init : inv it (h.put a (holed zs it 0 T.dflt)) :=
      ⟨T.dflt, by rw [Nat.sub_self], .inl rfl⟩
    refine wp_post (wp_loop inv (k - (it + 1)) it _ init ?_) ?_
    · rintro p t lo hi ⟨hole, ht, _⟩
      obtain ⟨j, rfl⟩ := Nat.exists_eq_add_of_le lo
      rw [Nat.add_sub_cancel_left] at ht
      have above : zs[it + j + 1]? = some zs[it + j + 1] := List.getElem?_eq_getElem (by omega)
      have len : (holed zs it j hole).length = zs.length := holed_length (by omega)
      have get : (holed zs it j hole)[it + j + 1]? = some zs[it + j + 1] := by
        have low : (zs.take it).length = it := by simp; omega
        have mid : ((zs.drop (it + 1)).take j).length = j := by simp; omega
        unfold holed
        rw [List.getElem?_append_right (by omega), low, List.getElem?_append_right (by omega), mid,
          show it + j + 1 - it - j = 0 + 1 by omega, List.getElem?_cons_succ, List.getElem?_drop,
          show it + 1 + j + 0 = it + j + 1 by omega, above]
      have cell : t.cells a = some (holed zs it j hole) := by rw [ht, Heap.put_self]
      simp only [moveOut, wp_bind, wp_read cell get, wp_write cell (by omega : it + j + 1 < _),
        wp_pure]
      rw [wp_write (Heap.put_self _ _ _) (by rw [List.length_set]; omega)]
      refine ⟨T.husk zs[it + j + 1], ?_, .inr ⟨_, rfl⟩⟩
      rw [holed_step above, ht, Heap.put_put, Heap.put_put,
        show it + j + 1 - it = j + 1 by omega]
    · rintro _ t ⟨hole, ht, kind⟩
      rw [show it + (k - (it + 1)) - it = k - (it + 1) by omega] at ht
      simp only [wp_pure]
      refine ⟨hole, ⟨?_, ?_, by simp only; omega⟩, trivial, kind⟩
      · rw [ht]
        exact .inPlace _ _
      · rw [holed_length (by omega), cap]

theorem wp_destroy (holds : Holds h v zs) :
    wp (Vec.destroy v) (fun _ h' => Effect h v.data h' none [] zs) bad h := by
  have buffer := holds.buffer
  obtain ⟨data, m, k⟩ := v
  cases data with
  | none =>
    have empty : zs = [] := buffer
    subst empty
    exact .idle
  | some a =>
    simp only [Vec.destroy]
    rw [wp_delete buffer.1]
    exact .dropped a zs

end Methods

end Nanolibc.VectorModel
