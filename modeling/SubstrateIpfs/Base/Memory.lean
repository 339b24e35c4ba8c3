-- SUMMARY: Byte-addressed memories, segments that tile an interval, and packed records.
import Mathlib

/-!
# Byte memories

A memory gives a byte for every address. `slice` reads a run of bytes, `splice`
writes one. A read sees the bytes it covers and no others, so a write elsewhere
does not change it.
-/

namespace Bytes

open List

variable {m m' : Nat → UInt8} {a n : Nat} {b : List UInt8}

/-- The `n` bytes from address `a` on. -/
def slice (m : Nat → UInt8) (a n : Nat) : List UInt8 := (List.range n).map fun i => m (a + i)

/-- The memory with `b` written from address `a` on. -/
def splice (m : Nat → UInt8) (a : Nat) (b : List UInt8) : Nat → UInt8 := fun x =>
  if a ≤ x then b[x - a]?.getD (m x) else m x

theorem slice_congr (h : ∀ x, a ≤ x → x < a + n → m' x = m x) : slice m' a n = slice m a n := by
  refine map_congr_left fun i hi => h (a + i) (by omega) ?_
  have := mem_range.mp hi
  omega

theorem splice_of_apart {x : Nat} (h : x < a ∨ a + b.length ≤ x) : splice m a b x = m x := by
  unfold splice
  split
  · rw [getElem?_eq_none (by omega), Option.getD_none]
  · rfl

theorem slice_splice_self : slice (splice m a b) a b.length = b := by
  refine ext_getElem? fun i => ?_
  by_cases hi : i < b.length
  · simp [slice, splice, getElem?_range hi, getElem?_eq_getElem hi]
  · simp [slice, hi]

end Bytes

/-! ## Tilings of an interval

A segment is a pair of a start and an end. A list of segments tiles `[lo, hi)`
when, put in the right order, each starts where the previous one ends. Such
segments lie in the interval, do not overlap, and their lengths add up.
-/

/-- A half-open segment of the number line. -/
structure Segment where
  start : Nat
  stop : Nat
  start_le : start ≤ stop

namespace Segment

/-- The segments share no point. -/
def Apart (s t : Segment) : Prop := s.stop ≤ t.start ∨ t.stop ≤ s.start

instance (s t : Segment) : Decidable (s.Apart t) := inferInstanceAs (Decidable (_ ∨ _))

theorem Apart.symm {s t : Segment} (h : s.Apart t) : t.Apart s := Or.symm h

/-- The segments are laid end to end from `lo` to `hi`. -/
def Consecutive : Nat → List Segment → Nat → Prop
  | lo, [], hi => lo = hi
  | lo, s :: l, hi => s.start = lo ∧ Consecutive s.stop l hi

/-- The segments, in some order, are laid end to end from `lo` to `hi`. -/
def Tiles (lo : Nat) (l : List Segment) (hi : Nat) : Prop := ∃ l', l.Perm l' ∧ Consecutive lo l' hi

variable {lo hi : Nat} {l l' : List Segment} {s : Segment}

section
variable (h : Consecutive lo l hi)

include h

theorem Consecutive.le : lo ≤ hi := by
  induction l generalizing lo with
  | nil => exact Nat.le_of_eq h
  | cons s l ih =>
    have := ih h.2
    have := s.start_le
    have := h.1
    omega

theorem Consecutive.mem_bounds (hs : s ∈ l) : lo ≤ s.start ∧ s.stop ≤ hi := by
  induction l generalizing lo with
  | nil => cases hs
  | cons t l ih =>
    have ht := h.1
    rcases List.mem_cons.mp hs with rfl | hs
    · exact ⟨Nat.le_of_eq ht.symm, h.2.le⟩
    · have := ih h.2 hs
      have := t.start_le
      omega

theorem Consecutive.pairwise : l.Pairwise Apart := by
  induction l generalizing lo with
  | nil => exact List.Pairwise.nil
  | cons s l ih => exact List.Pairwise.cons (fun t ht => Or.inl (h.2.mem_bounds ht).1) (ih h.2)

theorem Consecutive.sum : lo + (l.map fun s => s.stop - s.start).sum = hi := by
  induction l generalizing lo with
  | nil => simpa [Consecutive] using h
  | cons s l ih =>
    have hsum := ih h.2
    have := s.start_le
    have := h.1
    simp only [List.map_cons, List.sum_cons]
    omega

theorem Consecutive.append (hs : s.start = hi) : Consecutive lo (l ++ [s]) s.stop := by
  induction l generalizing lo with
  | nil => exact ⟨hs.trans h.symm, rfl⟩
  | cons t l ih => exact ⟨h.1, ih h.2⟩

end

theorem tiles_nil : Tiles lo [] lo := ⟨[], .nil, rfl⟩

section
variable (h : Tiles lo l hi)

include h

theorem Tiles.perm (hp : l.Perm l') : Tiles lo l' hi := by
  obtain ⟨l0, hp0, hl0⟩ := h
  exact ⟨l0, hp.symm.trans hp0, hl0⟩

/-- A segment that starts where the tiling ends extends it. -/
theorem Tiles.cons (hs : s.start = hi) : Tiles lo (s :: l) s.stop := by
  obtain ⟨l0, hp, hl0⟩ := h
  exact ⟨l0 ++ [s], (hp.cons s).trans (List.perm_append_singleton s l0).symm, hl0.append hs⟩

theorem Tiles.mem_bounds (hs : s ∈ l) : lo ≤ s.start ∧ s.stop ≤ hi := by
  obtain ⟨_, hp, hl⟩ := h
  exact hl.mem_bounds (hp.mem_iff.mp hs)

theorem Tiles.pairwise : l.Pairwise Apart := by
  obtain ⟨_, hp, hl⟩ := h
  exact (hp.pairwise_iff fun h => h.symm).mpr hl.pairwise

/-- The lengths add up to the length of the interval. -/
theorem Tiles.sum : lo + (l.map fun s => s.stop - s.start).sum = hi := by
  obtain ⟨_, hp, hl⟩ := h
  rw [(hp.map _).sum_eq]
  exact hl.sum

end

end Segment

/-! ## Packed records

Records of different lengths are stored back to back in one list. A record is addressed by its
offset, the length of what comes before it.
-/

/-- Reading a list index by index, up to an index behind its end. -/
theorem List.filterMap_getElem?_range {A : Type*} {l : List A} {n : Nat} (h : l.length ≤ n) :
    (range n).filterMap (fun i => l[i]?) = l := by
  induction l generalizing n with
  | nil => simp
  | cons a l ih =>
    obtain ⟨m, rfl⟩ : ∃ m, n = m + 1 := ⟨n - 1, by simp only [length_cons] at h; omega⟩
    have hr := ih (n := m) (by simp only [length_cons] at h; omega)
    rw [range_succ_eq_map]
    simpa using hr

namespace Records

open List

variable {A B : Type*}

/-- The records, back to back. -/
def layout (enc : A → List B) (l : List A) : List B := l.flatMap enc

/-- Where record `i` starts. -/
def offset (enc : A → List B) (l : List A) (i : Nat) : Nat := (layout enc (l.take i)).length

variable {enc : A → List B} {l : List A} {a : A} {i j : Nat}

@[simp] theorem layout_nil : layout enc [] = [] := rfl

@[simp] theorem layout_cons : layout enc (a :: l) = enc a ++ layout enc l := flatMap_cons

@[simp] theorem layout_append {l' : List A} :
    layout enc (l ++ l') = layout enc l ++ layout enc l' :=
  flatMap_append

@[simp] theorem offset_zero : offset enc l 0 = 0 := rfl

@[simp] theorem offset_cons_succ :
    offset enc (a :: l) (i + 1) = (enc a).length + offset enc l i := by
  simp [offset]

theorem layout_take_append_drop :
    layout enc (l.take i) ++ layout enc (l.drop i) = layout enc l := by
  rw [← layout_append, take_append_drop]

theorem offset_length : offset enc l l.length = (layout enc l).length := by
  rw [offset, take_length]

theorem offset_append_left {l' : List A} (h : i ≤ l.length) :
    offset enc (l ++ l') i = offset enc l i := by
  rw [offset, offset, take_append_of_le_length h]

theorem offset_le : offset enc l i ≤ (layout enc l).length := by
  have hspl : layout enc (l.take i) ++ layout enc (l.drop i) = layout enc l :=
    layout_take_append_drop
  have hlen := congrArg length hspl
  rw [length_append] at hlen
  exact Nat.le.intro hlen

/-- What is read from the offset of a record on. -/
theorem drop_offset : (layout enc l).drop (offset enc l i) = layout enc (l.drop i) := by
  rw [← layout_take_append_drop]
  exact drop_left

theorem layout_drop (h : l[i]? = some a) :
    layout enc (l.drop i) = enc a ++ layout enc (l.drop (i + 1)) := by
  obtain ⟨hi, rfl⟩ := List.getElem?_eq_some_iff.mp h
  rw [drop_eq_getElem_cons hi, layout_cons]

theorem offset_succ (h : l[i]? = some a) :
    offset enc l (i + 1) = offset enc l i + (enc a).length := by
  rw [offset, take_add_one, h, offset]
  simp

theorem offset_add_le (h : l[i]? = some a) :
    offset enc l i + (enc a).length ≤ (layout enc l).length :=
  Nat.le_trans (Nat.le_of_eq (offset_succ h).symm) offset_le

theorem length_le_layout (h : ∀ a, enc a ≠ []) : l.length ≤ (layout enc l).length := by
  induction l with
  | nil => exact Nat.le_refl 0
  | cons a l ih =>
    have ha := length_pos_of_ne_nil (h a)
    rw [layout_cons, length_cons, length_append]
    omega

theorem offset_mono (h : i ≤ j) : offset enc l i ≤ offset enc l j := by
  have ht : (l.take j).take i = l.take i := by rw [take_take, Nat.min_eq_left h]
  have hle : offset enc (l.take j) i ≤ (layout enc (l.take j)).length := offset_le
  rwa [offset, ht] at hle

theorem offset_lt (h : ∀ a, enc a ≠ []) (hi : i < l.length) (hij : i < j) :
    offset enc l i < offset enc l j := by
  have hpos := length_pos_of_ne_nil (h l[i])
  have hnext : offset enc l (i + 1) = offset enc l i + (enc l[i]).length :=
    offset_succ (getElem?_eq_getElem hi)
  have hmono : offset enc l (i + 1) ≤ offset enc l j := offset_mono hij
  omega

/-! ## Overwriting in place -/

/-- The list with `d` written from position `f` on, as far as the list goes. -/
def overwrite : List B → Nat → List B → List B
  | [], _, _ => []
  | b :: l, f + 1, d => b :: overwrite l f d
  | b :: l, 0, [] => b :: l
  | _ :: l, 0, x :: d => x :: overwrite l 0 d

@[simp] theorem length_overwrite {l : List B} {f : Nat} {d : List B} :
    (overwrite l f d).length = l.length := by
  fun_induction overwrite l f d with
  | case1 => rfl
  | case2 b l f d ih => rw [length_cons, length_cons, ih]
  | case3 b l => rfl
  | case4 b l x d ih => rw [length_cons, length_cons, ih]

theorem overwrite_append {pre old p d : List B} (h : d.length = old.length) :
    overwrite (pre ++ (old ++ p)) pre.length d = pre ++ (d ++ p) := by
  induction pre with
  | nil =>
    induction old generalizing d with
    | nil =>
      obtain rfl := eq_nil_of_length_eq_zero h
      cases p <;> rfl
    | cons b old ih =>
      cases d with
      | nil => cases h
      | cons x d => exact congrArg (x :: ·) (ih (Nat.succ.inj h))
  | cons b pre ih => exact congrArg (b :: ·) ih

/-- A record that is replaced by one of the same length, by overwriting its first part. -/
theorem overwrite_layout {b : A} {old new r : List B} (h : l[i]? = some a)
    (ha : enc a = old ++ r) (hb : enc b = new ++ r) (hlen : new.length = old.length) :
    overwrite (layout enc l) (offset enc l i) new = layout enc (l.set i b) := by
  obtain ⟨hi, -⟩ := List.getElem?_eq_some_iff.mp h
  rw [← layout_take_append_drop, layout_drop h, ha, append_assoc,
    set_eq_take_append_cons_drop, if_pos hi, layout_append, layout_cons, hb, append_assoc]
  exact overwrite_append hlen

theorem offset_set_of_length_eq {b : A} (h : l[i]? = some a)
    (hlen : (enc b).length = (enc a).length) : offset enc (l.set i b) j = offset enc l j := by
  induction l generalizing i j with
  | nil => rfl
  | cons a' l ih =>
    cases j with
    | zero => rfl
    | succ j =>
      cases i with
      | zero =>
        cases Option.some.inj h
        rw [set_cons_zero, offset_cons_succ, offset_cons_succ, hlen]
      | succ i => rw [set_cons_succ, offset_cons_succ, offset_cons_succ, ih h]

end Records
