-- SUMMARY: Removal from a list as a permutation: by swapping with the last element, and by a key.
import Mathlib

/-!
# Swap-removal

`swapRemove` takes one element out of a vector in constant time: the last
element moves into the hole. The order is not kept, the contents are, and the
part in front of the hole is not touched.
-/

namespace Vec

open List

variable {A B : Type*} {l : List A} {i : Nat} {x : A} {re : List A} {p : A → Bool}

/-- Remove the element at `i`, filling the hole with the last element. Indexing
past the end is `none`. -/
def swapRemove (l : List A) (i : Nat) : Option (A × List A) :=
  match l.drop i with
  | [] => none
  | x :: ys =>
    match ys.getLast? with
    | none => some (x, l.take i)
    | some z => some (x, l.take i ++ z :: ys.dropLast)

theorem swapRemove_append_cons (xs : List A) (x : A) (ys : List A) :
    ∃ zs, swapRemove (xs ++ x :: ys) xs.length = some (x, xs ++ zs) ∧ zs.Perm ys := by
  rcases eq_nil_or_concat ys with rfl | ⟨init, z, rfl⟩
  · exact ⟨[], by simp [swapRemove], List.Perm.refl _⟩
  · refine ⟨z :: init, by simp [swapRemove], ?_⟩
    simpa using (perm_append_singleton z init).symm

theorem swapRemove_of_lt (h : i < l.length) :
    ∃ zs, swapRemove l i = some (l[i], l.take i ++ zs) ∧ zs.Perm (l.drop (i + 1)) := by
  have hspl : l = l.take i ++ l[i] :: l.drop (i + 1) := by simp
  have hlen : (l.take i).length = i := by simp [Nat.le_of_lt h]
  obtain ⟨zs, hzs, hp⟩ := swapRemove_append_cons (l.take i) l[i] (l.drop (i + 1))
  rw [← hspl, hlen] at hzs
  exact ⟨zs, hzs, hp⟩

theorem swapRemove_eq_none : swapRemove l i = none ↔ l.length ≤ i := by
  constructor
  · intro h
    by_contra hlt
    obtain ⟨zs, hzs, -⟩ := swapRemove_of_lt (Nat.lt_of_not_le hlt)
    simp [hzs] at h
  · intro h
    simp [swapRemove, drop_eq_nil_of_le h]

theorem swapRemove_eq_some (h : swapRemove l i = some (x, re)) :
    l[i]? = some x ∧ l.Perm (x :: re) := by
  have hlt : i < l.length := by
    by_contra hge
    simp [swapRemove_eq_none.mpr (Nat.le_of_not_lt hge)] at h
  obtain ⟨zs, hzs, hp⟩ := swapRemove_of_lt hlt
  rw [hzs] at h
  obtain ⟨rfl, rfl⟩ := by simpa using h
  refine ⟨getElem?_eq_getElem hlt, ?_⟩
  have hspl : l.Perm (l[i] :: (l.take i ++ l.drop (i + 1))) := by
    have hmid : (l.take i ++ l[i] :: l.drop (i + 1)).Perm (l[i] :: (l.take i ++ l.drop (i + 1))) :=
      perm_middle
    simpa using hmid
  exact hspl.trans ((hp.symm.append_left _).cons _)

/-- The part in front of the hole is not touched. -/
theorem take_of_swapRemove (h : swapRemove l i = some (x, re)) (tail : List A) :
    (re ++ tail).take i = l.take i := by
  have hlt : i < l.length := (List.getElem?_eq_some_iff.mp (swapRemove_eq_some h).1).1
  obtain ⟨zs, hzs, -⟩ := swapRemove_of_lt hlt
  rw [hzs] at h
  obtain ⟨-, rfl⟩ := by simpa using h
  rw [append_assoc, take_append_of_le_length (by simp [Nat.le_of_lt hlt]), take_take, Nat.min_self]

theorem swapRemove_map (f : A → B) (l : List A) (i : Nat) :
    swapRemove (l.map f) i = (swapRemove l i).map (Prod.map f (map f)) := by
  unfold swapRemove
  rw [← map_drop]
  cases l.drop i with
  | nil => rfl
  | cons x ys =>
    cases h : ys.getLast? with
    | none => simp [h]
    | some z => simp [h]

/-! ## At the first match -/

/-- Swap-remove the first element that satisfies `p`. -/
def swapRemoveFirst (p : A → Bool) (l : List A) : Option (A × List A) :=
  (l.findIdx? p).bind (swapRemove l)

theorem swapRemoveFirst_eq_none : swapRemoveFirst p l = none ↔ ∀ x ∈ l, p x = false := by
  unfold swapRemoveFirst
  cases h : l.findIdx? p with
  | none => simpa using findIdx?_eq_none_iff.mp h
  | some i =>
    obtain ⟨hi, hp, -⟩ := findIdx?_eq_some_iff_getElem.mp h
    simp only [Option.bind_some, swapRemove_eq_none]
    constructor
    · intro hle
      omega
    · intro hall
      simp [hall _ (getElem_mem hi)] at hp

theorem swapRemoveFirst_eq_some (h : swapRemoveFirst p l = some (x, re)) :
    p x = true ∧ l.Perm (x :: re) := by
  obtain ⟨i, hi, hs⟩ := Option.bind_eq_some_iff.mp h
  obtain ⟨hlt, hp, -⟩ := findIdx?_eq_some_iff_getElem.mp hi
  obtain ⟨hget, hpe⟩ := swapRemove_eq_some hs
  rw [getElem?_eq_getElem hlt, Option.some.injEq] at hget
  exact ⟨hget ▸ hp, hpe⟩

theorem swapRemoveFirst_isSome (hx : x ∈ l) (hp : p x = true) :
    ∃ y re, swapRemoveFirst p l = some (y, re) := by
  cases h : swapRemoveFirst p l with
  | none => simp [swapRemoveFirst_eq_none.mp h x hx] at hp
  | some r => exact ⟨r.1, r.2, rfl⟩

theorem swapRemoveFirst_map (p : B → Bool) (f : A → B) (l : List A) :
    swapRemoveFirst p (l.map f) = (swapRemoveFirst (p ∘ f) l).map (Prod.map f (map f)) := by
  unfold swapRemoveFirst
  rw [findIdx?_map]
  cases l.findIdx? (p ∘ f) with
  | none => rfl
  | some i => simpa using swapRemove_map f l i

/-! ## Removal by a key -/

/-- Dropping the key of one element drops that element alone, when keys are not repeated. -/
theorem perm_cons_filter_key {K : Type*} [DecidableEq K] {f : A → K} (hl : (l.map f).Nodup)
    (hx : x ∈ l) : l.Perm (x :: l.filter fun y => f y ≠ f x) := by
  induction l with
  | nil => cases hx
  | cons y l ih =>
    obtain ⟨hy, hl⟩ := nodup_cons.mp hl
    by_cases hxy : f y = f x
    · -- the element itself; no other one has its key
      have hk : l.filter (fun z => f z ≠ f x) = l := by
        refine filter_eq_self.mpr fun z hz => decide_eq_true fun hzx => hy ?_
        exact mem_map.mpr ⟨z, hz, hzx.trans hxy.symm⟩
      have hxy' : x = y := by
        rcases mem_cons.mp hx with rfl | hx
        · rfl
        · exact absurd (mem_map.mpr ⟨x, hx, hxy.symm⟩) hy
      rw [filter_cons_of_neg (by simp [hxy]), hk, hxy']
    · have hx : x ∈ l := (mem_cons.mp hx).resolve_left fun h => hxy (h ▸ rfl)
      rw [filter_cons_of_pos (by simp [hxy])]
      exact ((ih hl hx).cons y).trans (.swap x y _)

end Vec
