-- SUMMARY: Nested transactions, by copies of the whole state and by versions of one cell.
import Mathlib

/-!
# Nested transactions

`Snapshots` is the plain way: starting a transaction saves a copy of the state, a commit drops the
copy, a rollback goes back to it.

A store with many cells can do with less. For each cell it keeps a stack of versions, the newest
first, and for each open transaction a flag that says whether the transaction has written the cell.
`Coupled` says that flags and versions stand for given saved values.
-/

/-! ## Saving copies -/

/-- A state with the copies saved for the open transactions, the newest first. -/
structure Snapshots (S : Type*) where
  current : S
  saved : List S

namespace Snapshots

open List

variable {S : Type*} {d : ℕ} {u : S → S}

def update (s : Snapshots S) (f : S → S) : Snapshots S := { s with current := f s.current }

def start (s : Snapshots S) : Snapshots S := { s with saved := s.current :: s.saved }

/-- Without an open transaction nothing happens. -/
def commit (s : Snapshots S) : Snapshots S := { s with saved := s.saved.tail }

/-- Without an open transaction nothing happens. -/
def rollback (s : Snapshots S) : Snapshots S :=
  match s.saved with
  | [] => s
  | copy :: saved => ⟨copy, saved⟩

/-- Roll back all transactions beyond the given depth. -/
def rollbackTo (s : Snapshots S) (depth : ℕ) : Snapshots S := rollback^[s.saved.length - depth] s

theorem length_rollback (s : Snapshots S) : s.rollback.saved.length = s.saved.length - 1 := by
  unfold rollback
  cases h : s.saved with
  | nil => simp [h]
  | cons copy saved => simp

theorem rollbackTo_of_le {s : Snapshots S} (h : s.saved.length ≤ d) : s.rollbackTo d = s := by
  rw [rollbackTo, Nat.sub_eq_zero_of_le h]
  rfl

theorem rollbackTo_of_lt {s : Snapshots S} (h : d < s.saved.length) :
    s.rollbackTo d = s.rollback.rollbackTo d := by
  have hcnt : s.saved.length - d = s.rollback.saved.length - d + 1 := by
    rw [length_rollback]
    omega
  rw [rollbackTo, rollbackTo, hcnt, Function.iterate_succ_apply]

theorem length_rollbackTo {s : Snapshots S} (h : d ≤ s.saved.length) :
    (s.rollbackTo d).saved.length = d := by
  obtain ⟨n, hn⟩ := Nat.exists_eq_add_of_le h
  induction n generalizing s with
  | zero =>
    have hle : s.saved.length ≤ d := hn.le
    rw [rollbackTo_of_le hle]
    exact hn
  | succ n ih =>
    have hr : s.rollback.saved.length = d + n := by
      rw [length_rollback, hn, Nat.add_sub_assoc (Nat.le_add_left 1 n), Nat.add_sub_cancel]
    rw [rollbackTo_of_lt (hn ▸ Nat.lt_add_of_pos_right n.succ_pos)]
    exact ih (hr ▸ Nat.le_add_right d n) hr

/-! ### Parts of the state -/

section
variable {T : Type*} {f : S → T}

/-- A part of the state, in the state itself and in all copies. -/
def map (f : S → T) (s : Snapshots S) : Snapshots T := ⟨f s.current, s.saved.map f⟩

@[simp] theorem length_saved_map (s : Snapshots S) : (s.map f).saved.length = s.saved.length :=
  length_map f

@[simp] theorem map_commit (s : Snapshots S) : s.commit.map f = (s.map f).commit := by
  simp [map, commit]

@[simp] theorem map_rollback (s : Snapshots S) : s.rollback.map f = (s.map f).rollback := by
  obtain ⟨cur, sa⟩ := s
  cases sa with
  | nil | cons => rfl

@[simp] theorem map_rollbackTo (s : Snapshots S) (de : ℕ) :
    (s.rollbackTo de).map f = (s.map f).rollbackTo de := by
  unfold rollbackTo
  rw [length_saved_map]
  exact (Function.Semiconj.iterate_right map_rollback _).eq s

/-- An update of the part. -/
theorem map_update {v : T → T} (h : ∀ x, f (u x) = v (f x)) (s : Snapshots S) :
    (s.update u).map f = (s.map f).update v := by
  simp [map, update, h]

/-- An update of another part. -/
theorem map_update_of_eq (h : ∀ x, f (u x) = f x) (s : Snapshots S) :
    (s.update u).map f = s.map f := by
  simp [map, update, h]

end

/-! ### States that have never changed -/

/-- The state and all copies are `a`. -/
def Constant (a : S) (s : Snapshots S) : Prop := s.current = a ∧ ∀ x ∈ s.saved, x = a

variable {a : S} {s : Snapshots S}

theorem Constant.start (h : s.Constant a) : s.start.Constant a := ⟨h.1, forall_mem_cons.mpr h⟩

theorem Constant.commit (h : s.Constant a) : s.commit.Constant a :=
  ⟨h.1, fun x hmem => h.2 x (mem_of_mem_tail hmem)⟩

theorem Constant.rollback (h : s.Constant a) : s.rollback.Constant a := by
  obtain ⟨cur, sa⟩ := s
  cases sa with
  | nil => exact h
  | cons copy sa => exact forall_mem_cons.mp h.2

theorem Constant.rollbackTo (h : s.Constant a) (de : ℕ) : (s.rollbackTo de).Constant a := by
  unfold Snapshots.rollbackTo
  induction s.saved.length - de generalizing s with
  | zero => exact h
  | succ n ih => exact ih h.rollback

end Snapshots

/-! ## Versions of one cell -/

namespace Versions

open List

variable {W : Type*}

/-- The cell has been written in the innermost transaction. -/
def mark : List Bool → List Bool
  | [] => []
  | _ :: flags => true :: flags

/-- The first write in a transaction adds a version, as does the first write of
all. Another write replaces the newest version. -/
def write : List Bool → List W → W → List W
  | false :: _, versions, value => value :: versions
  | _, versions, value => value :: versions.tail

/-- The flags of the open transactions and the versions stand for the values
saved for these transactions. -/
inductive Coupled : List Bool → List W → List (Option W) → Prop where
  | base {versions : List W} (h : versions.length ≤ 1) : Coupled [] versions []
  | clean {flags : List Bool} {versions : List W} {saved : List (Option W)}
      (h : Coupled flags versions saved) :
      Coupled (false :: flags) versions (versions.head? :: saved)
  | dirty {flags : List Bool} {versions : List W} {saved : List (Option W)}
      (h : Coupled flags versions saved) (value : W) :
      Coupled (true :: flags) (value :: versions) (versions.head? :: saved)

@[simp] theorem head?_write (fs : List Bool) (vs : List W) (v : W) :
    (write fs vs v).head? = some v := by
  unfold write
  split
  · rfl
  · rfl

variable {fs : List Bool} {vs : List W} {s : List (Option W)} {c : Option W}

theorem Coupled.write (h : Coupled fs vs s) (v : W) : Coupled (mark fs) (write fs vs v) s := by
  cases h with
  | base hlen =>
    refine .base ?_
    simp only [write, length_cons, length_tail]
    omega
  | clean h | dirty h old => exact .dirty h v

/-- A commit writes the newest version into the transaction around it. -/
theorem Coupled.commit {v : W} (h : Coupled (true :: fs) (v :: vs) (c :: s)) :
    Coupled (mark fs) (Versions.write fs vs v) s := by
  cases h with
  | dirty h => exact h.write v

/-- A rollback drops the newest version. -/
theorem Coupled.rollback {v : W} (h : Coupled (true :: fs) (v :: vs) (c :: s)) :
    Coupled fs vs s ∧ vs.head? = c := by
  cases h with
  | dirty h => exact ⟨h, rfl⟩

/-- A transaction that has not written the cell is closed either way. -/
theorem Coupled.close_clean (h : Coupled (false :: fs) vs (c :: s)) :
    Coupled fs vs s ∧ vs.head? = c := by
  cases h with
  | clean h => exact ⟨h, rfl⟩

/-- A cell without versions has never been written. -/
theorem Coupled.eq_none (h : Coupled fs [] s) : ∀ c ∈ s, c = none := by
  generalize hv : [] = vs at h
  induction h with
  | base => simp
  | clean h ih =>
    subst hv
    exact forall_mem_cons.mpr ⟨rfl, ih rfl⟩
  | dirty => cases hv

/-- A cell that no transaction has written, nor anything before. -/
theorem coupled_nil (d : ℕ) : Coupled (replicate d false) [] (replicate d (none : Option W)) := by
  induction d with
  | zero => exact .base (Nat.zero_le 1)
  | succ d ih => exact .clean ih

theorem Coupled.ne_nil (h : Coupled (true :: fs) vs s) : vs ≠ [] := by
  cases h with
  | dirty => exact cons_ne_nil _ _

end Versions
