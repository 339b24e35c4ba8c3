-- SUMMARY: Computations that may fail, checked and saturating arithmetic, and their inversions.
import Mathlib

/-!
# Fallible computations

A computation in `Except E` is taken apart from its result: a bind that succeeded, a check
that passed, an option that had a value. Numbers of a fixed width are natural numbers up to
a maximum.
-/

namespace Fallible

universe u

variable {E : Type*} {A B : Type u}

/-- Fails unless the condition holds. -/
def ensure (c : Prop) [Decidable c] (e : E) : Except E Unit := if c then .ok () else .error e

/-- Fails unless there is a value. -/
def okOr (o : Option A) (e : E) : Except E A :=
  match o with
  | some a => .ok a
  | none => .error e

theorem bind_eq_ok {x : Except E A} {f : A → Except E B} {b : B} (h : x >>= f = .ok b) :
    ∃ a, x = .ok a ∧ f a = .ok b := by
  cases x with
  | error e => cases h
  | ok a => exact ⟨a, rfl, h⟩

theorem of_ensure {c : Prop} [Decidable c] {e : E} {u : Unit} (h : ensure c e = .ok u) : c := by
  unfold ensure at h
  split at h
  · assumption
  · cases h

theorem of_okOr {o : Option A} {e : E} {a : A} (h : okOr o e = .ok a) : o = some a := by
  cases o with
  | none => cases h
  | some a' =>
    cases h
    rfl

/-! ## Numbers up to a maximum -/

def checkedAdd (max a b : ℕ) : Option ℕ := if a + b ≤ max then some (a + b) else none

def checkedSub (a b : ℕ) : Option ℕ := if b ≤ a then some (a - b) else none

def saturatingAdd (max a b : ℕ) : ℕ := min max (a + b)

variable {max a b c : ℕ}

theorem checkedAdd_eq_some : checkedAdd max a b = some c ↔ a + b ≤ max ∧ c = a + b := by
  unfold checkedAdd
  split
  next h => simp [h, eq_comm]
  next h => simp [h]

theorem checkedSub_eq_some : checkedSub a b = some c ↔ b ≤ a ∧ c = a - b := by
  unfold checkedSub
  split
  next h => simp [h, eq_comm]
  next h => simp [h]

theorem saturatingAdd_of_le (h : a + b ≤ max) : saturatingAdd max a b = a + b := Nat.min_eq_right h

end Fallible
