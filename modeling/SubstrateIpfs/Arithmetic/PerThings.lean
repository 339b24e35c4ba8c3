-- SUMMARY: Parts per thing: rounded division, multiplication by a part, and parts from a rational.
import Mathlib

/-!
# Parts per thing

A part is a number of parts per accuracy. It multiplies integers of any unsigned type that
holds the accuracy, with intermediate results in two types of its own. A number is always
a `Nat` with the bits of its type beside it; what overflows, or divides by zero, panics and
has no result.
-/

namespace Arithmetic

/-- The rounding method to use for unsigned quantities. -/
inductive Rounding where
  | up
  | down
  | nearestPrefUp
  | nearestPrefDown

/-- A type of parts. -/
structure PerThing where
  accuracy : ℕ
  /-- The bits of `Inner` and of `Upper`. -/
  inner : ℕ
  upper : ℕ
  accuracy_pos : 0 < accuracy
  accuracy_lt : accuracy < 2 ^ inner
  /-- `Upper` must be able to compute squares. -/
  inner_le : inner + inner ≤ upper

namespace PerThing

def percent : PerThing := ⟨100, 8, 16, by decide, by decide, by decide⟩
def perU16 : PerThing := ⟨65535, 16, 32, by decide, by decide, by decide⟩
def permill : PerThing := ⟨1000000, 32, 64, by decide, by decide, by decide⟩
def perbill : PerThing := ⟨1000000000, 32, 64, by decide, by decide, by decide⟩
def perquintill : PerThing := ⟨1000000000000000000, 64, 128, by decide, by decide, by decide⟩

end PerThing

/-- A number as one of so many bits. -/
def fit (bits n : ℕ) : Option ℕ := if n < 2 ^ bits then some n else none

theorem fit_eq {bits n : ℕ} (h : n < 2 ^ bits) : fit bits n = some n := if_pos h

/-! ## Rounded division -/

variable {t : PerThing} {r : Rounding} {bits n n' d d' z z' x p q part : ℕ}

/-- Is a quotient with this remainder rounded up? -/
def Rounding.bumps (r : Rounding) (rem d : ℕ) : Bool :=
  match r with
  | .up => 0 < rem
  | .down => false
  | .nearestPrefUp => d / 2 + d % 2 ≤ rem
  | .nearestPrefDown => d / 2 < rem

def Rounding.div (r : Rounding) (n d : ℕ) : ℕ := if r.bumps (n % d) d then n / d + 1 else n / d

/-- Just a simple generic integer divide with custom rounding. -/
def divRounded (bits n d : ℕ) (r : Rounding) : Option ℕ :=
  if d = 0 then none else fit bits (r.div n d)

/-- The rational `n / d`, rounded, is `z`. -/
def Rounds (r : Rounding) (n d z : ℕ) : Prop :=
  match r with
  | .up => n ≤ z * d ∧ z * d < n + d
  | .down => z * d ≤ n ∧ n < z * d + d
  | .nearestPrefUp => 2 * (z * d) ≤ 2 * n + d ∧ 2 * n < 2 * (z * d) + d
  | .nearestPrefDown => 2 * (z * d) < 2 * n + d ∧ 2 * n ≤ 2 * (z * d) + d

theorem rounds_div (hd : 0 < d) : Rounds r n d (r.div n d) := by
  have hdiv : n / d * d + n % d = n := Nat.div_add_mod' n d
  have hlt := Nat.mod_lt n hd
  unfold Rounding.div Rounding.bumps
  cases r <;> dsimp only <;> split <;> simp_all [Rounds, add_mul] <;> omega

theorem rounds_mul (hd : 0 < d) : Rounds r (z * d) d z := by
  cases r <;> constructor <;> omega

theorem Rounds.mono (h : Rounds r n d z) (h' : Rounds r n' d z') (hle : n ≤ n') : z ≤ z' := by
  by_contra hlt
  have hmul : (z' + 1) * d ≤ z * d := Nat.mul_le_mul_right d (Nat.lt_of_not_le hlt)
  rw [add_mul] at hmul
  cases r <;> simp only [Rounds] at h h' <;> omega

/-- The rational `n / d` is rounded to more than `k`. -/
def Rounding.Exceeds (r : Rounding) (n d k : ℕ) : Prop :=
  match r with
  | .up => k * d < n
  | .down => k * d + d ≤ n
  | .nearestPrefUp => 2 * (k * d) + d ≤ 2 * n
  | .nearestPrefDown => 2 * (k * d) + d < 2 * n

theorem Rounds.exceeds_iff (h : Rounds r n d z) (k : ℕ) : r.Exceeds n d k ↔ k < z := by
  have hlt : k < z → (k + 1) * d ≤ z * d := fun hk => Nat.mul_le_mul_right d hk
  have hge : z ≤ k → z * d ≤ k * d := fun hk => Nat.mul_le_mul_right d hk
  rw [add_mul] at hlt
  cases r <;> simp only [Rounds, Rounding.Exceeds] at h ⊢ <;> omega

/-- Two rationals are rounded to the same number if no threshold lies between them. -/
theorem Rounds.of_exceeds (hd : 0 < d) (h : Rounds r n' d' z)
    (hsame : ∀ k, r.Exceeds n d k ↔ r.Exceeds n' d' k) : Rounds r n d z := by
  have hrds : Rounds r n d (r.div n d) := rounds_div hd
  have heq : r.div n d = z := eq_of_forall_lt_iff fun k => by
    rw [← hrds.exceeds_iff, hsame, h.exceeds_iff]
  exact heq ▸ hrds

theorem Rounds.add (h : Rounds r n d z) (k : ℕ) : Rounds r (k * d + n) d (k + z) := by
  cases r <;> simp only [Rounds, add_mul] at h ⊢ <;> omega

/-- A fraction that is expanded. -/
theorem Rounds.expand (h : Rounds r n d z) {k : ℕ} (hk : 0 < k) : Rounds r (n * k) (d * k) z := by
  cases r <;> exact ⟨by nlinarith [h.1], by nlinarith [h.2]⟩

theorem div_mul_right (hd : 0 < d) : r.div (z * d) d = z :=
  le_antisymm ((rounds_div hd).mono (rounds_mul hd) le_rfl)
    ((rounds_mul hd).mono (rounds_div hd) le_rfl)

theorem div_le_self (hd : 0 < d) : r.div n d ≤ n :=
  (rounds_div hd).mono (rounds_mul hd) (Nat.le_mul_of_pos_right n hd)

theorem divRounded_eq (hd : 0 < d) (hn : n < 2 ^ bits) :
    divRounded bits n d r = some (r.div n d) := by
  rw [divRounded, if_neg hd.ne', fit_eq ((div_le_self hd).trans_lt hn)]

/-! ## Multiplication -/

/-- Compute the error due to integer division in the expression `x / denom * numer`. -/
def rationalMulCorrection (t : PerThing) (x numer denom : ℕ) (r : Rounding) : Option ℕ :=
  if denom = 0 then none
  else do
    let remInner := min (x % denom) (2 ^ t.inner - 1)
    let remMulUpper ← fit t.upper (remInner * numer)
    let remMulDivInner := min (remMulUpper / denom) (2 ^ t.inner - 1)
    if r.bumps (remMulUpper % denom) denom then fit t.inner (remMulDivInner + 1)
    else some remMulDivInner

/-- Saturating reciprocal multiplication. Compute `x / self`, saturating at the numeric bounds
instead of overflowing. -/
def saturatingReciprocalMul (t : PerThing) (bits x part : ℕ) (r : Rounding) : Option ℕ := do
  let c ← rationalMulCorrection t x t.accuracy part r
  some (min (min (x / part * t.accuracy) (2 ^ bits - 1) + c) (2 ^ bits - 1))

/-- Overflow-prune multiplication. Accurately multiply a value by `self` without overflowing. -/
def overflowPruneMul (t : PerThing) (bits x part : ℕ) (r : Rounding) : Option ℕ := do
  let c ← rationalMulCorrection t x part t.accuracy r
  let product ← fit bits (x / t.accuracy * part)
  fit bits (product + c)

theorem PerThing.mul_lt {a b : ℕ} (ha : a < 2 ^ t.inner) (hb : b < 2 ^ t.inner) :
    a * b < 2 ^ t.upper :=
  calc a * b < 2 ^ t.inner * 2 ^ t.inner := Nat.mul_lt_mul'' ha hb
    _ = 2 ^ (t.inner + t.inner) := (pow_add ..).symm
    _ ≤ 2 ^ t.upper := Nat.pow_le_pow_right two_pos t.inner_le

theorem rationalMulCorrection_eq {numer denom : ℕ} (hpos : 0 < denom) (hlt : denom < 2 ^ t.inner)
    (hnumer : numer < 2 ^ t.inner) :
    rationalMulCorrection t x numer denom r = some (r.div (x % denom * numer) denom) := by
  have hrem := Nat.mod_lt x hpos
  have hle : r.div (x % denom * numer) denom ≤ numer := by
    refine (rounds_div hpos).mono (rounds_mul hpos) ?_
    rw [mul_comm]
    exact Nat.mul_le_mul_left numer hrem.le
  unfold rationalMulCorrection
  rw [if_neg hpos.ne', min_eq_left (by omega)]
  dsimp only
  rw [fit_eq (t.mul_lt (hrem.trans hlt) hnumer), Option.bind_eq_bind, Option.bind_some]
  unfold Rounding.div at hle ⊢
  split
  next hup =>
    rw [if_pos hup] at hle
    rw [min_eq_left (by omega), fit_eq (by omega)]
  next hup =>
    rw [if_neg hup] at hle
    rw [min_eq_left (by omega)]

/-- The quotient and its correction together. -/
theorem rounds_correction {numer denom : ℕ} (hpos : 0 < denom) :
    Rounds r (x * numer) denom (x / denom * numer + r.div (x % denom * numer) denom) := by
  have hx : x * numer = x / denom * numer * denom + x % denom * numer := by
    conv_lhs => rw [← Nat.div_add_mod' x denom, add_mul, mul_right_comm]
  rw [hx]
  exact (rounds_div hpos).add _

theorem overflowPruneMul_eq (hx : x < 2 ^ bits) (hp : part ≤ t.accuracy) :
    ∃ z, overflowPruneMul t bits x part r = some z ∧ Rounds r (x * part) t.accuracy z := by
  have hrds : Rounds r (x * part) t.accuracy _ := rounds_correction t.accuracy_pos
  have hle : _ ≤ x := hrds.mono (rounds_mul t.accuracy_pos) (Nat.mul_le_mul_left x hp)
  refine ⟨_, ?_, hrds⟩
  unfold overflowPruneMul
  rw [rationalMulCorrection_eq t.accuracy_pos t.accuracy_lt (hp.trans_lt t.accuracy_lt)]
  simp only [Option.bind_eq_bind, Option.bind_some]
  rw [fit_eq (by omega), Option.bind_some, fit_eq (by omega)]

theorem saturatingReciprocalMul_zero : saturatingReciprocalMul t bits x 0 r = none := rfl

theorem saturatingReciprocalMul_eq (hpos : 0 < part) (hp : part ≤ t.accuracy) :
    ∃ z, saturatingReciprocalMul t bits x part r = some (min z (2 ^ bits - 1)) ∧
      Rounds r (x * t.accuracy) part z := by
  refine ⟨_, ?_, rounds_correction hpos⟩
  unfold saturatingReciprocalMul
  rw [rationalMulCorrection_eq hpos (hp.trans_lt t.accuracy_lt) t.accuracy_lt]
  simp only [Option.bind_eq_bind, Option.bind_some]
  congr 1
  omega

namespace PerThing

def mulFloor (t : PerThing) (bits part b : ℕ) : Option ℕ := overflowPruneMul t bits b part .down

def mulCeil (t : PerThing) (bits part b : ℕ) : Option ℕ := overflowPruneMul t bits b part .up

/-- The standard `Mul` rounds to the nearest whole number. -/
def mul (t : PerThing) (bits part b : ℕ) : Option ℕ :=
  overflowPruneMul t bits b part .nearestPrefDown

def reciprocalMul (t : PerThing) (bits part b : ℕ) : Option ℕ :=
  saturatingReciprocalMul t bits b part .nearestPrefUp

def reciprocalMulFloor (t : PerThing) (bits part b : ℕ) : Option ℕ :=
  saturatingReciprocalMul t bits b part .down

def reciprocalMulCeil (t : PerThing) (bits part b : ℕ) : Option ℕ :=
  saturatingReciprocalMul t bits b part .up

/-- Products are rounded as their names say, and so are products with the reciprocal of a part that
is not zero, up to the greatest value of the type. There is no reciprocal of zero. -/
theorem mul_rounds (t : PerThing) (hx : x < 2 ^ bits) (hpart : part ≤ t.accuracy) :
    (∃ z, t.mulFloor bits part x = some z ∧ Rounds .down (x * part) t.accuracy z) ∧
    (∃ z, t.mulCeil bits part x = some z ∧ Rounds .up (x * part) t.accuracy z) ∧
    (∃ z, t.mul bits part x = some z ∧ Rounds .nearestPrefDown (x * part) t.accuracy z) ∧
    (0 < part →
      (∃ z, t.reciprocalMul bits part x = some (min z (2 ^ bits - 1)) ∧
        Rounds .nearestPrefUp (x * t.accuracy) part z) ∧
      (∃ z, t.reciprocalMulFloor bits part x = some (min z (2 ^ bits - 1)) ∧
        Rounds .down (x * t.accuracy) part z) ∧
      ∃ z, t.reciprocalMulCeil bits part x = some (min z (2 ^ bits - 1)) ∧
        Rounds .up (x * t.accuracy) part z) ∧
    (part = 0 → t.reciprocalMul bits part x = none ∧ t.reciprocalMulFloor bits part x = none ∧
      t.reciprocalMulCeil bits part x = none) := by
  refine ⟨overflowPruneMul_eq hx hpart, overflowPruneMul_eq hx hpart, overflowPruneMul_eq hx hpart,
    fun hpos => ⟨saturatingReciprocalMul_eq hpos hpart, saturatingReciprocalMul_eq hpos hpart,
      saturatingReciprocalMul_eq hpos hpart⟩, ?_⟩
  rintro rfl
  exact ⟨saturatingReciprocalMul_zero, saturatingReciprocalMul_zero, saturatingReciprocalMul_zero⟩

theorem mul_rounds_percent :
    ∃ z, percent.mul 8 36 10 = some z ∧ Rounds .nearestPrefDown 360 100 z :=
  (mul_rounds percent (by decide : 10 < 2 ^ 8) (by decide : 36 ≤ 100)).2.2.1

theorem not_mul_rounds : percent.reciprocalMulFloor 8 0 1 = none := rfl

end PerThing

/-! ## Parts from a rational -/

/-- Approximate the fraction `p / q` into a per-thing fraction. -/
def fromRationalWithRounding (t : PerThing) (bits p q : ℕ) (r : Rounding) :
    Option (Except Unit ℕ) :=
  -- q cannot be zero.
  if q = 0 then some (.error ())
  -- p should not be bigger than q.
  else if q < p then some (.error ())
  else do
    let factor ← divRounded bits q t.accuracy .up
    let qReduce ← (divRounded bits q (max factor 1) r).bind (fit t.inner)
    let pReduce ← (divRounded bits p (max factor 1) r).bind (fit t.inner)
    let n ← fit t.upper (pReduce * t.accuracy)
    let part ← divRounded t.upper n qReduce r
    some (.ok (part % 2 ^ t.inner))

/-- What both numbers are divided by, such that they fit into `Inner`. -/
def PerThing.factor (t : PerThing) (q : ℕ) : ℕ := Rounding.up.div q t.accuracy

theorem PerThing.factor_pos (t : PerThing) (hq : 0 < q) : 0 < t.factor q := by
  refine pos_of_ne_zero fun hz => ?_
  have hup : Rounds .up q t.accuracy (t.factor q) := rounds_div t.accuracy_pos
  rw [hz, Rounds] at hup
  omega

theorem PerThing.factor_eq_one (t : PerThing) (hq : 0 < q) (hsm : q ≤ t.accuracy) :
    t.factor q = 1 :=
  have hup : Rounds .up q t.accuracy (t.factor q) := rounds_div t.accuracy_pos
  le_antisymm (hup.mono (rounds_mul t.accuracy_pos) (by rwa [one_mul])) (t.factor_pos hq)

theorem fromRationalWithRounding_eq (t : PerThing) (r : Rounding) (hq : 0 < q) (hpq : p ≤ q)
    (hfit : q < 2 ^ bits) : ∃ part ≤ t.accuracy,
      fromRationalWithRounding t bits p q r = some (.ok part) ∧
      Rounds r (r.div p (t.factor q) * t.accuracy) (r.div q (t.factor q)) part ∧
      (t.factor q ∣ p → t.factor q ∣ q → Rounds r (p * t.accuracy) q part) := by
  have hup : Rounds .up q t.accuracy (t.factor q) := rounds_div t.accuracy_pos
  have hpos := t.factor_pos hq
  have hfactor : t.factor q ≤ q := div_le_self t.accuracy_pos
  have hdi : divRounded bits q t.accuracy .up = some (t.factor q) :=
    divRounded_eq t.accuracy_pos hfit
  generalize t.factor q = f at *
  have hmul : q ≤ t.accuracy * f := Nat.mul_comm .. ▸ hup.1
  have hr : r.div q f ≤ t.accuracy := (rounds_div hpos).mono (rounds_mul hpos) hmul
  have hlt := hr.trans_lt t.accuracy_lt
  have hle : r.div p f ≤ r.div q f := (rounds_div hpos).mono (rounds_div hpos) hpq
  have hone : 1 ≤ r.div q f := (rounds_mul hpos).mono (rounds_div hpos) (by rwa [one_mul])
  have hp : r.div (r.div p f * t.accuracy) (r.div q f) ≤ t.accuracy :=
    (rounds_div hone).mono (rounds_mul hone) (Nat.mul_comm .. ▸ Nat.mul_le_mul_left t.accuracy hle)
  refine ⟨_, hp, ?_, rounds_div hone, ?_⟩
  · have hu := t.mul_lt (hle.trans_lt hlt) t.accuracy_lt
    unfold fromRationalWithRounding
    simp only [if_neg hq.ne', if_neg hpq.not_gt, hdi, Option.bind_eq_bind, Option.bind_some,
      Nat.max_eq_left hpos, divRounded_eq hpos hfit, divRounded_eq hpos (hpq.trans_lt hfit),
      fit_eq hlt, fit_eq (hle.trans_lt hlt), fit_eq hu, divRounded_eq hone hu,
      Nat.mod_eq_of_lt (hp.trans_lt t.accuracy_lt)]
  · rintro ⟨a, rfl⟩ ⟨b, rfl⟩
    rw [mul_comm f a, mul_comm f b] at *
    rw [div_mul_right hpos] at hone
    rw [div_mul_right hpos, div_mul_right hpos, mul_right_comm]
    exact (rounds_div hone).expand hpos

end Arithmetic
