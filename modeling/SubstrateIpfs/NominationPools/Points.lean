-- SUMMARY: The points of a nomination pool: their worth, and what issuing and dissolving loses.
import SubstrateIpfs.Base.Fallible
import SubstrateIpfs.Base.Run

/-!
# Points of a pool

Points are shares of the balance of a pool. Balances are `u128`. Products are computed in 256 bits,
where two balances have room, and are brought back to a balance with saturation.
-/

namespace NominationPools

open Fallible

def maxBalance : ℕ := 2 ^ 128 - 1

/-- `U256ToBalance`. -/
def toBalance (n : ℕ) : ℕ := min n maxBalance

/-- Calculate the equivalent point of `newFunds`. -/
def balanceToPoint (currentBalance currentPoints newFunds : ℕ) : ℕ :=
  if currentPoints = 0 then toBalance (newFunds * 1)
  -- the pool was totally slashed
  else if currentBalance = 0 then toBalance (newFunds * currentPoints)
  else toBalance (currentPoints * newFunds / currentBalance)

/-- Calculate the equivalent balance of `points`. -/
def pointToBalance (currentBalance currentPoints points : ℕ) : ℕ :=
  -- there is nothing to unbond
  if currentBalance = 0 ∨ currentPoints = 0 ∨ points = 0 then 0
  else toBalance (currentBalance * points) / currentPoints

structure UnbondPool where
  points : ℕ
  balance : ℕ

namespace UnbondPool

variable (self : UnbondPool) (newFunds : ℕ)

/-- Issue the equivalent points of `newFunds`, and return them. -/
def issue : ℕ × UnbondPool :=
  let newPoints := balanceToPoint self.balance self.points newFunds
  (newPoints, ⟨saturatingAdd maxBalance self.points newPoints,
    saturatingAdd maxBalance self.balance newFunds⟩)

/-- Dissolve some points, and return the balance that was removed. -/
def dissolve (points : ℕ) : ℕ × UnbondPool :=
  let balanceToUnbond := pointToBalance self.balance self.points points
  (balanceToUnbond, ⟨self.points - points, self.balance - balanceToUnbond⟩)

/-- What is returned when the points issued for new funds are dissolved. -/
def returned : ℕ := ((self.issue newFunds).2.dissolve (self.issue newFunds).1).1

/-- The value of one point, rounded up. -/
def pointValue : ℕ := (self.balance + self.points - 1) / self.points

end UnbondPool

/-! ## What points are worth -/

variable {u : UnbondPool} {p q b c x y m n : ℕ}

theorem pointToBalance_eq : pointToBalance b q p = min (b * p / q) (maxBalance / q) := by
  have hm : Monotone (· / q) := fun _ _ h => Nat.div_le_div_right h
  rw [← hm.map_min]
  unfold pointToBalance
  split
  next h => rcases h with rfl | rfl | rfl <;> simp
  · rfl

/-- What is left of the new funds `n` without the value of a point, for `q` points. If that is a
balance, it is not more than the points that were issued are worth. -/
theorem mul_le_of_issued (hx : 0 < x) (hxm : x ≤ m) (hy : 0 < y) (hym : y ≤ m)
    (hlt : p = m ∨ x * n < y * (p + 1)) (hq : q = min m (x + p)) (hb : b = min m (y + n))
    (hc : b ≤ c * q) (hle : (n - c) * q ≤ m) : (n - c) * q ≤ b * p := by
  rcases le_or_gt n c with hnc | hnc
  · simp [Nat.sub_eq_zero_of_le hnc]
  obtain ⟨k, rfl⟩ := Nat.exists_eq_add_of_lt hnc
  have hk : c + k + 1 - c = k + 1 := by omega
  rcases hlt with rfl | hlt
  · exact hle.trans (Nat.le_mul_of_pos_left p (by omega))
  rcases (hb.trans_le (min_le_left _ _)).lt_or_eq with hb' | rfl
  · obtain rfl : b = y + (c + k + 1) := by omega
    rcases (hq.trans_le (min_le_left _ _)).lt_or_eq with hq' | rfl
    · obtain rfl : q = x + p := by omega
      nlinarith
    · have hpos : 0 < c := pos_of_ne_zero (by rintro rfl; omega)
      have htwo : 2 * q ≤ (c + k + 1) * (x + p) := Nat.mul_le_mul (by omega) (by omega)
      linarith
  · rcases eq_zero_or_pos p with rfl | hp
    · obtain rfl : q = x := by omega
      nlinarith
    · exact hle.trans (Nat.le_mul_of_pos_right b hp)

namespace UnbondPool

section
variable (hpts : 0 < u.points) (hbal : 0 < u.balance) (n : ℕ)

include hpts hbal

/-- The points issued for new funds, and the pool they are dissolved from. -/
theorem issue_spec : ∃ p q b, u.issue n = (p, ⟨q, b⟩) ∧
    u.returned n = min (b * p / q) (maxBalance / q) ∧ p * u.balance ≤ u.points * n ∧
    (p = maxBalance ∨ u.points * n < u.balance * (p + 1)) ∧
    q = min maxBalance (u.points + p) ∧ b = min maxBalance (u.balance + n) := by
  have hiss : balanceToPoint u.balance u.points n = _ := (if_neg hpts.ne').trans (if_neg hbal.ne')
  refine ⟨_, _, _, rfl, pointToBalance_eq, ?_, ?_, rfl, rfl⟩
  · rw [hiss]
    exact (Nat.mul_le_mul_right _ (min_le_left _ _)).trans (Nat.div_mul_le_self _ _)
  · rw [hiss]
    refine (min_choice _ _).symm.imp id fun h => ?_
    rw [toBalance, h]
    exact Nat.lt_mul_div_succ _ hbal

theorem returned_le : u.returned n ≤ n := by
  obtain ⟨p, q, b, -, hret, hle, -, hq, hb⟩ := issue_spec hpts hbal n
  rw [hret]
  rcases eq_zero_or_pos n with rfl | hpos
  · have hz : p = 0 := by simpa [hbal.ne'] using hle
    simp [hz]
  rcases le_total (u.points + p) maxBalance with hsum | hsum
  · have hmul := Nat.mul_le_mul_right p (hb.trans_le (min_le_right _ _))
    rw [hq, min_eq_right hsum]
    exact (min_le_left _ _).trans (Nat.div_le_of_le_mul (by linarith))
  · rw [hq, min_eq_left hsum]
    exact (min_le_right _ _).trans (Nat.div_le_of_le_mul (Nat.le_mul_of_pos_right _ hpos))

theorem le_returned_iff (hp : u.points ≤ maxBalance) (hb : u.balance ≤ maxBalance) :
    n ≤ u.returned n + (u.issue n).2.pointValue ↔
      (n - (u.issue n).2.pointValue) * (u.issue n).2.points ≤ maxBalance := by
  obtain ⟨p, q, b, hiss, hret, -, hlt, hq, hb'⟩ := issue_spec hpts hbal n
  have hpos : 0 < q := by omega
  have hval : b ≤ (b + q - 1) / q * q := by
    have hlt := Nat.lt_mul_div_succ (b + q - 1) hpos
    rw [Nat.mul_succ, mul_comm] at hlt
    omega
  rw [hiss, hret, ← Nat.sub_le_iff_le_add, le_min_iff, Nat.le_div_iff_mul_le hpos,
    Nat.le_div_iff_mul_le hpos, and_iff_right_iff_imp]
  exact mul_le_of_issued hpts hp hbal hb hlt hq hb' hval

end

/-- Points are worth their share, and dissolving what was issued loses at most a point, exactly as
long as what should be returned is a balance also before it is divided by the points. -/
theorem points_exact_iff (currentBalance currentPoints points newFunds : ℕ)
    (hpts : 0 < u.points) (hp : u.points ≤ maxBalance) (hbal : 0 < u.balance)
    (hb : u.balance ≤ maxBalance) :
    (pointToBalance currentBalance currentPoints points =
        currentBalance * points / currentPoints ∧
      u.returned newFunds ≤ newFunds ∧
      newFunds ≤ u.returned newFunds + (u.issue newFunds).2.pointValue) ↔
    currentBalance * points / currentPoints ≤ maxBalance / currentPoints ∧
      (newFunds - (u.issue newFunds).2.pointValue) * (u.issue newFunds).2.points ≤
        maxBalance := by
  rw [pointToBalance_eq, min_eq_left_iff, le_returned_iff hpts hbal _ hp hb,
    and_iff_right (returned_le hpts hbal _)]

theorem points_exact_two : pointToBalance 7 3 2 = 4 ∧ (mk 3 7).returned 5 ≤ 5 ∧
    5 ≤ (mk 3 7).returned 5 + ((mk 3 7).issue 5).2.pointValue :=
  (points_exact_iff 7 3 2 5 (by decide) (by decide) (by decide) (by decide)).mpr (by decide)

/-- Half of the points, with the product over 128 bits. -/
theorem not_points_exact :
    pointToBalance (2 ^ 70) (2 ^ 70) (2 ^ 69) ≠ 2 ^ 70 * 2 ^ 69 / 2 ^ 70 := by decide

/-! ## The price of a point -/

inductive Call where
  | issue (newFunds : ℕ)
  | dissolve (points : ℕ)

def call (self : UnbondPool) : Call → UnbondPool
  | .issue newFunds => (self.issue newFunds).2
  | .dissolve points => (self.dissolve points).2

/-- New funds are issued to a pool that has points, and fit into its balance. -/
def Fits (self : UnbondPool) : Call → Prop
  | .issue newFunds => 0 < self.points ∧ self.balance + newFunds ≤ maxBalance
  | .dissolve _ => True

/-- A point of `v` is worth at least as much as one of `u`. -/
def PriceLe (u v : UnbondPool) : Prop := u.balance * v.points ≤ v.balance * u.points

variable {v w : UnbondPool}

theorem PriceLe.trans (huv : u.PriceLe v) (hvw : v.PriceLe w) (hv : 0 < v.points) :
    u.PriceLe w := by
  refine Nat.le_of_mul_le_mul_left ?_ hv
  calc v.points * (u.balance * w.points) = u.balance * v.points * w.points := by ring
    _ ≤ v.balance * u.points * w.points := Nat.mul_le_mul_right _ huv
    _ = v.balance * w.points * u.points := by ring
    _ ≤ w.balance * v.points * u.points := Nat.mul_le_mul_right _ hvw
    _ = v.points * (w.balance * u.points) := by ring

theorem priceLe_issue (hpts : 0 < u.points) (hfit : u.balance + n ≤ maxBalance) :
    u.PriceLe (u.issue n).2 := by
  rcases eq_zero_or_pos u.balance with hbal | hbal
  · simp [PriceLe, hbal]
  obtain ⟨p, q, b, hiss, -, hle, -, hq, hb⟩ := issue_spec hpts hbal n
  have hsum : b = u.balance + n := hb.trans (min_eq_right hfit)
  rw [hiss, PriceLe, hsum]
  calc u.balance * q ≤ u.balance * (u.points + p) :=
        Nat.mul_le_mul_left _ (hq.trans_le (min_le_right _ _))
    _ ≤ (u.balance + n) * u.points := by linarith

theorem priceLe_dissolve : u.PriceLe (u.dissolve p).2 := by
  have hle : pointToBalance u.balance u.points p * u.points ≤ u.balance * p := by
    rw [pointToBalance_eq]
    exact (Nat.mul_le_mul_right _ (min_le_left _ _)).trans (Nat.div_mul_le_self _ _)
  simp only [PriceLe, dissolve, Nat.mul_sub, Nat.sub_mul]
  exact Nat.sub_le_sub_left hle _

theorem PriceLe.call {c : Call} (h : u.PriceLe v) (hc : v.Fits c) : u.PriceLe (v.call c) := by
  cases c with
  | issue n => exact h.trans (priceLe_issue hc.1 hc.2) hc.1
  | dissolve p =>
    rcases eq_zero_or_pos v.points with hv | hv
    · -- there was no point left, and there is none now
      simp [PriceLe, UnbondPool.call, dissolve, hv]
    · exact h.trans priceLe_dissolve hv

/-- Whoever keeps their points loses nothing by what the others put in and take out. -/
theorem price_never_falls {calls : List Call} (hfits : Run.Each call Fits u calls) :
    Run.Always call u.PriceLe u calls :=
  hfits.always (fun _ _ => PriceLe.call) le_rfl

theorem price_never_falls_two : Run.Always call (mk 3 7).PriceLe (mk 3 7) [.issue 5, .dissolve 2] :=
  price_never_falls (Run.each_cons.mpr
    ⟨⟨by decide, by decide⟩, Run.each_cons.mpr ⟨trivial, Run.each_nil⟩⟩)

end UnbondPool

end NominationPools
