-- SUMMARY: Vesting schedules and their merging, which unlocks nothing early.
import SubstrateIpfs.Base.Fallible

/-!
# Vesting schedules

A schedule unlocks the same amount at every block after the one it starts at. Block numbers
are converted to balances, which are numbers up to a maximum that no block number exceeds.
-/

namespace Vesting

/-- Struct to encode the vesting schedule of an individual account. -/
structure VestingInfo where
  /-- Locked amount at genesis. -/
  locked : ℕ
  /-- Amount that gets unlocked every block after `startingBlock`. -/
  rawPerBlock : ℕ
  startingBlock : ℕ

namespace VestingInfo

variable (cap : ℕ) (self : VestingInfo)

def isValid : Bool := self.locked ≠ 0 ∧ self.rawPerBlock ≠ 0

/-- Corrects for a `rawPerBlock` of 0, or else the vesting will never end. -/
def perBlock : ℕ := max self.rawPerBlock 1

/-- Amount locked at block `n`. -/
def lockedAt (n : ℕ) : ℕ :=
  -- blocks before the starting block do not count toward vesting
  let toUnlock := (n - self.startingBlock) * self.perBlock
  if toUnlock ≤ cap then self.locked - toUnlock else 0

def duration : ℕ :=
  if self.locked ≤ self.perBlock then 1
  else self.locked / self.perBlock +
    -- an extra block to unlock some amount less than `perBlock`
    if self.locked % self.perBlock = 0 then 0 else 1

/-- Block number at which the schedule ends (as balance). -/
def endingBlockAsBalance : ℕ := Fallible.saturatingAdd cap self.startingBlock self.duration

end VestingInfo

open VestingInfo Fallible

/-- Create a new `VestingInfo`, based off of two other `VestingInfo`s. -/
def mergeVestingInfo (cap now : ℕ) (schedule1 schedule2 : VestingInfo) : Option VestingInfo :=
  let ending1 := schedule1.endingBlockAsBalance cap
  let ending2 := schedule2.endingBlockAsBalance cap
  if ending1 ≤ now then
    -- if both schedules have ended, we don't merge
    if ending2 ≤ now then none else some schedule2
  else if ending2 ≤ now then some schedule1
  else
    let locked := saturatingAdd cap (schedule1.lockedAt cap now) (schedule2.lockedAt cap now)
    let startingBlock := max (max now schedule1.startingBlock) schedule2.startingBlock
    let duration := max (max ending1 ending2 - startingBlock) 1
    some ⟨locked, max (locked / duration) 1, startingBlock⟩

/-! ## What is locked at a block -/

variable {cap now n k d : ℕ} {s t : VestingInfo}

theorem lockedAt_eq (h : s.locked ≤ cap) :
    s.lockedAt cap n = s.locked - (n - s.startingBlock) * s.perBlock := by
  unfold lockedAt
  dsimp only
  split <;> omega

theorem duration_le_iff (h : s.isValid) : s.duration ≤ k ↔ s.locked ≤ k * s.perBlock := by
  have hpos : 0 < s.locked := pos_of_ne_zero (of_decide_eq_true h).1
  have hper : 0 < s.perBlock := lt_max_of_lt_right one_pos
  have hdiv := Nat.div_add_mod' s.locked s.perBlock
  unfold duration
  split
  · cases k with
    | zero => omega
    | succ k =>
      rw [Nat.succ_mul]
      omega
  · split
    next hrem => rw [add_zero, ← Nat.mul_le_mul_right_iff hper]; omega
    next hrem =>
      rw [Nat.succ_le_iff, Nat.div_lt_iff_lt_mul hper, lt_iff_le_and_ne, and_iff_left]
      rintro heq
      exact hrem (heq ▸ Nat.mul_mod_left k s.perBlock)

/-- Nothing is locked from the ending block on. -/
theorem lockedAt_eq_zero_iff (h : s.isValid) (hl : s.locked ≤ cap)
    (he : s.startingBlock + s.duration ≤ cap) :
    s.lockedAt cap n = 0 ↔ s.endingBlockAsBalance cap ≤ n := by
  have hle := (duration_le_iff h (k := 0)).not.mpr (by simpa using (of_decide_eq_true h).1)
  rw [lockedAt_eq hl, Nat.sub_eq_zero_iff_le, ← duration_le_iff h, endingBlockAsBalance,
    saturatingAdd_of_le he]
  omega

theorem lockedAt_add (hl : s.locked ≤ cap) (hst : s.startingBlock ≤ n) :
    s.lockedAt cap (n + k) = s.lockedAt cap n - k * s.perBlock := by
  rw [lockedAt_eq hl, lockedAt_eq hl, Nat.sub_add_comm hst, add_mul, Nat.sub_sub]

theorem lockedAt_anti (hl : s.locked ≤ cap) (hle : now ≤ n) :
    s.lockedAt cap n ≤ s.lockedAt cap now := by
  rw [lockedAt_eq hl, lockedAt_eq hl]
  exact Nat.sub_le_sub_left (Nat.mul_le_mul_right _ (Nat.sub_le_sub_right hle _)) _

/-- What is locked is below the line that reaches zero with it or later. -/
theorem mul_lockedAt_le (hl : s.locked ≤ cap) (hle : now ≤ n)
    (hst : s.startingBlock ≤ n) (hz : s.lockedAt cap (n + d) = 0) :
    d * s.lockedAt cap (n + k) ≤ (d - k) * s.lockedAt cap now := by
  rw [lockedAt_add hl hst] at hz ⊢
  refine le_trans ?_ (Nat.mul_le_mul_left _ (lockedAt_anti hl hle))
  rw [Nat.mul_sub, Nat.sub_mul]
  refine Nat.sub_le_sub_left ?_ _
  rw [mul_left_comm]
  exact Nat.mul_le_mul_left k (Nat.sub_eq_zero_iff_le.mp hz)

/-- At least one is unlocked at every block. -/
theorem le_lockedAt (hl : s.locked ≤ cap) (hle : now ≤ n)
    (hst : s.startingBlock ≤ n) (hpos : s.lockedAt cap (n + k) ≠ 0) :
    k < s.lockedAt cap now := by
  have hmul : k * 1 ≤ k * s.perBlock := Nat.mul_le_mul_left k (le_max_right _ _)
  have hanti := lockedAt_anti hl hle
  rw [lockedAt_add hl hst] at hpos
  omega

/-- A line to zero in `d` steps stays above, also with its slope rounded down. -/
theorem le_sub_of_mul_le {a b : ℕ} (hpos : 0 < d) (hle : k ≤ d) (h : d * a ≤ (d - k) * b) :
    a ≤ b - k * (b / d) := by
  have hrd : d * (k * (b / d)) ≤ k * b := by
    rw [mul_left_comm]
    exact Nat.mul_le_mul_left k (Nat.mul_div_le b d)
  refine Nat.le_sub_of_add_le (le_of_mul_le_mul_left ?_ hpos)
  calc d * (a + k * (b / d)) ≤ (d - k) * b + k * b := by
        rw [mul_add]
        exact add_le_add h hrd
    _ = d * b := by rw [← add_mul, Nat.sub_add_cancel hle]

/-- The merged schedule has at least as much locked as the two schedules, at every block. -/
theorem mergeVestingInfo_locks (hv1 : s.isValid) (hv2 : t.isValid) (hl : s.locked + t.locked ≤ cap)
    (he1 : s.startingBlock + s.duration ≤ cap)
    (he2 : t.startingBlock + t.duration ≤ cap) (now : ℕ) :
    match mergeVestingInfo cap now s t with
    | some m => m.isValid ∧
      m.lockedAt cap now = s.lockedAt cap now + t.lockedAt cap now ∧
      ∀ n ≥ now, s.lockedAt cap n + t.lockedAt cap n ≤ m.lockedAt cap n
    | none => ∀ n ≥ now, s.lockedAt cap n = 0 ∧ t.lockedAt cap n = 0 := by
  have hl1 : s.locked ≤ cap := by omega
  have hl2 : t.locked ≤ cap := by omega
  have hz1 := fun n => lockedAt_eq_zero_iff (n := n) hv1 hl1 he1
  have hz2 := fun n => lockedAt_eq_zero_iff (n := n) hv2 hl2 he2
  unfold mergeVestingInfo
  generalize s.endingBlockAsBalance cap = e1 at *
  generalize t.endingBlockAsBalance cap = e2 at *
  by_cases hle1 : e1 ≤ now
  · have hd1 := fun n hn => (hz1 n).mpr (hle1.trans hn)
    rw [if_pos hle1]
    by_cases hle2 : e2 ≤ now
    · rw [if_pos hle2]
      exact fun n hn => ⟨hd1 n hn, (hz2 n).mpr (hle2.trans hn)⟩
    · rw [if_neg hle2]
      refine ⟨hv2, by rw [hd1 now le_rfl, zero_add], fun n hn => ?_⟩
      rw [hd1 n hn, zero_add]
  rw [if_neg hle1]
  by_cases hle2 : e2 ≤ now
  · have hd2 := fun n hn => (hz2 n).mpr (hle2.trans hn)
    rw [if_pos hle2]
    exact ⟨hv1, by rw [hd2 now le_rfl]; rfl, fun n hn => by rw [hd2 n hn]; rfl⟩
  rw [if_neg hle2]
  have hle : s.lockedAt cap now + t.lockedAt cap now ≤ cap := by
    rw [lockedAt_eq hl1, lockedAt_eq hl2]
    omega
  have hpos : s.lockedAt cap now ≠ 0 := (hz1 now).not.mpr hle1
  rw [saturatingAdd_of_le hle]
  generalize hst : max (max now s.startingBlock) t.startingBlock = st
  have hnow : now ≤ st := by omega
  have hs1 : s.startingBlock ≤ st := by omega
  have hs2 : t.startingBlock ≤ st := by omega
  refine ⟨decide_eq_true ⟨by dsimp only; omega, by dsimp only; omega⟩, ?_, fun n hn => ?_⟩
  · rw [lockedAt_eq hle, Nat.sub_eq_zero_of_le hnow, zero_mul]
    rfl
  rw [lockedAt_eq (s := ⟨_, _, _⟩) hle, perBlock]
  rcases le_or_gt n st with hn' | hn'
  · rw [Nat.sub_eq_zero_of_le hn', zero_mul]
    exact add_le_add (lockedAt_anti hl1 hn) (lockedAt_anti hl2 hn)
  rcases le_or_gt (max e1 e2) n with hend | hend
  · rw [(hz1 n).mpr (by omega), (hz2 n).mpr (by omega)]
    exact Nat.zero_le _
  obtain ⟨k, rfl⟩ := Nat.exists_eq_add_of_le hn'.le
  obtain ⟨d, hd⟩ := Nat.exists_eq_add_of_le (hn'.trans hend).le
  -- the later schedule has unlocked one at every block but the last
  have hdur : d ≤ s.lockedAt cap now + t.lockedAt cap now := by
    rcases le_total e1 e2 with hla | hla
    · have hlt := le_lockedAt hl2 hnow hs2 (k := d - 1) ((hz2 _).not.mpr (by omega))
      omega
    · have hlt := le_lockedAt hl1 hnow hs1 (k := d - 1) ((hz1 _).not.mpr (by omega))
      omega
  have hln : d * (s.lockedAt cap (st + k) + t.lockedAt cap (st + k)) ≤
      (d - k) * (s.lockedAt cap now + t.lockedAt cap now) := by
    rw [mul_add, mul_add]
    exact add_le_add (mul_lockedAt_le hl1 hnow hs1 ((hz1 _).mpr (by omega)))
      (mul_lockedAt_le hl2 hnow hs2 ((hz2 _).mpr (by omega)))
  generalize s.lockedAt cap now + t.lockedAt cap now = l at *
  have hper : max (max (l / max (max e1 e2 - st) 1) 1) 1 = l / d := by
    have hone := Nat.div_pos hdur (by omega)
    rw [hd, Nat.add_sub_cancel_left, max_eq_left (a := d) (by omega)]
    omega
  rw [hper, Nat.add_sub_cancel_left]
  exact le_sub_of_mul_le (by omega) (by omega) hln

theorem mergeVestingInfo_locks_two :
    lockedAt 255 ⟨20, 1, 10⟩ 13 + lockedAt 255 ⟨21, 7, 15⟩ 13 ≤ lockedAt 255 ⟨39, 2, 15⟩ 13 := by
  obtain ⟨-, -, hle⟩ := mergeVestingInfo_locks (s := ⟨20, 1, 10⟩) (t := ⟨21, 7, 15⟩) (by decide)
    (by decide) (by decide : 20 + 21 ≤ 255) (by decide) (by decide) 12
  exact hle 13 (by decide)

end Vesting
