-- SUMMARY: The integer square root of a 128 bit number, digit by digit, without overflow.
import SubstrateIpfs.Base.Fallible

/-!
# The square root

The root is found bit by bit. In front of bit `j` of the root, with `a` for the bits found so
far, `bit` is `4 ^ j` and `result` is `a * 4 ^ (j + 1)`; what is left of the number is the
number minus the square of `a * 2 ^ (j + 1)`.
-/

namespace Arithmetic

open Fallible

def u128Max : ℕ := 2 ^ 128 - 1

/-- `u128::leading_zeros`. -/
def leadingZeros (n : ℕ) : ℕ := if n = 0 then 128 else 127 - n.log2

/-- The loop. There is no result where an addition overflows or a subtraction underflows. -/
def sqrtLoop (n result bit : ℕ) : Option ℕ :=
  if bit = 0 then some result
  else do
    let next ← checkedAdd u128Max result bit
    if next ≤ n then
      let result ← checkedAdd u128Max (result >>> 1) bit
      sqrtLoop (← checkedSub n next) result (bit >>> 2)
    else sqrtLoop n (result >>> 1) (bit >>> 2)
termination_by bit
decreasing_by all_goals omega

def sqrt (n : ℕ) : Option ℕ :=
  if n = 0 then some 0
  else do
    let maxShift ← checkedSub (leadingZeros 0) 1
    let shift := (← checkedSub maxShift (leadingZeros n)) &&& 0xfffffffe
    if shift < 128 then sqrtLoop n 0 (1 <<< shift) else none

variable {n : ℕ}

/-- The loop from bit `j` of the root on, with the bits `a` before it. -/
theorem sqrtLoop_eq (j a : ℕ) (ha : (a + 1) * 4 ^ j ≤ u128Max + 1) (hn : n < (2 * a + 1) * 4 ^ j) :
    ∃ s, sqrtLoop n (a * 4 ^ j) (4 ^ j / 4) = some s ∧ s * s ≤ n + a * a * 4 ^ j ∧
      n + a * a * 4 ^ j < (s + 1) * (s + 1) := by
  induction j generalizing a n with
  | zero =>
    refine ⟨a, ?_, ?_, ?_⟩
    · rw [sqrtLoop]
      simp
    · omega
    · linarith
  | succ j ih =>
    have hpos : 0 < 4 ^ j := by positivity
    rw [pow_succ'] at *
    generalize 4 ^ j = x at *
    have hha : (a * (4 * x)) >>> 1 = 2 * a * x := by
      rw [Nat.shiftRight_one]
      exact Nat.div_eq_of_eq_mul_right two_pos (by ring)
    have hadd : checkedAdd u128Max (a * (4 * x)) x = some _ := if_pos (by linarith)
    rw [Nat.mul_div_cancel_left x (by decide), sqrtLoop, if_neg hpos.ne', hadd, hha,
      Nat.shiftRight_eq_div_pow x 2]
    simp only [Option.bind_eq_bind, Option.bind_some]
    split_ifs with hle
    · -- the bit is set
      obtain ⟨m, rfl⟩ := Nat.exists_eq_add_of_le hle
      have hadd' : checkedAdd u128Max (2 * a * x) x = some _ := if_pos (by linarith)
      have hsub : checkedSub (a * (4 * x) + x + m) (a * (4 * x) + x) = some m :=
        checkedSub_eq_some.mpr ⟨hle, (Nat.add_sub_cancel_left ..).symm⟩
      obtain ⟨s, hs, hlow, hh⟩ := ih (2 * a + 1) (by linarith) (by linarith)
      refine ⟨s, ?_, by linarith, by linarith⟩
      rw [hadd', hsub, ← hs, add_mul, one_mul]
      rfl
    · obtain ⟨s, hs, hlow, hh⟩ := ih (2 * a) (by linarith) (by linarith)
      exact ⟨s, hs, by linarith, by linarith⟩

theorem shift_eq : ∀ k < 128, k &&& 0xfffffffe = 2 * (k / 2) := by decide +kernel

/-- The root is exact, and nothing overflows on the way. -/
theorem sqrt_exact (hn : n < 2 ^ 128) :
    ∃ s, sqrt n = some s ∧ ∀ t, t * t ≤ n ∧ n < (t + 1) * (t + 1) ↔ t = s := by
  have hr : ∃ s, sqrt n = some s ∧ s * s ≤ n ∧ n < (s + 1) * (s + 1) := by
    unfold sqrt
    split_ifs with hz
    · exact ⟨0, rfl, by omega, by omega⟩
    have hlog : n.log2 < 128 := (Nat.log2_lt hz).mpr hn
    have hsub : checkedSub 127 (leadingZeros n) = some n.log2 := by
      rw [leadingZeros, if_neg hz]
      exact checkedSub_eq_some.mpr (by omega)
    have hf : ∀ k, 4 ^ k = 2 ^ (2 * k) := fun k => (pow_mul 2 2 k).symm
    have hlt : n < 4 ^ (n.log2 / 2 + 1) := by
      rw [hf]
      exact Nat.lt_log2_self.trans_le (Nat.pow_le_pow_right two_pos (by omega : _ ≤ 2 * _))
    have hmax : 4 ^ (n.log2 / 2 + 1) ≤ u128Max + 1 := by
      rw [hf]
      exact Nat.pow_le_pow_right two_pos (by omega : _ ≤ 128)
    obtain ⟨s, hs, hlow, hh⟩ := sqrtLoop_eq (n := n) (n.log2 / 2 + 1) 0 (by omega) (by omega)
    refine ⟨s, ?_, by omega, by omega⟩
    rw [pow_succ, hf] at hs
    have hm : checkedSub (leadingZeros 0) 1 = some 127 := rfl
    simpa [hm, hsub, shift_eq _ hlog, Nat.one_shiftLeft,
      show 2 * (n.log2 / 2) < 128 by omega] using hs
  obtain ⟨s, hs, hlow, hh⟩ := hr
  refine ⟨s, hs, fun t => ⟨fun ⟨hle, hlt⟩ => ?_, fun h => h ▸ ⟨hlow, hh⟩⟩⟩
  rw [Nat.eq_sqrt.mpr ⟨hlow, hh⟩, Nat.eq_sqrt.mpr ⟨hle, hlt⟩]

/-- The largest number is one less than the square of `2 ^ 64`. -/
theorem sqrt_exact_max : ∃ s, sqrt u128Max = some s ∧
    ∀ t, t * t ≤ u128Max ∧ u128Max < (t + 1) * (t + 1) ↔ t = s :=
  sqrt_exact (by decide)

end Arithmetic
