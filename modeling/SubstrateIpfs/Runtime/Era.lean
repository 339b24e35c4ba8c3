-- SUMMARY: Mortal eras of transactions: the blocks of an era, and its encoding in two bytes.
import SubstrateIpfs.Base.Scale

/-!
# Eras

A transaction is valid forever, or from its birth up to its death. The numbers are `u64`; the
period is a power of two and the phase is rounded down to what its encoding has room for.
-/

namespace Runtime

/-- An era to describe the longevity of a transaction. -/
inductive Era where
  | immortal
  | mortal (period phase : ℕ)

/-- `u64::checked_next_power_of_two`. -/
def checkedNextPowerOfTwo (n : ℕ) : Option ℕ := if n ≤ 2 ^ 63 then some n.nextPowerOfTwo else none

/-- `u64::trailing_zeros`. -/
def trailingZeros (n : ℕ) : ℕ := (List.range 64).findIdx n.testBit

namespace Era

def quantizeFactor (period : ℕ) : ℕ := max (period >>> 12) 1

/-- Create a new era based on a period and a block number on which it should start. -/
def mortalOf (period current : ℕ) : Era :=
  let period := max 4 (min ((checkedNextPowerOfTwo period).getD (2 ^ 16)) (2 ^ 16))
  .mortal period (current % period / quantizeFactor period * quantizeFactor period)

/-- The block number of the start of the era that `current` belongs to. -/
def birth (current : ℕ) : Era → ℕ
  | immortal => 0
  | mortal period phase => (max current phase - phase) / period * period + phase

/-- The block number of the first block at which the era has ended. -/
def death (current : ℕ) : Era → ℕ
  | immortal => 2 ^ 64 - 1
  | mortal period phase => ((mortal period phase).birth current + period) % 2 ^ 64

def encode : Era → List UInt8
  | immortal => [0]
  | mortal period phase =>
    -- the subtraction is one of `u32`
    Scale.leBytes 2 (max 1 (min ((trailingZeros period + (2 ^ 32 - 1)) % 2 ^ 32) 15) |||
      (phase / quantizeFactor period) <<< 4 % 2 ^ 16)

def decode : List UInt8 → Option (Era × List UInt8)
  | [] => none
  | first :: rest =>
    if first = 0 then some (immortal, rest)
    else match rest with
      | [] => none
      | second :: rest =>
        let encoded := first.toNat + second.toNat <<< 8
        let period := 2 <<< (encoded % 2 ^ 4)
        let phase := (encoded >>> 4) * quantizeFactor period
        if 4 ≤ period ∧ phase < period then some (mortal period phase, rest) else none

variable {p phase c k x n : ℕ}

/-! ## The blocks of an era -/

/-- The birth is the same at all blocks of the era. -/
theorem birth_eq (ph : ℕ) (hpos : 0 < p) (hle : k * p + ph ≤ n) (hlt : n < k * p + ph + p) :
    (mortal p ph).birth n = k * p + ph := by
  have hdiv : (n - ph) / p = k := by
    refine Nat.div_eq_of_lt_le ?_ ?_
    · omega
    · rw [Nat.succ_mul]
      omega
  rw [birth, max_eq_left (by omega), hdiv]

/-! ## The encoding -/

/-- The period of an era is a power of two that its encoding has room for. -/
theorem exists_period (period : ℕ) :
    ∃ k, 1 ≤ k ∧ k < 16 ∧
      max 4 (min ((checkedNextPowerOfTwo period).getD (2 ^ 16)) (2 ^ 16)) = 2 ^ (k + 1) := by
  obtain ⟨j, hj⟩ : ∃ j, (checkedNextPowerOfTwo period).getD (2 ^ 16) = 2 ^ j := by
    unfold checkedNextPowerOfTwo
    split
    · exact Nat.isPowerOfTwo_nextPowerOfTwo period
    · exact ⟨16, rfl⟩
  rcases lt_or_ge j 2 with hlow | hlow
  · have hle := Nat.pow_le_pow_right two_pos hlow.le
    exact ⟨1, by omega, by omega, by omega⟩
  rcases lt_or_ge 15 j with hh | hh
  · have hle := Nat.pow_le_pow_right two_pos hh
    exact ⟨15, by omega, by omega, by omega⟩
  · have hle := Nat.pow_le_pow_right two_pos hlow
    have hle' := Nat.pow_le_pow_right two_pos hh
    exact ⟨j - 1, by omega, by omega, by rw [Nat.sub_add_cancel (by omega)]; omega⟩

theorem encode_eq (hk : 1 ≤ k) (hlt : k < 16) (hx : x < 2 ^ 12) :
    (mortal (2 ^ (k + 1)) (x * quantizeFactor (2 ^ (k + 1)))).encode =
      Scale.leBytes 2 (16 * x + k) := by
  have hz : ∀ k < 16, trailingZeros (2 ^ (k + 1)) = k + 1 := by decide +kernel
  have hf : 0 < quantizeFactor (2 ^ (k + 1)) := lt_max_of_lt_right one_pos
  have hlow : max 1 (min ((k + 1 + (2 ^ 32 - 1)) % 2 ^ 32) 15) = k := by omega
  have hs : x <<< 4 = 16 * x := by rw [Nat.shiftLeft_eq, mul_comm]
  have hor := Nat.shiftLeft_add_eq_or_of_lt (i := 4) hlt x
  rw [encode, hz k hlt, hlow, Nat.mul_div_cancel _ hf, Nat.mod_eq_of_lt (by omega),
    Nat.or_comm, ← hor, hs]

/-- What the two bytes stand for, if they are not those of an immortal era. -/
theorem decode_eq {a s : UInt8} (hfst : a ≠ 0)
    (h : a.toNat + s.toNat <<< 8 = 16 * x + k) (hk : k < 16) (r : List UInt8) :
    decode (a :: s :: r) =
      if 1 ≤ k ∧ x * quantizeFactor (2 ^ (k + 1)) < 2 ^ (k + 1) then
        some (mortal (2 ^ (k + 1)) (x * quantizeFactor (2 ^ (k + 1))), r)
      else none := by
  have hlow : (16 * x + k) % 2 ^ 4 = k := by omega
  have hh : (16 * x + k) >>> 4 = x := by
    omega
  have hp : 2 <<< k = 2 ^ (k + 1) := by rw [Nat.shiftLeft_eq, pow_succ']
  have hf : 4 ≤ 2 ^ (k + 1) ↔ 1 ≤ k := by
    rw [show 4 = 2 ^ 2 from rfl, Nat.pow_le_pow_iff_right one_lt_two]
    omega
  rw [decode, if_neg hfst]
  simp only [h, hlow, hh, hp, hf]

/-- An era whose phase is rounded down. -/
theorem mortalOf_eq (period current : ℕ) :
    ∃ k x, 1 ≤ k ∧ k < 16 ∧ x < 2 ^ 12 ∧
      x * quantizeFactor (2 ^ (k + 1)) ≤ current % 2 ^ (k + 1) ∧
      mortalOf period current = mortal (2 ^ (k + 1)) (x * quantizeFactor (2 ^ (k + 1))) := by
  obtain ⟨k, hk, hlt, hp⟩ := exists_period period
  have hf : ∀ k < 16, 2 ^ (k + 1) ≤ quantizeFactor (2 ^ (k + 1)) * 2 ^ 12 := by decide
  refine ⟨k, _, hk, hlt, ?_, Nat.div_mul_le_self .., by rw [mortalOf, hp]⟩
  exact Nat.div_lt_of_lt_mul ((Nat.mod_lt _ (Nat.two_pow_pos _)).trans_le (hf k hlt))

theorem decode_encode (hk : 1 ≤ k) (hlt : k < 16) (hx : x < 2 ^ 12)
    (hp : x * quantizeFactor (2 ^ (k + 1)) < 2 ^ (k + 1)) :
    decode (mortal (2 ^ (k + 1)) (x * quantizeFactor (2 ^ (k + 1)))).encode =
      some (mortal (2 ^ (k + 1)) (x * quantizeFactor (2 ^ (k + 1))), []) := by
  rw [encode_eq hk hlt hx]
  refine (decode_eq ?_ ?_ hlt []).trans (if_pos ⟨hk, hp⟩)
  · intro hz
    have hmod := congrArg UInt8.toNat hz
    rw [UInt8.toNat_ofNat'] at hmod
    change _ = 0 at hmod
    omega
  · rw [UInt8.toNat_ofNat', UInt8.toNat_ofNat']
    omega

theorem encode_of_decode {a s : UInt8} (h : decode [a, s] = some (mortal p phase, [])) :
    (mortal p phase).encode = [a, s] := by
  by_cases hfst : a = 0
  · rw [decode, if_pos hfst] at h
    cases h
  have hnum : a.toNat + s.toNat <<< 8 = Scale.ofLeBytes [a, s] := by
    rw [Nat.shiftLeft_eq, mul_comm]
    rfl
  have hlt : Scale.ofLeBytes [a, s] < 256 ^ 2 := Scale.ofLeBytes_lt _
  have hdiv := (Nat.div_add_mod (Scale.ofLeBytes [a, s]) 16).symm
  rw [decode_eq hfst (hnum.trans hdiv) (Nat.mod_lt _ (by decide))] at h
  obtain ⟨⟨hk, -⟩, h⟩ := Option.ite_none_right_eq_some.mp h
  cases h
  rw [encode_eq hk (Nat.mod_lt _ (by decide)) (by omega), ← hdiv]
  exact Scale.leBytes_ofLeBytes [a, s]

/-- An era of any period has the block that it is made for, and has one encoding. -/
theorem mortalOf_lawful (period current : ℕ) {e : Era} (he : mortalOf period current = e)
    (h : current + 65536 < 2 ^ 64) :
    (e.birth current ≤ current ∧ current < e.death current) ∧
      (∀ n, e.birth current ≤ n → n < e.death current →
        e.birth n = e.birth current ∧ e.death n = e.death current) ∧
      e.encode.length = 2 ∧ decode e.encode = some (e, []) ∧
      ∀ first second period phase, decode [first, second] = some (mortal period phase, []) →
        (mortal period phase).encode = [first, second] := by
  subst he
  obtain ⟨k, x, hk, hlt, hx, hp, heq⟩ := mortalOf_eq period current
  have hpos := Nat.two_pow_pos (k + 1)
  have hle : 2 ^ (k + 1) ≤ 65536 := Nat.pow_le_pow_right two_pos hlt
  have hmod := Nat.div_add_mod' current (2 ^ (k + 1))
  have hrem := Nat.mod_lt current hpos
  have hc := decode_encode hk hlt hx (hp.trans_lt hrem)
  have hlen := congrArg List.length (encode_eq hk hlt hx)
  have hb n := birth_eq (k := current / 2 ^ (k + 1)) (n := n)
    (x * quantizeFactor (2 ^ (k + 1))) hpos
  simp only [heq, death]
  rw [hb current (by omega) (by omega), Nat.mod_eq_of_lt (by omega)]
  refine ⟨⟨by omega, by omega⟩, fun n hf hto => ?_, hlen.trans (Scale.length_leBytes ..), hc,
    fun _ _ _ _ => encode_of_decode⟩
  rw [hb n hf hto, Nat.mod_eq_of_lt (by omega)]
  exact ⟨rfl, rfl⟩

theorem mortalOf_lawful_sixtyFour :
    ((mortalOf 64 142).birth 142 ≤ 142 ∧ 142 < (mortalOf 64 142).death 142) ∧
      (∀ n, (mortalOf 64 142).birth 142 ≤ n → n < (mortalOf 64 142).death 142 →
        (mortalOf 64 142).birth n = (mortalOf 64 142).birth 142 ∧
          (mortalOf 64 142).death n = (mortalOf 64 142).death 142) ∧
      (mortalOf 64 142).encode.length = 2 ∧
      decode (mortalOf 64 142).encode = some (mortalOf 64 142, []) ∧
      ∀ first second period phase, decode [first, second] = some (mortal period phase, []) →
        (mortal period phase).encode = [first, second] :=
  mortalOf_lawful 64 142 rfl (by decide)

end Era

end Runtime
