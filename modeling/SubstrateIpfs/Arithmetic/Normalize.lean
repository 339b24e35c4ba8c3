-- SUMMARY: Normalization of a list of numbers, such that their sum is a given one.
import SubstrateIpfs.Arithmetic.PerThings

/-!
# Normalization

What is missing to the sum, or too much, is spread over the values. Every round changes the value
at an index, and the index moves on when the value has come to a threshold. A value that is to be
lowered below zero leaves more for the end, where it is taken one by one.
-/

namespace Arithmetic

open List

/-- The values, with the original index of each. -/
abbrev Indexed := List (ℕ × ℕ)

/-- A value is increased. If it goes greater or equal the threshold, the next one follows. -/
def bump (bits threshold k : ℕ) : Indexed × ℕ → Option (Indexed × ℕ)
  | (output, minIndex) => do
    let (x, i) ← output[minIndex]?
    let x ← fit bits (x + k)
    some (output.set minIndex (x, i),
      if threshold ≤ x then (minIndex + 1) % output.length else minIndex)

def previous (count maxIndex : ℕ) : ℕ := if maxIndex = 0 then count - 1 else maxIndex - 1

/-- A value is decreased, as far as it goes. -/
def lower (bits threshold perRound : ℕ) : Indexed × ℕ × ℕ → Option (Indexed × ℕ × ℕ)
  | (output, maxIndex, leftover) => do
    let (x, i) ← output[maxIndex]?
    let leftover ← if perRound ≤ x then some leftover else fit bits (leftover + (perRound - x))
    some (output.set maxIndex (x - perRound, i),
      if x - perRound ≤ threshold then previous output.length maxIndex else maxIndex, leftover)

/-- What is left over is taken one by one. -/
def takeLeftover (threshold : ℕ) : ℕ → Indexed × ℕ × ℕ → Option Indexed
  | 0, _ => none
  | fuel + 1, (output, maxIndex, leftover) =>
    if leftover = 0 then some output
    else do
      let (x, i) ← output[maxIndex]?
      if x = 0 then takeLeftover threshold fuel (output, previous output.length maxIndex, leftover)
      else
        takeLeftover threshold fuel (output.set maxIndex (x - 1, i),
          if x - 1 ≤ threshold then previous output.length maxIndex else maxIndex, leftover - 1)

/-- The body of a loop, so many times. -/
def rounds {S : Type} (f : S → Option S) : ℕ → S → Option S
  | 0, s => some s
  | m + 1, s => (f s).bind (rounds f m)

/-- Must increase the values a bit. Bump from the min element. -/
def increase (bits perRound leftover targetedSum : ℕ) (output : Indexed) : Option Indexed := do
  let count := output.length
  let threshold := targetedSum / count
  let st ← rounds (bump bits threshold perRound) (if perRound = 0 then 0 else count) (output, 0)
  let st ← rounds (bump bits threshold 1) leftover st
  some st.1

/-- Must decrease the stakes a bit. Decrement from the max element. -/
def decrease (fuel bits perRound leftover : ℕ) (output : Indexed) : Option Indexed := do
  let count := output.length
  let (threshold, _) ← output.head?
  let st ← rounds (lower bits threshold perRound) (if perRound = 0 then 0 else count)
    (output, count - 1, leftover)
  takeLeftover threshold fuel st

/-- Normalize `input` so that the sum of all elements reaches `targetedSum`. There is no result if
the last loop is out of fuel, or where something fails that is expected not to. -/
def normalize (fuel bits : ℕ) (input : List ℕ) (targetedSum : ℕ) :
    Option (Except String (List ℕ)) :=
  match input.foldlM (fun sum t => fit bits (sum + t)) 0 with
  | none => some (.error "sum of input cannot fit in `T`")
  | some sum =>
    let count := input.length
    let diff := max targetedSum sum - min targetedSum sum
    if 2 ^ bits ≤ count then some (.error "length of `inputs` cannot fit in `T`")
    else if count = 0 then some (.ok [])
    else if diff = 0 then some (.ok input)
    else
      -- sort output once, and again based on the original index
      let output := input.zipIdx.mergeSort fun x y => x.1 ≤ y.1
      let output := if sum < targetedSum then
          increase bits (diff / count) (diff % count) targetedSum output
        else decrease fuel bits (diff / count) (diff % count) output
      output.map fun output => .ok ((output.mergeSort fun x y => x.2 ≤ y.2).map Prod.fst)

/-! ## The sum -/

def total (output : Indexed) : ℕ := (output.map Prod.fst).sum

variable {bits i n leftover pr target : ℕ} {output : Indexed}

theorem exists_get (hi : i < output.length) : ∃ x l, output[i]? = some (x, l) :=
  ⟨_, _, getElem?_eq_getElem hi⟩

theorem total_set {x l : ℕ} (h : output[i]? = some (x, l)) (y : ℕ) :
    total (output.set i (y, l)) + x = total output + y := by
  induction output generalizing i with
  | nil => cases h
  | cons z output ih =>
    unfold total at *
    cases i with
    | zero =>
      cases h
      simp only [set_cons_zero, map_cons, sum_cons]
      omega
    | succ i =>
      have hset := ih h
      simp only [set_cons_succ, map_cons, sum_cons]
      omega

theorem rounds_bump (th m k : ℕ) (hi : i < output.length) (hfit : total output + m * k < 2 ^ bits) :
    ∃ st, rounds (bump bits th k) m (output, i) = some st ∧
      st.1.length = output.length ∧ st.2 < output.length ∧ total st.1 = total output + m * k := by
  induction m generalizing output i with
  | zero => exact ⟨_, rfl, rfl, hi, by simp⟩
  | succ m ih =>
    rw [Nat.succ_mul] at hfit ⊢
    obtain ⟨x, l, hget⟩ := exists_get hi
    have hset := total_set hget (x + k)
    have hle := total_set hget 0
    have hn : (if th ≤ x + k then (i + 1) % output.length else i) <
        (output.set i (x + k, l)).length := by
      rw [length_set]
      split
      · exact Nat.mod_lt _ (by omega)
      · exact hi
    obtain ⟨st, hst, hlen, hlt, hsum⟩ := ih hn (by omega)
    rw [length_set] at hlen hlt
    refine ⟨st, ?_, hlen, hlt, by omega⟩
    simp only [rounds, bump, hget, Option.bind_eq_bind, Option.bind_some]
    rw [fit_eq (by omega)]
    exact hst

theorem sum_rounds (n k : ℕ) : (if k = 0 then 0 else n) * k = n * k := by
  split
  next hz => rw [hz, mul_zero, mul_zero]
  · rfl

theorem increase_eq (hpos : 0 < output.length) (htgt : target < 2 ^ bits)
    (hsum : total output + (output.length * pr + leftover) = target) :
    ∃ o', increase bits pr leftover target output = some o' ∧
      o'.length = output.length ∧ total o' = target := by
  have hrds := sum_rounds output.length pr
  have hfit : total output + (if pr = 0 then 0 else output.length) * pr < 2 ^ bits := by
    omega
  obtain ⟨st, hst, hlen, hlt, hfst⟩ := rounds_bump (target / output.length) _ _ hpos hfit
  have hfit' : total st.1 + leftover * 1 < 2 ^ bits := by omega
  obtain ⟨st', hst', hl', -, hthen⟩ := rounds_bump (target / output.length) _ _ (hlen ▸ hlt) hfit'
  refine ⟨st'.1, ?_, hl'.trans hlen, by omega⟩
  simp only [increase, hst, hst', Option.bind_eq_bind, Option.bind_some]

theorem moved_lt {c : Prop} [Decidable c] (hi : i < n) : (if c then previous n i else i) < n := by
  unfold previous
  split
  · split <;> omega
  · exact hi

/-- What cannot be taken from a value is left over. -/
theorem rounds_lower (th m : ℕ) (hi : i < output.length)
    (hsum : total output = target + (leftover + m * pr)) (hfit : total output < 2 ^ bits) :
    ∃ st, rounds (lower bits th pr) m (output, i, leftover) = some st ∧
      st.1.length = output.length ∧ st.2.1 < output.length ∧ total st.1 = target + st.2.2 := by
  induction m generalizing output i leftover with
  | zero => exact ⟨_, rfl, rfl, hi, by simpa using hsum⟩
  | succ m ih =>
    rw [Nat.succ_mul] at hsum
    obtain ⟨x, l, hget⟩ := exists_get hi
    have hset := total_set hget (x - pr)
    have hn : (if x - pr ≤ th then previous output.length i else i) <
        (output.set i (x - pr, l)).length := by
      rw [length_set]
      exact moved_lt hi
    have hr : total (output.set i (x - pr, l)) = target + (leftover + (pr - x) + m * pr) := by omega
    obtain ⟨st, hst, hlen, hlt, hsum⟩ := ih hn hr (by omega)
    rw [length_set] at hlen hlt
    refine ⟨st, ?_, hlen, hlt, hsum⟩
    simp only [rounds, lower, hget, Option.bind_eq_bind, Option.bind_some]
    split
    next hsub =>
      rw [Nat.sub_eq_zero_of_le hsub] at hst
      exact hst
    · rw [fit_eq (by omega)]
      exact hst

/-- The last loop ends, with a list of so many values that have this sum. -/
def Ends (threshold n target : ℕ) (st : Indexed × ℕ × ℕ) : Prop :=
  ∃ enough output, (∀ fuel, takeLeftover threshold (fuel + enough) st = some output) ∧
    output.length = n ∧ total output = target

theorem Ends.of_step {th : ℕ} {st st' : Indexed × ℕ × ℕ} (h : Ends th n target st')
    (hs : ∀ fuel, takeLeftover th (fuel + 1) st = takeLeftover th fuel st') :
    Ends th n target st := by
  obtain ⟨enough, output, hrun, hlen, htot⟩ := h
  exact ⟨enough + 1, output, fun fuel => (hs _).trans (hrun fuel), hlen, htot⟩

/-- An index that goes down, and around, comes to every place. -/
theorem of_previous {Q : ℕ → Prop} {j : ℕ} (hj : j < n) (hQ : Q j)
    (hs : ∀ i < n, Q (previous n i) → Q i) (hi : i < n) : Q i := by
  have hup : ∀ {i j}, Q j → j ≤ i → i < n → Q i := by
    intro i j hQ hle
    induction i, hle using Nat.le_induction with
    | base => exact fun _ => hQ
    | succ i _ ih => exact fun hlt => hs (i + 1) hlt (ih (Nat.lt_of_succ_lt hlt))
  have hl : Q (n - 1) := hup hQ (Nat.le_sub_one_of_lt hj) (by omega)
  exact hup (hs 0 (by omega) hl) (Nat.zero_le i) hi

theorem ends_takeLeftover (th : ℕ) (hi : i < output.length)
    (hsum : total output = target + leftover) :
    Ends th output.length target (output, i, leftover) := by
  induction leftover generalizing output i with
  | zero => exact ⟨1, output, fun fuel => if_pos rfl, rfl, hsum⟩
  | succ leftover ih =>
    -- a value that is not zero is lowered
    have hpos : ∀ {i x l}, output[i]? = some (x, l) → x ≠ 0 →
        Ends th output.length target (output, i, leftover + 1) := by
      intro i x l hget hx
      have hset := total_set hget (x - 1)
      have hn : (if x - 1 ≤ th then previous output.length i else i) <
          (output.set i (x - 1, l)).length := by
        rw [length_set]
        exact moved_lt (List.getElem?_eq_some_iff.mp hget).1
      have hen := ih hn (by omega)
      rw [length_set] at hen
      exact hen.of_step fun fuel => by simp [takeLeftover, hget, hx]
    obtain ⟨⟨x, l⟩, hmem, hx⟩ : ∃ p ∈ output, p.1 ≠ 0 := by
      by_contra hzero
      push Not at hzero
      have hnil : total output = 0 := sum_eq_zero fun y hy => by
        obtain ⟨p, hp, rfl⟩ := mem_map.mp hy
        exact hzero p hp
      omega
    obtain ⟨j, hget⟩ := getElem?_of_mem hmem
    refine of_previous (Q := fun i => Ends th output.length target (output, i, leftover + 1))
      (List.getElem?_eq_some_iff.mp hget).1 (hpos hget hx) (fun i hi hpr => ?_) hi
    obtain ⟨x, l, hget⟩ := exists_get hi
    by_cases hx : x = 0
    · exact hpr.of_step fun fuel => by simp [takeLeftover, hget, hx]
    · exact hpos hget hx

theorem decrease_eq (hpos : 0 < output.length) (hfit : total output < 2 ^ bits)
    (hsum : total output = target + (leftover + output.length * pr)) :
    ∃ e o', (∀ fuel, decrease (fuel + e) bits pr leftover output =
      some o') ∧ o'.length = output.length ∧ total o' = target := by
  obtain ⟨x, l, hget⟩ := exists_get hpos
  rw [← sum_rounds] at hsum
  obtain ⟨st, hst, hlen, hlt, hr⟩ := rounds_lower x _ (Nat.sub_one_lt_of_lt hpos) hsum hfit
  obtain ⟨e, o', hrun, hlen', htot⟩ := ends_takeLeftover x (hlen ▸ hlt) hr
  refine ⟨e, o', fun fuel => ?_, hlen'.trans hlen, htot⟩
  simp only [decrease, head?_eq_getElem?, hget, hst, Option.bind_eq_bind, Option.bind_some]
  exact hrun fuel

theorem foldlM_fit (inp : List ℕ) {sum : ℕ} (h : sum + inp.sum < 2 ^ bits) :
    inp.foldlM (fun sum t => fit bits (sum + t)) sum = some (sum + inp.sum) := by
  induction inp generalizing sum with
  | nil => rfl
  | cons t inp ih =>
    rw [sum_cons, ← add_assoc] at h ⊢
    rw [foldlM_cons, fit_eq (lt_of_le_of_lt (Nat.le_add_right ..) h)]
    exact ih h

theorem total_mergeSort (r : ℕ × ℕ → ℕ × ℕ → Bool) : total (output.mergeSort r) = total output :=
  ((mergeSort_perm output r).map Prod.fst).sum_eq

/-- The values get the sum that is asked for. -/
theorem normalize_sum {input : List ℕ} (hne : input ≠ []) (hsum : input.sum < 2 ^ bits)
    (hlen : input.length < 2 ^ bits) (htarget : target < 2 ^ bits) :
    ∃ output : List ℕ, output.length = input.length ∧ output.sum = target ∧
      (∀ x ∈ output, x < 2 ^ bits) ∧
      ∃ enough, ∀ fuel, normalize (fuel + enough) bits input target = some (.ok output) := by
  suffices h : ∃ output, output.length = input.length ∧ output.sum = target ∧
      ∃ enough, ∀ fuel, normalize (fuel + enough) bits input target = some (.ok output) by
    obtain ⟨output, hl, rfl, hrun⟩ := h
    exact ⟨output, hl, rfl, fun x hx => (le_sum_of_mem hx).trans_lt htarget, hrun⟩
  have hpos : 0 < input.length := length_pos_iff.mpr hne
  have hf := foldlM_fit input ((zero_add _).trans_lt hsum)
  rw [zero_add] at hf
  unfold normalize
  simp only [hf, if_neg hlen.not_ge, if_neg hpos.ne']
  generalize hd : max target input.sum - min target input.sum = diff
  have hcnt := Nat.div_add_mod diff input.length
  by_cases hdi : diff = 0
  · exact ⟨input, rfl, by omega, 0, fun fuel => if_pos hdi⟩
  have hl : (input.zipIdx.mergeSort fun x y => x.1 ≤ y.1).length = input.length := by simp
  have htot : total (input.zipIdx.mergeSort fun x y => x.1 ≤ y.1) = input.sum := by
    rw [total_mergeSort, total, zipIdx_map_fst]
  generalize (input.zipIdx.mergeSort fun x y => x.1 ≤ y.1) = sorted at hl htot
  rw [← hl] at hpos hcnt
  -- in the original order again
  have hb : ∀ output, ((output.mergeSort fun x y => x.2 ≤ y.2).map Prod.fst).length =
      output.length ∧ ((output.mergeSort fun x y => x.2 ≤ y.2).map Prod.fst).sum = total output :=
    fun output => ⟨by simp, total_mergeSort _⟩
  simp only [if_neg hdi]
  by_cases hbu : input.sum < target
  · have hup : total sorted + (sorted.length * (diff / sorted.length) + diff % sorted.length) =
        target := by omega
    obtain ⟨output, hrun, hl', hs'⟩ := increase_eq hpos htarget hup
    refine ⟨_, (hb output).1.trans (hl'.trans hl), (hb output).2.trans hs', 0, fun fuel => ?_⟩
    rw [if_pos hbu, ← hl, hrun]
    rfl
  · have hdo : total sorted =
        target + (diff % sorted.length + sorted.length * (diff / sorted.length)) := by omega
    obtain ⟨enough, output, hrun, hl', hs'⟩ := decrease_eq hpos (htot ▸ hsum) hdo
    refine ⟨_, (hb output).1.trans (hl'.trans hl), (hb output).2.trans hs', enough, fun fuel => ?_⟩
    rw [if_neg hbu, ← hl, hrun]
    rfl

theorem normalize_sum_lowered : ∃ output : List ℕ, output.length = [3, 5].length ∧
    output.sum = 4 ∧ (∀ x ∈ output, x < 2 ^ 8) ∧
    ∃ enough, ∀ fuel, normalize (fuel + enough) 8 [3, 5] 4 = some (.ok output) :=
  normalize_sum (by decide) (by decide) (by decide) (by decide)

end Arithmetic
