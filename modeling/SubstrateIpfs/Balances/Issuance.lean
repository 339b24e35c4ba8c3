-- SUMMARY: Total issuance of the balances pallet: which runs keep it equal to all funds.
import SubstrateIpfs.Balances.Accounts
import SubstrateIpfs.Base.Run

/-!
# Total issuance

An imbalance that a call returns will correct the total issuance when it is dropped. Until
then the funds of all accounts and the total issuance differ by the imbalances that are out.
All calls keep this, except where the account store refuses to remove an account: the
imbalance made for the mutation and the dust of the account are dropped, and the account keeps
its funds.
-/

namespace Balances

open Fallible Storage.SignedImbalance AccountData Run Storage

variable {A I : Type} [DecidableEq A] {R : Type} {cfg : Config} {s s' : Storage A I} {who : A}
  {n value : ℕ} {a acc : AccountData} {isN : Bool} {res : Except Error ℕ}
  {liveness existence : ExistenceRequirement} {reasons : WithdrawReasons} {r : SignedImbalance}
  {fa toAccount from' to' : AccountData} {transactor : A} {status : Status}

namespace Storage

/-! ## The gap between funds and issuance -/

/-- The funds of all accounts minus the total issuance. -/
def gap (s : Storage A I) : ℤ := s.funds - s.totalIssuance

/-- No account holds more than the largest balance. -/
def Fits (cfg : Config) (s : Storage A I) : Prop := ∀ who, (s.data who).sum ≤ cfg.maxBalance

omit [DecidableEq A] in
theorem gap_dropNegative (h : (s.dropNegative n).clipped = false) :
    s.clipped = false ∧ (s.dropNegative n).gap = s.gap + n := by
  simp only [dropNegative, Bool.or_eq_false_iff, decide_eq_false_iff_not] at h
  refine ⟨h.1, ?_⟩
  unfold gap dropNegative funds
  dsimp only
  omega

omit [DecidableEq A] in
theorem gap_dropPositive (h : (s.dropPositive cfg n).clipped = false) :
    s.clipped = false ∧ (s.dropPositive cfg n).gap = s.gap - n := by
  simp only [dropPositive, Bool.or_eq_false_iff, decide_eq_false_iff_not] at h
  refine ⟨h.1, ?_⟩
  unfold gap dropPositive funds saturatingAdd
  dsimp only
  omega

theorem Written.gap (h : Written s who a s') : s'.gap = s.gap + a.sum - (s.data who).sum := by
  have hfun := h.funds
  obtain ⟨acc, rfl⟩ := h.rest
  unfold gap
  dsimp only
  omega

theorem Written.clipped (h : Written s who a s') : s'.clipped = s.clipped := by
  obtain ⟨acc, rfl⟩ := h.rest
  rfl

theorem residue_sum_le (cfg : Config) (a : AccountData) : (residue cfg a).sum ≤ a.sum := by
  unfold residue
  split
  · exact le_rfl
  · exact Nat.zero_le _

/-- The gap has moved by the imbalances returned and by what was lost. -/
structure Kept (cfg : Config) (s s' : Storage A I) (positive negative lost : ℕ) : Prop where
  gap : s'.gap + negative = s.gap + positive + lost
  solid : Solid cfg s'

theorem Kept.refl (h : Solid cfg s) : Kept cfg s s 0 0 0 := ⟨by omega, h⟩

theorem Kept.trans {t : Storage A I} {pos neg l l' : ℕ}
    (h : Kept cfg s t 0 0 l) (h' : Kept cfg t s' pos neg l') :
    Kept cfg s s' pos neg (l + l') := by
  have hgap := h.gap
  have hgap' := h'.gap
  exact ⟨by omega, h'.solid⟩

/-! ## Mutations and the gap -/

/-- What a result is worth to the issuance when it is dropped. -/
structure Drops (discard : Discard A I R) (positive negative : R → ℕ) : Prop where
  data : ∀ r s k, (discard r s).data k = s.data k
  gap : ∀ r s, (discard r s).clipped = false →
    s.clipped = false ∧ (discard r s).gap = s.gap + negative r - positive r

theorem Drops.nothing : Drops (A := A) (I := I) (fun (_ : R) s => s) (fun _ => 0) fun _ => 0 :=
  ⟨fun _ _ _ => rfl, fun _ _ h => ⟨h, by omega⟩⟩

theorem Drops.positive : Drops (A := A) (I := I) (dropPositive cfg) id fun _ => 0 := by
  refine ⟨fun _ _ _ => rfl, fun n s h => ?_⟩
  obtain ⟨hc, hgap⟩ := gap_dropPositive h
  exact ⟨hc, by simp only [id]; omega⟩

theorem Drops.negative {f : R → ℕ} :
    Drops (A := A) (I := I) (fun r => dropNegative (f r)) (fun _ => 0) f := by
  refine ⟨fun _ _ _ => rfl, fun n s h => ?_⟩
  obtain ⟨hc, hgap⟩ := gap_dropNegative h
  exact ⟨hc, by omega⟩

/-- The imbalance in a result. -/
def ofResult (f : R → ℕ) : Except Error R → ℕ
  | .ok r => f r
  | .error _ => 0

/-- What the issuance loses by a mutation: all that the account holds, if the account store
refuses to remove it. -/
def lostBy (cfg : Config) (s : Storage A I) (who : A) : Except Error (R × AccountData) → ℕ
  | .ok (_, a) =>
    if a.sum < cfg.existentialDeposit ∧ s.Refuses who then (s.data who).sum else 0
  | .error _ => 0

theorem lostBy_eq_zero (hs : Solid cfg s) {out : Except Error (R × AccountData)}
    (hge : ∀ r a, out = .ok (r, a) → (s.data who).sum ≤ a.sum) : lostBy cfg s who out = 0 := by
  cases out with
  | error e => rfl
  | ok out =>
    obtain ⟨r, a⟩ := out
    refine if_neg ?_
    rintro ⟨hlt, hold, -⟩
    have hed := hs who hold
    have hle := hge r a rfl
    omega

/-- A mutation whose result accounts for the change of the account loses nothing unless it is
refused. A refused one leaves all accounts as they were. -/
theorem Changed.kept {m : Except Error (R × AccountData)} {d : Discard A I R} {p neg : R → ℕ}
    {re : Except Error R} (hchg : Changed cfg s who d m (re, s'))
    (hdrop : Drops d p neg) (hs : Solid cfg s)
    (hwo : ∀ r a, m = .ok (r, a) → a.sum + neg r = (s.data who).sum + p r) :
    (∀ e, re = .error e → ∀ k, s'.data k = s.data k) ∧
      (s'.clipped = false → s.clipped = false ∧
        Kept cfg s s' (ofResult p re) (ofResult neg re) (lostBy cfg s who m)) := by
  have hsolid' := hs.changed hdrop.data hchg
  cases re with
  | ok r =>
    refine ⟨fun _ h => (nomatch h), fun hc => ?_⟩
    obtain ⟨a, t, rfl, hw, rfl, hmay⟩ := hchg.of_ok
    obtain ⟨hc', hdust⟩ := gap_dropNegative hc
    have hgap := hw.gap
    have hle := residue_sum_le cfg a
    have hr := hwo r a rfl
    have hl : lostBy cfg s who (.ok (r, a)) = 0 := if_neg hmay
    refine ⟨hw.clipped.symm.trans hc', ?_, hsolid'⟩
    simp only [ofResult]
    omega
  | error e =>
    cases hchg with
    | failed => exact ⟨fun _ _ _ => rfl, fun hc => ⟨hc, .refl hs⟩⟩
    | refused r a hlt href =>
      refine ⟨fun _ _ => hdrop.data _ _, fun hc => ?_⟩
      obtain ⟨hc', hgap⟩ := hdrop.gap _ _ hc
      obtain ⟨hclip2, hdust⟩ := gap_dropNegative hc'
      have hr := hwo r a rfl
      have hl : lostBy cfg s who (.ok (r, a)) = (s.data who).sum := if_pos ⟨hlt, href⟩
      refine ⟨hclip2, ?_, hsolid'⟩
      simp only [ofResult]
      omega

/-! ## Calls on one account -/

theorem creditExisting_sum (h : creditExisting cfg value acc isN = .ok (n, a)) :
    a.sum = acc.sum + n := by
  obtain ⟨_, -, h⟩ := bind_eq_ok h
  obtain ⟨free, hfree, h⟩ := bind_eq_ok h
  obtain ⟨-, rfl⟩ := checkedAdd_eq_some.mp (of_okOr hfree)
  cases h
  exact Nat.add_right_comm ..

theorem depositIntoExisting_kept (hs : Solid cfg s)
    (hres : s.depositIntoExisting cfg who value = (res, s')) (hc : s'.clipped = false) :
    Kept cfg s s' (ofResult id res) 0 0 := by
  obtain ⟨-, ⟨⟩⟩ | ⟨-, hres⟩ := ite_eq_iff.mp hres
  · exact .refl hs
  obtain ⟨-, hk⟩ := (Changed.of_eq hres).kept Drops.positive hs
    fun n a hout => creditExisting_sum hout
  rw [lostBy_eq_zero hs fun n a hout => by rw [creditExisting_sum hout]; omega] at hk
  cases res <;> exact (hk hc).2

theorem creditOrCreate_sum (h : creditOrCreate cfg value acc isN = .ok (n, a)) :
    a.sum = acc.sum + n := by
  obtain ⟨-, rfl, -⟩ := creditOrCreate_eq_ok h
  exact Nat.add_right_comm ..

theorem depositCreating_kept (hs : Solid cfg s)
    (hres : s.depositCreating cfg who value = (n, s')) (hc : s'.clipped = false) :
    Kept cfg s s' n 0 0 := by
  obtain ⟨rfl, rfl⟩ | ⟨res, rfl, hchg⟩ := depositCreating_cases hres
  · exact .refl hs
  obtain ⟨-, hk⟩ := hchg.kept Drops.positive hs fun n a hout => creditOrCreate_sum hout
  rw [lostBy_eq_zero hs fun n a hout => by rw [creditOrCreate_sum hout]; omega] at hk
  cases res <;> exact (hk hc).2

theorem withdraw_kept (hs : Solid cfg s)
    (hres : s.withdraw cfg who value reasons liveness = (res, s')) (hc : s'.clipped = false) :
    Kept cfg s s' 0 (ofResult id res)
      (if value = 0 then 0
        else lostBy cfg s who (s.debitFree cfg who value reasons liveness (s.data who))) := by
  obtain ⟨hz, ⟨⟩⟩ | ⟨hz, hres⟩ := ite_eq_iff.mp hres
  · rw [if_pos hz]
    exact .refl hs
  obtain ⟨-, hk⟩ := (Changed.of_eq hres).kept (Drops.negative) hs
    fun n a hout => by
      obtain ⟨rfl, hle, rfl, -⟩ := debitFree_eq_ok hout
      simp only [sum]
      omega
  rw [if_neg hz]
  cases res <;> exact (hk hc).2

/-- The part of an imbalance of either kind that is positive. -/
def SignedImbalance.positivePart : SignedImbalance → ℕ
  | .positive n => n
  | .negative _ => 0

/-- The part of an imbalance of either kind that is negative. -/
def SignedImbalance.negativePart : SignedImbalance → ℕ
  | .positive _ => 0
  | .negative n => n

theorem Drops.signed : Drops (A := A) (I := I) (drop cfg) positivePart
      negativePart := by
  refine ⟨fun r _ _ => ?_, fun r s h => ?_⟩
  · cases r <;> rfl
  cases r with
  | positive n =>
    obtain ⟨hc, hgap⟩ := gap_dropPositive h
    refine ⟨hc, hgap.trans ?_⟩
    simp [positivePart, negativePart]
  | negative n =>
    obtain ⟨hc, hgap⟩ := gap_dropNegative h
    refine ⟨hc, hgap.trans ?_⟩
    simp [positivePart, negativePart]

theorem setFree_sum (h : setFree cfg value acc isN = .ok (r, a)) :
    a.sum + r.negativePart = acc.sum + r.positivePart := by
  obtain ⟨_, -, h⟩ := bind_eq_ok h
  cases h
  simp only [sum]
  split
  · simp only [positivePart, negativePart]
    omega
  · simp only [positivePart, negativePart]
    omega

theorem makeFreeBalanceBe_kept (hs : Solid cfg s)
    (hres : s.makeFreeBalanceBe cfg who value = (r, s')) (hc : s'.clipped = false) :
    Kept cfg s s' r.positivePart r.negativePart
      (lostBy cfg s who (setFree cfg value (s.data who) (decide (s.data who = .default)))) := by
  unfold makeFreeBalanceBe at hres
  split at hres
  all_goals
    rename_i hmut
    cases hres
    exact ((Changed.of_eq hmut).kept Drops.signed hs fun r a hout => setFree_sum hout).2 hc |>.2

theorem moveToReserved_sum {u : Unit} (h : s.moveToReserved cfg who value acc = .ok (u, a)) :
    a.sum = acc.sum := by
  obtain ⟨hle, -, rfl, -⟩ := moveToReserved_eq_ok h
  simp only [sum]
  omega

theorem reserve_kept (hs : Solid cfg s) {re : Except Error Unit}
    (hres : s.reserve cfg who value = (re, s')) (hc : s'.clipped = false) :
    Kept cfg s s' 0 0 0 := by
  obtain ⟨-, ⟨⟩⟩ | ⟨-, hres⟩ := ite_eq_iff.mp hres
  · exact .refl hs
  obtain ⟨-, hk⟩ := (Changed.of_eq hres).kept Drops.nothing hs
    fun n a hout => moveToReserved_sum hout
  rw [lostBy_eq_zero hs fun n a hout => by rw [moveToReserved_sum hout]] at hk
  cases re <;> exact (hk hc).2

theorem unreserve_kept (hs : Solid cfg s) (hf : Fits cfg s)
    (hres : s.unreserve cfg who value = (n, s')) (hc : s'.clipped = false) :
    Kept cfg s s' 0 0 0 := by
  have hsum : ∀ r a, (Except.ok (moveToFree cfg value (s.data who)) :
      Except Error (ℕ × AccountData)) = .ok (r, a) → a.sum = (s.data who).sum := by
    intro r a hout
    cases hout
    have hle := hf who
    simp only [sum, saturatingAdd] at hle ⊢
    omega
  obtain ⟨-, ⟨⟩⟩ | ⟨-, hres⟩ := ite_eq_iff.mp hres
  · exact .refl hs
  obtain ⟨-, ⟨⟩⟩ | ⟨-, hres⟩ := ite_eq_iff.mp hres
  · exact .refl hs
  split at hres
  all_goals
    rename_i hmut
    cases hres
    obtain ⟨-, hk⟩ := (Changed.of_eq hmut).kept Drops.nothing hs hsum
    rw [lostBy_eq_zero hs fun r a hout => (hsum r a hout).ge] at hk
    exact (hk hc).2

/-! ## Slashing -/

/-- The best value of the second attempt leaves the existential deposit. -/
theorem bestValue_add_le (v : ℕ) (hf : acc.sum ≤ cfg.maxBalance)
    (hge : cfg.existentialDeposit ≤ acc.sum) :
    bestValue cfg true v acc + cfg.existentialDeposit ≤ acc.sum := by
  have hwrap : wrappingAdd cfg acc.free acc.reserved = acc.sum :=
    Nat.mod_eq_of_lt (Nat.lt_succ_of_le hf)
  unfold bestValue
  rw [if_pos rfl]
  omega

section
variable (hs : Solid cfg s)

include hs

/-- One attempt. -/
theorem attempt_kept {g : AccountData → (ℕ × ℕ) × AccountData}
    (hsum : (g (s.data who)).2.sum + (g (s.data who)).1.1 = (s.data who).sum)
    {re : Except Error (ℕ × ℕ)}
    (hchg : Changed cfg s who (fun r s => s.dropNegative r.1) (.ok (g (s.data who))) (re, s')) :
    (∀ e, re = .error e → ∀ k, s'.data k = s.data k) ∧
      (s'.clipped = false → s.clipped = false ∧
        Kept cfg s s' 0 (re.toOption.elim 0 Prod.fst)
          (lostBy cfg s who (.ok (g (s.data who))))) := by
  obtain ⟨hda, hk⟩ := hchg.kept (Drops.negative) hs fun r a hout => by
    rw [Except.ok.inj hout] at hsum
    exact hsum
  refine ⟨hda, ?_⟩
  cases re <;> exact hk

/-- Two attempts, of which the second leaves the existential deposit. -/
theorem slashWith_kept (hf : Fits cfg s) {f : Bool → ℕ → AccountData → (ℕ × ℕ) × AccountData}
    (hsl : ∀ ret value acc,
      (f ret value acc).2.sum + (f ret value acc).1.1 = acc.sum ∧
        (f ret value acc).1.1 ≤ bestValue cfg ret value acc) {re : ℕ × ℕ}
    (hres : s.slashWith cfg who value f = (re, s')) (hc : s'.clipped = false) :
    Kept cfg s s' 0 re.1
      (if value = 0 then 0 else lostBy cfg s who (.ok (f false value (s.data who)))) := by
  obtain ⟨hn, rfl, hz⟩ | ⟨hz, -, hsld⟩ := slashWith_cases hres
  · have hl : (if value = 0 then 0 else lostBy cfg s' who (.ok (f false value (s'.data who)))) =
        0 := by
      refine ite_eq_left_iff.mpr fun hne => lostBy_eq_zero hs fun r a _ => ?_
      have htot := hz.resolve_left hne
      rw [total_eq (hf who)] at htot
      omega
    rw [hl, hn]
    exact .refl hs
  rw [if_neg hz]
  generalize re.1 = imbalance at hsld
  cases hsld with
  | first re _ hfst => exact ((attempt_kept hs (hsl ..).1 hfst).2 hc).2
  | second e t _ out hfst hsec =>
    obtain ⟨hda, hk⟩ := attempt_kept hs (hsl ..).1 hfst
    have hsa := hda e rfl
    obtain ⟨-, hk'⟩ := attempt_kept (hs.of_data_eq hsa) (hsl ..).1 hsec
    obtain ⟨hclip', hk'⟩ := hk' hc
    have hl : lostBy cfg t who (.ok (f true value (t.data who))) = 0 := by
      refine if_neg ?_
      rintro ⟨hlt, hold, -⟩
      obtain ⟨hsum, hle⟩ := hsl true value (t.data who)
      have hfits' : (t.data who).sum ≤ cfg.maxBalance := by
        rw [hsa]
        exact hf who
      have hbest := bestValue_add_le value hfits' (hs.of_data_eq hsa who hold)
      omega
    rw [hl] at hk'
    exact (hk hclip').2.trans hk'

end

/-! ## Calls on two accounts -/

/-- What the issuance loses by a mutation of two accounts: the dust of the source, if the account
store refuses to remove it. -/
def lostByTwo (cfg : Config) (s : Storage A I) (source : A) :
    Except Error ((R × AccountData) × AccountData) → ℕ
  | .ok (_, from') =>
    if from'.sum < cfg.existentialDeposit ∧ s.Refuses source then from'.sum else 0
  | .error _ => 0

/-- A mutation that leaves the sum of the two accounts as it was. -/
theorem TwoMutated.kept {src d : A} {out : Except Error ((R × AccountData) × AccountData)}
    {re : Except Error R} (htwo : TwoMutated cfg s src d out (re, s')) (hne : d ≠ src)
    (hsum : ∀ r to' from', out = .ok ((r, to'), from') → cfg.existentialDeposit ≤ to'.sum ∧
      to'.sum + from'.sum = (s.data d).sum + (s.data src).sum)
    (hc : s'.clipped = false) (hs : Solid cfg s) :
    Kept cfg s s' 0 0 (lostByTwo cfg s src out) := by
  have hsolid' := hs.twoMutated (fun r to' from' hout => (hsum r to' from' hout).1) htwo
  cases re with
  | ok r =>
    obtain ⟨to', from', t, u, rfl, hsrc, hde, rfl, hmay⟩ := htwo.of_ok
    obtain ⟨-, hequal⟩ := hsum r to' from' rfl
    obtain ⟨-, hdu⟩ := gap_dropNegative hc
    have hgap := hsrc.gap
    have hgap' := hde.gap
    rw [hsrc.data_eq, if_neg hne] at hgap'
    have hle := residue_sum_le cfg from'
    have hl : lostByTwo cfg s src (.ok ((r, to'), from')) = 0 := if_neg hmay
    exact ⟨by omega, hsolid'⟩
  | error e =>
    cases htwo with
    | failed => exact .refl hs
    | refused r to' from' hlt href =>
      obtain ⟨-, hdu⟩ := gap_dropNegative hc
      have hl : lostByTwo cfg s src (.ok ((r, to'), from')) = from'.sum := if_pos ⟨hlt, href⟩
      exact ⟨by omega, hsolid'⟩

theorem transfer_kept (hs : Solid cfg s) {d : A} {re : Except Error Unit}
    (hres : s.transfer cfg transactor d value existence = (re, s'))
    (hc : s'.clipped = false) : Kept cfg s s' 0 0 0 := by
  obtain ⟨-, -, rfl⟩ | ⟨-, hne, htwo⟩ := transfer_cases hres
  · exact .refl hs
  have hk := htwo.kept (symm hne) (fun r to' from' hout => by
    obtain ⟨hle, rfl, rfl, hf, -⟩ := moveFree_eq_ok hout
    refine ⟨hf, ?_⟩
    simp only [sum]
    omega) hc hs
  have hl : lostByTwo cfg s transactor (s.moveFree cfg transactor value existence
      (s.data d) (s.data transactor)) = 0 := by
    cases hout : s.moveFree cfg transactor value existence (s.data d) (s.data transactor) with
    | error e => rfl
    | ok out =>
      refine if_neg ?_
      rintro ⟨hlt, -, hdec⟩
      obtain ⟨-, -, -, -, hali | hali, -⟩ := moveFree_eq_ok hout
      · exact hdec hali
      · exact not_lt.mpr hali hlt
  rwa [hl] at hk

theorem repatriateReserved_kept (hs : Solid cfg s) (hf : Fits cfg s) {sl ben : A}
    (hres : s.repatriateReserved cfg sl ben value status = (res, s')) (hc : s'.clipped = false) :
    Kept cfg s s' 0 0
      (if value = 0 ∨ sl = ben then 0
        else lostByTwo cfg s sl (moveReserved cfg value true status (s.data ben)
          (s.data sl) (decide (s.data ben = .default)))) := by
  have htr : ∃ out, s.doTransferReserved cfg sl ben value true status = (out, s') := by
    unfold repatriateReserved at hres
    split at hres
    all_goals
      rename_i hout
      cases hres
      exact ⟨_, hout⟩
  obtain ⟨out, hout⟩ := htr
  obtain ⟨hzero, ⟨⟩⟩ | ⟨hzero, hout⟩ := ite_eq_iff.mp hout
  · rw [if_pos (.inl hzero)]
    exact .refl hs
  split at hout
  next heq =>
    rw [if_pos (.inr heq)]
    cases status with
    | free =>
      cases hout
      exact unreserve_kept hs hf rfl hc
    | reserved =>
      cases hout
      exact .refl hs
  next hne =>
    rw [if_neg (not_or.mpr ⟨hzero, hne⟩)]
    have htwo := tryMutateTwo_cases (symm hne) hout fun _ _ _ => hs.of_moveReserved
    refine htwo.kept (symm hne) (fun r to' from' hm =>
      ⟨hs.of_moveReserved hm, ?_⟩) hc hs
    obtain ⟨-, rfl, rfl, -, rfl⟩ := moveReserved_eq_ok hm
    rw [sum_credit]
    simp only [sum]
    omega

end Storage

/-! ## Runs -/

/-- The calls, what other pallets do to the references to an account, and the dropping of
imbalances. -/
inductive Op (A : Type)
  | transfer (transactor dest : A) (value : ℕ) (existence : ExistenceRequirement)
  | slash (who : A) (value : ℕ)
  | depositIntoExisting (who : A) (value : ℕ)
  | depositCreating (who : A) (value : ℕ)
  | withdraw (who : A) (value : ℕ) (reasons : WithdrawReasons) (liveness : ExistenceRequirement)
  | makeFreeBalanceBe (who : A) (value : ℕ)
  | reserve (who : A) (value : ℕ)
  | unreserve (who : A) (value : ℕ)
  | slashReserved (who : A) (value : ℕ)
  | repatriateReserved (slashed beneficiary : A) (value : ℕ) (status : Status)
  | setReferences (who : A) (consumers providers sufficients : ℕ)
  | dropPositive (n : ℕ)
  | dropNegative (n : ℕ)

/-- The storage, with the imbalances that have been returned and not dropped. -/
structure Ledger (A I : Type) where
  storage : Storage A I
  positive : ℕ
  negative : ℕ

/-- One step. Only what is out can be dropped. -/
def Ledger.step (cfg : Config) (l : Ledger A I) : Op A → Ledger A I
  | .transfer transactor dest value existence =>
    { l with storage := (l.storage.transfer cfg transactor dest value existence).2 }
  | .slash who value =>
    { l with
      storage := (l.storage.slash cfg who value).2
      negative := l.negative + (l.storage.slash cfg who value).1.1 }
  | .depositIntoExisting who value =>
    { l with
      storage := (l.storage.depositIntoExisting cfg who value).2
      positive := l.positive + Storage.ofResult id (l.storage.depositIntoExisting cfg who value).1 }
  | .depositCreating who value =>
    { l with
      storage := (l.storage.depositCreating cfg who value).2
      positive := l.positive + (l.storage.depositCreating cfg who value).1 }
  | .withdraw who value reasons liveness =>
    { l with
      storage := (l.storage.withdraw cfg who value reasons liveness).2
      negative := l.negative +
        Storage.ofResult id (l.storage.withdraw cfg who value reasons liveness).1 }
  | .makeFreeBalanceBe who value =>
    { storage := (l.storage.makeFreeBalanceBe cfg who value).2
      positive := l.positive + (l.storage.makeFreeBalanceBe cfg who value).1.positivePart
      negative := l.negative + (l.storage.makeFreeBalanceBe cfg who value).1.negativePart }
  | .reserve who value => { l with storage := (l.storage.reserve cfg who value).2 }
  | .unreserve who value => { l with storage := (l.storage.unreserve cfg who value).2 }
  | .slashReserved who value =>
    { l with
      storage := (l.storage.slashReserved cfg who value).2
      negative := l.negative + (l.storage.slashReserved cfg who value).1.1 }
  | .repatriateReserved slashed beneficiary value status =>
    { l with storage := (l.storage.repatriateReserved cfg slashed beneficiary value status).2 }
  | .setReferences who consumers providers sufficients =>
    { l with
      storage := l.storage.setInfo who
        { consumers := consumers, providers := providers, sufficients := sufficients
          data := l.storage.data who } }
  | .dropPositive n =>
    { l with
      storage := l.storage.dropPositive cfg (min l.positive n)
      positive := l.positive - min l.positive n }
  | .dropNegative n =>
    { l with
      storage := l.storage.dropNegative (min l.negative n)
      negative := l.negative - min l.negative n }

/-- The funds of all accounts are the total issuance and the imbalances that are out, and every
stored account holds the existential deposit. -/
def Ledger.Conserved (cfg : Config) (l : Ledger A I) : Prop :=
  l.storage.funds + l.negative = l.storage.totalIssuance + l.positive ∧ l.storage.Solid cfg

/-- No counter is cut off: all balances fit, and the issuance does not leave its range. -/
def Ledger.Unclipped (cfg : Config) (l : Ledger A I) (op : Op A) : Prop :=
  l.storage.Fits cfg ∧ (l.step cfg op).storage.clipped = false

/-- What the issuance loses by a step. -/
def Ledger.lost (cfg : Config) (l : Ledger A I) : Op A → ℕ
  | .slash who value =>
    if value = 0 then 0
    else l.storage.lostBy cfg who (.ok (Storage.slashAccount cfg false value (l.storage.data who)))
  | .withdraw who value reasons liveness =>
    if value = 0 then 0
    else l.storage.lostBy cfg who
      (l.storage.debitFree cfg who value reasons liveness (l.storage.data who))
  | .makeFreeBalanceBe who value =>
    l.storage.lostBy cfg who (Storage.setFree cfg value (l.storage.data who)
      (decide (l.storage.data who = .default)))
  | .slashReserved who value =>
    if value = 0 then 0
    else l.storage.lostBy cfg who
      (.ok (Storage.slashReservedAccount cfg false value (l.storage.data who)))
  | .repatriateReserved slashed beneficiary value status =>
    if value = 0 ∨ slashed = beneficiary then 0
    else l.storage.lostByTwo cfg slashed
      (Storage.moveReserved cfg value true status (l.storage.data beneficiary)
        (l.storage.data slashed) (decide (l.storage.data beneficiary = .default)))
  | _ => 0

namespace Ledger

variable {l : Ledger A I} {op : Op A}

/-- By how much the funds of all accounts exceed what they should be. -/
def surplus (l : Ledger A I) : ℤ := l.storage.gap + l.negative - l.positive

theorem surplus_of_kept {t : Storage A I} {pos neg lo : ℕ} (h : l.storage.Kept cfg t pos neg lo) :
    surplus ⟨t, l.positive + pos, l.negative + neg⟩ = l.surplus + lo ∧ t.Solid cfg := by
  have hgap := h.gap
  refine ⟨?_, h.solid⟩
  simp only [surplus]
  omega

/-- A step makes the funds exceed what they should be by what it loses. -/
theorem step_surplus (hs : l.storage.Solid cfg) (hu : l.Unclipped cfg op) :
    (l.step cfg op).surplus = l.surplus + l.lost cfg op ∧ (l.step cfg op).storage.Solid cfg := by
  obtain ⟨hf, hc⟩ := hu
  cases op with
  | transfer => exact surplus_of_kept (transfer_kept hs rfl hc)
  | slash =>
    refine surplus_of_kept (slashWith_kept hs hf (fun re value acc => ?_) rfl hc)
    unfold slashAccount sum
    dsimp only
    split
    · dsimp only
      omega
    · dsimp only
      omega
  | depositIntoExisting =>
    exact surplus_of_kept (depositIntoExisting_kept hs rfl hc)
  | depositCreating => exact surplus_of_kept (depositCreating_kept hs rfl hc)
  | withdraw => exact surplus_of_kept (withdraw_kept hs rfl hc)
  | makeFreeBalanceBe => exact surplus_of_kept (makeFreeBalanceBe_kept hs rfl hc)
  | reserve => exact surplus_of_kept (reserve_kept hs rfl hc)
  | unreserve => exact surplus_of_kept (unreserve_kept hs hf rfl hc)
  | slashReserved =>
    refine surplus_of_kept (slashWith_kept hs hf (fun re value acc => ?_) rfl hc)
    unfold slashReservedAccount sum
    dsimp only
    omega
  | repatriateReserved =>
    exact surplus_of_kept (repatriateReserved_kept hs hf rfl hc)
  | setReferences who cs p su =>
    have hda : ∀ k, (l.storage.setInfo who ⟨cs, p, su,
        l.storage.data who⟩).data k = l.storage.data k := by
      intro k
      rw [data_setInfo]
      split
      next heq => rw [heq]
      · rfl
    have hfun := funds_setInfo l.storage who ⟨cs, p, su, l.storage.data who⟩
    refine ⟨?_, hs.of_data_eq hda⟩
    simp only [surplus, step, lost, gap, setInfo] at hfun ⊢
    omega
  | dropPositive n =>
    obtain ⟨-, hgap⟩ := gap_dropPositive hc
    refine ⟨?_, hs.of_data_eq fun _ => rfl⟩
    simp only [surplus, step, lost]
    omega
  | dropNegative n =>
    obtain ⟨-, hgap⟩ := gap_dropNegative hc
    refine ⟨?_, hs.of_data_eq fun _ => rfl⟩
    simp only [surplus, step, lost]
    omega

theorem conserved_iff : l.Conserved cfg ↔ l.surplus = 0 ∧ l.storage.Solid cfg := by
  unfold Conserved surplus gap
  refine and_congr_left' ?_
  omega

/-- As long as no counter is cut off, issuance is conserved exactly in the runs in which no
step loses anything. -/
theorem conserved_iff_nothing_lost (hl : l.Conserved cfg) (ops : List (Op A))
    (hunclipped : Run.Each (step cfg) (Unclipped cfg) l ops) :
    Run.Always (step cfg) (Conserved cfg) l ops ↔
      Run.Each (step cfg) (fun l op => l.lost cfg op = 0) l ops := by
  refine always_iff_each (I := fun _ => True) (fun _ _ _ _ _ _ => trivial)
    (fun l op _ hl hunclipped => ?_) trivial hl hunclipped
  obtain ⟨hsurplus, hs⟩ := conserved_iff.mp hl
  obtain ⟨hnext, hs'⟩ := step_surplus hs hunclipped
  rw [conserved_iff]
  constructor
  · rintro ⟨hzero, -⟩
    omega
  · intro hlost
    exact ⟨by omega, hs'⟩

instance (l : Ledger (Fin 2) I) : Decidable (l.Conserved cfg) :=
  inferInstanceAs (Decidable (_ ∧ ∀ _ : Fin 2, _ → _))

instance (l : Ledger (Fin 2) I) (op : Op (Fin 2)) : Decidable (l.Unclipped cfg op) :=
  inferInstanceAs (Decidable ((∀ _ : Fin 2, _) ∧ _))

/-- Balances below 700, and 10 to exist. -/
def smallConfig : Config := ⟨700, 10, 5, by decide, by decide⟩

/-- No accounts and no issuance. -/
def start : Ledger (Fin 2) ℕ := ⟨⟨.empty, 0, .empty, .empty, false, false⟩, 0, 0⟩

/-- Account 0 is endowed, pays account 1 and is reaped with some dust. -/
def reapingRun : List (Op (Fin 2)) :=
  [.depositCreating 0 100, .dropPositive 100, .transfer 0 1 60 .keepAlive,
    .withdraw 0 35 .TRANSACTION_PAYMENT .allowDeath, .dropNegative 35]

theorem conserved_reapingRun :
    Run.Always (step smallConfig) (Conserved smallConfig) start reapingRun := by
  refine (conserved_iff_nothing_lost (by decide +kernel) reapingRun ?_).mpr ?_
  · decide +kernel
  · decide +kernel

/-- Account 0 holds 100, all issued, has a consumer reference, and is slashed by 100. -/
def slashingRun : List (Op (Fin 2)) :=
  [.depositCreating 0 100, .dropPositive 100, .setReferences 0 1 1 0, .slash 0 100]

/-- The first attempt is refused and takes 100 off the issuance; the second one takes 90 from the
account and returns it as an imbalance. -/
theorem not_conserved_slashingRun :
    start.Conserved smallConfig ∧
      Run.Each (step smallConfig) (Unclipped smallConfig) start slashingRun ∧
      ¬Run.Always (step smallConfig) (Conserved smallConfig) start slashingRun := by
  refine ⟨by decide +kernel, by decide +kernel, fun h => ?_⟩
  have hl := h.last
  revert hl
  decide +kernel

end Ledger

end Balances
