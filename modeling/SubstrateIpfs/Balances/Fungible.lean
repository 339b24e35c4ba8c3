-- SUMMARY: Moving reserved balances, burning, and what can be spent, by the fungible traits.
import SubstrateIpfs.Balances.Accounts

/-!
# Fungible balances

What the calls report is compared with what they do, for accounts that hold the existential
deposit.
-/

namespace Balances.Storage

open AccountData Fallible

variable {A I : Type} [DecidableEq A] {cfg : Config} {s s' : Storage A I} {who : A}
  {slashed beneficiary : A} {value moved : ℕ} {bes : Bool} {status : Status}

/-! ## Moving reserved balances -/

def transferHeld (cfg : Config) (s : Storage A I) (source dest : A) (amount : ℕ)
    (bestEffort onHold : Bool) : Except Error ℕ × Storage A I :=
  s.doTransferReserved cfg source dest amount bestEffort (if onHold then .reserved else .free)

/-- What is not unreserved. -/
theorem unreserve_fst (hsol : Solid cfg s) :
    (s.unreserve cfg who value).1 = value - min (s.data who).reserved value := by
  unfold unreserve
  split
  next hz => rw [hz, Nat.zero_sub]
  split
  next htot =>
    have hpos := cfg.maxBalance_pos
    simp only [total, saturatingAdd] at htot
    omega
  next htot =>
    have hne : s.data who ≠ .default := fun hnew => htot (by rw [hnew]; exact Nat.min_zero _)
    obtain ⟨s', hmut, -⟩ := tryMutateAccount_of_ge
      (fun acc _ => .ok (moveToFree cfg value acc)) (fun _ s => s) rfl
      (hsol.moveToFree hne value)
    rw [mutateAccount, hmut]

theorem Solid.residue_data (hsol : Solid cfg s) (who : A) :
    Storage.residue cfg (s.data who) = s.data who := by
  unfold Storage.residue
  split
  · rfl
  next hlt => exact (not_not.mp fun hne => hlt (hsol who hne)).symm

/-- What a transfer that succeeds reports and does. -/
theorem doTransferReserved_eq_ok (hsol : Solid cfg s)
    (hc : s.doTransferReserved cfg slashed beneficiary value bes status = (.ok moved, s')) :
    moved = (if slashed = beneficiary ∧ status = .reserved then value - (s.data slashed).reserved
      else min (s.data slashed).reserved value) ∧
    (slashed ≠ beneficiary → s'.data beneficiary = (s.data beneficiary).credit status moved ∧
      s'.data slashed =
        residue cfg { s.data slashed with reserved := (s.data slashed).reserved - moved }) := by
  unfold doTransferReserved at hc
  split at hc
  next hz =>
    cases hc
    refine ⟨by split <;> omega, fun _ => ⟨by cases status <;> rfl, ?_⟩⟩
    exact (hsol.residue_data slashed).symm
  split at hc
  next hz heq =>
    refine ⟨?_, absurd heq⟩
    cases status with
    | free =>
      cases hc
      rw [if_neg (by rintro ⟨_, ⟨⟩⟩), unreserve_fst hsol]
      omega
    | reserved =>
      cases hc
      rw [if_pos ⟨heq, rfl⟩]
  next hne =>
    rw [if_neg fun h => hne h.1]
    have htwo := tryMutateTwo_cases (symm hne) hc fun _ _ _ => hsol.of_moveReserved
    obtain ⟨to', from', acc, iss, clip, hout, -, hda⟩ := htwo.data_eq
    obtain ⟨-, rfl, rfl, -, rfl⟩ := moveReserved_eq_ok hout
    exact ⟨rfl, fun _ => ⟨by rw [hda, if_pos rfl], by rw [hda, if_neg hne, if_pos rfl]⟩⟩

/-- What is reported has been moved, and nothing else has, exactly if the source is another account
that is not left with dust, or if its own reserve becomes free. -/
theorem transferReserved_exact_iff (hsol : Solid cfg s) (bestEffort : Bool)
    (hcall : s.transferHeld cfg slashed beneficiary value bestEffort (status = .reserved) =
        (.ok moved, s') ∨
      ∃ left, s.repatriateReserved cfg slashed beneficiary value status = (.ok left, s') ∧
        moved = value - left) :
    (moved = min value (s.data slashed).reserved ∧ (slashed ≠ beneficiary →
      (s'.data slashed).reserved + moved = (s.data slashed).reserved ∧
      s'.data beneficiary = (s.data beneficiary).credit status moved)) ↔
    if slashed = beneficiary then
      status = .free ∨ value = 0 ∨ value = 2 * (s.data slashed).reserved
    else
      value < (s.data slashed).reserved →
        cfg.existentialDeposit ≤ (s.data slashed).free + ((s.data slashed).reserved - value) := by
  obtain ⟨best, hdo⟩ : ∃ best, s.doTransferReserved cfg slashed beneficiary value best status =
      (.ok moved, s') := by
    rcases hcall with hcall | ⟨left, hcall, rfl⟩
    · exact ⟨bestEffort, by cases status <;> exact hcall⟩
    unfold repatriateReserved at hcall
    split at hcall
    · cases hcall
    next hdo =>
      cases hcall
      have hmv := (doTransferReserved_eq_ok hsol hdo).1
      refine ⟨true, ?_⟩
      rw [hdo, Nat.sub_sub_self (by split at hmv <;> omega)]
  obtain ⟨hmv, hda⟩ := doTransferReserved_eq_ok hsol hdo
  by_cases heq : slashed = beneficiary
  · rw [if_pos heq, and_iff_left (absurd heq)]
    cases status with
    | free =>
      rw [hmv]
      simp [min_comm]
    | reserved =>
      rw [hmv, if_pos ⟨heq, rfl⟩]
      simp
      omega
  · obtain ⟨hto, hs⟩ := hda heq
    rw [if_neg heq, hs, residue]
    split <;> simp_all [sum, AccountData.default] <;> omega

/-- Balances up to 1000, and 10 to exist. -/
def fungibleConfig : Config := ⟨1000, 10, 5, by decide, by decide⟩

/-- Account 0 with some balances, and account 1. -/
def holding (a : AccountData) : Storage (Fin 5) ℕ :=
  let s : Storage (Fin 5) ℕ := ⟨.empty, 100, .empty, .empty, false, false⟩
  (s.setInfo 0 ⟨0, 1, 0, a⟩).setInfo 1 ⟨0, 1, 0, ⟨50, 0, 0, 0⟩⟩

theorem transferReserved_exact_two :
    (((holding ⟨20, 5, 0, 0⟩).repatriateReserved fungibleConfig 0 1 2 .free).2.data 0).reserved +
      2 = 5 := by
  have hc : (holding ⟨20, 5, 0, 0⟩).repatriateReserved fungibleConfig 0 1 2 .free = (.ok 0, _) :=
    Prod.ext (by decide) rfl
  have hex := (transferReserved_exact_iff (by unfold Solid; decide) true
    (.inr ⟨0, hc, rfl⟩)).mpr (by decide)
  exact (hex.2 (by decide)).1

/-- An account keeps its reserve and is told that none of it could be moved to itself. And if it is
left with dust, that is lost with what is moved. -/
theorem not_transferReserved_exact :
    ((holding ⟨20, 5, 0, 0⟩).repatriateReserved fungibleConfig 0 0 3 .reserved).1 = .ok 3 ∧
      ((holding ⟨0, 12, 0, 0⟩).transferHeld fungibleConfig 0 1 5 false false).1 = .ok 5 ∧
      (((holding ⟨0, 12, 0, 0⟩).transferHeld fungibleConfig 0 1 5 false false).2.data
        0).reserved = 0 := by
  decide

/-! ## Withdrawing -/

/-- The consequences of withdrawing a fungible from an account. -/
inductive WithdrawConsequence
  | noFunds
  | wouldDie
  | underflow
  | frozen
  | reducedToZero (dust : ℕ)
  | success

/-- The additional amount by which the account will be reduced. -/
def WithdrawConsequence.intoResult : WithdrawConsequence → Except Error ℕ
  | noFunds => .error .noFunds
  | wouldDie => .error .wouldDie
  | underflow => .error .underflow
  | frozen => .error .frozen
  | reducedToZero dust => .ok dust
  | success => .ok 0

def withdrawConsequence (cfg : Config) (s : Storage A I) (who : A) (amount : ℕ)
    (account : AccountData) : WithdrawConsequence :=
  if amount = 0 then .success
  else if s.totalIssuance < amount then .underflow
  else if account.total cfg < amount then .noFunds
  else
    let newTotalBalance := account.total cfg - amount
    -- the account cannot be reduced to zero if it cannot sustain the loss of a provider
    if newTotalBalance < cfg.existentialDeposit ∧ ¬s.canDecProvider who then .wouldDie
    else if account.free < amount then .noFunds
    else if account.free - amount < account.frozen .all then .frozen
    else if newTotalBalance < cfg.existentialDeposit then .reducedToZero newTotalBalance
    else .success

def canWithdraw (cfg : Config) (s : Storage A I) (who : A) (amount : ℕ) : WithdrawConsequence :=
  s.withdrawConsequence cfg who amount (s.data who)

/-- What `burnFrom` takes off the free balance, with the dust. A subtraction that underflows has no
result. -/
def burnFrom (cfg : Config) (s : Storage A I) (who : A) (amount : ℕ) :
    Option (Except Error ℕ × Storage A I) :=
  if amount = 0 then some (.ok 0, s)
  else
    -- the closure gets the account as it is
    match (s.canWithdraw cfg who amount).intoResult with
    | .error e => some (.error e, s)
    | .ok extra =>
      let actual := amount + extra
      if (s.data who).free < actual then none
      else
        match s.tryMutateAccount cfg who (fun account _ =>
            .ok (actual, { account with free := account.free - actual })) fun _ s => s with
        | (.error e, s) => some (.error e, s)
        | (.ok actual, s) =>
          if s.totalIssuance < actual then none
          else some (.ok actual, { s with totalIssuance := s.totalIssuance - actual })

/-- The balance that can be spent. -/
def reducibleBalance (cfg : Config) (s : Storage A I) (who : A) (keepAlive : Bool) : ℕ :=
  let a := s.data who
  -- liquid balance is what is neither reserved nor locked/frozen
  let liquid := a.free - max a.feeFrozen a.miscFrozen
  if s.canDecProvider who ∧ ¬keepAlive then liquid
  else
    let mustRemainToExist := cfg.existentialDeposit - (a.total cfg - liquid)
    liquid - mustRemainToExist

variable {a : ℕ}

theorem data_setIssuance {n : ℕ} :
    ({ s with totalIssuance := n } : Storage A I).data who = s.data who := rfl

theorem of_canWithdraw_success (hz : a ≠ 0) (h : s.canWithdraw cfg who a = .success) :
    a ≤ (s.data who).free ∧ (s.data who).frozen .all ≤ (s.data who).free - a ∧
      cfg.existentialDeposit ≤ (s.data who).total cfg - a := by
  unfold canWithdraw withdrawConsequence at h
  rw [if_neg hz] at h
  dsimp only at h
  repeat' split at h
  all_goals cases h
  exact ⟨by omega, by omega, by omega⟩

theorem of_canWithdraw_reducedToZero {d : ℕ} (hz : a ≠ 0)
    (h : s.canWithdraw cfg who a = .reducedToZero d) :
    a ≤ (s.data who).free ∧ a + d = (s.data who).total cfg ∧
      d < cfg.existentialDeposit ∧ s.canDecProvider who := by
  unfold canWithdraw withdrawConsequence at h
  rw [if_neg hz] at h
  dsimp only at h
  repeat' split at h
  all_goals cases h
  next hdie _ _ hlt =>
    exact ⟨by omega, by omega, hlt, not_not.mp fun hdec => hdie ⟨hlt, hdec⟩⟩

/-- Burning does what it reports, exactly if nothing is reserved of an account that becomes dust. -/
theorem burnFrom_exact_iff (amount : ℕ) (hmax : (s.data who).sum ≤ cfg.maxBalance)
    (hiss : (s.data who).sum ≤ s.totalIssuance) :
    (∃ result s', s.burnFrom cfg who amount = some (result, s') ∧
      match result with
      | .ok actual => amount ≤ actual ∧ (s'.data who).sum + actual = (s.data who).sum ∧
        s'.totalIssuance + actual = s.totalIssuance ∧
        (s'.data who = .default ∨ (s'.data who).frozen .all ≤ (s'.data who).free)
      | .error _ => s' = s) ↔
    (amount = 0 → s.data who = .default ∨ (s.data who).frozen .all ≤ (s.data who).free) ∧
      ∀ dust, s.canWithdraw cfg who amount = .reducedToZero dust → (s.data who).reserved = 0 := by
  have hsum : (s.data who).sum = (s.data who).free + (s.data who).reserved := rfl
  have htot : (s.data who).total cfg = (s.data who).sum := total_eq hmax
  unfold burnFrom
  by_cases hz : amount = 0
  · subst hz
    simp [canWithdraw, withdrawConsequence]
  rw [if_neg hz]
  cases hc : s.canWithdraw cfg who amount with
  | noFunds | wouldDie | underflow | frozen =>
    simp [WithdrawConsequence.intoResult, hz]
  | success =>
    obtain ⟨hle, hfrz, hge⟩ := of_canWithdraw_success hz hc
    have hge : cfg.existentialDeposit ≤
        ({ s.data who with free := (s.data who).free - amount }).sum := by
      dsimp only [sum]
      omega
    obtain ⟨s', hmut, hsto⟩ := tryMutateAccount_of_ge
      (fun acc _ => .ok (amount, { acc with free := acc.free - amount }))
      (fun _ s => s) rfl hge
    have hda := (hsto.written.data_eq who).trans (if_pos rfl)
    obtain ⟨acc, hr⟩ := hsto.written.rest
    have hi : s'.totalIssuance = s.totalIssuance := by rw [hr]
    simp only [WithdrawConsequence.intoResult, Nat.add_zero, hmut, if_neg hle.not_gt]
    rw [if_neg (by omega), hi]
    refine iff_of_true ⟨_, _, rfl, le_rfl, ?_, Nat.sub_add_cancel (by omega), .inr ?_⟩
      ⟨hz.elim, by rintro _ ⟨⟩⟩
    · rw [data_setIssuance, hda]
      dsimp only [sum]
      omega
    · rw [data_setIssuance, hda]
      exact hfrz
  | reducedToZero dust =>
    obtain ⟨hle, hdu, hlt, hdec⟩ := of_canWithdraw_reducedToZero hz hc
    simp only [WithdrawConsequence.intoResult, hdu, htot]
    by_cases hrsv : (s.data who).reserved = 0
    · have hn : ({ s.data who with free := (s.data who).free - (s.data who).sum } :
          AccountData).sum = 0 := by
        dsimp only [sum]
        omega
      obtain ⟨s', hmut, hrm⟩ := tryMutateAccount_of_lt (fun acc _ =>
        .ok ((s.data who).sum, { acc with free := acc.free - (s.data who).sum }))
        (fun _ s => s) rfl (hn ▸ Nat.zero_lt_of_lt hlt) fun href => href.2 hdec
      have hda := (hrm.written.data_eq who).trans (if_pos rfl)
      obtain ⟨acc, hr⟩ := hrm.written.rest
      have hi : s'.totalIssuance = s.totalIssuance := by rw [hr]
      rw [if_neg (by omega), hmut, hn, dropNegative_zero]
      dsimp only
      rw [if_neg (by omega), hi]
      refine iff_of_true ⟨_, _, rfl, by omega, ?_, Nat.sub_add_cancel hiss, .inl ?_⟩
        ⟨hz.elim, fun _ _ => hrsv⟩
      · rw [data_setIssuance, hda]
        exact Nat.zero_add _
      · rw [data_setIssuance, hda]
    · rw [if_pos (by omega)]
      exact iff_of_false (by rintro ⟨_, _, ⟨⟩, _⟩) fun h => hrsv (h.2 dust rfl)

theorem burnFrom_exact_nine :
    ∃ actual s', (holding ⟨20, 0, 5, 0⟩).burnFrom fungibleConfig 0 9 = some (.ok actual, s') ∧
      9 ≤ actual ∧ (s'.data 0).sum + actual = 20 ∧
      s'.totalIssuance + actual = (holding ⟨20, 0, 5, 0⟩).totalIssuance ∧
      (s'.data 0 = .default ∨ (s'.data 0).frozen .all ≤ (s'.data 0).free) := by
  have hmax : ((holding ⟨20, 0, 5, 0⟩).data 0).sum ≤ fungibleConfig.maxBalance := by decide
  obtain ⟨result, s', hb, h⟩ := (burnFrom_exact_iff 9 hmax (by decide)).mpr ⟨nofun, fun _ _ => rfl⟩
  cases result with
  | error e => cases hb
  | ok actual => exact ⟨actual, s', hb, h⟩

/-- The dust includes what is reserved, but all is taken off the free balance. -/
theorem not_burnFrom_exact : (holding ⟨8, 5, 0, 0⟩).burnFrom fungibleConfig 0 7 = none := by decide

/-! ## Spending -/

variable {dest : A} {ka : Bool}

/-- What can be spent is not frozen, and leaves the existential deposit if the account must stay. -/
theorem reducibleBalance_spec (hmax : (s.data who).sum ≤ cfg.maxBalance)
    (hzero : s.reducibleBalance cfg who ka ≠ 0) :
    (s.data who).frozen .all + s.reducibleBalance cfg who ka ≤ (s.data who).free ∧
      (s.canDecProvider who ∧ ka = false ∨ cfg.existentialDeposit ≤
        (s.data who).free - s.reducibleBalance cfg who ka + (s.data who).reserved) := by
  have htot : (s.data who).total cfg = (s.data who).free + (s.data who).reserved := total_eq hmax
  unfold reducibleBalance at *
  rw [frozen, max_comm]
  dsimp only at *
  by_cases hdec : s.canDecProvider who ∧ ¬ka
  · rw [if_pos hdec] at *
    exact ⟨by omega, .inl ⟨hdec.1, Bool.eq_false_iff.mpr hdec.2⟩⟩
  · rw [if_neg hdec] at *
    exact ⟨by omega, .inr (by omega)⟩

/-- The balance that can be spent is moved. It leaves the existential deposit if the account has to
stay; otherwise an account with less than that is removed. -/
theorem reducibleBalance_transferable (keepAlive : Bool) (hne : who ≠ dest)
    (hdest : cfg.existentialDeposit ≤ (s.data dest).sum)
    (hmax : (s.data who).sum ≤ cfg.maxBalance) (hiss : (s.data who).sum ≤ s.totalIssuance)
    (hroom : (s.data dest).free + s.reducibleBalance cfg who keepAlive ≤ cfg.maxBalance) :
    (∃ extra, (s.canWithdraw cfg who (s.reducibleBalance cfg who keepAlive)).intoResult =
      .ok extra) ∧
    ∃ s', s.transfer cfg who dest (s.reducibleBalance cfg who keepAlive)
        (if keepAlive then .keepAlive else .allowDeath) = (.ok (), s') ∧
      s'.data dest = { s.data dest with
        free := (s.data dest).free + s.reducibleBalance cfg who keepAlive } ∧
      (s'.data who = { s.data who with
          free := (s.data who).free - s.reducibleBalance cfg who keepAlive } ∨
        (s.data who).sum - s.reducibleBalance cfg who keepAlive < cfg.existentialDeposit ∧
          s'.data who = .default) ∧
      (keepAlive = true → cfg.existentialDeposit ≤ (s.data who).sum →
        cfg.existentialDeposit ≤ (s'.data who).sum) := by
  by_cases hz : s.reducibleBalance cfg who keepAlive = 0
  · rw [hz]
    exact ⟨⟨0, rfl⟩, s, if_pos (.inl rfl), rfl, .inl rfl, fun _ => id⟩
  obtain ⟨hfrz, hs⟩ := reducibleBalance_spec hmax hz
  have hsum : (s.data who).sum = (s.data who).free + (s.data who).reserved := rfl
  have htot : (s.data who).total cfg = (s.data who).sum := total_eq hmax
  generalize s.reducibleBalance cfg who keepAlive = a at *
  constructor
  · have hl : ¬((s.data who).total cfg - a < cfg.existentialDeposit ∧ ¬s.canDecProvider who) := by
      rintro ⟨hlt, hdec⟩
      exact hs.elim (fun h => hdec h.1) fun hge => by omega
    unfold canWithdraw withdrawConsequence
    rw [if_neg hz, if_neg (by omega), if_neg (by omega)]
    rw [if_neg hl, if_neg (by omega), if_neg (by omega)]
    split <;> exact ⟨_, rfl⟩
  have hm : s.moveFree cfg who a (if keepAlive then .keepAlive else .allowDeath)
      (s.data dest) (s.data who) = .ok (((), { s.data dest with free := (s.data dest).free + a }),
        { s.data who with free := (s.data who).free - a }) := by
    have hsub : checkedSub (s.data who).free a = some ((s.data who).free - a) := if_pos (by omega)
    have hadd : checkedAdd cfg.maxBalance (s.data dest).free a =
      some ((s.data dest).free + a) := if_pos hroom
    have hto := le_trans hdest (Nat.le_add_right _ a)
    simp only [moveFree, hsub, hadd, okOr, ensureCanWithdraw, if_neg hz, ensure, total_ge_iff,
      bind, Except.bind]
    rw [if_pos (by simp only [sum] at hto ⊢; omega), if_pos ?_]
    rw [if_pos ?_]
    · rfl
    · refine hs.imp (fun h => ⟨by rw [h.2]; rfl, h.1⟩) id
    · exact le_trans (le_max_left _ _) (Nat.le_sub_of_add_le hfrz)
  generalize hc : s.transfer cfg who dest a (if keepAlive then .keepAlive else .allowDeath) = out
  obtain ⟨res, s'⟩ := out
  obtain ⟨hnone, -⟩ | ⟨-, -, htwo⟩ := transfer_cases hc
  · exact absurd hnone (not_or.mpr ⟨hz, hne⟩)
  rw [hm] at htwo
  cases res with
  | error e =>
    cases htwo with
    | refused _ _ _ hlt href =>
      exact absurd hs (not_or.mpr ⟨fun h => href.2 h.1, not_le.mpr hlt⟩)
  | ok _ =>
    obtain ⟨_, _, acc, iss, clip, hout, -, hda⟩ := htwo.data_eq
    cases hout
    refine ⟨s', rfl, (hda dest).trans (if_pos rfl), ?_⟩
    rw [hda, if_neg hne, if_pos rfl, residue]
    split
    next hge => exact ⟨.inl rfl, fun _ _ => hge⟩
    next hlt =>
      refine ⟨.inr ⟨by simp only [sum] at hlt ⊢; omega, rfl⟩, fun hk _ => ?_⟩
      exact absurd (hs.resolve_left fun h => by simp [hk] at h) hlt

theorem reducibleBalance_transferable_thirteen :
    ∃ s', (holding ⟨20, 3, 5, 0⟩).transfer fungibleConfig 0 1 13 .keepAlive = (.ok (), s') ∧
      (s'.data 1).free = ((holding ⟨20, 3, 5, 0⟩).data 1).free + 13 ∧ 10 ≤ (s'.data 0).sum := by
  have hmax : ((holding ⟨20, 3, 5, 0⟩).data 0).sum ≤ fungibleConfig.maxBalance := by decide
  obtain ⟨-, s', hc, hto, -, hk⟩ := reducibleBalance_transferable true Fin.zero_ne_one (by decide)
    hmax (by decide) (by decide)
  exact ⟨s', hc, congrArg AccountData.free hto, hk rfl (by decide)⟩

end Balances.Storage
