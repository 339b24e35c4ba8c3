-- SUMMARY: What a mutation of one account does to the balances pallet and to all funds.
import SubstrateIpfs.Balances.Pallet

/-!
# Mutations of one account

Every call of the pallet goes through one function that hands an account to a closure, looks at
what comes back and has the account store write it. Its outcome is one of four: the closure
fails, the account is stored, it is removed because too little is left, or the store refuses to
remove it. Only the last one is a surprise: what the closure returned is dropped, and the
account stays as it was.
-/

namespace Balances

open FinMap AccountData Nat

open Fallible

variable {A I : Type} [DecidableEq A] {R : Type} {cfg : Config} {s s' : Storage A I} {who k : A}
  {a : AccountData} {i : AccountInfo} {n v : ℕ} {d : Discard A I R}
  {out : Except Error ((R × AccountData) × AccountData)} {account : AccountData} {r : R}
  {m : Except Error (R × AccountData)} {sou de : A} {rs : WithdrawReasons} {u : Unit} {isN : Bool}
  {fa ta f' to' : AccountData} {st : Status} {res : Except Error R}

/-- Free and reserved balance, without a maximum. -/
def AccountData.sum (a : AccountData) : ℕ := a.free + a.reserved

/-- The account with an amount added to its free or its reserved balance. -/
def AccountData.credit (a : AccountData) (status : Status) (n : ℕ) : AccountData :=
  match status with
  | .free => { a with free := a.free + n }
  | .reserved => { a with reserved := a.reserved + n }

theorem AccountData.sum_credit (sta : Status) (n : ℕ) : (a.credit sta n).sum = a.sum + n := by
  cases sta with
  | free => exact Nat.add_right_comm ..
  | reserved => exact (Nat.add_assoc ..).symm

theorem AccountData.total_eq (h : a.sum ≤ cfg.maxBalance) : a.total cfg = a.sum :=
  saturatingAdd_of_le h

theorem AccountData.total_lt_iff :
    a.total cfg < cfg.existentialDeposit ↔ a.sum < cfg.existentialDeposit := by
  have hmax := cfg.existentialDeposit_le
  unfold total saturatingAdd sum
  omega

theorem AccountData.total_ge_iff :
    cfg.existentialDeposit ≤ a.total cfg ↔ cfg.existentialDeposit ≤ a.sum := by
  rw [← not_lt, ← not_lt, total_lt_iff]

namespace Storage

/-! ## Reading and writing accounts -/

theorem info_setInfo : (s.setInfo who i).info k = if k = who then i else s.info k := by
  unfold setInfo info
  rw [get?_insert]
  split <;> rfl

@[simp] theorem info_setInfo_self : (s.setInfo who i).info who = i := by
  rw [info_setInfo, if_pos rfl]

theorem data_setInfo : (s.setInfo who i).data k = if k = who then i.data else s.data k := by
  unfold data
  rw [info_setInfo]
  split <;> rfl

theorem info_erase : ({ s with account := s.account.erase who } : Storage A I).info k =
      if k = who then .default else s.info k := by
  unfold info
  rw [get?_erase]
  split <;> rfl

theorem data_erase : ({ s with account := s.account.erase who } : Storage A I).data k =
      if k = who then .default else s.data k := by
  unfold data
  rw [info_erase]
  split <;> rfl

@[simp] theorem setInfo_setInfo {j : AccountInfo} :
    (s.setInfo who i).setInfo who j = s.setInfo who j := by
  unfold setInfo
  rw [insert_insert]

@[simp] theorem data_dropNegative : (s.dropNegative n).data k = s.data k := rfl

omit [DecidableEq A] in
@[simp] theorem dropNegative_zero : s.dropNegative 0 = s := by simp [dropNegative]

/-- Dropping a result changes nothing but the issuance. -/
structure Quiet (discard : Discard A I R) : Prop where
  account : ∀ r s, (discard r s).account = s.account
  locks : ∀ r s, (discard r s).locks = s.locks
  reserves : ∀ r s, (discard r s).reserves = s.reserves
  remained : ∀ r s, (discard r s).remained = s.remained

section
omit [DecidableEq A]

theorem Quiet.nothing : Quiet (A := A) (I := I) fun (_ : R) s => s :=
  ⟨fun _ _ => rfl, fun _ _ => rfl, fun _ _ => rfl, fun _ _ => rfl⟩

theorem Quiet.negative {f : R → ℕ} : Quiet (A := A) (I := I) fun r => dropNegative (f r) :=
  ⟨fun _ _ => rfl, fun _ _ => rfl, fun _ _ => rfl, fun _ _ => rfl⟩

theorem Quiet.positive : Quiet (A := A) (I := I) (dropPositive cfg) :=
  ⟨fun _ _ => rfl, fun _ _ => rfl, fun _ _ => rfl, fun _ _ => rfl⟩

end

theorem info_congr (h : s'.account = s.account) (k : A) : s'.info k = s.info k := by
  unfold info
  rw [h]

theorem data_congr (h : s'.account = s.account) (k : A) : s'.data k = s.data k :=
  congrArg AccountInfo.data (info_congr h k)

/-! ## All funds -/

/-- What all accounts hold. -/
def funds (s : Storage A I) : ℕ := s.account.total fun _ i => i.data.sum

theorem elim_sum_get? : (s.account.get? who).elim 0 (fun i => i.data.sum) = (s.data who).sum := by
  unfold data info
  cases s.account.get? who <;> rfl

theorem funds_setInfo (s : Storage A I) (who : A) (i : AccountInfo) :
    (s.setInfo who i).funds + (s.data who).sum = s.funds + i.data.sum := by
  rw [← elim_sum_get?]
  exact total_insert_add

theorem funds_erase :
    ({ s with account := s.account.erase who } : Storage A I).funds + (s.data who).sum =
      s.funds := by
  rw [← elim_sum_get?]
  exact total_erase_add

/-! ## The four outcomes -/

/-- The account has been written. -/
inductive Stored (s : Storage A I) (who : A) (a : AccountData) : Storage A I → Prop
  | created (hnew : s.data who = .default) : Stored s who a ((s.incProviders who).setData who a)
  | updated (hold : s.data who ≠ .default) : Stored s who a (s.setData who a)

/-- The account has been taken out, or was not there. -/
inductive Removed (s : Storage A I) (who : A) : Storage A I → Prop
  | absent (hnew : s.data who = .default) : Removed s who s
  | reaped (hold : s.data who ≠ .default) (hconsumers : (s.info who).consumers = 0) :
    Removed s who { s with account := s.account.erase who }
  | emptied (providers : ℕ) (hold : s.data who ≠ .default) (hdec : s.canDecProvider who)
    (hmore : (s.info who).providers ≤ 1 → (s.info who).sufficients ≠ 0) :
    Removed s who (s.setInfo who { s.info who with providers := providers, data := .default })

/-- The account store will not take the account out. -/
def Refuses (s : Storage A I) (who : A) : Prop := s.data who ≠ .default ∧ ¬s.canDecProvider who

instance : Decidable (s.Refuses who) := inferInstanceAs (Decidable (_ ∧ _))

/-- How a mutation ends, if its closure ended with `out`. -/
inductive Mutated (cfg : Config) (s : Storage A I) (who : A)
    (discard : Discard A I R) :
    Except Error (R × AccountData) → Except Error (R × ℕ) × Storage A I → Prop
  | failed (e : Error) : Mutated cfg s who discard (.error e) (.error e, s)
  | stored (r : R) (a : AccountData) (s' : Storage A I) (hge : cfg.existentialDeposit ≤ a.sum)
    (hstored : Stored s who a s') : Mutated cfg s who discard (.ok (r, a)) (.ok (r, 0), s')
  | removed (r : R) (a : AccountData) (s' : Storage A I) (hlt : a.sum < cfg.existentialDeposit)
    (hremoved : Removed s who s') : Mutated cfg s who discard (.ok (r, a)) (.ok (r, a.sum), s')
  | refused (r : R) (a : AccountData) (hlt : a.sum < cfg.existentialDeposit)
    (hrefuses : s.Refuses who) :
    Mutated cfg s who discard (.ok (r, a))
      (.error .consumerRemaining, discard r (s.dropNegative a.sum))

theorem postMutation_of_ge (h : cfg.existentialDeposit ≤ a.sum) :
    postMutation cfg a = (some a, 0) := by
  unfold postMutation
  rw [if_neg (fun hlt => absurd (total_lt_iff.mp hlt) (not_lt.mpr h))]

theorem postMutation_of_lt (h : a.sum < cfg.existentialDeposit) :
    postMutation cfg a = (none, a.sum) := by
  have htot : a.total cfg = a.sum := total_eq (le_trans (le_of_lt h) cfg.existentialDeposit_le)
  unfold postMutation
  rw [if_pos (total_lt_iff.mpr h), htot]

/-- Losing the provider of a stored account. -/
theorem decProviders_cases (hold : s.data who ≠ .default) :
    (s.Refuses who ∧ s.decProviders who = .error .consumerRemaining) ∨
    (∃ s', s.decProviders who = .ok (.reaped, s') ∧ Removed s who s') ∨
    (∃ s', s.decProviders who = .ok (.exists, s') ∧ Removed s who (s'.setData who .default)) := by
  unfold decProviders
  cases hget : s.account.get? who with
  | none =>
    refine absurd ?_ hold
    unfold data info
    rw [hget]
    rfl
  | some i =>
    have hi : s.info who = i := by
      unfold info
      rw [hget]
      rfl
    dsimp only
    generalize hp : (if i.providers = 0 then 1 else i.providers) = providers
    split
    next hde =>
      refine .inr (.inl ⟨_, rfl, .reaped hold ?_⟩)
      rw [hi]
      exact hde.2.1
    · split
      · refine .inl ⟨⟨hold, ?_⟩, rfl⟩
        unfold canDecProvider
        rw [hi]
        split at hp <;> omega
      refine .inr (.inr ⟨_, rfl, ?_⟩)
      rw [setData, info_setInfo_self, setInfo_setInfo, ← hi]
      refine .emptied _ hold ?_ ?_
      · unfold canDecProvider
        rw [hi]
        split at hp <;> omega
      · rw [hi]
        split at hp <;> omega

theorem tryMutateAccountWithDust_cases (cfg : Config) (s : Storage A I) (who : A)
    (f : AccountData → Bool → Storage A I → Except Error (R × AccountData) × Storage A I)
    (di : Discard A I R)
    (hs : (f (s.data who) (decide (s.data who = .default)) s).2.data who = s.data who) :
    Mutated cfg (f (s.data who) (decide (s.data who = .default)) s).2 who di
      (f (s.data who) (decide (s.data who = .default)) s).1
      (s.tryMutateAccountWithDust cfg who f di) := by
  obtain ⟨out, t, hf⟩ : ∃ out t,
      f (s.data who) (decide (s.data who = .default)) s = (out, t) := ⟨_, _, rfl⟩
  have hm : f ((if decide ((s.info who).data ≠ .default) then some (s.info who).data
        else none).getD .default)
      (if decide ((s.info who).data ≠ .default) then some (s.info who).data else none).isNone s =
        (out, t) := by
    rw [← hf]
    unfold data
    by_cases hnew : (s.info who).data = .default <;> simp [hnew]
  rw [hf] at hs ⊢
  unfold tryMutateAccountWithDust tryMutateExists
  dsimp only
  rw [hm]
  cases out with
  | error e => exact .failed e
  | ok out =>
    obtain ⟨r, a⟩ := out
    dsimp only
    cases hp : decide ((s.info who).data ≠ .default) with
    | false =>
      have hnew : t.data who = .default := hs.trans (of_not_not (of_decide_eq_false hp))
      by_cases hge : cfg.existentialDeposit ≤ a.sum
      · rw [postMutation_of_ge hge]
        exact .stored r a _ hge (.created hnew)
      · rw [postMutation_of_lt (Nat.lt_of_not_le hge)]
        exact .removed r a _ (Nat.lt_of_not_le hge) (.absent hnew)
    | true =>
      have hold : t.data who ≠ .default := by
        rw [hs]
        exact of_decide_eq_true hp
      by_cases hge : cfg.existentialDeposit ≤ a.sum
      · rw [postMutation_of_ge hge]
        exact .stored r a _ hge (.updated hold)
      rw [postMutation_of_lt (Nat.lt_of_not_le hge)]
      obtain ⟨href, hdec⟩ | ⟨s', hdec, hg⟩ | ⟨s', hdec, hg⟩ :=
        decProviders_cases hold
      · rw [hdec]
        exact .refused r a (Nat.lt_of_not_le hge) href
      · rw [hdec]
        exact .removed r a _ (Nat.lt_of_not_le hge) hg
      · rw [hdec]
        exact .removed r a _ (Nat.lt_of_not_le hge) hg

/-- How a mutation ends whose closure leaves the storage alone, with its dust dropped. -/
inductive Changed (cfg : Config) (s : Storage A I) (who : A)
    (discard : Discard A I R) :
    Except Error (R × AccountData) → Except Error R × Storage A I → Prop
  | failed (e : Error) : Changed cfg s who discard (.error e) (.error e, s)
  | stored (r : R) (a : AccountData) (s' : Storage A I) (hge : cfg.existentialDeposit ≤ a.sum)
    (hstored : Stored s who a s') : Changed cfg s who discard (.ok (r, a)) (.ok r, s')
  | removed (r : R) (a : AccountData) (s' : Storage A I) (hlt : a.sum < cfg.existentialDeposit)
    (hremoved : Removed s who s') :
    Changed cfg s who discard (.ok (r, a)) (.ok r, s'.dropNegative a.sum)
  | refused (r : R) (a : AccountData) (hlt : a.sum < cfg.existentialDeposit)
    (hrefuses : s.Refuses who) :
    Changed cfg s who discard (.ok (r, a))
      (.error .consumerRemaining, discard r (s.dropNegative a.sum))

theorem tryMutateAccount_cases (cfg : Config) (s : Storage A I) (who : A)
    (f : AccountData → Bool → Except Error (R × AccountData)) (di : Discard A I R) :
    Changed cfg s who di (f (s.data who) (decide (s.data who = .default)))
      (s.tryMutateAccount cfg who f di) := by
  have hmut := tryMutateAccountWithDust_cases cfg s who
    (fun account isN s => (f account isN, s)) di rfl
  unfold tryMutateAccount
  revert hmut
  generalize f (s.data who) (decide (s.data who = .default)) = out
  generalize s.tryMutateAccountWithDust cfg who _ di = res
  intro hmut
  cases hmut with
  | failed e => exact .failed e
  | stored r a s' hge hsto =>
    dsimp only
    rw [dropNegative_zero]
    exact .stored r a s' hge hsto
  | removed r a s' hlt hg => exact .removed r a s' hlt hg
  | refused r a hlt href => exact .refused r a hlt href

theorem Changed.of_eq {f : AccountData → Bool → Except Error (R × AccountData)}
    (h : s.tryMutateAccount cfg who f d = (res, s')) :
    Changed cfg s who d (f (s.data who) (decide (s.data who = .default))) (res, s') :=
  h ▸ tryMutateAccount_cases cfg s who f d

section
variable (f : AccountData → Bool → Except Error (R × AccountData))

include f

/-- A mutation that leaves enough is made. -/
theorem tryMutateAccount_of_ge (di : Discard A I R)
    (hout : f (s.data who) (decide (s.data who = .default)) = .ok (r, a))
    (hge : cfg.existentialDeposit ≤ a.sum) :
    ∃ s', s.tryMutateAccount cfg who f di = (.ok r, s') ∧ Stored s who a s' := by
  have hchg := tryMutateAccount_cases cfg s who f di
  rw [hout] at hchg
  generalize s.tryMutateAccount cfg who f di = res at *
  cases hchg with
  | stored _ _ s' _ hsto => exact ⟨s', rfl, hsto⟩
  | removed _ _ s' hlt _ | refused _ _ hlt _ => exact absurd hlt (not_lt.mpr hge)

/-- A mutation that leaves too little is made if the account may go. -/
theorem tryMutateAccount_of_lt (di : Discard A I R)
    (hout : f (s.data who) (decide (s.data who = .default)) = .ok (r, a))
    (hlt : a.sum < cfg.existentialDeposit) (href : ¬s.Refuses who) :
    ∃ s', s.tryMutateAccount cfg who f di = (.ok r, s'.dropNegative a.sum) ∧
      Removed s who s' := by
  have hchg := tryMutateAccount_cases cfg s who f di
  rw [hout] at hchg
  generalize s.tryMutateAccount cfg who f di = res at *
  cases hchg with
  | stored _ _ s' hge _ => exact absurd hlt (not_lt.mpr hge)
  | removed _ _ s' _ hg => exact ⟨s', rfl, hg⟩
  | refused _ _ _ hr' => exact absurd hr' href

end

/-! ## What is written -/

theorem info_incProviders_of_ne (hne : k ≠ who) : (s.incProviders who).info k = s.info k := by
  unfold incProviders
  dsimp only
  split <;> rw [info_setInfo, if_neg hne]

theorem incProviders_setData :
    ∃ i, i.data = a ∧ (s.incProviders who).setData who a = s.setInfo who i := by
  unfold incProviders
  dsimp only
  split
  · exact ⟨_, rfl, setInfo_setInfo⟩
  · exact ⟨_, rfl, setInfo_setInfo⟩

/-- The data of one account have changed, and nothing outside of the accounts. -/
structure Written (s : Storage A I) (who : A) (a : AccountData) (s' : Storage A I) : Prop where
  data_eq : ∀ k, s'.data k = if k = who then a else s.data k
  funds : s'.funds + (s.data who).sum = s.funds + a.sum
  rest : ∃ account, s' = { s with account := account }

theorem written_setInfo (i : AccountInfo) : Written s who i.data (s.setInfo who i) where
  data_eq _ := data_setInfo
  funds := funds_setInfo ..
  rest := ⟨_, rfl⟩

theorem Stored.written (h : Stored s who a s') : Written s who a s' := by
  cases h with
  | created hnew =>
    obtain ⟨i, rfl, heq⟩ := incProviders_setData (s := s) (a := a)
    rw [heq]
    exact written_setInfo i
  | updated hold => exact written_setInfo { s.info who with data := a }

theorem Removed.written (h : Removed s who s') : Written s who .default s' := by
  cases h with
  | absent hnew =>
    refine ⟨fun k => ?_, by rw [hnew], s.account, rfl⟩
    split
    next heq => rw [heq, hnew]
    · rfl
  | reaped hold hcons => exact ⟨fun _ => data_erase, funds_erase, _, rfl⟩
  | emptied ps hold hdec hmore =>
    exact written_setInfo { s.info who with providers := ps, data := .default }

theorem Removed.not_refuses (h : Removed s who s') : ¬s.Refuses who := by
  rintro ⟨hne, href⟩
  cases h with
  | absent hnew => exact hne hnew
  | reaped hold hc => exact href (.inl hc)
  | emptied prov hold hdec hmore => exact href hdec

/-- What stays of an account: nothing, if it is too little. -/
def residue (cfg : Config) (a : AccountData) : AccountData :=
  if cfg.existentialDeposit ≤ a.sum then a else .default

/-- A mutation that is made: the dust is what does not stay. -/
theorem Changed.of_ok (h : Changed cfg s who d m (.ok r, s')) :
    ∃ a t, m = .ok (r, a) ∧ Written s who (residue cfg a) t ∧
      s' = t.dropNegative (a.sum - (residue cfg a).sum) ∧
      ¬(a.sum < cfg.existentialDeposit ∧ s.Refuses who) := by
  cases h with
  | stored _ a _ hge hsto =>
    refine ⟨a, s', rfl, ?_⟩
    rw [residue, if_pos hge, Nat.sub_self, dropNegative_zero]
    exact ⟨hsto.written, rfl, fun h => absurd h.1 (not_lt.mpr hge)⟩
  | removed _ a t hlt hg =>
    refine ⟨a, t, rfl, ?_⟩
    rw [residue, if_neg (not_le.mpr hlt)]
    exact ⟨hg.written, rfl, fun h => hg.not_refuses h.2⟩

/-- A mutation that is not made changes nothing but the issuance. -/
theorem Changed.of_error (hqt : Quiet d) {e : Error} (h : Changed cfg s who d m (.error e, s')) :
    s'.account = s.account ∧ s'.locks = s.locks ∧ s'.reserves = s.reserves ∧
      s'.remained = s.remained := by
  cases h with
  | failed => exact ⟨rfl, rfl, rfl, rfl⟩
  | refused =>
    exact ⟨hqt.account .., hqt.locks .., hqt.reserves .., hqt.remained ..⟩

/-- No mutation touches the locks and the names. -/
theorem Changed.frame (hqt : Quiet d) (h : Changed cfg s who d m (res, s')) :
    s'.locks = s.locks ∧ s'.reserves = s.reserves ∧ s'.remained = s.remained := by
  cases res with
  | error e => exact (h.of_error hqt).2
  | ok r =>
    obtain ⟨a, t, -, hwrt, rfl, -⟩ := h.of_ok
    obtain ⟨account, rfl⟩ := hwrt.rest
    exact ⟨rfl, rfl, rfl⟩

/-! ## Two accounts -/

/-- How a mutation of two accounts ends. -/
inductive TwoMutated (cfg : Config) (s : Storage A I) (source dest : A) :
    Except Error ((R × AccountData) × AccountData) → Except Error R × Storage A I → Prop
  | failed (e : Error) : TwoMutated cfg s source dest (.error e) (.error e, s)
  | stored (r : R) (to' from' : AccountData) (s1 s2 : Storage A I)
    (hge : cfg.existentialDeposit ≤ from'.sum) (hsource : Stored s source from' s1)
    (hdest : Stored s1 dest to' s2) :
    TwoMutated cfg s source dest (.ok ((r, to'), from')) (.ok r, s2)
  | removed (r : R) (to' from' : AccountData) (s1 s2 : Storage A I)
    (hlt : from'.sum < cfg.existentialDeposit) (hsource : Removed s source s1)
    (hdest : Stored s1 dest to' s2) :
    TwoMutated cfg s source dest (.ok ((r, to'), from')) (.ok r, s2.dropNegative from'.sum)
  | refused (r : R) (to' from' : AccountData) (hlt : from'.sum < cfg.existentialDeposit)
    (hrefuses : s.Refuses source) :
    TwoMutated cfg s source dest (.ok ((r, to'), from'))
      (.error .consumerRemaining, s.dropNegative from'.sum)

/-- The destination is written if it holds the existential deposit, which it always does when the
closure succeeds. -/
theorem tryMutateTwo_cases (hne : de ≠ sou)
    {f : AccountData → AccountData → Bool → Except Error ((R × AccountData) × AccountData)}
    (hres : s.tryMutateTwo cfg sou de f = (res, s'))
    (hto : ∀ r to' f', f (s.data de) (s.data sou) (decide (s.data de = .default)) =
      .ok ((r, to'), f') → cfg.existentialDeposit ≤ to'.sum) :
    TwoMutated cfg s sou de
      (f (s.data de) (s.data sou) (decide (s.data de = .default))) (res, s') := by
  rw [← hres]
  have hinn := tryMutateAccountWithDust_cases cfg s sou
    (fun fa _ t =>
      (f (s.data de) fa (decide (s.data de = .default)), t)) (fun _ s => s) rfl
  have hout := tryMutateAccountWithDust_cases cfg s de (mutateSource cfg sou f)
    (fun res s => s.dropNegative res.2)
  unfold mutateSource at hout
  unfold tryMutateTwo mutateSource
  revert hinn hto hout
  generalize f (s.data de) (s.data sou) (decide (s.data de = .default)) = out
  generalize s.tryMutateAccountWithDust cfg de _ _ = outer
  generalize s.tryMutateAccountWithDust cfg sou _ _ = inner
  intro hto hinn hout
  cases hinn with
  | failed e =>
    cases hout rfl with
    | failed e => exact .failed e
  | refused r f' hlt href =>
    cases hout rfl with
    | failed e => exact .refused r.1 r.2 f' hlt href
  | stored r f' v hge hsrc =>
    have hto' := hto r.1 r.2 f' rfl
    cases hout (by simp only [carryDust]; rw [hsrc.written.data_eq, if_neg hne]) with
    | stored res to' w _ hde =>
      dsimp only
      rw [dropNegative_zero, dropNegative_zero]
      exact .stored r.1 r.2 f' v w hge hsrc hde
    | removed res to' w hlt _ => exact absurd hlt (not_lt.mpr hto')
    | refused res to' hlt _ => exact absurd hlt (not_lt.mpr hto')
  | removed r f' v hlt hsrc =>
    have hto' := hto r.1 r.2 f' rfl
    cases hout (by simp only [carryDust]; rw [hsrc.written.data_eq, if_neg hne]) with
    | stored res to' w _ hde =>
      dsimp only
      rw [dropNegative_zero]
      exact .removed r.1 r.2 f' v w hlt hsrc hde
    | removed res to' w hlt _ => exact absurd hlt (not_lt.mpr hto')
    | refused res to' hlt _ => exact absurd hlt (not_lt.mpr hto')

/-- A mutation of two accounts that is made: the source may be gone. -/
theorem TwoMutated.of_ok (h : TwoMutated cfg s sou de out (.ok r, s')) :
    ∃ to' f' t v, out = .ok ((r, to'), f') ∧ Written s sou (residue cfg f') t ∧
      Written t de to' v ∧ s' = v.dropNegative (f'.sum - (residue cfg f').sum) ∧
      ¬(f'.sum < cfg.existentialDeposit ∧ s.Refuses sou) := by
  cases h with
  | stored _ to' f' t _ hge hsrc hde =>
    refine ⟨to', f', t, s', rfl, ?_⟩
    rw [residue, if_pos hge, Nat.sub_self, dropNegative_zero]
    exact ⟨hsrc.written, hde.written, rfl, fun h => absurd h.1 (not_lt.mpr hge)⟩
  | removed _ to' f' t v hlt hsrc hde =>
    refine ⟨to', f', t, v, rfl, ?_⟩
    rw [residue, if_neg (not_le.mpr hlt)]
    exact ⟨hsrc.written, hde.written, rfl, fun h => hsrc.not_refuses h.2⟩

/-- What all accounts hold then. -/
theorem TwoMutated.data_eq (h : TwoMutated cfg s sou de out (.ok r, s')) :
    ∃ to' f' account iss c, out = .ok ((r, to'), f') ∧
      s' = { s with account := account, totalIssuance := iss, clipped := c } ∧
      ∀ k, s'.data k =
        if k = de then to' else if k = sou then residue cfg f' else s.data k := by
  obtain ⟨to', f', t, v, hout, hsrc, hde, rfl, -⟩ := h.of_ok
  have hda : ∀ k, v.data k =
      if k = de then to' else if k = sou then residue cfg f' else s.data k :=
    fun k => by rw [hde.data_eq, hsrc.data_eq]
  obtain ⟨account, rfl⟩ := hsrc.rest
  obtain ⟨account', rfl⟩ := hde.rest
  exact ⟨to', f', account', _, _, hout, rfl, hda⟩

/-- A mutation of two accounts that is not made may still lose the dust. -/
theorem TwoMutated.of_error {e : Error} (h : TwoMutated cfg s sou de out (.error e, s')) :
    ∃ iss c, s' = { s with totalIssuance := iss, clipped := c } := by
  cases h with
  | failed _ | refused r to' f' hlt href => exact ⟨_, _, rfl⟩

/-! ## What the closures do -/

theorem of_ensureCanWithdraw {nb : ℕ} (h : s.ensureCanWithdraw who n rs nb = .ok u) :
    n = 0 ∨ (s.data who).frozen (.ofWithdrawReasons rs) ≤ nb := by
  unfold ensureCanWithdraw at h
  split at h
  next hz => exact .inl hz
  · exact .inr (of_ensure h)

theorem creditOrCreate_eq_ok (h : creditOrCreate cfg v account isN = .ok (n, a)) :
    (cfg.existentialDeposit ≤ v ∨ isN = false) ∧ a = { account with free := account.free + n } ∧
      (n = 0 ∨ n = v ∧ account.free + v ≤ cfg.maxBalance) := by
  obtain ⟨_, hnew, h⟩ := bind_eq_ok h
  refine ⟨(of_ensure hnew).imp_right Bool.eq_false_iff.mpr, ?_⟩
  split at h
  next free hf =>
    obtain ⟨hle, rfl⟩ := checkedAdd_eq_some.mp hf
    cases h
    exact ⟨rfl, .inr ⟨rfl, hle⟩⟩
  next =>
    cases h
    exact ⟨rfl, .inl rfl⟩

theorem debitFree_eq_ok {l : ExistenceRequirement}
    (h : s.debitFree cfg who v rs l account = .ok (n, a)) :
    n = v ∧ v ≤ account.free ∧ a = { account with free := account.free - v } ∧
      (v = 0 ∨ (s.data who).frozen (.ofWithdrawReasons rs) ≤ a.free) := by
  obtain ⟨f, hf, h⟩ := bind_eq_ok h
  obtain ⟨hle, rfl⟩ := checkedSub_eq_some.mp (of_okOr hf)
  obtain ⟨_, -, h⟩ := bind_eq_ok h
  obtain ⟨_, hfrz, h⟩ := bind_eq_ok h
  cases h
  exact ⟨rfl, hle, rfl, of_ensureCanWithdraw hfrz⟩

theorem moveToReserved_eq_ok (h : s.moveToReserved cfg who v account = .ok (u, a)) :
    v ≤ account.free ∧ account.reserved + v ≤ cfg.maxBalance ∧
      a = { account with free := account.free - v, reserved := account.reserved + v } ∧
      (v = 0 ∨ (s.data who).frozen (.ofWithdrawReasons .RESERVE) ≤ a.free) := by
  obtain ⟨f, hf, h⟩ := bind_eq_ok h
  obtain ⟨hle, rfl⟩ := checkedSub_eq_some.mp (of_okOr hf)
  obtain ⟨re, hr, h⟩ := bind_eq_ok h
  obtain ⟨hmax, rfl⟩ := checkedAdd_eq_some.mp (of_okOr hr)
  obtain ⟨_, hfrz, h⟩ := bind_eq_ok h
  cases h
  exact ⟨hle, hmax, rfl, of_ensureCanWithdraw hfrz⟩

theorem moveFree_eq_ok {ex : ExistenceRequirement}
    (h : s.moveFree cfg who v ex ta fa = .ok ((u, to'), f')) :
    v ≤ fa.free ∧ to' = { ta with free := ta.free + v } ∧
      f' = { fa with free := fa.free - v } ∧
      cfg.existentialDeposit ≤ to'.sum ∧
      (s.canDecProvider who ∨ cfg.existentialDeposit ≤ f'.sum) ∧
      (v = 0 ∨ (s.data who).frozen (.ofWithdrawReasons .TRANSFER) ≤ f'.free) := by
  obtain ⟨fromFree, hf, h⟩ := bind_eq_ok h
  obtain ⟨hle, rfl⟩ := checkedSub_eq_some.mp (of_okOr hf)
  obtain ⟨toFree, hto, h⟩ := bind_eq_ok h
  obtain ⟨-, rfl⟩ := checkedAdd_eq_some.mp (of_okOr hto)
  obtain ⟨_, hdep, h⟩ := bind_eq_ok h
  obtain ⟨_, hfrz, h⟩ := bind_eq_ok h
  obtain ⟨_, hali, h⟩ := bind_eq_ok h
  cases h
  exact ⟨hle, rfl, rfl, total_ge_iff.mp (of_ensure hdep),
    (of_ensure hali).imp (fun ha => ha.2) total_ge_iff.mp,
    of_ensureCanWithdraw hfrz⟩

theorem creditStatus_eq_ok (h : creditStatus cfg st n account = .ok a) :
    a = account.credit st n ∧ (st = .reserved → a.reserved ≤ cfg.maxBalance) := by
  cases st with
  | free =>
    obtain ⟨free, hf, h⟩ := bind_eq_ok h
    obtain ⟨-, rfl⟩ := checkedAdd_eq_some.mp (of_okOr hf)
    cases h
    exact ⟨rfl, nofun⟩
  | reserved =>
    obtain ⟨reserved, hr, h⟩ := bind_eq_ok h
    obtain ⟨hmax, rfl⟩ := checkedAdd_eq_some.mp (of_okOr hr)
    cases h
    exact ⟨rfl, fun _ => hmax⟩

theorem moveReserved_eq_ok {ac : ℕ} {b : Bool}
    (h : moveReserved cfg v b st ta fa isN = .ok ((ac, to'), f')) :
    isN = false ∧ ac = min fa.reserved v ∧ to' = ta.credit st ac ∧
      (st = .reserved → to'.reserved ≤ cfg.maxBalance) ∧
      f' = { fa with reserved := fa.reserved - ac } := by
  obtain ⟨_, hnew, h⟩ := bind_eq_ok h
  obtain ⟨_, -, h⟩ := bind_eq_ok h
  obtain ⟨to', hto, h⟩ := bind_eq_ok h
  obtain ⟨hcr, hmax⟩ := creditStatus_eq_ok hto
  cases h
  exact ⟨Bool.eq_false_iff.mpr (of_ensure hnew), rfl, hcr, hmax, rfl⟩

theorem creditStatus_of_moveReserved {ac : ℕ} {b : Bool}
    (h : moveReserved cfg v b st ta fa isN = .ok ((ac, to'), f')) :
    creditStatus cfg st ac ta = .ok to' := by
  obtain ⟨_, -, h⟩ := bind_eq_ok h
  obtain ⟨_, -, h⟩ := bind_eq_ok h
  obtain ⟨to', hto, h⟩ := bind_eq_ok h
  cases h
  exact hto

/-! ## The existential deposit -/

/-- Every stored account holds the existential deposit. -/
def Solid (cfg : Config) (s : Storage A I) : Prop :=
  ∀ who, s.data who ≠ .default → cfg.existentialDeposit ≤ (s.data who).sum

section
variable (h : Solid cfg s)

include h

theorem Solid.written (hwrt : Written s who a s')
    (hge : a ≠ .default → cfg.existentialDeposit ≤ a.sum) : Solid cfg s' := by
  intro k
  rw [hwrt.data_eq]
  split
  · exact hge
  · exact h k

theorem Solid.residue (hwrt : Written s who (residue cfg a) s') : Solid cfg s' := by
  refine h.written hwrt fun hne => ?_
  unfold Storage.residue at hne ⊢
  split
  next hge => exact hge
  next hlt => exact absurd (if_neg hlt) hne

/-- An account that exists holds as much after part of its reserve became free. -/
theorem Solid.moveToFree (hne : s.data who ≠ .default) (val : ℕ) :
    cfg.existentialDeposit ≤ (moveToFree cfg val (s.data who)).2.sum := by
  have hed := h who hne
  have hmax := cfg.existentialDeposit_le
  simp only [Storage.moveToFree, sum, saturatingAdd] at hed ⊢
  omega

/-- The beneficiary of a reserved balance is there, and gets more. -/
theorem Solid.of_moveReserved {b : Bool} {ac : ℕ} (hm : moveReserved cfg v b st (s.data de) fa
      (decide (s.data de = .default)) = .ok ((ac, to'), f')) :
    cfg.existentialDeposit ≤ to'.sum := by
  obtain ⟨hnew, -, rfl, -⟩ := moveReserved_eq_ok hm
  rw [sum_credit]
  exact le_trans (h de (of_decide_eq_false hnew)) (Nat.le_add_right ..)

theorem Solid.of_data_eq (hda : ∀ k, s'.data k = s.data k) : Solid cfg s' := by
  intro k
  rw [hda]
  exact h k

/-- A mutation leaves no account below the existential deposit. -/
theorem Solid.changed (hdi : ∀ r s k, (d r s).data k = s.data k)
    (hchg : Changed cfg s who d m (res, s')) : Solid cfg s' := by
  cases res with
  | error e =>
    cases hchg with
    | failed => exact h
    | refused => exact h.of_data_eq fun k => hdi ..
  | ok r =>
    obtain ⟨a, t, -, hwrt, rfl, -⟩ := hchg.of_ok
    exact (h.residue hwrt).of_data_eq fun _ => rfl

theorem Solid.twoMutated
    (hto : ∀ r to' f', out = .ok ((r, to'), f') → cfg.existentialDeposit ≤ to'.sum)
    (htwo : TwoMutated cfg s sou de out (res, s')) : Solid cfg s' := by
  cases res with
  | error e =>
    obtain ⟨iss, clip, rfl⟩ := htwo.of_error
    exact h.of_data_eq fun _ => rfl
  | ok r =>
    obtain ⟨to', f', t, v, hout, hsrc, hde, rfl, -⟩ := htwo.of_ok
    have hsol := (h.residue hsrc).written hde fun _ => hto r to' f' hout
    exact hsol.of_data_eq fun _ => rfl

end

/-! ## Calls that change one or two accounts -/

/-- An account from which something can be taken has a balance. -/
theorem ne_default_of_free (hz : v ≠ 0) (hle : v ≤ (s.data who).free) : s.data who ≠ .default := by
  intro hnew
  rw [hnew] at hle
  exact hz (le_zero.mp hle)

theorem depositCreating_cases (hres : s.depositCreating cfg who v = (n, s')) :
    (n = 0 ∧ s' = s) ∨
      ∃ res, n = res.toOption.getD 0 ∧ Changed cfg s who (dropPositive cfg)
        (creditOrCreate cfg v (s.data who) (decide (s.data who = .default))) (res, s') := by
  obtain ⟨-, ⟨⟩⟩ | ⟨-, hres⟩ := ite_eq_iff.mp hres
  · exact .inl ⟨rfl, rfl⟩
  have hchg := tryMutateAccount_cases cfg s who (creditOrCreate cfg v) (dropPositive cfg)
  generalize s.tryMutateAccount cfg who (creditOrCreate cfg v) (dropPositive cfg) = out at *
  obtain ⟨res, t⟩ := out
  cases res with
  | ok r | error e =>
    cases hres
    exact .inr ⟨_, rfl, hchg⟩

theorem transfer_cases {ex : ExistenceRequirement} {re : Except Error Unit}
    (hres : s.transfer cfg sou de v ex = (re, s')) :
    ((v = 0 ∨ sou = de) ∧ re = .ok () ∧ s' = s) ∨
      v ≠ 0 ∧ sou ≠ de ∧ TwoMutated cfg s sou de
        (s.moveFree cfg sou v ex (s.data de) (s.data sou)) (re, s') := by
  obtain ⟨hn, ⟨⟩⟩ | ⟨hm, hres⟩ := ite_eq_iff.mp hres
  · exact .inl ⟨hn, rfl, rfl⟩
  obtain ⟨hz, hne⟩ := not_or.mp hm
  exact .inr ⟨hz, hne, tryMutateTwo_cases (symm hne) hres
    fun r to' f' hout => (moveFree_eq_ok hout).2.2.2.1⟩

/-- The first attempt of a slash is made, or refused and followed by a second one. -/
inductive Slashed (cfg : Config) (s : Storage A I) (who : A) (value : ℕ)
    (f : Bool → ℕ → AccountData → (ℕ × ℕ) × AccountData) : ℕ → Storage A I → Prop
  | first (result : ℕ × ℕ) (s' : Storage A I)
    (h : Changed cfg s who (fun r s => s.dropNegative r.1) (.ok (f false value (s.data who)))
      (.ok result, s')) : Slashed cfg s who value f result.1 s'
  | second (e : Error) (s1 s' : Storage A I) (out : Except Error (ℕ × ℕ))
    (h : Changed cfg s who (fun r s => s.dropNegative r.1) (.ok (f false value (s.data who)))
      (.error e, s1))
    (h' : Changed cfg s1 who (fun r s => s.dropNegative r.1) (.ok (f true value (s1.data who)))
      (out, s')) : Slashed cfg s who value f (out.toOption.elim 0 Prod.fst) s'

theorem slashWith_cases {f : Bool → ℕ → AccountData → (ℕ × ℕ) × AccountData} {re : ℕ × ℕ}
    (hres : s.slashWith cfg who v f = (re, s')) :
    (re.1 = 0 ∧ s' = s ∧ (v = 0 ∨ (s.data who).total cfg = 0)) ∨
      v ≠ 0 ∧ (s.data who).total cfg ≠ 0 ∧ Slashed cfg s who v f re.1 s' := by
  obtain ⟨hz, ⟨⟩⟩ | ⟨hz, hres⟩ := ite_eq_iff.mp hres
  · exact .inl ⟨rfl, rfl, .inl hz⟩
  obtain ⟨htot, ⟨⟩⟩ | ⟨htot, hres⟩ := ite_eq_iff.mp hres
  · exact .inl ⟨rfl, rfl, .inr htot⟩
  refine .inr ⟨hz, htot, ?_⟩
  simp only [firstOk] at hres
  split at hres
  next r t htry =>
    split at htry
    next hfst =>
      cases htry
      cases hres
      exact .first _ _ (.of_eq hfst)
    next hfst =>
      split at htry
      next hsec =>
        cases htry
        cases hres
        exact .second _ _ _ (.ok _) (.of_eq hfst) (.of_eq hsec)
      · cases htry
  next t htry =>
    split at htry
    · cases htry
    rename_i hfst
    split at htry
    · cases htry
    next e hsec =>
      cases htry
      cases hres
      exact .second _ _ _ (.error _) (.of_eq hfst) (.of_eq hsec)

end Storage

end Balances
