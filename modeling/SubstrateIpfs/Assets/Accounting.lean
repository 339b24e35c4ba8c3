-- SUMMARY: The counters in an asset's details, and which runs of the assets pallet keep them exact.
import SubstrateIpfs.Assets.Pallet
import SubstrateIpfs.Base.Run

/-!
# The accounts of an asset

The details of an asset repeat what its accounts and approvals say: how much there is of it,
how many accounts and self-sufficient accounts it has, how many approvals. The calls keep the
four numbers right with two exceptions. A refund that burns takes the balance out of the
accounts and leaves the supply as it was. A new approval is not counted once the counter is
at its maximum.
-/

namespace Assets

open FinMap Nat

open Fallible

variable {A : Type} [DecidableEq A]

/-! ## What the counters should say -/

/-- All that the accounts hold. -/
def balances (m : FinMap A AssetAccount) : ℕ := m.total fun _ a => a.balance

/-- One for an account that exists by a self-sufficient reference. -/
def ExistenceReason.selfSufficient (reason : ExistenceReason) : ℕ :=
  if reason = .sufficient then 1 else 0

/-- The number of accounts that exist by a self-sufficient reference. -/
def selfSufficients (m : FinMap A AssetAccount) : ℕ := m.total fun _ a => a.reason.selfSufficient

/-- The details of the asset say what is stored. -/
def Storage.Balanced (s : Storage A) : Prop :=
  ∃ d ∈ s.asset, d.supply = balances s.account ∧ d.accounts = s.account.size ∧
    d.sufficients = selfSufficients s.account ∧ d.approvals = s.approvals.size

instance (s : Storage A) : Decidable s.Balanced :=
  inferInstanceAs (Decidable (∃ d ∈ s.asset, _))

/-- The two counters of accounts are right. -/
structure Counted (d : AssetDetails A) (m : FinMap A AssetAccount) : Prop where
  accounts : d.accounts = m.size
  sufficients : d.sufficients = selfSufficients m

omit [DecidableEq A] in
/-- The supply is not among what is counted. -/
theorem Counted.of_supply {d : AssetDetails A} {m : FinMap A AssetAccount} (h : Counted d m)
    {s : ℕ} : Counted { d with supply := s } m :=
  ⟨h.accounts, h.sufficients⟩

/-- An account below the minimum is there for its deposit. -/
def Floor (minBalance : ℕ) (m : FinMap A AssetAccount) : Prop :=
  ∀ who a, m.get? who = some a → (∃ n, a.reason = .depositHeld n) ∨ minBalance ≤ a.balance

omit [DecidableEq A] in
theorem selfSufficients_le_size {m : FinMap A AssetAccount} : selfSufficients m ≤ m.size := by
  rw [size_eq_total]
  refine total_le_total fun _ a => ?_
  unfold ExistenceReason.selfSufficient
  split <;> omega

/-! ## Accounts that come and go -/

variable {cfg : Config} {env : Env A} {s s' : Storage A} {d d' : AssetDetails A}
  {m m' : FinMap A AssetAccount} {a : AssetAccount} {who : A} {r : ExistenceReason}
  {minus p n amount : ℕ} {maybeDeposit : Option ℕ} {debit : ℕ} {keepAlive : Bool} {f : DebitFlags}
  {admin : Option A} {key : A × A} {b : Approval} {delegate owner origin : A} {e : Env A × Op A}

section
omit [DecidableEq A]

theorem newAccount_eq_ok (h : newAccount env who d maybeDeposit = .ok (r, d'))
    (hle : d.sufficients ≤ d.accounts) :
    d' = { d with
      accounts := d.accounts + 1, sufficients := d.sufficients + r.selfSufficient } := by
  obtain ⟨acs, hacc, h⟩ := bind_eq_ok h
  obtain ⟨hmax, rfl⟩ := checkedAdd_eq_some.mp (of_okOr hacc)
  cases maybeDeposit with
  | some deposit =>
    cases h
    rfl
  | none =>
    dsimp only at h
    split at h
    · have hmod : (d.sufficients + 1) % (u32Max + 1) = d.sufficients + 1 := mod_eq_of_lt (by omega)
      rw [hmod] at h
      cases h
      rfl
    · obtain ⟨-, -, h⟩ := bind_eq_ok h
      cases h
      rfl

theorem deadAccount_of_held (h : ∃ n, r = .depositHeld n) : deadAccount d r false = (.keep, d) := by
  obtain ⟨n, rfl⟩ := h
  rfl

theorem deadAccount_of_not_held (h : ¬∃ n, r = .depositHeld n) :
    deadAccount d r false = (.remove, { d with
      accounts := d.accounts - 1, sufficients := d.sufficients - r.selfSufficient }) := by
  cases r with
  | depositHeld n => exact absurd ⟨n, rfl⟩ h
  | _ => rfl

end

/-! ## Moving money

What one account gains or loses shows in the sum, and the counters follow it. -/

/-- The accounts have gained `plus` and lost `minus`, the counters are right, and nothing else
has changed in the details. An account falls below the minimum only if one was below it. -/
structure Shifted (d : AssetDetails A) (m : FinMap A AssetAccount) (d' : AssetDetails A)
    (m' : FinMap A AssetAccount) (plus minus : ℕ) : Prop where
  counted : Counted d' m'
  floor : Floor d.minBalance m → Floor d.minBalance m'
  balances : balances m' + minus = balances m + plus
  details : d' = { d with accounts := d'.accounts, sufficients := d'.sufficients }

section
variable (h : Shifted d m d' m' p minus)

include h

theorem Shifted.supply : d'.supply = d.supply := (congrArg AssetDetails.supply h.details :)

theorem Shifted.approvals : d'.approvals = d.approvals :=
  (congrArg AssetDetails.approvals h.details :)

theorem Shifted.minBalance : d'.minBalance = d.minBalance :=
  (congrArg AssetDetails.minBalance h.details :)

end

/-- The same, and no account is below the minimum. -/
structure Moved (d : AssetDetails A) (m : FinMap A AssetAccount) (d' : AssetDetails A)
    (m' : FinMap A AssetAccount) (plus minus : ℕ) : Prop where
  counted : Counted d' m'
  floor : Floor d.minBalance m'
  balances : balances m' + minus = balances m + plus
  details : d' = { d with accounts := d'.accounts, sufficients := d'.sufficients }

theorem Moved.shifted (h : Moved d m d' m' p minus) : Shifted d m d' m' p minus :=
  ⟨h.counted, fun _ => h.floor, h.balances, h.details⟩

/-- What storing an account does to the three sums over the accounts. -/
theorem sums_insert (m : FinMap A AssetAccount) (who : A) (b : AssetAccount) :
    balances (m.insert who b) + (m.get? who).elim 0 (·.balance) = balances m + b.balance ∧
      (m.insert who b).size + (m.get? who).elim 0 (fun _ => 1) = m.size + 1 ∧
      selfSufficients (m.insert who b) + (m.get? who).elim 0 (·.reason.selfSufficient) =
        selfSufficients m + b.reason.selfSufficient := by
  rw [size_eq_total, size_eq_total]
  exact ⟨total_insert_add, total_insert_add, total_insert_add⟩

theorem Floor.insert (h : Floor n m) (ha : (∃ n, a.reason = .depositHeld n) ∨ n ≤ a.balance) :
    Floor n (m.insert who a) := by
  intro k b hb
  rw [get?_insert] at hb
  split at hb
  · cases hb
    exact ha
  · exact h k b hb

theorem Floor.erase (h : Floor n m) : Floor n (m.erase who) := by
  intro k b hb
  rw [get?_erase] at hb
  split at hb
  · cases hb
  · exact h k b hb

/-- A new account, counted by `newAccount`. -/
theorem Counted.opened (h : Counted d m) (hn : m.get? who = none)
    (hnew : newAccount env who d maybeDeposit = .ok (r, d'))
    (hmin : (∃ n, r = .depositHeld n) ∨ d.minBalance ≤ amount) :
    Shifted d m d' (m.insert who ⟨amount, false, r⟩) amount 0 := by
  have hle : d.sufficients ≤ d.accounts := by
    rw [h.sufficients, h.accounts]
    exact selfSufficients_le_size
  obtain rfl := newAccount_eq_ok hnew hle
  obtain ⟨hb, hsi, hs⟩ := sums_insert m who ⟨amount, false, r⟩
  rw [hn] at hb hsi hs
  constructor
  case counted => exact ⟨by rw [h.accounts]; exact hsi.symm, by rw [h.sufficients]; exact hs.symm⟩
  case floor => exact fun hflr => hflr.insert hmin
  case balances => exact hb
  case details => rfl

/-- An account that stays, with another balance. -/
theorem Counted.replaced (h : Counted d m)
    (hget : m.get? who = some a) {b : AssetAccount} (hrea : b.reason = a.reason)
    (hbalance : b.balance + minus = a.balance + p)
    (hmin : Floor d.minBalance m → (∃ n, b.reason = .depositHeld n) ∨ d.minBalance ≤ b.balance) :
    Shifted d m d (m.insert who b) p minus := by
  obtain ⟨hb, hsi, hs⟩ := sums_insert m who b
  rw [hget, Option.elim_some] at hb hsi hs
  rw [hrea] at hs
  constructor
  case counted =>
    exact ⟨by rw [h.accounts]; omega, by rw [h.sufficients]; omega⟩
  case floor => exact fun hflr => hflr.insert (hmin hflr)
  case balances => omega
  case details => rfl

/-- An account given up by `deadAccount`. -/
theorem Counted.closed (h : Counted d m) (hget : m.get? who = some a) :
    Shifted d m { d with accounts := d.accounts - 1,
                         sufficients := d.sufficients - a.reason.selfSufficient }
      (m.erase who) 0 a.balance := by
  have hb : balances (m.erase who) + _ = balances m := total_erase_add
  have hsu : selfSufficients (m.erase who) + _ = selfSufficients m := total_erase_add
  have hs := total_erase_add (f := fun _ _ => 1) (m := m) (k := who)
  rw [← size_eq_total, ← size_eq_total] at hs
  rw [hget, Option.elim_some] at hb hs hsu
  constructor
  case counted =>
    exact ⟨by show d.accounts - 1 = _; rw [h.accounts]; omega,
      by show d.sufficients - _ = _; rw [h.sufficients]; omega⟩
  case floor => exact Floor.erase
  case balances => exact hb
  case details => rfl

theorem Counted.accrue (h : Counted d m) (hok : accrue cfg env d m who amount = .ok (d', m'))
    (hr : ∀ a, m.get? who = some a → a.balance + amount ≤ cfg.maxBalance)
    (hmin : m.get? who = none → d.minBalance ≤ amount) : Shifted d m d' m' amount 0 := by
  unfold Assets.accrue at hok
  split at hok
  next a hget =>
    cases hok
    refine h.replaced hget rfl (saturatingAdd_of_le (hr a hget)) fun hflr => ?_
    rw [saturatingAdd_of_le (hr a hget)]
    exact (hflr who a hget).imp_right fun hle => hle.trans (Nat.le_add_right ..)
  next hn =>
    obtain ⟨⟨r, d1⟩, hnew, hok⟩ := bind_eq_ok hok
    cases hok
    exact h.opened hn hnew (.inr (hmin hn))

/-- What `accrue` does not touch. -/
theorem accrue_get?_of_ne (hok : accrue cfg env d m who amount = .ok (d', m')) {k : A}
    (hne : k ≠ who) : m'.get? k = m.get? k := by
  unfold accrue at hok
  split at hok
  · cases hok
    exact get?_insert_of_ne hne
  · obtain ⟨⟨r, d1⟩, -, hok⟩ := bind_eq_ok hok
    cases hok
    exact get?_insert_of_ne hne

/-- A debit after which too little is left takes everything, or the account has a deposit. -/
theorem Counted.settle (h : Counted d m) (hget : m.get? who = some a) (hle : debit ≤ a.balance)
    (hdu : a.balance - debit < d.minBalance →
      (∃ n, a.reason = .depositHeld n) ∨ debit = a.balance) :
    Shifted d m (settle d m who { a with balance := a.balance - debit }).1
      (settle d m who { a with balance := a.balance - debit }).2 0 debit := by
  have hr hmin : Shifted d m d (m.insert who { a with balance := a.balance - debit }) 0 debit :=
    replaced h hget rfl (Nat.sub_add_cancel hle) fun _ => hmin
  unfold Assets.settle
  split
  next hlt =>
    by_cases hh : ∃ n, a.reason = .depositHeld n
    · rw [deadAccount_of_held hh]
      exact hr (.inl hh)
    · rw [deadAccount_of_not_held hh, (hdu hlt).resolve_left hh]
      exact h.closed hget
  next hge => exact hr (.inr (Nat.le_of_not_lt hge))

/-! ## The checks before money moves -/

theorem of_canIncrease (hass : s.asset = some d) {inc : Bool} {u : Unit}
    (h : (canIncrease cfg env s who amount inc).intoResult = .ok u) :
    (inc → d.supply + amount ≤ cfg.maxBalance) ∧
      (∀ a, s.account.get? who = some a → a.balance + amount ≤ cfg.maxBalance) ∧
      (s.account.get? who = none → d.minBalance ≤ amount) := by
  unfold canIncrease at h
  rw [hass] at h
  dsimp only at h
  split at h
  · cases h
  rename_i hsup
  refine ⟨fun hinc => by_contra fun hlt => hsup ⟨hinc, hlt⟩, ?_⟩
  split at h
  next a hget =>
    split at h
    next hr =>
      refine ⟨fun a' ha' => ?_, fun hn => ?_⟩
      · cases hget.symm.trans ha'
        exact hr
      · cases hget.symm.trans hn
    · cases h
  next hn =>
    split at h
    · cases h
    next hmin =>
      refine ⟨fun a ha => ?_, fun _ => Nat.le_of_not_lt hmin⟩
      cases hn.symm.trans ha

/-- What `reducibleBalance` allows passes `canDecrease`. -/
theorem canDecrease_of_reducible (hass : s.asset = some d)
    (h : reducibleBalance cfg env s who keepAlive = .ok n) (hle : amount ≤ n) :
    ∃ a dust, s.account.get? who = some a ∧
      (canDecrease cfg env s who amount keepAlive).intoResult = .ok dust ∧
      amount + dust ≤ a.balance := by
  obtain ⟨d', hd, h⟩ := bind_eq_ok h
  cases hass.symm.trans (of_okOr hd)
  obtain ⟨_, hl, h⟩ := bind_eq_ok h
  obtain ⟨a, ha, h⟩ := bind_eq_ok h
  obtain ⟨_, ht, h⟩ := bind_eq_ok h
  have hl := of_ensure hl
  have ht := of_ensure ht
  unfold canDecrease leaving
  rw [hass, of_okOr ha]
  cases hfrz : env.frozenBalance who with
  | some frozen =>
    rw [hfrz] at h
    obtain ⟨required, hreq, h⟩ := bind_eq_ok h
    obtain ⟨hmax, rfl⟩ := checkedAdd_eq_some.mp (of_okOr hreq)
    cases h
    grind [WithdrawConsequence.intoResult]
  | none =>
    rw [hfrz] at h
    dsimp only at h
    split at h <;> cases h <;> grind [WithdrawConsequence.intoResult]

omit [DecidableEq A] in
/-- What is left is enough, or all of it is dust. -/
theorem of_leaving {rest dust : ℕ} (h : (leaving d rest keepAlive).intoResult = .ok dust) :
    d.minBalance ≤ rest ∧ dust = 0 ∨ rest < d.minBalance ∧ dust = rest := by
  unfold leaving at h
  split at h
  next hlt =>
    split at h
    · cases h
    · cases h
      exact .inr ⟨hlt, rfl⟩
  next hge =>
    cases h
    exact .inl ⟨Nat.le_of_not_lt hge, rfl⟩

theorem of_canDecrease (hass : s.asset = some d) (hget : s.account.get? who = some a) {dust : ℕ}
    (h : (canDecrease cfg env s who amount keepAlive).intoResult = .ok dust) :
    amount = 0 ∧ dust = 0 ∨ amount ≠ 0 ∧ (d.minBalance ≤ a.balance - amount ∧ dust = 0 ∨
      a.balance - amount < d.minBalance ∧ dust = a.balance - amount) := by
  unfold canDecrease at h
  rw [hass, hget] at h
  dsimp only at h
  split at h
  · cases h
  split at h
  · cases h
  split at h
  next hz =>
    cases h
    exact .inl ⟨hz, rfl⟩
  rename_i hne
  refine .inr ⟨hne, ?_⟩
  split at h
  · cases h
  split at h
  · cases h
  split at h
  · exact of_leaving h
  split at h
  · cases h
  split at h
  · cases h
  · exact of_leaving h

/-- A debit that was prepared can be made. It leaves too little only where nothing can be taken out,
and is more than asked for only by what would be too little. -/
theorem of_prepDebit (hass : s.asset = some d) (hamount : amount ≠ 0)
    (hmax : ∀ a, s.account.get? who = some a → a.balance ≤ cfg.maxBalance)
    (h : prepDebit cfg env s who amount f = .ok debit) :
    ∃ n a, reducibleBalance cfg env s who f.keepAlive = .ok n ∧ s.account.get? who = some a ∧
      debit ≤ a.balance ∧ (n = 0 → debit = 0) ∧
      (a.balance - debit < d.minBalance → n = 0 ∨ debit = a.balance) ∧
      (f.bestEffort ∨ amount ≤ debit ∧ (debit = amount ∨ debit < amount + d.minBalance)) := by
  obtain ⟨n, hred, h⟩ := bind_eq_ok h
  obtain ⟨_, hens, h⟩ := bind_eq_ok h
  obtain ⟨dust, hdu, h⟩ := bind_eq_ok h
  cases h
  obtain ⟨a, _, hget, hdec, hsum⟩ := canDecrease_of_reducible hass hred (min_le_left n amount)
  cases hdu.symm.trans hdec
  have hens := of_ensure hens
  rw [saturatingAdd_of_le (hsum.trans (hmax a hget))]
  refine ⟨n, a, hred, hget, hsum, ?_⟩
  obtain ⟨hzero, rfl⟩ | ⟨hpos, ⟨hmin, rfl⟩ | ⟨hlt, rfl⟩⟩ := of_canDecrease hass hget hdu
  all_goals exact ⟨by omega, by omega, hens.imp_right (by omega)⟩

/-- What arrives and what is burned is what was taken. -/
theorem creditAndBurn_sum {c : ℕ} {dust : Bool} {burn : Option ℕ}
    (h : creditAndBurn amount debit dust = (c, burn)) :
    c + burn.getD 0 = debit ∧ (dust ∨ debit = c) := by
  unfold creditAndBurn at h
  split at h
  next hsub =>
    obtain ⟨hle, rfl⟩ := checkedSub_eq_some.mp hsub
    cases h
    exact ⟨Nat.add_sub_cancel' hle, .inl rfl⟩
  · cases h
    exact ⟨rfl, .inr rfl⟩

theorem of_prepCredit (hass : s.asset = some d) {c : ℕ} {dust : Bool} {burn : Option ℕ}
    (h : prepCredit cfg env s who amount debit dust = .ok (c, burn)) :
    (c + burn.getD 0 = debit ∧ (dust ∨ debit = c)) ∧
      (∀ a, s.account.get? who = some a → a.balance + c ≤ cfg.maxBalance) ∧
      (s.account.get? who = none → d.minBalance ≤ c) := by
  obtain ⟨_, hinc, h⟩ := bind_eq_ok h
  have hsum := creditAndBurn_sum (Except.ok.inj h)
  cases h
  exact ⟨hsum, (of_canIncrease hass hinc).2⟩

/-- A transfer does nothing, or what was prepared. -/
theorem transferAndDie_cases {src dest : A} {f : TransferFlags} (hass : s.asset = some d)
    (hok : transferAndDie cfg env s src dest amount admin f = .ok (n, s')) :
    amount = 0 ∧ n = amount ∧ s' = s ∨ amount ≠ 0 ∧ ∃ debit burn a,
      prepDebit cfg env s src amount f.toDebitFlags = .ok debit ∧
      prepCredit cfg env s dest amount debit f.burnDust = .ok (n, burn) ∧
      s.account.get? src = some a ∧ (src = dest ∧ s' = s ∨ src ≠ dest ∧ ∃ d1 m1,
        accrue cfg env { d with supply := d.supply - burn.getD 0 } s.account dest n = .ok (d1, m1) ∧
        s' = { s with
          asset := some (settle d1 m1 src { a with balance := a.balance - debit }).1
          account := (settle d1 m1 src { a with balance := a.balance - debit }).2 }) := by
  unfold transferAndDie at hok
  split at hok
  next hz =>
    cases hok
    exact .inl ⟨hz, rfl, rfl⟩
  rename_i ham
  obtain ⟨d', hd, hok⟩ := bind_eq_ok hok
  cases hass.symm.trans (of_okOr hd)
  obtain ⟨_, -, hok⟩ := bind_eq_ok hok
  obtain ⟨debit, hdeb, hok⟩ := bind_eq_ok hok
  obtain ⟨⟨credit, burn⟩, hcr, hok⟩ := bind_eq_ok hok
  obtain ⟨a, ha, hok⟩ := bind_eq_ok hok
  obtain ⟨_, -, hok⟩ := bind_eq_ok hok
  split at hok
  next heq =>
    cases hok
    exact .inr ⟨ham, debit, burn, a, hdeb, hcr, of_okOr ha, .inl ⟨heq, rfl⟩⟩
  next hne =>
    obtain ⟨⟨d1, m1⟩, hacr, hok⟩ := bind_eq_ok hok
    cases hok
    exact .inr ⟨ham, debit, burn, a, hdeb, hcr, of_okOr ha, .inr ⟨hne, d1, m1, hacr, rfl⟩⟩

/-! ## The calls -/

/-- The details `d` are right, and what else the calls rely on. -/
structure Sound (cfg : Config) (s : Storage A) (d : AssetDetails A) : Prop where
  asset : s.asset = some d
  counted : Counted d s.account
  supply : d.supply = balances s.account
  approvals : d.approvals = s.approvals.size
  floor : Floor d.minBalance s.account
  bound : d.supply ≤ cfg.maxBalance

theorem Sound.balance_le (h : Sound cfg s d) (hget : s.account.get? who = some a) :
    a.balance ≤ d.supply := by
  rw [h.supply]
  exact le_total (f := fun _ a => a.balance) hget

/-- Money has moved, and the supply with it. -/
theorem Sound.moved (h : Sound cfg s d) {supply : ℕ}
    (hmv : Shifted { d with supply := supply } s.account d' m' p minus)
    (hsup : supply + minus = d.supply + p) (hbd : supply ≤ cfg.maxBalance) :
    Sound cfg { s with asset := some d', account := m' } d' := by
  have hsum := hmv.balances
  have hold := h.supply
  constructor
  case asset => rfl
  case counted => exact hmv.counted
  case supply =>
    rw [hmv.supply]
    show supply = balances m'
    omega
  case approvals => exact hmv.approvals.trans h.approvals
  case floor =>
    rw [hmv.minBalance]
    exact hmv.floor h.floor
  case bound =>
    rw [hmv.supply]
    exact hbd

theorem Shifted.trans {m1 : FinMap A AssetAccount} {d1 : AssetDetails A} (h : Shifted d m d1 m1 p 0)
    (h' : Shifted d1 m1 d' m' 0 minus) : Shifted d m d' m' p minus := by
  have hsum := h.balances
  have hsum' := h'.balances
  constructor
  case counted => exact h'.counted
  case floor =>
    have hflr := h.floor
    rw [← h.minBalance] at hflr ⊢
    exact h'.floor ∘ hflr
  case balances => omega
  case details =>
    rw [h'.details, h.details]

section
variable (h : Sound cfg s d)

include h

/-- A call that asks for the asset goes on with its details. -/
theorem Sound.of_asset_bind {α : Type} {e : DispatchError} {x : α}
    {g : AssetDetails A → Except DispatchError α} (hok : (okOr s.asset e >>= g) = .ok x) :
    g d = .ok x := by
  rw [h.asset] at hok
  exact hok

theorem Sound.mint {i : Option A} (hok : doMint cfg env s who amount i = .ok s') :
    ∃ d', Sound cfg s' d' := by
  unfold doMint increaseBalance at hok
  split at hok
  · cases hok
    exact ⟨d, h⟩
  obtain ⟨_, hinc, hok⟩ := bind_eq_ok hok
  replace hok := h.of_asset_bind hok
  obtain ⟨hsup, hr, hmin⟩ := of_canIncrease h.asset hinc
  obtain ⟨-, -, hok⟩ := bind_eq_ok hok
  obtain ⟨d1, hd, hok⟩ := bind_eq_ok hok
  obtain ⟨-, -, hd⟩ := bind_eq_ok hd
  cases hd
  obtain ⟨-, -, hok⟩ := bind_eq_ok hok
  obtain ⟨⟨d2, m2⟩, hacr, hok⟩ := bind_eq_ok hok
  cases hok
  rw [saturatingAdd_of_le (hsup rfl)] at hacr
  exact ⟨d2, h.moved (h.counted.of_supply.accrue hacr hr hmin) rfl (hsup rfl)⟩

/-- What a debit leaves is enough, unless it takes all or the account has a deposit. -/
theorem Sound.of_prepDebit (ham : amount ≠ 0)
    (hdeb : prepDebit cfg env s who amount f = .ok debit) :
    ∃ a, s.account.get? who = some a ∧ debit ≤ a.balance ∧
      (a.balance - debit < d.minBalance →
        (∃ n, a.reason = .depositHeld n) ∨ debit = a.balance) := by
  obtain ⟨n, a, -, hget, hle, hzero, hdu, -⟩ := Assets.of_prepDebit h.asset ham
    (fun a ha => (h.balance_le ha).trans h.bound) hdeb
  refine ⟨a, hget, hle, fun hlt => (hdu hlt).imp_left fun hn => ?_⟩
  exact (h.floor who a hget).resolve_right (by omega)

theorem Sound.burn (hok : doBurn cfg env s who amount admin f = .ok (n, s')) :
    ∃ d', Sound cfg s' d' := by
  obtain ⟨_, -, hok⟩ := bind_eq_ok hok
  obtain ⟨_, -, hok⟩ := bind_eq_ok hok
  unfold decreaseBalance at hok
  split at hok
  · cases hok
    exact ⟨d, h⟩
  rename_i ha
  replace hok := h.of_asset_bind hok
  obtain ⟨-, -, hok⟩ := bind_eq_ok hok
  obtain ⟨debit, hdeb, hok⟩ := bind_eq_ok hok
  obtain ⟨d1, hd, hok⟩ := bind_eq_ok hok
  obtain ⟨-, -, hd⟩ := bind_eq_ok hd
  cases hd
  obtain ⟨a, hget, hle, hdu⟩ := h.of_prepDebit ha hdeb
  obtain ⟨a', ha', hok⟩ := bind_eq_ok hok
  cases hget.symm.trans (of_okOr ha')
  cases hok
  have hc : Counted { d with supply := d.supply - n } s.account := h.counted.of_supply
  have hsup := h.balance_le hget
  exact ⟨_, h.moved (hc.settle hget hle hdu) (by omega) ((sub_le ..).trans h.bound)⟩

theorem Sound.transferAndDie {src dest : A} {f : TransferFlags}
    (hok : transferAndDie cfg env s src dest amount admin f = .ok (n, s')) :
    (∃ d', Sound cfg s' d') ∧ s'.approvals = s.approvals := by
  obtain ⟨-, -, rfl⟩ | ⟨ha, debit, burn, a, hdeb, hcr, hget, ⟨-, rfl⟩ | ⟨hne, d1, m1, hacr, rfl⟩⟩ :=
    transferAndDie_cases h.asset hok
  · exact ⟨⟨d, h⟩, rfl⟩
  · exact ⟨⟨d, h⟩, rfl⟩
  obtain ⟨a', hg', hle, hdu⟩ := h.of_prepDebit ha hdeb
  cases hget.symm.trans hg'
  obtain ⟨⟨hsum, -⟩, hr, hmin⟩ := of_prepCredit h.asset hcr
  have hcrd := h.counted.of_supply.accrue hacr hr hmin
  rw [← hcrd.minBalance] at hdu
  have hset := hcrd.counted.settle ((accrue_get?_of_ne hacr hne).trans hget) hle hdu
  have hsup := h.balance_le hget
  exact ⟨⟨_, h.moved (hcrd.trans hset) (by omega) ((sub_le ..).trans h.bound)⟩, rfl⟩

theorem Sound.touch (hok : doTouch cfg env s who = .ok s') : ∃ d', Sound cfg s' d' := by
  obtain ⟨_, hn, hok⟩ := bind_eq_ok hok
  replace hok := h.of_asset_bind hok
  obtain ⟨_, -, hok⟩ := bind_eq_ok hok
  obtain ⟨⟨r, d1⟩, hnew, hok⟩ := bind_eq_ok hok
  obtain ⟨_, -, hok⟩ := bind_eq_ok hok
  cases hok
  have hh : ∃ n, r = .depositHeld n := by
    obtain ⟨accounts, -, hnew⟩ := bind_eq_ok hnew
    cases hnew
    exact ⟨_, rfl⟩
  exact ⟨d1, h.moved (h.counted.opened (of_ensure hn) hnew (.inl hh)) rfl h.bound⟩

/-- A refund takes the account out with all it holds. -/
theorem Sound.refunded {ab : Bool} (hok : doRefund s who ab = .ok s') :
    ∃ a d', s.account.get? who = some a ∧ Moved d s.account d' (s.account.erase who) 0 a.balance ∧
      s' = { s with asset := some d', account := s.account.erase who } := by
  obtain ⟨a, ha, hok⟩ := bind_eq_ok hok
  obtain ⟨⟨deposit, r⟩, hrea, hok⟩ := bind_eq_ok hok
  replace hok := h.of_asset_bind hok
  obtain ⟨_, -, hok⟩ := bind_eq_ok hok
  obtain ⟨_, -, hok⟩ := bind_eq_ok hok
  obtain ⟨_, -, hok⟩ := bind_eq_ok hok
  have hcld := h.counted.closed (of_okOr ha)
  have hh : a.reason = .depositHeld deposit ∧ r = .depositRefunded := by
    have ht := of_okOr hrea
    unfold ExistenceReason.takeDeposit at ht
    split at ht
    next n hn =>
      cases ht
      exact ⟨hn, rfl⟩
    · cases ht
  rw [hh.1] at hcld
  rw [hh.2] at hok
  cases hok
  exact ⟨a, _, of_okOr ha, ⟨hcld.counted, hcld.floor h.floor, hcld.balances, hcld.details⟩, rfl⟩

/-- Only the approvals have changed, and their counter with them. -/
theorem Sound.of_approvals {approvals : FinMap (A × A) Approval} (hn : n = approvals.size) :
    Sound cfg { s with asset := some { d with approvals := n }, approvals := approvals }
      { d with approvals := n } where
  asset := rfl
  counted := ⟨h.counted.accounts, h.counted.sufficients⟩
  supply := h.supply
  approvals := hn
  floor := h.floor
  bound := h.bound

theorem Sound.erase_approval (hget : s.approvals.get? key = some b) :
    Sound cfg { s with asset := some { d with approvals := d.approvals - 1 },
                       approvals := s.approvals.erase key }
      { d with approvals := d.approvals - 1 } := by
  refine h.of_approvals ?_
  rw [h.approvals, ← size_erase_add_one hget, Nat.add_sub_cancel]

theorem Sound.replace_approval {b' : Approval} (hget : s.approvals.get? key = some b) :
    Sound cfg { s with asset := some d, approvals := s.approvals.insert key b' } d := by
  refine h.of_approvals ?_
  rw [h.approvals, size_insert, size_erase_add_one hget]

theorem Sound.transferApproved {des : A}
    (hok : doTransferApproved cfg env s owner delegate des amount = .ok s') :
    ∃ d', Sound cfg s' d' := by
  obtain ⟨_, -, hok⟩ := bind_eq_ok hok
  obtain ⟨_, -, hok⟩ := bind_eq_ok hok
  obtain ⟨b, hb, hok⟩ := bind_eq_ok hok
  obtain ⟨rem, -, hok⟩ := bind_eq_ok hok
  obtain ⟨⟨n, t⟩, htra, hok⟩ := bind_eq_ok hok
  obtain ⟨⟨d1, h1⟩, hsame⟩ := h.transferAndDie htra
  have hget : t.approvals.get? (owner, delegate) = some b := by
    rw [hsame]
    exact of_okOr hb
  dsimp only at hok
  split at hok
  · cases hok
    rw [h1.asset]
    exact ⟨_, h1.erase_approval hget⟩
  · cases hok
    rw [h1.asset]
    exact ⟨d1, h1.replace_approval hget⟩

theorem Sound.cancelApproval (hok : cancelApproval s owner delegate = .ok s') :
    ∃ d', Sound cfg s' d' := by
  replace hok := h.of_asset_bind hok
  obtain ⟨_, -, hok⟩ := bind_eq_ok hok
  obtain ⟨b, hb, hok⟩ := bind_eq_ok hok
  cases hok
  exact ⟨_, h.erase_approval (of_okOr hb)⟩

/-- An approval that is new is counted up to the maximum. -/
theorem Sound.approved (hok : doApproveTransfer cfg env s owner delegate amount = .ok s') :
    (∃ b, s.approvals.get? (owner, delegate) = some b) ∧ Sound cfg s' d ∨
      s.approvals.get? (owner, delegate) = none ∧ ∃ b,
        s' = { s with asset := some { d with approvals := saturatingAdd u32Max d.approvals 1 },
                      approvals := s.approvals.insert (owner, delegate) b } := by
  replace hok := h.of_asset_bind hok
  obtain ⟨_, -, hok⟩ := bind_eq_ok hok
  cases hget : s.approvals.get? (owner, delegate) with
  | some b =>
    rw [hget] at hok
    obtain ⟨b', -, hok⟩ := bind_eq_ok hok
    cases hok
    exact .inl ⟨⟨b, rfl⟩, h.replace_approval hget⟩
  | none =>
    rw [hget] at hok
    obtain ⟨b', -, hok⟩ := bind_eq_ok hok
    cases hok
    exact .inr ⟨rfl, _, rfl⟩

theorem Sound.setFrozen {isF : Bool} (hok : setFrozen s who isF = .ok s') : Sound cfg s' d := by
  obtain ⟨a, ha, hok⟩ := bind_eq_ok hok
  cases hok
  have hmv : Shifted d s.account d (s.account.insert who { a with isFrozen := isF }) 0 0 :=
    h.counted.replaced (of_okOr ha) rfl rfl fun hflr => hflr who a (of_okOr ha)
  have hsnd := h.moved hmv rfl h.bound
  rw [← h.asset] at hsnd
  exact hsnd

theorem Sound.of_status (st : AssetStatus) :
    Sound cfg { s with asset := some { d with status := st } } { d with status := st } where
  asset := rfl
  counted := ⟨h.counted.accounts, h.counted.sufficients⟩
  supply := h.supply
  approvals := h.approvals
  floor := h.floor
  bound := h.bound

end

/-! ## Runs -/

/-- The counters follow the call: a refund that goes through finds nothing to burn, and an
approval that is new finds room in the counter. -/
def Accounted (cfg : Config) (s : Storage A) (e : Env A × Op A) : Prop :=
  match e.2 with
  | .refund who allowBurn =>
    ∀ s', doRefund s who allowBurn = .ok s' → ∀ a ∈ s.account.get? who, a.balance = 0
  | .approveTransfer owner delegate amount =>
    ∀ s', doApproveTransfer cfg e.1 s owner delegate amount = .ok s' →
      s.approvals.get? (owner, delegate) = none → ∀ d ∈ s.asset, d.approvals < u32Max
  | _ => True

/-- What the calls rely on besides the counters. -/
def Steady (cfg : Config) (s : Storage A) : Prop :=
  ∀ d ∈ s.asset, Floor d.minBalance s.account ∧ d.supply ≤ cfg.maxBalance

theorem Storage.Balanced.sound (h : s.Balanced) (hstd : Steady cfg s) : ∃ d, Sound cfg s d := by
  obtain ⟨d, hd, hsup, hacc, hs, ha⟩ := h
  obtain ⟨hflr, hbd⟩ := hstd d hd
  exact ⟨d, hd, ⟨hacc, hs⟩, hsup, ha, hflr, hbd⟩

section
variable (h : Sound cfg s d)

include h

theorem Sound.balanced : s.Balanced :=
  ⟨d, h.asset, h.supply, h.counted.accounts, h.counted.sufficients, h.approvals⟩

theorem Sound.steady : Steady cfg s := by
  intro d' hd'
  cases h.asset.symm.trans hd'
  exact ⟨h.floor, h.bound⟩

theorem Sound.call {op : Op A} (hok : op.call cfg env s = .ok s')
    (hacc : Accounted cfg s (env, op)) : ∃ d', Sound cfg s' d' := by
  cases op with
  | mint => exact h.mint hok
  | burn =>
    obtain ⟨⟨n, t⟩, hb, hok⟩ := bind_eq_ok hok
    cases hok
    exact h.burn hb
  | transfer =>
    obtain ⟨⟨n, t⟩, htra, hok⟩ := bind_eq_ok hok
    cases hok
    exact (h.transferAndDie htra).1
  | approveTransfer owner delegate amount =>
    obtain ⟨-, h'⟩ | ⟨hn, b, rfl⟩ := h.approved hok
    · exact ⟨d, h'⟩
    · have hr : d.approvals < u32Max := hacc _ hok hn d h.asset
      refine ⟨_, h.of_approvals ?_⟩
      rw [saturatingAdd_of_le hr, h.approvals, size_insert, erase_of_none hn]
  | transferApproved => exact h.transferApproved hok
  | cancelApproval => exact h.cancelApproval hok
  | touch => exact h.touch hok
  | refund who allowBurn =>
    obtain ⟨a, d', hget, hmv, rfl⟩ := h.refunded hok
    have hz : a.balance = 0 := hacc _ hok a hget
    rw [hz] at hmv
    exact ⟨d', h.moved hmv.shifted rfl h.bound⟩
  | freeze | thaw =>
    obtain ⟨_, -, hok⟩ := bind_eq_ok hok
    obtain ⟨_, -, hok⟩ := bind_eq_ok hok
    obtain ⟨_, -, hok⟩ := bind_eq_ok hok
    exact ⟨d, h.setFrozen hok⟩
  | freezeAsset | thawAsset =>
    replace hok := h.of_asset_bind hok
    obtain ⟨_, -, hok⟩ := bind_eq_ok hok
    obtain ⟨_, -, hok⟩ := bind_eq_ok hok
    cases hok
    exact ⟨_, h.of_status _⟩

theorem Sound.step (hacc : Accounted cfg s e) : ∃ d', Sound cfg (step cfg s e) d' := by
  unfold Assets.step
  split
  next s' hok => exact h.call hok hacc
  · exact ⟨d, h⟩

/-- A call that loses count leaves the counters wrong. -/
theorem Sound.accounted (hbal : (Assets.step cfg s e).Balanced) : Accounted cfg s e := by
  obtain ⟨env, op⟩ := e
  have hs {s'} (hok : op.call cfg env s = .ok s') : s'.Balanced := by
    unfold Assets.step at hbal
    rwa [hok] at hbal
  cases op with
  | refund who allowBurn =>
    intro s' hok a ha
    obtain ⟨a', d', hget, hmv, rfl⟩ := h.refunded hok
    cases hget.symm.trans ha
    obtain ⟨d'', hd'', hsup, -⟩ := hs hok
    cases hd''
    have hsum := hmv.balances
    have hsame := hmv.shifted.supply
    have hold := h.supply
    dsimp only at hsup
    omega
  | approveTransfer owner delegate amount =>
    intro s' hok hn d' hd'
    cases h.asset.symm.trans hd'
    obtain ⟨⟨b, hb⟩, -⟩ | ⟨-, b, rfl⟩ := h.approved hok
    · cases hn.symm.trans hb
    obtain ⟨d'', hd'', -, -, -, hcnt⟩ := hs hok
    cases hd''
    have hold := h.approvals
    simp only [size_insert, erase_of_none hn, saturatingAdd] at hcnt
    omega
  | _ => trivial

end

/-- From its creation on, the details of an asset are right as long as the counters follow the
calls, and no longer. -/
theorem balanced_iff_accounted (cfg : Config) (issuer admin freezer : A) (isSufficient : Bool)
    (minBalance : ℕ) (es : List (Env A × Op A)) :
    Run.Always (step cfg) Storage.Balanced
        (.created issuer admin freezer isSufficient minBalance) es ↔
      Run.Each (step cfg) (Accounted cfg)
        (.created issuer admin freezer isSufficient minBalance) es := by
  obtain ⟨d, hcre⟩ : ∃ d, Sound cfg (.created issuer admin freezer isSufficient minBalance) d := by
    refine ⟨_, rfl, ⟨rfl, rfl⟩, rfl, rfl, fun who a ha => ?_, zero_le _⟩
    cases ha
  refine Run.always_iff_each
    (fun s e hstd hbal _ hacc => ?_) (fun s e hstd hbal _ => ?_)
    hcre.steady hcre.balanced (Run.each_of_mem fun _ _ => trivial)
  · obtain ⟨d, h⟩ := hbal.sound hstd
    obtain ⟨d', h'⟩ := h.step hacc
    exact h'.steady
  · obtain ⟨d, h⟩ := hbal.sound hstd
    refine ⟨h.accounted, fun hacc => ?_⟩
    obtain ⟨d', h'⟩ := h.step hacc
    exact h'.balanced

/-- Surroundings in which everything asked for is granted. -/
def grantingEnv : Env ℕ where
  canIncConsumer _ := true
  incConsumers _ := true
  reserve _ _ := true
  frozenBalance _ := none

/-- Account 1 pays a deposit, receives 5 and gives the account up. -/
def burningRefund : List (Env ℕ × Op ℕ) :=
  [(grantingEnv, .touch 1), (grantingEnv, .mint 1 5 (some 0)), (grantingEnv, .refund 1 true)]

/-- The 5 are gone from the accounts and still in the supply. -/
theorem not_balanced_burningRefund :
    ¬Run.Always (step ⟨1000, 1, 1⟩) Storage.Balanced (.created 0 0 0 false 1) burningRefund := by
  intro h
  have hl := h.last
  revert hl
  decide +kernel

/-! ## A transfer end to end

The debit and the credit are prepared and applied later, under assumptions that debug assertions
state. The last one, that an account left with too little is left with nothing, fails if nothing
can be taken out of an account that has too little. -/

/-- The balance of an account, zero if there is none. -/
def balanceOf (m : FinMap A AssetAccount) (who : A) : ℕ := (m.get? who).elim 0 (·.balance)

section
variable (cfg : Config) (env : Env A) (s : Storage A) (d : AssetDetails A) (src dest : A)
  (amount : ℕ) (f : TransferFlags)

/-- The debug assertions before the source is looked at again, where nothing saturates. -/
structure Asserted : Prop where
  prepared : ∀ n, reducibleBalance cfg env s src f.keepAlive = .ok n →
    ∃ dust, (canDecrease cfg env s src (min n amount) f.keepAlive).intoResult = .ok dust ∧
      min n amount + dust ≤ cfg.maxBalance
  applied : ∀ debit credit burn, amount ≠ 0 →
    prepDebit cfg env s src amount f.toDebitFlags = .ok debit →
    prepCredit cfg env s dest amount debit f.burnDust = .ok (credit, burn) →
    burn.getD 0 ≤ d.supply ∧ debit ≤ balanceOf s.account src ∧
      ∀ a, s.account.get? dest = some a → a.balance + credit ≤ cfg.maxBalance

/-- What a transfer has done, with the debug assertion on what is left of the source. -/
structure Transferred (credit : ℕ) (s' : Storage A) (debit : ℕ) (d' : AssetDetails A) : Prop where
  asset : s'.asset = some d'
  counted : Counted d' s'.account
  debited : balanceOf s'.account src + debit = balanceOf s.account src
  credited : balanceOf s'.account dest = balanceOf s.account dest + credit
  burned : credit ≤ debit ∧ d'.supply + debit = d.supply + credit
  others : ∀ k, k ≠ src → k ≠ dest → s'.account.get? k = s.account.get? k
  enough : f.bestEffort ∨ amount ≤ debit ∧ debit < amount + d.minBalance
  whole : f.burnDust ∨ debit = credit
  asserted : amount ≠ 0 → prepDebit cfg env s src amount f.toDebitFlags = .ok debit ∧
    (balanceOf s.account src - debit < d.minBalance → balanceOf s.account src = debit)

/-- Nothing is taken out of an account that has too little. -/
def Leftover : Prop := amount ≠ 0 ∧ reducibleBalance cfg env s src f.keepAlive = .ok 0 ∧
  0 < balanceOf s.account src ∧ balanceOf s.account src < d.minBalance

end

theorem balanceOf_accrue (hr : ∀ a, m.get? who = some a → a.balance + amount ≤ cfg.maxBalance)
    (hok : accrue cfg env d m who amount = .ok (d', m')) :
    balanceOf m' who = balanceOf m who + amount := by
  unfold accrue at hok
  split at hok
  next a hget =>
    cases hok
    rw [balanceOf, balanceOf, get?_insert_self, hget]
    exact saturatingAdd_of_le (hr a hget)
  next hn =>
    obtain ⟨⟨r, d1⟩, -, hok⟩ := bind_eq_ok hok
    cases hok
    rw [balanceOf, balanceOf, get?_insert_self, hn]
    exact (Nat.zero_add _).symm

/-- An account is settled with what is left of it, and no other is touched. -/
theorem settle_spec (h : a.balance < d.minBalance → a.balance = 0) :
    balanceOf (settle d m who a).2 who = a.balance ∧
      ∀ k ≠ who, (settle d m who a).2.get? k = m.get? k := by
  have hke : balanceOf (m.insert who a) who = a.balance ∧
      ∀ k ≠ who, (m.insert who a).get? k = m.get? k := by
    rw [balanceOf, get?_insert_self]
    exact ⟨rfl, fun k hk => get?_insert_of_ne hk⟩
  unfold settle
  split
  next hlt =>
    by_cases hh : ∃ n, a.reason = .depositHeld n
    · rw [deadAccount_of_held hh]
      exact hke
    · rw [deadAccount_of_not_held hh, h hlt, balanceOf, get?_erase_self]
      exact ⟨rfl, fun k hk => get?_erase_of_ne hk⟩
  · exact hke

section
variable {src dest : A} {f : TransferFlags} (hass : s.asset = some d)
  (hsup : d.supply = balances s.account) (hbd : d.supply ≤ cfg.maxBalance)

include hass hsup hbd

theorem asserted : Asserted cfg env s d src dest amount f := by
  have hle {a} (hget : s.account.get? src = some a) : a.balance ≤ d.supply :=
    hsup ▸ le_total (f := fun _ a => a.balance) hget
  refine ⟨fun n hn => ?_, fun debit credit burn ham hdeb hcr => ?_⟩
  · obtain ⟨a, dust, hget, hdec, hsum⟩ := canDecrease_of_reducible hass hn (min_le_left n amount)
    exact ⟨dust, hdec, hsum.trans ((hle hget).trans hbd)⟩
  · obtain ⟨n, a, -, hget, hdebit, -⟩ := of_prepDebit hass ham (fun a ha => (hle ha).trans hbd) hdeb
    obtain ⟨⟨hsum, -⟩, hr, -⟩ := of_prepCredit hass hcr
    have hbal := hle hget
    refine ⟨by omega, ?_, hr⟩
    rwa [balanceOf, hget]

/-- A transfer of some amount that succeeds. -/
theorem transferred_iff (hcnt : Counted d s.account) (hne : src ≠ dest) {c : ℕ}
    (hok : doTransfer cfg env s src dest amount admin f = .ok (c, s')) :
    (∃ debit d', Transferred cfg env s d src dest amount f c s' debit d') ↔
      (f.bestEffort ∨ 0 < d.minBalance) ∧ ¬ Leftover cfg env s d src amount f := by
  obtain ⟨hz, rfl, rfl⟩ | ⟨ham, debit, burn, a, hdeb, hcr, hget,
    ⟨heq, -⟩ | ⟨-, d1, m1, hacr, rfl⟩⟩ := transferAndDie_cases hass hok
  · constructor
    · rintro ⟨debit, d', h⟩
      exact ⟨h.enough.imp_right (by omega), fun hl => hl.1 hz⟩
    · rintro ⟨hmin, -⟩
      exact ⟨0, d, hass, hcnt, rfl, by rw [hz]; rfl, ⟨hz.le, by omega⟩, fun _ _ _ => rfl,
        hmin.imp_right (by omega), .inr hz.symm, absurd hz⟩
  · exact absurd heq hne
  have hle {a} (hget : s.account.get? src = some a) : a.balance ≤ d.supply :=
    hsup ▸ le_total (f := fun _ a => a.balance) hget
  obtain ⟨n, a', hred, hg', hde, hn, hdu, hb⟩ :=
    of_prepDebit hass ham (fun a ha => (hle ha).trans hbd) hdeb
  cases hget.symm.trans hg'
  have hbal : balanceOf s.account src = a.balance := by rw [balanceOf, hget]; rfl
  obtain ⟨⟨hsum, hw⟩, hr, hmin⟩ := of_prepCredit hass hcr
  constructor
  · rintro ⟨debit', d', h⟩
    refine ⟨h.enough.imp_right (by omega), fun ⟨_, hz, hpos, hlt⟩ => ?_⟩
    obtain ⟨hd', has⟩ := h.asserted ham
    cases hdeb.symm.trans hd'
    cases hred.symm.trans hz
    rw [hn rfl] at has
    exact hpos.ne' (has hlt)
  rintro ⟨hb', hl⟩
  -- what is left of the source is nothing, or enough
  have has : a.balance - debit < d.minBalance → a.balance = debit := by
    intro hlt
    rcases hdu hlt with rfl | heq
    · by_contra hne
      exact hl ⟨ham, hred, by omega, by omega⟩
    · exact heq.symm
  have hcrd := hcnt.of_supply.accrue hacr hr hmin
  have hg' : m1.get? src = some a := (accrue_get?_of_ne hacr hne).trans hget
  have hset := hcrd.counted.settle hg' hde fun hlt =>
    .inr (has (hcrd.minBalance ▸ hlt)).symm
  obtain ⟨hsrc, hoth⟩ := settle_spec
    (a := { a with balance := a.balance - debit }) fun hlt =>
      Nat.sub_eq_zero_of_le (has (hcrd.minBalance ▸ hlt)).le
  have hs := (hcrd.trans hset).supply
  have hbal' := hle hget
  dsimp only at hs
  refine ⟨debit, _, rfl, hset.counted, ?_, ?_, ⟨by omega, by omega⟩,
    fun k hk hk' => (hoth k hk).trans (accrue_get?_of_ne hacr hk'), ?_, hw, fun _ => ⟨hdeb, ?_⟩⟩
  · rw [hsrc, hbal]
    exact Nat.sub_add_cancel hde
  · rw [balanceOf, hoth dest hne.symm]
    exact balanceOf_accrue hr hacr
  · rcases hb' with hb' | hpos
    · exact .inl hb'
    · exact hb.imp_right (by omega)
  · rw [hbal]
    exact has

end

/-- A transfer does what it should and no debug assertion fails, unless the minimum is zero or too
little is left where nothing is taken. -/
theorem transfer_exact_iff (cfg : Config) (env : Env A) (s : Storage A) (src dest : A) (amount : ℕ)
    (admin : Option A) (f : TransferFlags) {d : AssetDetails A} (hass : s.asset = some d)
    (hcnt : Counted d s.account) (hsup : d.supply = balances s.account)
    (hbd : d.supply ≤ cfg.maxBalance) (hne : src ≠ dest) :
    (Asserted cfg env s d src dest amount f ∧ ∀ credit s',
      doTransfer cfg env s src dest amount admin f = .ok (credit, s') →
        ∃ debit d', Transferred cfg env s d src dest amount f credit s' debit d') ↔
    ∀ credit s', doTransfer cfg env s src dest amount admin f = .ok (credit, s') →
      (f.bestEffort ∨ 0 < d.minBalance) ∧ ¬ Leftover cfg env s d src amount f := by
  rw [and_iff_right (asserted hass hsup hbd)]
  refine forall_congr' fun credit => forall_congr' fun s' => forall_congr' fun hok => ?_
  exact transferred_iff hass hsup hbd hcnt hne hok

/-- Account 1 with a deposit, and account 2. -/
def pair (balance : ℕ) : Storage ℕ where
  asset := some ⟨0, 0, 0, 100 + balance, 10, true, 2, 1, 0, .live⟩
  account :=
    (FinMap.empty.insert 1 ⟨balance, false, .depositHeld 1⟩).insert 2 ⟨100, false, .sufficient⟩
  approvals := .empty

theorem transfer_exact_pair : ∃ credit s',
    doTransfer ⟨1000, 1, 1⟩ grantingEnv (pair 50) 1 2 45 none ⟨false, false, false⟩ =
      .ok (credit, s') ∧ balanceOf s'.account 2 = 100 + credit := by
  have h := (transfer_exact_iff ⟨1000, 1, 1⟩ grantingEnv (pair 50) 1 2 45 none ⟨false, false, false⟩
    rfl ⟨rfl, rfl⟩ rfl (by decide) (by decide)).mpr fun _ _ _ =>
      ⟨.inr (by decide), fun h => absurd h.2.2.2 (by decide)⟩
  obtain ⟨_, _, hdone⟩ := h.2 _ _ rfl
  exact ⟨_, _, rfl, hdone.credited⟩

/-- Nothing can be taken out of account 1, and it is left with 5. -/
theorem not_transfer_exact : ¬ ∀ credit s',
    doTransfer ⟨1000, 1, 1⟩ grantingEnv (pair 5) 1 2 1 none ⟨true, true, false⟩ = .ok (credit, s') →
      ∃ debit d', Transferred ⟨1000, 1, 1⟩ grantingEnv (pair 5)
        ⟨0, 0, 0, 105, 10, true, 2, 1, 0, .live⟩ 1 2 1 ⟨true, true, false⟩ credit s' debit d' := by
  intro h
  have hok : doTransfer ⟨1000, 1, 1⟩ grantingEnv (pair 5) 1 2 1 none ⟨true, true, false⟩ =
    .ok (0, _) := rfl
  refine ((transferred_iff rfl rfl (by decide) ⟨rfl, rfl⟩ (by decide) hok).mp (h _ _ hok)).2 ?_
  exact ⟨by decide, rfl, by decide, by decide⟩

end Assets
