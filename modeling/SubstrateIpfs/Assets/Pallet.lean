-- SUMMARY: The assets pallet over one asset: balances, deposits, approvals, counters.
import SubstrateIpfs.Base.Fallible
import SubstrateIpfs.Base.FinMap

/-!
# The assets pallet

The storage is that of one asset: its details, its accounts and its approvals. A call gets the
storage and returns the new one, or an error; a call that fails leaves the storage as it was. What
the pallet asks of its surroundings (reference counters, the currency that holds the deposits, the
freezer) is answered by `Env`.
-/

namespace Assets

open Fallible

variable {A : Type} [DecidableEq A]

/-! ## Types -/

def u32Max : ℕ := 4294967295

inductive AssetStatus
  | live
  | frozen
  | destroying
  deriving DecidableEq, Repr

/-- The record kept of an asset. -/
structure AssetDetails (A : Type) where
  issuer : A
  admin : A
  freezer : A
  /-- The total supply across all accounts. -/
  supply : ℕ
  minBalance : ℕ
  isSufficient : Bool
  /-- The total number of accounts. -/
  accounts : ℕ
  /-- The total number of accounts with a self-sufficient reference. -/
  sufficients : ℕ
  /-- The total number of approvals. -/
  approvals : ℕ
  status : AssetStatus
  deriving Repr

structure Approval where
  amount : ℕ
  deposit : ℕ
  deriving DecidableEq, Repr

/-- Why an account exists. -/
inductive ExistenceReason
  | consumer
  | sufficient
  | depositHeld (deposit : ℕ)
  | depositRefunded
  deriving DecidableEq, Repr

/-- The deposit held, and the reason without it. -/
def ExistenceReason.takeDeposit : ExistenceReason → Option (ℕ × ExistenceReason)
  | .depositHeld deposit => some (deposit, .depositRefunded)
  | _ => none

structure AssetAccount where
  balance : ℕ
  isFrozen : Bool
  reason : ExistenceReason
  deriving DecidableEq, Repr

structure Storage (A : Type) where
  asset : Option (AssetDetails A)
  account : FinMap A AssetAccount
  approvals : FinMap (A × A) Approval

/-- The constants of a runtime. -/
structure Config where
  maxBalance : ℕ
  assetAccountDeposit : ℕ
  approvalDeposit : ℕ

/-- What the rest of the runtime answers during one call. -/
structure Env (A : Type) where
  canIncConsumer : A → Bool
  incConsumers : A → Bool
  /-- Whether the currency can reserve the amount. -/
  reserve : A → ℕ → Bool
  frozenBalance : A → Option ℕ

structure DebitFlags where
  keepAlive : Bool
  bestEffort : Bool

structure TransferFlags where
  keepAlive : Bool
  bestEffort : Bool
  burnDust : Bool

def TransferFlags.toDebitFlags (f : TransferFlags) : DebitFlags :=
  { keepAlive := f.keepAlive, bestEffort := f.bestEffort }

inductive TokenError
  | noFunds
  | wouldDie
  | belowMinimum
  | cannotCreate
  | unknownAsset
  | frozen
  deriving DecidableEq, Repr

inductive ArithmeticError
  | underflow
  | overflow
  deriving DecidableEq, Repr

inductive PalletError
  | balanceLow
  | noAccount
  | noPermission
  | unknown
  | frozen
  | noProvider
  | unapproved
  | alreadyExists
  | noDeposit
  | wouldBurn
  | assetNotLive
  | notFrozen
  deriving DecidableEq, Repr

inductive DispatchError
  | pallet (e : PalletError)
  | token (e : TokenError)
  | arithmetic (e : ArithmeticError)
  | currency
  deriving DecidableEq, Repr

/-- What putting an amount into an account would lead to. -/
inductive DepositConsequence
  | belowMinimum
  | cannotCreate
  | unknownAsset
  | overflow
  | success
  deriving DecidableEq, Repr

def DepositConsequence.intoResult : DepositConsequence → Except DispatchError Unit
  | .belowMinimum => .error (.token .belowMinimum)
  | .cannotCreate => .error (.token .cannotCreate)
  | .unknownAsset => .error (.token .unknownAsset)
  | .overflow => .error (.arithmetic .overflow)
  | .success => .ok ()

/-- What taking an amount out of an account would lead to. -/
inductive WithdrawConsequence
  | noFunds
  | wouldDie
  | unknownAsset
  | underflow
  | overflow
  | frozen
  | reducedToZero (rest : ℕ)
  | success
  deriving DecidableEq, Repr

def WithdrawConsequence.intoResult : WithdrawConsequence → Except DispatchError ℕ
  | .noFunds => .error (.token .noFunds)
  | .wouldDie => .error (.token .wouldDie)
  | .unknownAsset => .error (.token .unknownAsset)
  | .underflow => .error (.arithmetic .underflow)
  | .overflow => .error (.arithmetic .overflow)
  | .frozen => .error (.token .frozen)
  | .reducedToZero rest => .ok rest
  | .success => .ok 0

inductive DeadConsequence
  | remove
  | keep
  deriving DecidableEq, Repr

/-! ## Accounts that come and go -/

variable (cfg : Config) (env : Env A) (d : AssetDetails A) (s : Storage A) (who : A)

def newAccount (d : AssetDetails A) (maybeDeposit : Option ℕ) :
    Except DispatchError (ExistenceReason × AssetDetails A) := do
  let accounts ← okOr (checkedAdd u32Max d.accounts 1) (.arithmetic .overflow)
  match maybeDeposit with
  | some deposit => return (.depositHeld deposit, { d with accounts := accounts })
  | none =>
    if d.isSufficient then
      -- An increment that wraps around; that it does not is a result, not an assumption.
      return (.sufficient,
        { d with sufficients := (d.sufficients + 1) % (u32Max + 1), accounts := accounts })
    else
      ensure (env.incConsumers who) (.pallet .noProvider)
      return (.consumer, { d with accounts := accounts })

def deadAccount (reason : ExistenceReason) (force : Bool) : DeadConsequence × AssetDetails A :=
  match reason with
  | .consumer => (.remove, { d with accounts := d.accounts - 1 })
  | .sufficient =>
    (.remove, { d with sufficients := d.sufficients - 1, accounts := d.accounts - 1 })
  | .depositRefunded => (.remove, { d with accounts := d.accounts - 1 })
  | .depositHeld _ =>
    if force then (.remove, { d with accounts := d.accounts - 1 }) else (.keep, d)

/-! ## Checks before money moves -/

def canIncrease (amount : ℕ) (increaseSupply : Bool) : DepositConsequence :=
  match s.asset with
  | none => .unknownAsset
  | some details =>
    if increaseSupply ∧ ¬details.supply + amount ≤ cfg.maxBalance then .overflow
    else
      match s.account.get? who with
      | some account =>
        if account.balance + amount ≤ cfg.maxBalance then .success else .overflow
      | none =>
        if amount < details.minBalance then .belowMinimum
        else if ¬details.isSufficient ∧ ¬env.canIncConsumer who then .cannotCreate
        else if details.isSufficient ∧ ¬details.sufficients + 1 ≤ u32Max then .overflow
        else .success

/-- The last step of `canDecrease`, when nothing is frozen. -/
def leaving (details : AssetDetails A) (rest : ℕ) (keepAlive : Bool) : WithdrawConsequence :=
  if rest < details.minBalance then
    if keepAlive then .wouldDie else .reducedToZero rest
  else .success

def canDecrease (amount : ℕ) (keepAlive : Bool) : WithdrawConsequence :=
  match s.asset with
  | none => .unknownAsset
  | some details =>
    if details.supply < amount then .underflow
    else if details.status = .frozen then .frozen
    else if amount = 0 then .success
    else
      match s.account.get? who with
      | none => .noFunds
      | some account =>
        if account.isFrozen then .frozen
        else if account.balance < amount then .noFunds
        else
          match env.frozenBalance who with
          | none => leaving details (account.balance - amount) keepAlive
          | some frozen =>
            if ¬frozen + details.minBalance ≤ cfg.maxBalance then .overflow
            else if account.balance - amount < frozen + details.minBalance then .frozen
            else leaving details (account.balance - amount) keepAlive

def reducibleBalance (keepAlive : Bool) : Except DispatchError ℕ := do
  let details ← okOr s.asset (.pallet .unknown)
  ensure (details.status = .live) (.pallet .assetNotLive)
  let account ← okOr (s.account.get? who) (.pallet .noAccount)
  ensure (¬account.isFrozen) (.pallet .frozen)
  match env.frozenBalance who with
  | some frozen =>
    -- With a frozen balance the account cannot be deleted.
    let required ← okOr (checkedAdd cfg.maxBalance frozen details.minBalance)
      (.arithmetic .overflow)
    return min (account.balance - required) details.supply
  | none =>
    if keepAlive then return min (account.balance - details.minBalance) details.supply
    else return min account.balance details.supply

/-- The amount that leaves the account: less than asked for only with best effort, more if what
would be left is dust. -/
def prepDebit (target : A) (amount : ℕ) (f : DebitFlags) : Except DispatchError ℕ := do
  let reducible ← reducibleBalance cfg env s target f.keepAlive
  let actual := min reducible amount
  ensure (f.bestEffort ∨ amount ≤ actual) (.pallet .balanceLow)
  let dust ← (canDecrease cfg env s target actual f.keepAlive).intoResult
  return saturatingAdd cfg.maxBalance actual dust

/-- The amount that should arrive, and the dust that should be burned. -/
def creditAndBurn (amount debit : ℕ) (burnDust : Bool) : ℕ × Option ℕ :=
  match burnDust, checkedSub debit amount with
  | true, some dust => (amount, some dust)
  | _, _ => (debit, none)

def prepCredit (dest : A) (amount debit : ℕ) (burnDust : Bool) :
    Except DispatchError (ℕ × Option ℕ) := do
  let (credit, maybeBurn) := creditAndBurn amount debit burnDust
  (canIncrease cfg env s dest credit false).intoResult
  return (credit, maybeBurn)

/-! ## Deposits -/

def doTouch : Except DispatchError (Storage A) := do
  ensure (s.account.get? who = none) (.pallet .alreadyExists)
  let details ← okOr s.asset (.pallet .unknown)
  ensure (details.status = .live) (.pallet .assetNotLive)
  let (reason, details) ← newAccount env who details (some cfg.assetAccountDeposit)
  ensure (env.reserve who cfg.assetAccountDeposit) .currency
  return { s with
    asset := some details
    account := s.account.insert who { balance := 0, isFrozen := false, reason := reason } }

def doRefund (allowBurn : Bool) : Except DispatchError (Storage A) := do
  let account ← okOr (s.account.get? who) (.pallet .noDeposit)
  let (_, reason) ← okOr account.reason.takeDeposit (.pallet .noDeposit)
  let details ← okOr s.asset (.pallet .unknown)
  ensure (details.status = .live) (.pallet .assetNotLive)
  ensure (account.balance = 0 ∨ allowBurn) (.pallet .wouldBurn)
  ensure (¬account.isFrozen) (.pallet .frozen)
  match deadAccount details reason false with
  | (.remove, details) =>
    return { s with asset := some details, account := s.account.erase who }
  | (.keep, details) => return { s with asset := some details }

/-! ## Minting and burning -/

/-- Puts the amount into the account, which is made if there is none. -/
def accrue (account : FinMap A AssetAccount) (who : A) (amount : ℕ) :
    Except DispatchError (AssetDetails A × FinMap A AssetAccount) :=
  match account.get? who with
  | some a =>
    .ok (d, account.insert who { a with balance := saturatingAdd cfg.maxBalance a.balance amount })
  | none => do
    let (reason, d) ← newAccount env who d none
    return (d, account.insert who { balance := amount, isFrozen := false, reason := reason })

/-- Stores an account that was debited, or removes it if too little is left. -/
def settle (account : FinMap A AssetAccount) (who : A) (a : AssetAccount) :
    AssetDetails A × FinMap A AssetAccount :=
  if a.balance < d.minBalance then
    match deadAccount d a.reason false with
    | (.remove, d) => (d, account.erase who)
    | (.keep, d) => (d, account.insert who a)
  else (d, account.insert who a)

def increaseBalance (beneficiary : A) (amount : ℕ)
    (check : AssetDetails A → Except DispatchError (AssetDetails A)) :
    Except DispatchError (Storage A) :=
  if amount = 0 then .ok s
  else do
    (canIncrease cfg env s beneficiary amount true).intoResult
    let details ← okOr s.asset (.pallet .unknown)
    ensure (details.status = .live) (.pallet .assetNotLive)
    let details ← check details
    ensure (s.account.get? beneficiary ≠ none ∨ details.minBalance ≤ amount) (.token .belowMinimum)
    let (details, account) ← accrue cfg env details s.account beneficiary amount
    return { s with asset := some details, account := account }

/-- The owner of a role, if the caller asks for it to be checked. -/
def checkRole (maybeCheck : Option A) (role : A) : Except DispatchError Unit :=
  match maybeCheck with
  | some origin => ensure (origin = role) (.pallet .noPermission)
  | none => .ok ()

def doMint (beneficiary : A) (amount : ℕ) (maybeCheckIssuer : Option A) :
    Except DispatchError (Storage A) :=
  increaseBalance cfg env s beneficiary amount fun details => do
    checkRole maybeCheckIssuer details.issuer
    return { details with supply := saturatingAdd cfg.maxBalance details.supply amount }

def decreaseBalance (target : A) (amount : ℕ) (f : DebitFlags)
    (check : ℕ → AssetDetails A → Except DispatchError (AssetDetails A)) :
    Except DispatchError (ℕ × Storage A) :=
  if amount = 0 then .ok (amount, s)
  else do
    let details ← okOr s.asset (.pallet .unknown)
    ensure (details.status = .live) (.pallet .assetNotLive)
    let actual ← prepDebit cfg env s target amount f
    let details ← check actual details
    let account ← okOr (s.account.get? target) (.pallet .noAccount)
    let (details, accounts) :=
      settle details s.account target { account with balance := account.balance - actual }
    return (actual, { s with asset := some details, account := accounts })

def doBurn (target : A) (amount : ℕ) (maybeCheckAdmin : Option A) (f : DebitFlags) :
    Except DispatchError (ℕ × Storage A) := do
  let d ← okOr s.asset (.pallet .unknown)
  ensure (d.status = .live ∨ d.status = .frozen) (.pallet .assetNotLive)
  decreaseBalance cfg env s target amount f fun actual details => do
    checkRole maybeCheckAdmin details.admin
    return { details with supply := details.supply - actual }

/-! ## Transfers -/

def transferAndDie (source dest : A) (amount : ℕ) (maybeNeedAdmin : Option A) (f : TransferFlags) :
    Except DispatchError (ℕ × Storage A) :=
  if amount = 0 then .ok (amount, s)
  else do
    let details ← okOr s.asset (.pallet .unknown)
    ensure (details.status = .live) (.pallet .assetNotLive)
    let debit ← prepDebit cfg env s source amount f.toDebitFlags
    let (credit, maybeBurn) ← prepCredit cfg env s dest amount debit f.burnDust
    let sourceAccount ← okOr (s.account.get? source) (.pallet .noAccount)
    checkRole maybeNeedAdmin details.admin
    if source = dest then return (credit, s)
    else
      let details := { details with supply := details.supply - maybeBurn.getD 0 }
      let (details, account) ← accrue cfg env details s.account dest credit
      let (details, account) := settle details account source
        { sourceAccount with balance := sourceAccount.balance - debit }
      return (credit, { s with asset := some details, account := account })

def doTransfer (source dest : A) (amount : ℕ) (maybeNeedAdmin : Option A) (f : TransferFlags) :
    Except DispatchError (ℕ × Storage A) :=
  transferAndDie cfg env s source dest amount maybeNeedAdmin f

/-! ## Approvals -/

/-- Reserves what is missing of the deposit for an approval. -/
def topUp (owner : A) (approved : Approval) : Except DispatchError Approval :=
  if approved.deposit < cfg.approvalDeposit then do
    ensure (env.reserve owner (cfg.approvalDeposit - approved.deposit)) .currency
    return { approved with deposit := cfg.approvalDeposit }
  else .ok approved

def doApproveTransfer (owner delegate : A) (amount : ℕ) : Except DispatchError (Storage A) := do
  let d ← okOr s.asset (.pallet .unknown)
  ensure (d.status = .live) (.pallet .assetNotLive)
  let (approved, d) :=
    match s.approvals.get? (owner, delegate) with
    | some a => (a, d)
    | none => (⟨0, 0⟩, { d with approvals := saturatingAdd u32Max d.approvals 1 })
  let approved ← topUp cfg env owner approved
  return { s with
    asset := some d
    approvals := s.approvals.insert (owner, delegate)
      { approved with amount := saturatingAdd cfg.maxBalance approved.amount amount } }

def doTransferApproved (owner delegate destination : A) (amount : ℕ) :
    Except DispatchError (Storage A) := do
  let d ← okOr s.asset (.pallet .unknown)
  ensure (d.status = .live) (.pallet .assetNotLive)
  let approved ← okOr (s.approvals.get? (owner, delegate)) (.pallet .unapproved)
  let remaining ← okOr (checkedSub approved.amount amount) (.pallet .unapproved)
  let (_, s) ← transferAndDie cfg env s owner destination amount none
    { keepAlive := false, bestEffort := false, burnDust := false }
  if remaining = 0 then
    return { s with
      asset := s.asset.map fun d => { d with approvals := d.approvals - 1 }
      approvals := s.approvals.erase (owner, delegate) }
  else
    return { s with
      approvals := s.approvals.insert (owner, delegate) { approved with amount := remaining } }

def cancelApproval (owner delegate : A) : Except DispatchError (Storage A) := do
  let d ← okOr s.asset (.pallet .unknown)
  ensure (d.status = .live) (.pallet .assetNotLive)
  let _ ← okOr (s.approvals.get? (owner, delegate)) (.pallet .unknown)
  return { s with
    asset := some { d with approvals := d.approvals - 1 }
    approvals := s.approvals.erase (owner, delegate) }

/-! ## Freezing -/

/-- Sets whether an account is frozen. -/
def setFrozen (isFrozen : Bool) : Except DispatchError (Storage A) := do
  let account ← okOr (s.account.get? who) (.pallet .noAccount)
  return { s with account := s.account.insert who { account with isFrozen := isFrozen } }

def freeze (origin who : A) : Except DispatchError (Storage A) := do
  let d ← okOr s.asset (.pallet .unknown)
  ensure (d.status = .live ∨ d.status = .frozen) (.pallet .assetNotLive)
  ensure (origin = d.freezer) (.pallet .noPermission)
  setFrozen s who true

def thaw (origin who : A) : Except DispatchError (Storage A) := do
  let d ← okOr s.asset (.pallet .unknown)
  ensure (d.status = .live ∨ d.status = .frozen) (.pallet .assetNotLive)
  ensure (origin = d.admin) (.pallet .noPermission)
  setFrozen s who false

def freezeAsset (origin : A) : Except DispatchError (Storage A) := do
  let d ← okOr s.asset (.pallet .unknown)
  ensure (d.status = .live) (.pallet .assetNotLive)
  ensure (origin = d.freezer) (.pallet .noPermission)
  return { s with asset := some { d with status := .frozen } }

def thawAsset (origin : A) : Except DispatchError (Storage A) := do
  let d ← okOr s.asset (.pallet .unknown)
  ensure (origin = d.admin) (.pallet .noPermission)
  ensure (d.status = .frozen) (.pallet .notFrozen)
  return { s with asset := some { d with status := .live } }

/-! ## Runs -/

/-- The calls on an asset that is neither reconfigured nor being destroyed. -/
inductive Op (A : Type)
  | mint (beneficiary : A) (amount : ℕ) (maybeCheckIssuer : Option A)
  | burn (target : A) (amount : ℕ) (maybeCheckAdmin : Option A) (f : DebitFlags)
  | transfer (source dest : A) (amount : ℕ) (maybeNeedAdmin : Option A) (f : TransferFlags)
  | approveTransfer (owner delegate : A) (amount : ℕ)
  | transferApproved (owner delegate destination : A) (amount : ℕ)
  | cancelApproval (owner delegate : A)
  | touch (who : A)
  | refund (who : A) (allowBurn : Bool)
  | freeze (origin who : A)
  | thaw (origin who : A)
  | freezeAsset (origin : A)
  | thawAsset (origin : A)

def Op.call : Op A → Except DispatchError (Storage A)
  | .mint beneficiary amount issuer => doMint cfg env s beneficiary amount issuer
  | .burn target amount admin f => do
    let (_, s) ← doBurn cfg env s target amount admin f
    return s
  | .transfer source dest amount admin f => do
    let (_, s) ← doTransfer cfg env s source dest amount admin f
    return s
  | .approveTransfer owner delegate amount => doApproveTransfer cfg env s owner delegate amount
  | .transferApproved owner delegate destination amount =>
    doTransferApproved cfg env s owner delegate destination amount
  | .cancelApproval owner delegate => Assets.cancelApproval s owner delegate
  | .touch who => doTouch cfg env s who
  | .refund who allowBurn => doRefund s who allowBurn
  | .freeze origin who => Assets.freeze s origin who
  | .thaw origin who => Assets.thaw s origin who
  | .freezeAsset origin => Assets.freezeAsset s origin
  | .thawAsset origin => Assets.thawAsset s origin

/-- One call, with the answers it gets. -/
def step (e : Env A × Op A) : Storage A :=
  match e.2.call cfg e.1 s with
  | .ok s' => s'
  | .error _ => s

/-- An asset without accounts and approvals. -/
def Storage.created (issuer admin freezer : A) (isSufficient : Bool) (minBalance : ℕ) :
    Storage A where
  asset := some
    { issuer := issuer, admin := admin, freezer := freezer, supply := 0, minBalance := minBalance
      isSufficient := isSufficient, accounts := 0, sufficients := 0, approvals := 0
      status := .live }
  account := .empty
  approvals := .empty

end Assets
