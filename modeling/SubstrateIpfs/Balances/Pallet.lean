-- SUMMARY: The balances pallet: mutations of one account, currency, reserves and locks.
import SubstrateIpfs.Base.Fallible
import SubstrateIpfs.Base.FinMap

/-!
# The balances pallet

Balances are stored with the accounts of the system pallet, which counts the references to an
account and may refuse to let it go. A call gets the storage and returns what it returns together
with the new storage: a call that fails may have written before it failed.

An imbalance is a number that the caller has to drop. Where the code drops one on its own, the model
drops it at the same place.
-/

namespace Balances

open Fallible

/-! ## Types -/

/-- The constants of a runtime. -/
structure Config where
  maxBalance : ℕ
  existentialDeposit : ℕ
  maxReserves : ℕ
  existentialDeposit_le : existentialDeposit ≤ maxBalance
  maxBalance_pos : 0 < maxBalance

def refCountMax : ℕ := 4294967295

/-- Why money is taken out of an account: a set of five flags. -/
structure WithdrawReasons where
  transactionPayment : Bool
  transfer : Bool
  reserve : Bool
  fee : Bool
  tip : Bool
  deriving DecidableEq, Repr

namespace WithdrawReasons

def empty : WithdrawReasons := ⟨false, false, false, false, false⟩

def TRANSACTION_PAYMENT : WithdrawReasons := { empty with transactionPayment := true }

def TRANSFER : WithdrawReasons := { empty with transfer := true }

def RESERVE : WithdrawReasons := { empty with reserve := true }

end WithdrawReasons

inductive Reasons
  | fee
  | misc
  | all
  deriving DecidableEq, Repr

def Reasons.ofWithdrawReasons (r : WithdrawReasons) : Reasons :=
  if r = .TRANSACTION_PAYMENT then .fee
  else if r.transactionPayment then .all
  else .misc

def Reasons.bitor (r r' : Reasons) : Reasons := if r = r' then r else .all

/-- The 8 bytes that identify a lock, as a number. -/
abbrev LockIdentifier := ℕ

structure BalanceLock where
  id : LockIdentifier
  amount : ℕ
  reasons : Reasons
  deriving DecidableEq, Repr

structure ReserveData (I : Type) where
  id : I
  amount : ℕ
  deriving DecidableEq, Repr

structure AccountData where
  free : ℕ
  reserved : ℕ
  miscFrozen : ℕ
  feeFrozen : ℕ
  deriving DecidableEq, Repr

namespace AccountData

/-- The value of an account that is not there. -/
def default : AccountData := ⟨0, 0, 0, 0⟩

def frozen (a : AccountData) : Reasons → ℕ
  | .all => max a.miscFrozen a.feeFrozen
  | .misc => a.miscFrozen
  | .fee => a.feeFrozen

def total (cfg : Config) (a : AccountData) : ℕ := saturatingAdd cfg.maxBalance a.free a.reserved

end AccountData

/-- The record of the system pallet. -/
structure AccountInfo where
  consumers : ℕ
  providers : ℕ
  sufficients : ℕ
  data : AccountData
  deriving DecidableEq, Repr

def AccountInfo.default : AccountInfo := ⟨0, 0, 0, .default⟩

inductive ExistenceRequirement
  | keepAlive
  | allowDeath
  deriving DecidableEq, Repr

inductive Status
  | free
  | reserved
  deriving DecidableEq, Repr

inductive Error
  | liquidityRestrictions
  | insufficientBalance
  | existentialDeposit
  | keepAlive
  | deadAccount
  | tooManyReserves
  | overflow
  | consumerRemaining
  | noFunds
  | wouldDie
  | frozen
  | underflow
  deriving DecidableEq, Repr

structure Storage (A I : Type) where
  account : FinMap A AccountInfo
  totalIssuance : ℕ
  locks : FinMap A (List BalanceLock)
  reserves : FinMap A (List (ReserveData I))
  /-- Not stored: whether the issuance was ever cut off at zero or at its maximum. -/
  clipped : Bool
  /-- Not stored: whether a named operation ever had something remain that should be zero. -/
  remained : Bool

variable {A I : Type} [DecidableEq A] {R : Type}

variable (cfg : Config) (s : Storage A I) (who : A) (value : ℕ)

/-- How a result that is lost is dropped. -/
abbrev Discard (A I R : Type) := R → Storage A I → Storage A I

namespace Storage

/-! ## The accounts of the system pallet -/

/-- The record of an account, which may not be there. -/
def info : AccountInfo := (s.account.get? who).getD .default

/-- The balances of an account. -/
def data : AccountData := (s.info who).data

def setInfo (info : AccountInfo) : Storage A I :=
  { s with account := s.account.insert who info }

def setData (data : AccountData) : Storage A I := s.setInfo who { s.info who with data := data }

def incProviders : Storage A I :=
  let a := s.info who
  if a.providers = 0 ∧ a.sufficients = 0 then s.setInfo who { a with providers := 1 }
  else s.setInfo who { a with providers := saturatingAdd refCountMax a.providers 1 }

/-- What became of an account that lost a provider. -/
inductive DecRefStatus
  | reaped
  | exists

def decProviders : Except Error (DecRefStatus × Storage A I) :=
  match s.account.get? who with
  | none => .ok (.reaped, s)
  | some a =>
    let providers := if a.providers = 0 then 1 else a.providers
    if providers = 1 ∧ a.consumers = 0 ∧ a.sufficients = 0 then
      .ok (.reaped, { s with account := s.account.erase who })
    else if providers = 1 ∧ 0 < a.consumers then .error .consumerRemaining
    else .ok (.exists, s.setInfo who { a with providers := providers - 1 })

def canDecProvider : Prop := (s.info who).consumers = 0 ∨ 1 < (s.info who).providers

instance : Decidable (s.canDecProvider who) :=
  inferInstanceAs (Decidable (_ ∨ _))

/-- One more consumer, if there is a provider. -/
def incConsumersWithoutLimit : Storage A I :=
  let a := s.info who
  if 0 < a.providers then
    s.setInfo who { a with consumers := saturatingAdd refCountMax a.consumers 1 }
  else s

def decConsumers : Storage A I :=
  let a := s.info who
  s.setInfo who { a with consumers := a.consumers - 1 }

/-- Changes the data of an account, or takes it out. What `f` returns is lost if the account may
not be taken out: it is dropped with `discard`. -/
def tryMutateExists
    (f : Option AccountData → Storage A I → Except Error (R × Option AccountData) × Storage A I)
    (discard : Discard A I R) : Except Error R × Storage A I :=
  let account := s.info who
  let wasProviding := decide (account.data ≠ .default)
  match f (if wasProviding then some account.data else none) s with
  | (.error e, s) => (.error e, s)
  | (.ok (result, someData), s) =>
    match wasProviding, someData with
    | false, none => (.ok result, s)
    | false, some data => (.ok result, (s.incProviders who).setData who data)
    | true, some data => (.ok result, s.setData who data)
    | true, none =>
      match s.decProviders who with
      | .error e => (.error e, discard result s)
      | .ok (.reaped, s) => (.ok result, s)
      | .ok (.exists, s) => (.ok result, s.setData who .default)

/-! ## Imbalances

Dropping an imbalance squares up the total issuance. -/

def dropPositive (n : ℕ) (s : Storage A I) : Storage A I :=
  { s with
    totalIssuance := saturatingAdd cfg.maxBalance s.totalIssuance n
    clipped := s.clipped || decide (cfg.maxBalance < s.totalIssuance + n) }

def dropNegative (n : ℕ) (s : Storage A I) : Storage A I :=
  { s with
    totalIssuance := s.totalIssuance - n
    clipped := s.clipped || decide (s.totalIssuance < n) }

/-! ## Mutations of one account -/

/-- What is stored of the account, and the dust it leaves. -/
def postMutation (new : AccountData) : Option AccountData × ℕ :=
  if new.total cfg < cfg.existentialDeposit then (none, new.total cfg) else (some new, 0)

/-- The dust is returned, for the caller to drop. -/
def tryMutateAccountWithDust
    (f : AccountData → Bool → Storage A I → Except Error (R × AccountData) × Storage A I)
    (discard : Discard A I R) : Except Error (R × ℕ) × Storage A I :=
  s.tryMutateExists who
    (fun maybeAccount s =>
      match f (maybeAccount.getD .default) maybeAccount.isNone s with
      | (.error e, s) => (.error e, s)
      | (.ok (result, account), s) =>
        (.ok ((result, (postMutation cfg account).2), (postMutation cfg account).1), s))
    (fun (result, dust) s => discard result (s.dropNegative dust))

/-- The dust is dropped. -/
def tryMutateAccount (f : AccountData → Bool → Except Error (R × AccountData))
    (discard : Discard A I R) : Except Error R × Storage A I :=
  match s.tryMutateAccountWithDust cfg who (fun account isNew s => (f account isNew, s))
    discard with
  | (.error e, s) => (.error e, s)
  | (.ok (result, dust), s) => (.ok result, s.dropNegative dust)

/-- A mutation that does not fail on its own and returns no imbalance. -/
def mutateAccount (f : AccountData → R × AccountData) : Except Error R × Storage A I :=
  s.tryMutateAccount cfg who (fun account _ => .ok (f account)) fun _ s => s

/-- The dust of the source becomes part of what the closure for the destination returns. -/
def carryDust : Except Error ((R × AccountData) × ℕ) × Storage A I →
    Except Error ((R × ℕ) × AccountData) × Storage A I
  | (.error e, s) => (.error e, s)
  | (.ok ((result, toAccount), dust), s) => (.ok ((result, dust), toAccount), s)

/-- The closure for the destination of a mutation of two accounts: it mutates the source. -/
def mutateSource (source : A)
    (f : AccountData → AccountData → Bool → Except Error ((R × AccountData) × AccountData))
    (toAccount : AccountData) (isNew : Bool) (s : Storage A I) :
    Except Error ((R × ℕ) × AccountData) × Storage A I :=
  carryDust (s.tryMutateAccountWithDust cfg source
    (fun fromAccount _ s => (f toAccount fromAccount isNew, s)) fun _ s => s)

/-- A mutation of two accounts, one inside the other. -/
def tryMutateTwo (source dest : A)
    (f : AccountData → AccountData → Bool → Except Error ((R × AccountData) × AccountData)) :
    Except Error R × Storage A I :=
  match s.tryMutateAccountWithDust cfg dest (mutateSource cfg source f)
    fun result s => s.dropNegative result.2 with
  | (.error e, s) => (.error e, s)
  | (.ok ((result, dust), otherDust), s) =>
    (.ok result, (s.dropNegative dust).dropNegative otherDust)

/-! ## Currency -/

def ensureCanWithdraw (amount : ℕ) (reasons : WithdrawReasons) (newBalance : ℕ) :
    Except Error Unit :=
  if amount = 0 then .ok ()
  else ensure ((s.data who).frozen (.ofWithdrawReasons reasons) ≤ newBalance) .liquidityRestrictions

/-- What `transfer` does to the two accounts. -/
def moveFree (transactor : A) (value : ℕ) (existence : ExistenceRequirement)
    (toAccount fromAccount : AccountData) : Except Error ((Unit × AccountData) × AccountData) := do
  let fromFree ← okOr (checkedSub fromAccount.free value) .insufficientBalance
  let toFree ← okOr (checkedAdd cfg.maxBalance toAccount.free value) .overflow
  let fromAccount := { fromAccount with free := fromFree }
  let toAccount := { toAccount with free := toFree }
  ensure (cfg.existentialDeposit ≤ toAccount.total cfg) .existentialDeposit
  s.ensureCanWithdraw transactor value .TRANSFER fromFree
  let allowDeath := existence = .allowDeath ∧ s.canDecProvider transactor
  ensure (allowDeath ∨ cfg.existentialDeposit ≤ fromAccount.total cfg) .keepAlive
  return (((), toAccount), fromAccount)

def transfer (transactor dest : A) (value : ℕ) (existence : ExistenceRequirement) :
    Except Error Unit × Storage A I :=
  if value = 0 ∨ transactor = dest then (.ok (), s)
  else
    s.tryMutateTwo cfg transactor dest fun toAccount fromAccount _ =>
      s.moveFree cfg transactor value existence toAccount fromAccount

/-- The first attempt that the account store does not refuse. -/
def firstOk (f : Bool → Storage A I → Except Error R × Storage A I) :
    List Bool → Storage A I → Option R × Storage A I
  | [], s => (none, s)
  | retry :: attempts, s =>
    match f retry s with
    | (.ok r, s) => (some r, s)
    | (.error _, s) => firstOk f attempts s

/-- The sum of two balances, where it may wrap around. -/
def wrappingAdd (a b : ℕ) : ℕ := (a + b) % (cfg.maxBalance + 1)

/-- All of it, or on the second attempt as much as leaves the existential deposit. -/
def bestValue (retry : Bool) (value : ℕ) (account : AccountData) : ℕ :=
  if retry then
    min value (wrappingAdd cfg account.free account.reserved - cfg.existentialDeposit)
  else value

/-- Takes a value out of the free, then out of the reserved balance: the imbalance, what could not
be slashed, and the account. -/
def slashAccount (retry : Bool) (value : ℕ) (account : AccountData) : (ℕ × ℕ) × AccountData :=
  let best := bestValue cfg retry value account
  let freeSlash := min account.free best
  let account := { account with free := account.free - freeSlash }
  let remainingSlash := best - freeSlash
  if remainingSlash ≠ 0 then
    let reservedSlash := min account.reserved remainingSlash
    ((freeSlash + reservedSlash, value - freeSlash - reservedSlash),
      { account with reserved := account.reserved - reservedSlash })
  else ((freeSlash, value - freeSlash), account)

/-- The two attempts at slashing, with what one attempt does to the account. -/
def slashWith (f : Bool → ℕ → AccountData → (ℕ × ℕ) × AccountData) : (ℕ × ℕ) × Storage A I :=
  if value = 0 then ((0, 0), s)
  else if (s.data who).total cfg = 0 then ((0, value), s)
  else
    match firstOk (fun retry s => s.tryMutateAccount cfg who
      (fun account _ => .ok (f retry value account))
      fun result s => s.dropNegative result.1) [false, true] s with
    | (some result, s) => (result, s)
    | (none, s) => ((0, value), s)

/-- The imbalance, and what could not be slashed. -/
def slash : (ℕ × ℕ) × Storage A I := s.slashWith cfg who value (slashAccount cfg)

/-- What `depositIntoExisting` does to the account. -/
def creditExisting (account : AccountData) (isNew : Bool) : Except Error (ℕ × AccountData) := do
  ensure (¬isNew) .deadAccount
  let free ← okOr (checkedAdd cfg.maxBalance account.free value) .overflow
  return (value, { account with free := free })

def depositIntoExisting : Except Error ℕ × Storage A I :=
  if value = 0 then (.ok 0, s)
  else s.tryMutateAccount cfg who (creditExisting cfg value) (dropPositive cfg)

/-- What `depositCreating` does to the account. -/
def creditOrCreate (account : AccountData) (isNew : Bool) : Except Error (ℕ × AccountData) := do
  ensure (cfg.existentialDeposit ≤ value ∨ ¬isNew) .existentialDeposit
  match checkedAdd cfg.maxBalance account.free value with
  | some free => return (value, { account with free := free })
  | none => return (0, account)

def depositCreating : ℕ × Storage A I :=
  if value = 0 then (0, s)
  else
    match s.tryMutateAccount cfg who (creditOrCreate cfg value) (dropPositive cfg) with
    | (.ok imbalance, s) => (imbalance, s)
    | (.error _, s) => (0, s)

/-- What `withdraw` does to the account. -/
def debitFree (reasons : WithdrawReasons) (liveness : ExistenceRequirement) (account : AccountData)
    : Except Error (ℕ × AccountData) := do
  let newFree ← okOr (checkedSub account.free value) .insufficientBalance
  let ed := cfg.existentialDeposit
  let wouldBeDead := wrappingAdd cfg newFree account.reserved < ed
  let wouldKill := wouldBeDead ∧ ed ≤ wrappingAdd cfg account.free account.reserved
  ensure (liveness = .allowDeath ∨ ¬wouldKill) .keepAlive
  s.ensureCanWithdraw who value reasons newFree
  return (value, { account with free := newFree })

def withdraw (reasons : WithdrawReasons) (liveness : ExistenceRequirement) :
    Except Error ℕ × Storage A I :=
  if value = 0 then (.ok 0, s)
  else
    s.tryMutateAccount cfg who
      (fun account _ => s.debitFree cfg who value reasons liveness account) dropNegative

/-- An imbalance of either kind. -/
inductive SignedImbalance
  | positive (n : ℕ)
  | negative (n : ℕ)

def SignedImbalance.drop : SignedImbalance → Storage A I → Storage A I
  | .positive n => dropPositive cfg n
  | .negative n => dropNegative n

/-- What `makeFreeBalanceBe` does to the account. -/
def setFree (account : AccountData) (isNew : Bool) :
    Except Error (SignedImbalance × AccountData) := do
  let total := saturatingAdd cfg.maxBalance value account.reserved
  ensure (cfg.existentialDeposit ≤ total ∨ ¬isNew) .existentialDeposit
  let imbalance :=
    if account.free ≤ value then SignedImbalance.positive (value - account.free)
    else .negative (account.free - value)
  return (imbalance, { account with free := value })

def makeFreeBalanceBe : SignedImbalance × Storage A I :=
  match s.tryMutateAccount cfg who (setFree cfg value) (SignedImbalance.drop cfg) with
  | (.ok imbalance, s) => (imbalance, s)
  | (.error _, s) => (.positive 0, s)

/-! ## Reserves -/

/-- What `reserve` does to the account. -/
def moveToReserved (account : AccountData) : Except Error (Unit × AccountData) := do
  let free ← okOr (checkedSub account.free value) .insufficientBalance
  let reserved ← okOr (checkedAdd cfg.maxBalance account.reserved value) .overflow
  s.ensureCanWithdraw who value .RESERVE free
  return ((), { account with free := free, reserved := reserved })

def reserve : Except Error Unit × Storage A I :=
  if value = 0 then (.ok (), s)
  else
    s.tryMutateAccount cfg who (fun account _ => s.moveToReserved cfg who value account)
      fun _ s => s

/-- What `unreserve` does to the account. -/
def moveToFree (account : AccountData) : ℕ × AccountData :=
  let actual := min account.reserved value
  (actual,
    { account with
      reserved := account.reserved - actual
      free := saturatingAdd cfg.maxBalance account.free actual })

/-- Returns what could not be unreserved. -/
def unreserve : ℕ × Storage A I :=
  if value = 0 then (0, s)
  else if (s.data who).total cfg = 0 then (value, s)
  else
    match s.mutateAccount cfg who (moveToFree cfg value) with
    | (.ok actual, s) => (value - actual, s)
    | (.error _, s) => (value, s)

/-- Takes a value out of the reserved balance: the imbalance, what could not be slashed, and the
account. -/
def slashReservedAccount (retry : Bool) (value : ℕ) (account : AccountData) :
    (ℕ × ℕ) × AccountData :=
  let actual := min account.reserved (bestValue cfg retry value account)
  ((actual, value - actual), { account with reserved := account.reserved - actual })

/-- The imbalance, and what could not be slashed. -/
def slashReserved : (ℕ × ℕ) × Storage A I := s.slashWith cfg who value (slashReservedAccount cfg)

/-- Adds to the free or to the reserved balance. -/
def creditStatus (status : Status) (amount : ℕ) (account : AccountData) :
    Except Error AccountData :=
  match status with
  | .free => do
    let free ← okOr (checkedAdd cfg.maxBalance account.free amount) .overflow
    return { account with free := free }
  | .reserved => do
    let reserved ← okOr (checkedAdd cfg.maxBalance account.reserved amount) .overflow
    return { account with reserved := reserved }

/-- What `doTransferReserved` does to the two accounts. The beneficiary has to be there. -/
def moveReserved (bestEffort : Bool) (status : Status) (toAccount fromAccount : AccountData)
    (isNew : Bool) : Except Error ((ℕ × AccountData) × AccountData) := do
  ensure (¬isNew) .deadAccount
  let actual := min fromAccount.reserved value
  ensure (bestEffort ∨ actual = value) .insufficientBalance
  let toAccount ← creditStatus cfg status actual toAccount
  return ((actual, toAccount), { fromAccount with reserved := fromAccount.reserved - actual })

/-- Returns the amount that was moved. -/
def doTransferReserved (slashed beneficiary : A) (value : ℕ) (bestEffort : Bool) (status : Status) :
    Except Error ℕ × Storage A I :=
  if value = 0 then (.ok 0, s)
  else if slashed = beneficiary then
    match status with
    | .free => (.ok (value - (s.unreserve cfg slashed value).1), (s.unreserve cfg slashed value).2)
    | .reserved => (.ok (value - (s.data slashed).reserved), s)
  else s.tryMutateTwo cfg slashed beneficiary (moveReserved cfg value bestEffort status)

/-- Returns what could not be moved. -/
def repatriateReserved (slashed beneficiary : A) (value : ℕ) (status : Status) :
    Except Error ℕ × Storage A I :=
  match s.doTransferReserved cfg slashed beneficiary value true status with
  | (.error e, s) => (.error e, s)
  | (.ok actual, s) => (.ok (value - actual), s)

/-! ## Named reserves

The list of an account is sorted by identifier, and searched by bisection. -/

section
variable [LinearOrder I]

/-- What bisection finds in a sorted list: what comes before the identifier, the entry if there is
one, and what comes after. -/
def search (id : I) :
    List (ReserveData I) → List (ReserveData I) × Option (ReserveData I) × List (ReserveData I)
  | [] => ([], none, [])
  | data :: reserves =>
    if data.id < id then
      let (before, found, after) := search id reserves
      (data :: before, found, after)
    else if data.id = id then ([], some data, reserves)
    else ([], none, data :: reserves)

variable (cfg : Config) (s : Storage A I)

def reservesOf (who : A) : List (ReserveData I) := (s.reserves.get? who).getD []

def setReserves (who : A) (reserves : List (ReserveData I)) : Storage A I :=
  { s with reserves := s.reserves.insert who reserves }

/-- Notes what remains of an operation on the reserved balance, which should be nothing. -/
def noteRemain (remain : ℕ) : Storage A I :=
  { s with remained := s.remained || decide (remain ≠ 0) }

def reservedBalanceNamed (id : I) (who : A) : ℕ :=
  match (search id (s.reservesOf who)).2.1 with
  | some data => data.amount
  | none => 0

/-- The list with an amount added under the identifier, if there is room for it. -/
def addNamed (id : I) (value : ℕ) (reserves : List (ReserveData I)) :
    Except Error (List (ReserveData I)) :=
  match search id reserves with
  | (before, some data, after) =>
    .ok (before ++ { data with amount := saturatingAdd cfg.maxBalance data.amount value } :: after)
  | (before, none, after) => do
    ensure (reserves.length < cfg.maxReserves) .tooManyReserves
    return before ++ ⟨id, value⟩ :: after

def reserveNamed (id : I) (who : A) (value : ℕ) : Except Error Unit × Storage A I :=
  if value = 0 then (.ok (), s)
  else
    match addNamed cfg id value (s.reservesOf who) with
    | .error e => (.error e, s)
    | .ok reserves =>
      match s.reserve cfg who value with
      | (.error e, s) => (.error e, s)
      | (.ok (), s) => (.ok (), s.setReserves who reserves)

/-- Returns what could not be unreserved. -/
def unreserveNamed (id : I) (who : A) (value : ℕ) : ℕ × Storage A I :=
  if value = 0 then (0, s)
  else
    match search id (s.reservesOf who) with
    | (_, none, _) => (value, s)
    | (before, some data, after) =>
      let toChange := min data.amount value
      let (remain, s) := s.unreserve cfg who toChange
      let s := s.noteRemain remain
      let actual := toChange - remain
      if data.amount - actual = 0 then
        -- The entry goes, and the list with its last entry.
        match before ++ after with
        | [] => (value - actual, { s with reserves := s.reserves.erase who })
        | reserves => (value - actual, s.setReserves who reserves)
      else
        (value - actual,
          s.setReserves who (before ++ { data with amount := data.amount - actual } :: after))

/-- The imbalance, and what could not be slashed. -/
def slashReservedNamed (id : I) (who : A) (value : ℕ) : (ℕ × ℕ) × Storage A I :=
  if value = 0 then ((0, 0), s)
  else
    match search id (s.reservesOf who) with
    | (_, none, _) => ((0, value), s.setReserves who (s.reservesOf who))
    | (before, some data, after) =>
      let toChange := min data.amount value
      let ((imbalance, remain), s) := s.slashReserved cfg who toChange
      let s := s.noteRemain remain
      let actual := toChange - remain
      ((imbalance, value - actual),
        s.setReserves who (before ++ { data with amount := data.amount - actual } :: after))

/-- The part of `repatriateReservedNamed` that is done with the list of the slashed account in
hand: returns what was moved. -/
def moveNamed (id : I) (slashed beneficiary : A) (toChange : ℕ) (status : Status) :
    Except Error ℕ × Storage A I :=
  match status with
  | .free =>
    match s.repatriateReserved cfg slashed beneficiary toChange status with
    | (.error e, s) => (.error e, s)
    | (.ok remain, s) => (.ok (toChange - remain), s.noteRemain remain)
  | .reserved =>
    match s.repatriateReserved cfg slashed beneficiary toChange status with
    | (.error e, s) => (.error e, s)
    | (.ok remain, s) =>
      let s := s.noteRemain remain
      let actual := toChange - remain
      -- The money has been moved by now.
      match addNamed cfg id actual (s.reservesOf beneficiary) with
      | .error e => (.error e, s)
      | .ok reserves => (.ok actual, s.setReserves beneficiary reserves)

/-- Returns what could not be moved. -/
def repatriateReservedNamed (id : I) (slashed beneficiary : A) (value : ℕ) (status : Status) :
    Except Error ℕ × Storage A I :=
  if value = 0 then (.ok 0, s)
  else if slashed = beneficiary then
    match status with
    | .free =>
      (.ok (s.unreserveNamed cfg id slashed value).1, (s.unreserveNamed cfg id slashed value).2)
    | .reserved => (.ok (value - s.reservedBalanceNamed id slashed), s)
  else
    match search id (s.reservesOf slashed) with
    | (_, none, _) => (.ok value, s.setReserves slashed (s.reservesOf slashed))
    | (before, some data, after) =>
      match s.moveNamed cfg id slashed beneficiary (min data.amount value) status with
      | (.error e, s) => (.error e, s)
      | (.ok actual, s) =>
        (.ok (value - actual),
          s.setReserves slashed (before ++ { data with amount := data.amount - actual } :: after))

end

/-! ## Locks -/

def locksOf : List BalanceLock := (s.locks.get? who).getD []

/-- The amounts below which the free balance may not fall, for fees and for everything else. -/
def freeze (locks : List BalanceLock) (account : AccountData) : AccountData :=
  locks.foldl
    (fun account lock =>
      let account :=
        if lock.reasons = .all ∨ lock.reasons = .misc then
          { account with miscFrozen := max account.miscFrozen lock.amount }
        else account
      if lock.reasons = .all ∨ lock.reasons = .fee then
        { account with feeFrozen := max account.feeFrozen lock.amount }
      else account)
    { account with miscFrozen := 0, feeFrozen := 0 }

def updateLocks (locks : List BalanceLock) : Storage A I :=
  let (_, s) := s.mutateAccount cfg who fun account => ((), freeze locks account)
  let existed := (s.locks.get? who).isSome
  if locks.isEmpty then
    let s := { s with locks := s.locks.erase who }
    if existed then s.decConsumers who else s
  else
    let s := { s with locks := s.locks.insert who locks }
    if existed then s else s.incConsumersWithoutLimit who

/-- Puts the new lock in place of the first one with its identifier, merged with `f`, or at the
end. -/
def putLock (id : LockIdentifier) (f : BalanceLock → BalanceLock → BalanceLock) :
    Option BalanceLock → List BalanceLock → List BalanceLock
  | newLock, [] => newLock.toList
  | newLock, lock :: locks =>
    if lock.id = id then
      match newLock with
      | some newLock => f lock newLock :: putLock id f none locks
      | none => putLock id f none locks
    else lock :: putLock id f newLock locks

def setLock (id : LockIdentifier) (who : A) (amount : ℕ) (reasons : WithdrawReasons) :
    Storage A I :=
  if amount = 0 ∨ reasons = .empty then s
  else
    s.updateLocks cfg who (putLock id (fun _ newLock => newLock)
      (some ⟨id, amount, .ofWithdrawReasons reasons⟩) (s.locksOf who))

def extendLock (id : LockIdentifier) (who : A) (amount : ℕ) (reasons : WithdrawReasons) :
    Storage A I :=
  if amount = 0 ∨ reasons = .empty then s
  else
    s.updateLocks cfg who (putLock id
      (fun lock newLock =>
        ⟨lock.id, max lock.amount newLock.amount, lock.reasons.bitor newLock.reasons⟩)
      (some ⟨id, amount, .ofWithdrawReasons reasons⟩) (s.locksOf who))

def removeLock (id : LockIdentifier) (who : A) : Storage A I :=
  s.updateLocks cfg who ((s.locksOf who).filter fun lock => lock.id ≠ id)

end Storage

end Balances
