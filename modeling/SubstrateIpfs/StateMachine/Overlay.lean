-- SUMMARY: The overlayed changes of a block: change sets that transact together and are drained.
import SubstrateIpfs.Base.Scale
import SubstrateIpfs.StateMachine.Changeset

/-!
# The overlayed changes

All pending changes of a block. The change sets for the top storage, for each
child storage and for the offchain database are separate maps, and every
transaction is started and closed in all of them. A child change set is created
when it is first needed, and dropped by a rollback that leaves it empty.

A failed `expect` or assertion is `none`, as in the change sets.
-/

namespace StateMachine

open Assoc

abbrev StorageKey := List UInt8

abbrev StorageValue := List UInt8

/-- A change to one entry of the offchain database. -/
inductive OffchainOverlayedChange where
  | remove
  | setValue (value : StorageValue)
  deriving DecidableEq

/-- Setting a value, or removing it if there is none. -/
def OffchainOverlayedChange.ofValue : Option StorageValue → OffchainOverlayedChange
  | some value => .setValue value
  | none => .remove

/-- Transaction index operation. -/
inductive IndexOperation where
  | insert (extrinsic : UInt32) (hash : List UInt8) (size : UInt32)
  | renew (extrinsic : UInt32) (hash : List UInt8)
  deriving DecidableEq

/-- Changes that are made outside of extrinsics are marked with this index. -/
def noExtrinsicIndex : UInt32 := 0xffffffff

/-- The well known key `:extrinsic_index`. -/
def extrinsicIndexKey : StorageKey := ":extrinsic_index".toUTF8.data.toList

/-- The prefix of the offchain database. -/
def offchainStoragePrefix : StorageKey := "storage".toUTF8.data.toList

/-- The set of changes that are overlaid onto the backend. A child is named by its
storage key, which is all of a `ChildInfo`. -/
structure OverlayedChanges where
  top : OverlayedChangeSet StorageKey StorageValue
  children : AList fun _ : StorageKey => OverlayedChangeSet StorageKey StorageValue
  offchain : OverlayedMap (StorageKey × StorageKey) OffchainOverlayedChange
  transactionIndexOps : List IndexOperation
  collectExtrinsics : Bool

/-- The changes to the storage that a block import gets to see. The order of the changes does not
matter, so they are given as finite maps. -/
structure StorageChanges where
  mainStorageChanges : Finmap fun _ : StorageKey => Option StorageValue
  childStorageChanges :
    Finmap fun _ : StorageKey => Finmap fun _ : StorageKey => Option StorageValue
  offchainStorageChanges : Finmap fun _ : StorageKey × StorageKey => OffchainOverlayedChange
  transactionIndexChanges : List IndexOperation

/-- The orders in which the dirty keys of each change set are gone through. -/
structure IterationOrders where
  top : IterationOrder StorageKey
  child : StorageKey → IterationOrder StorageKey
  offchain : IterationOrder (StorageKey × StorageKey)

/-- The value of a result that is expected not to be an error. -/
def expect {E A : Type} : Except E A → Option A
  | .ok a => some a
  | .error _ => none

variable (self : OverlayedChanges) (storageKey : StorageKey)

namespace OverlayedChanges

/-- No changes and no transactions. -/
def default : OverlayedChanges where
  top := .empty _ _
  children := ∅
  offchain := .empty _ _
  transactionIndexOps := []
  collectExtrinsics := false

/-- The value of a key in the top storage, if the overlay has one. -/
def storage (key : StorageKey) : Option (Option (Option StorageValue)) :=
  match self.top.get key with
  | none => some none
  | some entry => entry.valueRef.map some

/-- The index of the current extrinsic, if such indices are collected. -/
def extrinsicIndex : Option (Option UInt32) :=
  if self.collectExtrinsics then do
    let value ← self.storage extrinsicIndexKey
    let decoded := (value.bind id).bind (Scale.decodeValue UInt32)
    return some (decoded.getD noExtrinsicIndex)
  else
    some none

/-! ## Writes -/

def setCollectExtrinsics (collectExtrinsics : Bool) : OverlayedChanges :=
  { self with collectExtrinsics := collectExtrinsics }

/-- Set a new value for the specified key. -/
def setStorage (key : StorageKey) (val : Option StorageValue) : Option OverlayedChanges := do
  let top ← self.top.set key val (← self.extrinsicIndex)
  return { self with top := top }

/-- Write through the mutable reference to the current value of a key. A deleted
value is an empty one. -/
def valueMutOrInsertWith (key : StorageKey) (init : StorageValue)
    (write : StorageValue → StorageValue) : Option OverlayedChanges := do
  let top ← self.top.modify key init (← self.extrinsicIndex) fun value =>
    some (write (value.getD []))
  return { self with top := top }

/-- Removes all values whose keys share the given prefix. -/
def clearPrefix (keyPrefix : StorageKey) : Option OverlayedChanges := do
  let (_, top) ← self.top.clearWhere (fun key _ => keyPrefix.isPrefixOf key) (← self.extrinsicIndex)
  return { self with top := top }

/-- The change set of a child, a new one if there is none. -/
def childOrSpawn : OverlayedChangeSet StorageKey StorageValue :=
  (self.children.lookup storageKey).getD self.top.spawnChild

/-- Set a new value for the specified key and child. -/
def setChildStorage (key : StorageKey) (val : Option StorageValue) : Option OverlayedChanges := do
  let changeset ← (self.childOrSpawn storageKey).set key val (← self.extrinsicIndex)
  return { self with children := self.children.insert storageKey changeset }

/-- Clear what a predicate on keys selects in a child. -/
def clearChildWhere (selects : StorageKey → Bool) : Option OverlayedChanges := do
  let (_, changeset) ← (self.childOrSpawn storageKey).clearWhere (fun key _ => selects key)
    (← self.extrinsicIndex)
  return { self with children := self.children.insert storageKey changeset }

/-- Clear child storage of given storage key. -/
def clearChildStorage : Option OverlayedChanges := self.clearChildWhere storageKey fun _ => true

/-- Removes all values of a child whose keys share the given prefix. -/
def clearChildPrefix (keyPrefix : StorageKey) : Option OverlayedChanges :=
  self.clearChildWhere storageKey fun key => keyPrefix.isPrefixOf key

/-- Write a key value pair to the offchain storage overlay. -/
def setOffchainStorage (key : StorageKey) (value : Option StorageValue) :
    Option OverlayedChanges := do
  let offchain ← self.offchain.set (offchainStoragePrefix, key) (.ofValue value) none
  return { self with offchain := offchain }

/-- Add transaction index operation. -/
def addTransactionIndex (op : IndexOperation) : OverlayedChanges :=
  { self with transactionIndexOps := self.transactionIndexOps ++ [op] }

/-! ## Transactions -/

def transactionDepth : ℕ := self.top.transactionDepth

/-- Start a new nested transaction. -/
def startTransaction : Option OverlayedChanges := do
  let children ← traverse (fun _ changeset => some (some changeset.startTransaction)) self.children
  return { self with
    top := self.top.startTransaction
    children := children
    offchain := self.offchain.startTransaction }

/-- Rollback the last transaction. Child change sets that are empty then are
dropped. -/
def rollbackTransaction (orders : IterationOrders) (self : OverlayedChanges) :
    Option (Except NoOpenTransaction OverlayedChanges) := do
  match ← self.top.rollbackTransaction orders.top with
  | .error error => return .error error
  | .ok top =>
    let children ← traverse (fun key changeset => do
      let changeset ← expect (← changeset.rollbackTransaction (orders.child key))
      return if changeset.isEmpty then none else some changeset) self.children
    let offchain ← expect (← self.offchain.rollbackTransaction orders.offchain)
    return .ok { self with top := top, children := children, offchain := offchain }

/-- Commit the last transaction. -/
def commitTransaction (orders : IterationOrders) (self : OverlayedChanges) :
    Option (Except NoOpenTransaction OverlayedChanges) := do
  match ← self.top.commitTransaction orders.top with
  | .error error => return .error error
  | .ok top =>
    let children ← traverse (fun key changeset => do
      let changeset ← expect (← changeset.commitTransaction (orders.child key))
      return some changeset) self.children
    let offchain ← expect (← self.offchain.commitTransaction orders.offchain)
    return .ok { self with top := top, children := children, offchain := offchain }

/-- Call this before transferring control to the runtime. -/
def enterRuntime (self : OverlayedChanges) : Option (Except AlreadyInRuntime OverlayedChanges) := do
  match self.top.enterRuntime with
  | .error error => return .error error
  | .ok top =>
    let children ← traverse (fun _ changeset => do
      let changeset ← expect changeset.enterRuntime
      return some changeset) self.children
    let offchain ← expect self.offchain.enterRuntime
    return .ok { self with top := top, children := children, offchain := offchain }

/-- Call this when control returns from the runtime. -/
def exitRuntime (orders : ℕ → IterationOrders) (self : OverlayedChanges) :
    Option (Except NotInRuntime OverlayedChanges) := do
  match ← self.top.exitRuntime fun round => (orders round).top with
  | .error error => return .error error
  | .ok top =>
    let children ← traverse (fun key changeset => do
      let changeset ← expect (← changeset.exitRuntime fun round => (orders round).child key)
      return some changeset) self.children
    let offchain ← expect (← self.offchain.exitRuntime fun round => (orders round).offchain)
    return .ok { self with top := top, children := children, offchain := offchain }

/-! ## Draining -/

/-- Drain all changes. Leave empty overlay in place. -/
def drainStorageChanges : Option (StorageChanges × OverlayedChanges) := do
  let main ← self.top.drainCommited
  let children ← traverse (fun _ changeset => do
    let changes ← changeset.drainCommited
    return some changes.toFinmap) self.children
  let offchain ← traverse (fun _ entry => entry.intoValue.map some) self.offchain.changes
  return (
    { mainStorageChanges := main.toFinmap
      childStorageChanges := children.toFinmap
      offchainStorageChanges := offchain.toFinmap
      transactionIndexChanges := self.transactionIndexOps },
    { self with
      top := .empty _ _
      children := ∅
      offchain := .empty _ _
      transactionIndexOps := [] })

end OverlayedChanges

/-! ## Runs -/

/-- The operations of the overlay. -/
inductive OverlayOp where
  | setCollectExtrinsics (collectExtrinsics : Bool)
  | setStorage (key : StorageKey) (val : Option StorageValue)
  | valueMutOrInsertWith (key : StorageKey) (init : StorageValue)
      (write : StorageValue → StorageValue)
  | clearPrefix (keyPrefix : StorageKey)
  | setChildStorage (storageKey key : StorageKey) (val : Option StorageValue)
  | clearChildStorage (storageKey : StorageKey)
  | clearChildPrefix (storageKey keyPrefix : StorageKey)
  | setOffchainStorage (key : StorageKey) (value : Option StorageValue)
  | addTransactionIndex (op : IndexOperation)
  | startTransaction
  | commitTransaction (orders : IterationOrders)
  | rollbackTransaction (orders : IterationOrders)
  | enterRuntime
  | exitRuntime (orders : ℕ → IterationOrders)
  | drainStorageChanges

namespace OverlayedChanges

/-- The state after a fallible operation, and whether it returned an error. -/
def settle {E : Type} (self : OverlayedChanges) :
    Except E OverlayedChanges → Bool × OverlayedChanges
  | .ok self => (false, self)
  | .error _ => (true, self)

def step : OverlayOp → Option (Bool × OverlayedChanges)
  | .setCollectExtrinsics collectExtrinsics =>
    some (false, self.setCollectExtrinsics collectExtrinsics)
  | .setStorage key val => (self.setStorage key val).map (false, ·)
  | .valueMutOrInsertWith key init write =>
    (self.valueMutOrInsertWith key init write).map (false, ·)
  | .clearPrefix keyPrefix => (self.clearPrefix keyPrefix).map (false, ·)
  | .setChildStorage storageKey key val => (self.setChildStorage storageKey key val).map (false, ·)
  | .clearChildStorage storageKey => (self.clearChildStorage storageKey).map (false, ·)
  | .clearChildPrefix storageKey keyPrefix =>
    (self.clearChildPrefix storageKey keyPrefix).map (false, ·)
  | .setOffchainStorage key value => (self.setOffchainStorage key value).map (false, ·)
  | .addTransactionIndex op => some (false, self.addTransactionIndex op)
  | .startTransaction => self.startTransaction.map (false, ·)
  | .commitTransaction orders => (self.commitTransaction orders).map self.settle
  | .rollbackTransaction orders => (self.rollbackTransaction orders).map self.settle
  | .enterRuntime => self.enterRuntime.map self.settle
  | .exitRuntime orders => (self.exitRuntime orders).map self.settle
  | .drainStorageChanges => self.drainStorageChanges.map fun result => (false, result.2)

/-- The state after a list of operations. -/
def run (ops : List OverlayOp) : Option OverlayedChanges :=
  ops.foldlM (fun self op => (self.step op).map Prod.snd) self

end OverlayedChanges

end StateMachine
