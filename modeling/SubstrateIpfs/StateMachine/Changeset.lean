-- SUMMARY: The transactional overlay of storage changes: versions per key, dirty keys, modes.
import SubstrateIpfs.Base.FinMap

/-!
# The overlayed change set

Pending storage changes, with nested transactions. For every key the map keeps
the versions that are still needed, and for every open transaction the set of
keys written in it. Both stacks have their newest element first.

A failed `expect` is `none`. Operations that can return an error return it in an
`Except` inside.
-/

namespace StateMachine

/-! ## Entries -/

/-- The extrinsics that changed a value. -/
abbrev Extrinsics := List UInt32

def Extrinsics.insert (self : Extrinsics) (ext : UInt32) : Extrinsics :=
  if self.getLast? = some ext then self else self ++ [ext]

def Extrinsics.extend (self other : Extrinsics) : Extrinsics := self ++ other

structure InnerValue (V : Type) where
  value : V
  extrinsics : Extrinsics

/-- All versions of a value for a specific key. -/
structure OverlayedEntry (V : Type) where
  transactions : List (InnerValue V)

namespace OverlayedEntry

variable {V : Type}

variable (self : OverlayedEntry V)

/-- The value as seen by the current transaction. -/
def valueRef : Option V := self.transactions.head?.map (·.value)

/-- The value as seen by the current transaction, taken out of the entry. -/
def intoValue : Option V := self.transactions.head?.map (·.value)

/-- Write through the mutable reference to the most recent version. -/
def valueMut (write : V → V) : Option (OverlayedEntry V) :=
  match self.transactions with
  | [] => none
  | tx :: transactions => some ⟨{ tx with value := write tx.value } :: transactions⟩

/-- Remove the last version and return it. -/
def popTransaction : Option (InnerValue V × OverlayedEntry V) :=
  match self.transactions with
  | [] => none
  | tx :: transactions => some (tx, ⟨transactions⟩)

/-- Write through the mutable reference to the extrinsics of the current
transaction. -/
def transactionExtrinsicsMut (write : Extrinsics → Extrinsics) : Option (OverlayedEntry V) :=
  match self.transactions with
  | [] => none
  | tx :: transactions => some ⟨{ tx with extrinsics := write tx.extrinsics } :: transactions⟩

/-- The first half of `set`: the value. -/
def setValue (value : V) (firstWriteInTx : Bool) : Option (OverlayedEntry V) :=
  if firstWriteInTx || self.transactions.isEmpty then
    some ⟨⟨value, []⟩ :: self.transactions⟩
  else
    self.valueMut fun _ => value

/-- The second half of `set`: the extrinsic. -/
def setExtrinsic (atExtrinsic : Option UInt32) : Option (OverlayedEntry V) :=
  match atExtrinsic with
  | some extrinsic => self.transactionExtrinsicsMut (·.insert extrinsic)
  | none => some self

/-- Writes a new version of a value. -/
def set (value : V) (firstWriteInTx : Bool) (atExtrinsic : Option UInt32) :
    Option (OverlayedEntry V) := do
  (← self.setValue value firstWriteInTx).setExtrinsic atExtrinsic

end OverlayedEntry

/-! ## The map -/

/-- In client mode all transactions can be removed, in runtime mode those started
by the client are protected. -/
inductive ExecutionMode where
  | client
  | runtime
  deriving DecidableEq

structure OverlayedMap (K V : Type) where
  changes : AList fun _ : K => OverlayedEntry V
  dirtyKeys : List (Finset K)
  numClientTransactions : ℕ
  executionMode : ExecutionMode

structure NoOpenTransaction where

structure AlreadyInRuntime where

structure NotInRuntime where

/-- An order in which the keys of a set are gone through. -/
structure IterationOrder (K : Type) where
  keys : Finset K → List K
  nodup_keys : ∀ set, (keys set).Nodup
  mem_keys : ∀ set key, key ∈ keys set ↔ key ∈ set

/-- Insert a key into the dirty set, and say whether this is the first write to
it in the open transaction. -/
def insertDirty {K : Type} [DecidableEq K] (set : List (Finset K)) (key : K) :
    Bool × List (Finset K) :=
  match set with
  | [] => (false, [])
  | dk :: set => (decide (key ∉ dk), insert key dk :: set)

namespace OverlayedMap

variable {K V : Type}

/-- No changes and no transactions, in client mode. -/
def empty (K V : Type) : OverlayedMap K V where
  changes := ∅
  dirtyKeys := []
  numClientTransactions := 0
  executionMode := .client

def transactionDepth (self : OverlayedMap K V) : ℕ := self.dirtyKeys.length

def hasOpenRuntimeTransactions (self : OverlayedMap K V) : Bool :=
  self.numClientTransactions < self.transactionDepth

/-- Call this before transferring control to the runtime. -/
def enterRuntime (self : OverlayedMap K V) : Except AlreadyInRuntime (OverlayedMap K V) :=
  match self.executionMode with
  | .runtime => .error {}
  | .client =>
    .ok { self with executionMode := .runtime, numClientTransactions := self.transactionDepth }

/-- Start a new nested transaction. -/
def startTransaction (self : OverlayedMap K V) : OverlayedMap K V :=
  { self with dirtyKeys := ∅ :: self.dirtyKeys }

/-- A new change set at the same transaction state but without any contents. -/
def spawnChild (self : OverlayedMap K V) : OverlayedMap K V where
  changes := ∅
  dirtyKeys := List.replicate self.transactionDepth ∅
  numClientTransactions := self.numClientTransactions
  executionMode := self.executionMode

/-- No changes at all are contained. -/
def isEmpty (self : OverlayedMap K V) : Bool := self.changes.entries.isEmpty

variable [DecidableEq K]

variable (order : IterationOrder K) (self : OverlayedMap K V)

def get (key : K) : Option (OverlayedEntry V) := self.changes.lookup key

/-- The entry of a key, a new one if there is none. -/
def entryOrDefault (key : K) : OverlayedEntry V := (self.changes.lookup key).getD ⟨[]⟩

/-- Set a new value for the specified key. -/
def set (key : K) (value : V) (atExtrinsic : Option UInt32) : Option (OverlayedMap K V) := do
  let (firstWriteInTx, dirtyKeys) := insertDirty self.dirtyKeys key
  let overlayed ← (self.entryOrDefault key).set value firstWriteInTx atExtrinsic
  return { self with changes := self.changes.insert key overlayed, dirtyKeys := dirtyKeys }

/-- Hand a key over to the transaction around the one that is committed, and say
whether there is a version to merge with. -/
def insertParent (dirtyKeys : List (Finset K)) (key : K) (overlayed : OverlayedEntry V) :
    Bool × List (Finset K) :=
  match dirtyKeys with
  -- not the last transaction: did the previous one write to this key?
  | dk :: dirtyKeys => (decide (key ∈ dk), insert key dk :: dirtyKeys)
  -- last transaction: is there already a value in the committed set?
  | [] => (decide (1 < overlayed.transactions.length), [])

/-- One key of a transaction that is closed. Its set of dirty keys is gone
already. -/
def closeKey (rollback : Bool) (self : OverlayedMap K V) (key : K) : Option (OverlayedMap K V) := do
  let overlayed ← self.changes.lookup key
  if rollback then
    let (_, overlayed) ← overlayed.popTransaction
    if overlayed.transactions.isEmpty then
      return { self with changes := self.changes.erase key }
    else
      return { self with changes := self.changes.insert key overlayed }
  else
    let (hasPredecessor, dirtyKeys) := insertParent self.dirtyKeys key overlayed
    if hasPredecessor then
      let (droppedTx, overlayed) ← overlayed.popTransaction
      let overlayed ← overlayed.valueMut fun _ => droppedTx.value
      let overlayed ← overlayed.transactionExtrinsicsMut (·.extend droppedTx.extrinsics)
      return { self with changes := self.changes.insert key overlayed, dirtyKeys := dirtyKeys }
    else
      return { self with dirtyKeys := dirtyKeys }

def closeTransaction (rollback : Bool) (self : OverlayedMap K V) :
    Option (Except NoOpenTransaction (OverlayedMap K V)) :=
  -- runtime is not allowed to close transactions started by the client
  if self.executionMode = .runtime ∧ !self.hasOpenRuntimeTransactions then
    some (.error {})
  else
    match self.dirtyKeys with
    | [] => some (.error {})
    | dk :: dirtyKeys => do
      let self ← (order.keys dk).foldlM (closeKey rollback) { self with dirtyKeys := dirtyKeys }
      return .ok self

/-- Rollback the last transaction. -/
def rollbackTransaction : Option (Except NoOpenTransaction (OverlayedMap K V)) :=
  closeTransaction order true self

/-- Commit the last transaction. -/
def commitTransaction : Option (Except NoOpenTransaction (OverlayedMap K V)) :=
  closeTransaction order false self

/-- Roll back the transactions that are left open by the runtime, in at most the
given number of rounds. Running out of rounds is a failure too. -/
def rollbackOpen (order : ℕ → IterationOrder K) : ℕ → OverlayedMap K V → Option (OverlayedMap K V)
  | rounds, self =>
    if self.hasOpenRuntimeTransactions then
      match rounds with
      | 0 => none
      | rounds + 1 => do
        match ← self.rollbackTransaction (order rounds) with
        | .ok self => rollbackOpen order rounds self
        | .error _ => none
    else
      some self

/-- Call this when control returns from the runtime. -/
def exitRuntime (order : ℕ → IterationOrder K) (self : OverlayedMap K V) :
    Option (Except NotInRuntime (OverlayedMap K V)) :=
  match self.executionMode with
  | .client => some (.error {})
  | .runtime => do
    let self ← rollbackOpen order self.transactionDepth { self with executionMode := .client }
    return .ok self

/-- Consume the map and return all committed changes. It is a panic if there are
open transactions. -/
def drainCommited : Option (AList fun _ : K => V) := do
  guard (self.transactionDepth = 0)
  Assoc.traverse (fun _ v => v.popTransaction.map fun popped => some popped.1.value) self.changes

end OverlayedMap

/-! ## Change sets -/

/-- The values of a change set can be deleted. -/
abbrev OverlayedChangeSet (K W : Type) := OverlayedMap K (Option W)

namespace OverlayedChangeSet

variable {K W : Type} [DecidableEq K]

/-- What `modify` starts a new version with, if it needs one. -/
def cloneIntoNewTx (overlayed : OverlayedEntry (Option W)) (firstWriteInTx : Bool) (init : W) :
    Option (Option W) :=
  match overlayed.transactions.head? with
  | some tx => if firstWriteInTx then some tx.value else none
  | none => some (some init)

/-- The entry in which `modify` hands out the newest version. -/
def entryToModify (overlayed : OverlayedEntry (Option W)) (firstWriteInTx : Bool) (init : W)
    (atExtrinsic : Option UInt32) : Option (OverlayedEntry (Option W)) :=
  match cloneIntoNewTx overlayed firstWriteInTx init with
  | some cloned => overlayed.set cloned firstWriteInTx atExtrinsic
  | none => some overlayed

/-- Get a mutable reference for a value, and write through it. -/
def modify (self : OverlayedChangeSet K W) (key : K) (init : W) (atExtrinsic : Option UInt32)
    (write : Option W → Option W) : Option (OverlayedChangeSet K W) := do
  let (firstWriteInTx, dirtyKeys) := insertDirty self.dirtyKeys key
  let overlayed ← entryToModify (self.entryOrDefault key) firstWriteInTx init atExtrinsic
  let overlayed ← overlayed.valueMut write
  return { self with changes := self.changes.insert key overlayed, dirtyKeys := dirtyKeys }

/-- Delete one value if the predicate matches it, and count it if it was there. -/
def clearKey (predicate : K → OverlayedEntry (Option W) → Bool) (atExtrinsic : Option UInt32)
    (acc : UInt32 × OverlayedChangeSet K W) (key : K) : Option (UInt32 × OverlayedChangeSet K W) :=
  match acc.2.changes.lookup key with
  | none => some acc
  | some val =>
    if predicate key val then do
      let value ← val.valueRef
      let (firstWriteInTx, dirtyKeys) := insertDirty acc.2.dirtyKeys key
      let val ← val.set none firstWriteInTx atExtrinsic
      return (if value.isSome then acc.1 + 1 else acc.1,
        { acc.2 with changes := acc.2.changes.insert key val, dirtyKeys := dirtyKeys })
    else
      some acc

/-- Set all values to deleted which are matched by the predicate. -/
def clearWhere (self : OverlayedChangeSet K W) (predicate : K → OverlayedEntry (Option W) → Bool)
    (atExtrinsic : Option UInt32) : Option (UInt32 × OverlayedChangeSet K W) :=
  self.changes.keys.foldlM (clearKey predicate atExtrinsic) (0, self)

end OverlayedChangeSet

end StateMachine
