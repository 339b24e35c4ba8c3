-- SUMMARY: The queue of ready transactions: import with replacement, removal of subtrees, pruning.
import SubstrateIpfs.Base.Vec
import SubstrateIpfs.TransactionPool.Future

/-!
# The ready queue

Ready transactions form a graph: a transaction unlocks those that require a tag it
provides. The queue keeps the edges (`unlocks`), the provider of each tag
(`providedTags`), how many requirements of a transaction are met from outside of
the queue (`requiresOffset`), and the transactions that depend on no other (`best`).

A failed `assert!` or `expect` is `none`.
-/

namespace TransactionPool

open FinMap

variable {H T : Type}

/-- The errors of an import. -/
inductive Error (H : Type) where
  | alreadyImported (hash : H)
  | rejectedFutureTransaction
  | tooLowPriority (old new : UInt64)
  | cycleDetected
  deriving DecidableEq

/-- An in-pool transaction reference. -/
structure TransactionRef (H T : Type) where
  transaction : Transaction H T
  insertionId : Nat
  deriving DecidableEq

/-- The order of references: by priority, then the shorter longevity, then the older one first. -/
def TransactionRef.cmp (self other : TransactionRef H T) : Ordering :=
  (compare self.transaction.priority other.transaction.priority).then
    ((compare other.transaction.validTill self.transaction.validTill).then
      (compare other.insertionId self.insertionId))

/-- A set of references; two of them are the same if they compare equal. -/
abbrev Refs (H T : Type) := List (TransactionRef H T)

namespace Refs

def insert (self : Refs H T) (tx : TransactionRef H T) : Refs H T :=
  if self.any fun x => x.cmp tx = .eq then self else tx :: self

def remove (self : Refs H T) (tx : TransactionRef H T) : Refs H T :=
  self.filter fun x => x.cmp tx ≠ .eq

end Refs

structure ReadyTx (H T : Type) where
  transaction : TransactionRef H T
  /-- A list of transactions that get unlocked by this one. -/
  unlocks : List H
  /-- How many required tags are provided inherently. -/
  requiresOffset : Nat
  deriving DecidableEq

namespace ReadyTx

def hash (self : ReadyTx H T) : H := self.transaction.transaction.hash

def requires (self : ReadyTx H T) : List T := self.transaction.transaction.requires

def provides (self : ReadyTx H T) : List T := self.transaction.transaction.provides

end ReadyTx

/-- Removes the first occurrence of an item, filling the gap with the last one. -/
def removeItem {A : Type} [DecidableEq A] (vec : List A) (item : A) : List A :=
  match Vec.swapRemoveFirst (· = item) vec with
  | none => vec
  | some (_, rest) => rest

/-- `u64::saturating_add`. -/
def saturatingAdd (a b : UInt64) : UInt64 :=
  if a.toNat + b.toNat < 2 ^ 64 then a + b else 0xFFFFFFFFFFFFFFFF

/-- Validated transactions that are block ready with all their dependencies met. -/
structure ReadyTransactions (H T : Type) where
  insertionId : Nat
  /-- Tags that are provided by ready transactions. -/
  providedTags : FinMap T H
  ready : FinMap H (ReadyTx H T)
  best : Refs H T

namespace ReadyTransactions

def default : ReadyTransactions H T := ⟨0, .empty, .empty, []⟩

/-- The transactions of the queue. -/
def transactions (self : ReadyTransactions H T) : List (Transaction H T) :=
  self.ready.values.map (·.transaction.transaction)

/-- Returns number of transactions in this queue. -/
def len (self : ReadyTransactions H T) : Nat := self.ready.size

/-- Returns sum of encoding lengths of all transactions in this queue. -/
def bytes (self : ReadyTransactions H T) : Nat :=
  (self.ready.values.map (·.transaction.transaction.bytes)).sum

variable [DecidableEq H] [DecidableEq T]

variable (self : ReadyTransactions H T) (order : HashOrder H T)

def contains (hash : H) : Bool := (self.ready.get? hash).isSome

/-! ## Removing subtrees -/

variable (filter : Option (List T)) (provided : FinMap T H)

/-- What the removal of a transaction does for a tag it requires. The hash that is looked for among
the unlocks of the provider is the hash of the provider itself: the source binds `hash` anew. -/
def removeFromUnlocks (ready : FinMap H (ReadyTx H T)) (tag : T) : FinMap H (ReadyTx H T) :=
  match provided.get? tag with
  | none => ready
  | some hash => ready.update hash fun tx => { tx with unlocks := removeItem tx.unlocks hash }

/-- The tags of a transaction that do not stay in the pool. -/
def invalidated (tx : ReadyTx H T) : List T :=
  tx.provides.filter fun tag =>
    match filter with
    | some filter => !filter.contains tag
    | none => true

/-- The queue without the transaction `tx` under `hash`. -/
def removeTx (hash : H) (tx : ReadyTx H T) : ReadyTransactions H T :=
  let providedTags := (invalidated filter tx).foldl FinMap.erase self.providedTags
  { self with
    providedTags := providedTags
    ready := tx.requires.foldl (removeFromUnlocks providedTags) (self.ready.erase hash)
    best := self.best.remove tx.transaction }

/-- The queue and the transactions removed so far. -/
abbrev Removal (H T : Type) := ReadyTransactions H T × List (Transaction H T)

/-- One round of the removal of subtrees. -/
def removeVisit (s : Removal H T) (hash : H) : Option (Option (Removal H T × List H)) :=
  match s.1.ready.get? hash with
  | none => some none
  | some tx =>
    some (some ((s.1.removeTx filter hash tx, s.2 ++ [tx.transaction.transaction]),
      -- the transactions it unlocks follow only if it takes some tag with it
      if (invalidated filter tx).isEmpty then [] else tx.unlocks.reverse))

theorem size_foldl_removeFromUnlocks (ts : List T) (r : FinMap H (ReadyTx H T)) :
    (ts.foldl (removeFromUnlocks provided) r).size = r.size := by
  induction ts generalizing r with
  | nil => rfl
  | cons tag ts ih =>
    rw [List.foldl_cons, ih]
    unfold removeFromUnlocks
    split
    · rfl
    · exact size_update

/-- The loop that removes subtrees: it pops hashes and uses up the ready transactions. -/
def removeLoop : Worklist (Removal H T) H where
  visit := removeVisit filter
  size s := s.1.ready.size
  size_lt {s k s' more} h := by
    unfold removeVisit at h
    split at h
    · cases h
    next hget =>
      cases h
      simp only [removeTx, size_foldl_removeFromUnlocks]
      exact size_erase_lt hget

/-- Removes a subtrees of transactions trees starting from roots given in `toRemove`. Tags in the
filter stay in the pool. -/
def removeSubtreeWithTagFilter (toRemove : List H) (filter : Option (List T)) :
    Option (Removal H T) :=
  (removeLoop filter).run (self, []) toRemove.reverse

/-- Removes a subtree of transactions from the ready pool. -/
def removeSubtree (hashes : List H) : Option (Removal H T) :=
  self.removeSubtreeWithTagFilter hashes none

/-! ## Import -/

/-- The ready transactions that provide a tag of `tx`. -/
def replaceHashes (tx : Transaction H T) : List H :=
  order.walk (.replaced tx.hash) (tx.provides.filterMap self.providedTags.get?).dedup

/-- Checks if the transaction is providing the same tags as other transactions. Returns the queue
without those it replaces, these transactions, and the hashes that are unlocked by `tx`. -/
def replacePrevious (tx : Transaction H T) :
    Option (Except (Error H) (ReadyTransactions H T × List (Transaction H T) × List H)) :=
  let replaceHashes := self.replaceHashes order tx
  if replaceHashes.isEmpty then some (.ok (self, [], []))
  else
    let replaced := replaceHashes.filterMap self.ready.get?
    let oldPriority := replaced.foldl
      (fun total tx => saturatingAdd total tx.transaction.transaction.priority) 0
    if oldPriority ≥ tx.priority then some (.error (.tooLowPriority oldPriority tx.priority))
    else
      match self.removeSubtreeWithTagFilter replaceHashes (some tx.provides) with
      | none => none
      | some (self, removed) => some (.ok (self, removed, replaced.flatMap (·.unlocks)))

/-- The state of the loop over the requirements: ready transactions, whether the transaction goes
to best, and how many requirements are met from outside. -/
structure Links (H T : Type) where
  ready : FinMap H (ReadyTx H T)
  goesToBest : Bool
  requiresOffset : Nat

/-- Adds a link from the transaction that provides a tag. -/
def addLink (hash : H) (links : Links H T) (tag : T) : Option (Links H T) :=
  match provided.get? tag with
  | none => some { links with requiresOffset := links.requiresOffset + 1 }
  | some other =>
    match links.ready.get? other with
    | none => none
    | some _ => some { links with
        ready := links.ready.update other fun tx => { tx with unlocks := tx.unlocks ++ [hash] }
        goesToBest := false }

/-- The queue with a transaction whose place is free. -/
def insertTx (transaction : Transaction H T) (unlocks : List H) : Option (ReadyTransactions H T) :=
  let hash := transaction.hash
  match transaction.requires.foldlM (addLink self.providedTags hash) ⟨self.ready, true, 0⟩ with
  | none => none
  | some links =>
    let ref : TransactionRef H T := ⟨transaction, self.insertionId⟩
    some { self with
      providedTags := transaction.provides.foldl (fun m tag => m.insert tag hash) self.providedTags
      best := if links.goesToBest then self.best.insert ref else self.best
      ready := links.ready.insert hash ⟨ref, unlocks, links.requiresOffset⟩ }

/-- Imports transactions to the pool of ready transactions. Returns transactions that were
replaced by the one imported. -/
def importTx (tx : WaitingTransaction H T) :
    Option (Except (Error H) (List (Transaction H T)) × ReadyTransactions H T) :=
  -- assert: "Only ready transactions can be imported.", then "Transaction is already imported."
  if ¬ tx.isReady then none
  else if self.contains tx.transaction.hash then none
  else
    let self := { self with insertionId := self.insertionId + 1 }
    match self.replacePrevious order tx.transaction with
    | none => none
    | some (.error e) => some (.error e, self)
    | some (.ok (self, replaced, unlocks)) =>
      (self.insertTx tx.transaction unlocks).map fun self => (.ok replaced, self)

/-! ## Pruning -/

/-- Takes a pruned transaction from the unlocks of the provider of a tag it required. A provider
that unlocks nothing any more is to be pruned as well. -/
def findPrevious (hash : H) (acc : FinMap H (ReadyTx H T) × List T) (tag : T) :
    FinMap H (ReadyTx H T) × List T :=
  match provided.get? tag with
  | none => acc
  | some prevHash =>
    match acc.1.get? prevHash with
    | none => acc
    | some tx2 =>
      let unlocks := removeItem tx2.unlocks hash
      (acc.1.insert prevHash { tx2 with unlocks := unlocks },
        if unlocks.isEmpty then acc.2 ++ tx2.provides else acc.2)

/-- Counts one more requirement of a transaction as met. -/
def unlock (acc : FinMap H (ReadyTx H T) × Refs H T) (hash : H) :
    FinMap H (ReadyTx H T) × Refs H T :=
  match acc.1.get? hash with
  | none => acc
  | some tx =>
    let tx := { tx with requiresOffset := tx.requiresOffset + 1 }
    (acc.1.insert hash tx,
      if tx.requiresOffset = tx.requires.length then acc.2.insert tx.transaction else acc.2)

/-- The provider that a tag of a pruned transaction has: that transaction, except for the tag that
was just taken out. -/
def expectedProvider (currentTag : T) (hash : H) (tag : T) : Option H :=
  if currentTag = tag then none else some hash

/-- Clears the provider of a tag of a pruned transaction. -/
def dropProvided (currentTag : T) (hash : H) (provided : FinMap T H) (tag : T) :
    Option (FinMap T H) :=
  if provided.get? tag = expectedProvider currentTag hash tag then some (provided.erase tag)
  else none

/-- The queue after the transaction `tx`, which provided `tag`, was pruned, and the tags to prune
next. -/
def pruneTx (tag : T) (hash : H) (tx : ReadyTx H T) : Option (ReadyTransactions H T × List T) :=
  let providedTags := self.providedTags.erase tag
  let previous := tx.requires.foldl (findPrevious providedTags tx.hash) (self.ready.erase hash, [])
  let unlocked := tx.unlocks.foldl unlock (previous.1, self.best.remove tx.transaction)
  (tx.provides.foldlM (dropProvided tag tx.hash) providedTags).map fun providedTags =>
    ({ self with providedTags := providedTags, ready := unlocked.1, best := unlocked.2 },
      previous.2)

/-- One round of pruning, with the transactions removed so far. -/
def pruneVisit (s : Removal H T) (tag : T) :
    Option (Option (Removal H T × List T)) :=
  match s.1.providedTags.get? tag with
  | none => some none
  | some hash =>
    match s.1.ready.get? hash with
    | none => some (some (({ s.1 with providedTags := s.1.providedTags.erase tag }, s.2), []))
    | some tx => (s.1.pruneTx tag hash tx).map fun r =>
        some ((r.1, s.2 ++ [tx.transaction.transaction]), r.2.reverse)

theorem size_foldlM_dropProvided {ct : T} {hash : H} {ts : List T} {p p' : FinMap T H}
    (h : ts.foldlM (dropProvided ct hash) p = some p') :
    p'.size ≤ p.size := by
  induction ts generalizing p with
  | nil => cases h; exact le_rfl
  | cons tag ts ih =>
    obtain ⟨provided1, h1, h⟩ := Option.bind_eq_some_iff.mp h
    unfold dropProvided at h1
    split at h1
    · cases h1
      exact le_trans (ih h) size_erase_le
    · cases h1

/-- The loop that prunes: it pops tags and uses up the provided tags. -/
def pruneLoop : Worklist (Removal H T) T where
  visit := pruneVisit
  size s := s.1.providedTags.size
  size_lt {s k s' more} h := by
    unfold pruneVisit at h
    split at h
    · cases h
    rename_i hprovided
    split at h
    · cases h
      exact size_erase_lt hprovided
    obtain ⟨r, hr, hs⟩ := Option.map_eq_some_iff.mp h
    cases hs
    unfold pruneTx at hr
    obtain ⟨provided, hp, rfl⟩ := Option.map_eq_some_iff.mp hr
    exact Nat.lt_of_le_of_lt (size_foldlM_dropProvided hp) (size_erase_lt hprovided)

/-- Removes transactions that provide given tag, and those that lead to them and to nothing
else. -/
def pruneTags (tag : T) : Option (Removal H T) :=
  pruneLoop.run (self, []) [tag]

end ReadyTransactions

end TransactionPool
