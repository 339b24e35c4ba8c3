-- SUMMARY: The transaction pool over its two queues: import, limits, removal, pruning.
import SubstrateIpfs.TransactionPool.Ready

/-!
# The transaction pool

The pool holds the ready and the future queue. Importing a transaction that is ready
takes the transactions it unlocks out of the future queue and imports them as well,
one after the other.
-/

namespace TransactionPool

variable {H T : Type}

/-- Successful import result. -/
inductive Imported (H T : Type) where
  | ready (hash : H) (promoted failed : List H) (removed : List (Transaction H T))
  | future (hash : H)
  deriving DecidableEq

/-- Status of pruning the queue. -/
structure PruneStatus (H T : Type) where
  promoted : List (Imported H T)
  failed : List H
  pruned : List (Transaction H T)

/-- Queue limits. -/
structure Limit where
  count : Nat
  totalBytes : Nat

/-- Returns true if any of the provided values exceeds the limit. -/
def Limit.isExceeded (self : Limit) (count bytes : Nat) : Bool :=
  self.count < count || self.totalBytes < bytes

/-- Transaction pool. -/
structure BasePool (H T : Type) where
  rejectFutureTransactions : Bool
  future : FutureTransactions H T
  ready : ReadyTransactions H T
  /-- Recently pruned tags, for the last two invocations. -/
  recentlyPruned : List (List T)
  recentlyPrunedIndex : Nat

namespace BasePool

/-- The number of invocations for which pruned tags are stored. -/
def recentlyPrunedTags : Nat := 2

/-- Create new pool given the flag. -/
def new (rejectFutureTransactions : Bool) : BasePool H T where
  rejectFutureTransactions := rejectFutureTransactions
  future := .default
  ready := .default
  recentlyPruned := List.replicate recentlyPrunedTags []
  recentlyPrunedIndex := 0

/-- Runs the closure with future transactions enabled and then restores the flag. -/
def withFuturesEnabled {A : Type} (self : BasePool H T)
    (closure : BasePool H T → Bool → Option (A × BasePool H T)) : Option (A × BasePool H T) :=
  (closure { self with rejectFutureTransactions := false } self.rejectFutureTransactions).map
    fun r => (r.1, { r.2 with rejectFutureTransactions := self.rejectFutureTransactions })

variable [DecidableEq H] [DecidableEq T]

variable (self : BasePool H T) (order : HashOrder H T)

/-- Returns if the transaction for the given hash is already imported. -/
def isImported (hash : H) : Bool := self.future.contains hash || self.ready.contains hash

/-! ## Import -/

/-- The state of the import loop. -/
structure Importing (H T : Type) where
  pool : BasePool H T
  promoted : List H
  failed : List H
  removed : List (Transaction H T)
  first : Bool

/-- Imports the transactions of the stack and those they unlock. Only the very first one can make
the whole import fail. -/
def importLoop (order : HashOrder H T) (s : Importing H T)
    (toImport : List (WaitingTransaction H T)) :
    Option (Except (Error H × BasePool H T) (Importing H T)) :=
  match toImport with
  | [] => some (.ok s)
  | tx :: rest =>
    -- find transactions in Future that it unlocks
    match h : s.pool.future.satisfyTags order tx.transaction.provides with
    | none => none
    | some (future, unlocked) =>
      have : future.waiting.size + unlocked.length = s.pool.future.waiting.size :=
        FutureTransactions.size_satisfyTags h
      let currentHash := tx.transaction.hash
      -- import this transaction
      match s.pool.ready.importTx order tx with
      | none => none
      | some (.ok replaced, ready) =>
        importLoop order
          { pool := { s.pool with future := future, ready := ready }
            promoted := if s.first then s.promoted else s.promoted ++ [currentHash]
            failed := s.failed
            removed := s.removed ++ replaced
            first := false }
          (unlocked.reverse ++ rest)
      | some (.error e, ready) =>
        if s.first then some (.error (e, { s.pool with future := future, ready := ready }))
        else
          importLoop order
            { s with
              pool := { s.pool with future := future, ready := ready }
              failed := s.failed ++ [currentHash]
              first := false }
            (unlocked.reverse ++ rest)
termination_by s.pool.future.waiting.size + toImport.length
decreasing_by
  all_goals
    simp only [List.length_append, List.length_reverse, List.length_cons]
    omega

/-- Imports transaction to ready queue. -/
def importToReady (tx : WaitingTransaction H T) :
    Option (Except (Error H) (Imported H T) × BasePool H T) :=
  let hash := tx.transaction.hash
  match importLoop order ⟨self, [], [], [], true⟩ [tx] with
  | none => none
  | some (.error (e, pool)) => some (.error e, pool)
  | some (.ok s) =>
    -- future transactions that were promoted pushed out the current transaction: a cycle
    if s.removed.any fun tx => tx.hash = hash then
      (s.pool.ready.removeSubtree s.promoted).map fun r =>
        (.error .cycleDetected, { s.pool with ready := r.1 })
    else some (.ok (.ready hash s.promoted s.failed s.removed), s.pool)

/-- Imports transaction to the pool. -/
def importTx (now : Nat) (tx : Transaction H T) :
    Option (Except (Error H) (Imported H T) × BasePool H T) :=
  if self.isImported tx.hash then some (.error (.alreadyImported tx.hash), self)
  else
    let tx := WaitingTransaction.new tx self.ready.providedTags self.recentlyPruned now
    -- If all tags are not satisfied import to future.
    if ¬ tx.isReady then
      if self.rejectFutureTransactions then some (.error .rejectedFutureTransaction, self)
      else (self.future.importTx tx).map fun future =>
        (.ok (.future tx.transaction.hash), { self with future := future })
    else self.importToReady order tx

/-! ## Removal and limits -/

/-- Removes all transactions represented by the hashes and all other transactions that depend on
them. Returns a list of actually removed transactions. -/
def removeSubtree (hashes : List H) : Option (List (Transaction H T) × BasePool H T) :=
  (self.ready.removeSubtree hashes).map fun r =>
    let future := self.future.remove hashes
    (r.2 ++ future.2, { self with ready := r.1, future := future.1 })

section
omit [DecidableEq H] [DecidableEq T]

/-- Removes and returns all transactions from the future queue. -/
def clearFuture : List (Transaction H T) × BasePool H T :=
  let cleared := self.future.clear
  (cleared.1, { self with future := cleared.2 })

/-- The one of the two that is dropped first: lower priority, then the older one. -/
def worseReady (worst : Option (TransactionRef H T)) (current : ReadyTx H T) :
    Option (TransactionRef H T) :=
  match worst with
  | none => some current.transaction
  | some worst =>
    match compare worst.transaction.priority current.transaction.transaction.priority with
    | .lt => some worst
    | .eq =>
      if worst.insertionId > current.transaction.insertionId then some current.transaction
      else some worst
    | .gt => some current.transaction

/-- The one of the two that waits longer. -/
def worseFuture (worst : Option (WaitingTransaction H T)) (current : WaitingTransaction H T) :
    Option (WaitingTransaction H T) :=
  match worst with
  | none => some current
  | some tx => if tx.importedAt > current.importedAt then some current else some tx

/-- The hash of the worst ready transaction. -/
def worstReady : Option H :=
  ((order.walk (.ready self.ready.len) self.ready.ready.values).foldl worseReady none).map
    (·.transaction.hash)

/-- The hash of the worst future transaction. -/
def worstFuture : Option H :=
  ((order.walk (.waiting self.future.len) self.future.waiting.values).foldl worseFuture none).map
    (·.transaction.hash)

end

/-- Removes worst transactions while the queue exceeds its limit. The queue is looked at through
`size`, which has to drop in every round: a round that removes nothing is repeated forever, and has
no result. -/
def enforceLoop (exceeded : BasePool H T → Bool) (worst : BasePool H T → Option H)
    (size : BasePool H T → Nat) (self : BasePool H T) (removed : List (Transaction H T)) :
    Option (List (Transaction H T) × BasePool H T) :=
  if exceeded self then
    match worst self with
    | none => some (removed, self)
    | some hash =>
      match self.removeSubtree [hash] with
      | none => none
      | some (more, pool) =>
        if size pool < size self then enforceLoop exceeded worst size pool (removed ++ more)
        else none
  else some (removed, self)
termination_by size self

/-- Makes sure that the transactions in the queues stay within provided limits. -/
def enforceLimits (ready future : Limit) : Option (List (Transaction H T) × BasePool H T) :=
  match enforceLoop (fun p => ready.isExceeded p.ready.len p.ready.bytes)
      (fun p => p.worstReady order) (fun p => p.ready.len) self [] with
  | none => none
  | some (removed, pool) =>
    enforceLoop (fun p => future.isExceeded p.future.len p.future.bytes)
      (fun p => p.worstFuture order) (fun p => p.future.len) pool removed

/-! ## Pruning -/

/-- The state of the loop over the tags to prune. -/
structure Pruning (H T : Type) where
  pool : BasePool H T
  toImport : List (WaitingTransaction H T)
  pruned : List (Transaction H T)

/-- Promotes what a tag unlocks and prunes the transactions that provide it. -/
def pruneTag (s : Pruning H T) (tag : T) : Option (Pruning H T) :=
  match s.pool.future.satisfyTags order [tag] with
  | none => none
  | some (future, unlocked) =>
    (s.pool.ready.pruneTags tag).map fun r =>
      { pool := { s.pool with future := future, ready := r.1 }
        toImport := s.toImport ++ unlocked
        pruned := s.pruned ++ r.2 }

/-- Imports a transaction that pruning has unlocked. -/
def importPruned (acc : BasePool H T × List (Imported H T) × List H) (tx : WaitingTransaction H T) :
    Option (BasePool H T × List (Imported H T) × List H) :=
  match acc.1.importToReady order tx with
  | none => none
  | some (.ok res, pool) => some (pool, acc.2.1 ++ [res], acc.2.2)
  | some (.error _, pool) => some (pool, acc.2.1, acc.2.2 ++ [tx.transaction.hash])

/-- The pool that remembers the tags as pruned in this invocation. -/
def rememberPruned (tags : List T) : BasePool H T :=
  { self with
    recentlyPruned := self.recentlyPruned.set self.recentlyPrunedIndex tags.dedup
    recentlyPrunedIndex := (self.recentlyPrunedIndex + 1) % recentlyPrunedTags }

/-- Prunes transactions that provide given list of tags. -/
def pruneTags (tags : List T) : Option (PruneStatus H T × BasePool H T) :=
  match tags.foldlM (pruneTag order) ⟨self.rememberPruned tags, [], []⟩ with
  | none => none
  | some s =>
    (s.toImport.foldlM (importPruned order) (s.pool, [], [])).map fun r =>
      (⟨r.2.1, r.2.2, s.pruned⟩, r.1)

end BasePool

end TransactionPool
