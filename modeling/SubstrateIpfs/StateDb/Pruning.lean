-- SUMMARY: The pruning window of the state database: keys that wait for deletion, by block.
import SubstrateIpfs.StateDb.NonCanonical

/-!
# The pruning window

For each block of the window there is a list of keys that are deleted when the block is
pruned. A backend that does not count references keeps all blocks in memory, with an index
from each key to the block it waits in: a key that is inserted again is taken out of its
row. A backend that counts references keeps only the first few blocks in memory.

A call that panics (an index out of range) has no result.
-/

namespace StateDb.Pruning

/-- `DEFAULT_MAX_BLOCK_CONSTRAINT`. -/
def defaultMaxBlockConstraint : Nat := 256

inductive Error where
  /-- Trying to insert block with invalid number. -/
  | invalidBlockNumber
  /-- Trying to get a block record from db while it is not commit to db yet. -/
  | blockUnavailable
  deriving DecidableEq

structure DeathRow (H K : Type) where
  hash : H
  /-- The keys of a hash set. -/
  deleted : List K

structure JournalRecord (H K : Type) where
  hash : H
  inserted : List K
  deleted : List K

/-- What is written to the metadata: a journal record under its block number, or the last pruned
block. -/
inductive MetaEntry (H K : Type) where
  | journal (number : Nat) (record : JournalRecord H K)
  | lastPruned (number : Nat)

/-- A set of changes to the backing database. Of the metadata only journal records are deleted. -/
structure CommitSet (H K V : Type) where
  data : ChangeSet K V
  metaInserted : List (MetaEntry H K)
  metaDeleted : List Nat

/-- The metadata of the database. -/
structure Db (H K : Type) where
  lastPruned : Option Nat
  lastCanonical : Option Nat
  journal : Nat → Option (JournalRecord H K)

inductive DeathRowQueue (H K : Type) where
  /-- A queue of keys that should be deleted for each block in the pruning window, with an index
  that maps each of the keys to a block number. -/
  | mem (deathRows : List (DeathRow H K)) (deathIndex : FinMap K Nat)
  /-- Only the first few blocks of the pruning window, and the last block number of the window. -/
  | dbBacked (cache : List (DeathRow H K)) (cacheCapacity : Nat) (last : Option Nat)

structure RefWindow (H K : Type) where
  queue : DeathRowQueue H K
  /-- Block number that is next to be pruned. -/
  base : Nat

variable {H K V : Type} [DecidableEq K]

/-! ## The queue -/

/-- The row of a record. -/
def JournalRecord.row (record : JournalRecord H K) : DeathRow H K :=
  ⟨record.hash, record.deleted.dedup⟩

def DeathRow.remove (row : DeathRow H K) (k : K) : DeathRow H K :=
  { row with deleted := row.deleted.filter (· ≠ k) }

variable (db : Db H K) (base : Nat)

/-- A key that is inserted again is taken out of its row. -/
def reinsert : List (DeathRow H K) × FinMap K Nat → K → Option (List (DeathRow H K) × FinMap K Nat)
  | (deathRows, deathIndex), k =>
    match deathIndex.get? k with
    | none => some (deathRows, deathIndex)
    | some block =>
      if block < base then none
      else deathRows[block - base]?.map fun row =>
        (deathRows.set (block - base) (row.remove k), deathIndex.erase k)

namespace DeathRowQueue

/-- A new block at the back of the queue. -/
def importBlock (num : Nat) (record : JournalRecord H K) :
    DeathRowQueue H K → Option (DeathRowQueue H K)
  | .dbBacked cache cacheCapacity _ =>
    -- if the new block continues the cached range and there is space it is cached
    let cache := if num = base + cache.length ∧ cache.length < cacheCapacity then
      cache ++ [record.row] else cache
    some (.dbBacked cache cacheCapacity (some num))
  | .mem deathRows deathIndex => do
    let (deathRows, deathIndex) ← record.inserted.foldlM (reinsert base) (deathRows, deathIndex)
    let importedBlock := base + deathRows.length
    let deathIndex := record.deleted.foldl (fun index k => index.insert k importedBlock) deathIndex
    some (.mem (deathRows ++ [record.row]) deathIndex)

/-- The next records of the journal, at most `n`. -/
def loadRows (db : Db H K) (start : Nat) : Nat → List (DeathRow H K)
  | 0 => []
  | n + 1 =>
    match db.journal start with
    | some record => record.row :: loadRows db (start + 1) n
    | none => []

/-- Load a batch of blocks from the backend database into `cache`, starting from `base`. -/
def loadBatchFromDb (cache : List (DeathRow H K)) (base cacheCapacity : Nat) :
    List (DeathRow H K) :=
  cache ++ loadRows db (base + cache.length) cacheCapacity

/-- The cache, with a batch loaded if it is empty. -/
def refill (cache : List (DeathRow H K)) (base cacheCapacity : Nat) : List (DeathRow H K) :=
  if cache.isEmpty then loadBatchFromDb db cache base cacheCapacity else cache

/-- Pop out one block from the front of the queue, `base` is the block number of the first block of
the queue. -/
def popFront : DeathRowQueue H K → Option (DeathRow H K) × DeathRowQueue H K
  | .dbBacked cache cacheCapacity last =>
    let cache := refill db cache base cacheCapacity
    (cache.head?, .dbBacked cache.tail cacheCapacity last)
  | .mem [] deathIndex => (none, .mem [] deathIndex)
  | .mem (row :: deathRows) deathIndex =>
    (some row, .mem deathRows (row.deleted.foldl FinMap.erase deathIndex))

/-- The number of blocks in the pruning window. -/
def len : DeathRowQueue H K → Nat
  | .dbBacked _ _ last => (last.map fun l => l + 1 - base).getD 0
  | .mem deathRows _ => deathRows.length

def isMem : DeathRowQueue H K → Bool
  | .mem _ _ => true
  | .dbBacked _ _ _ => false

/-- The loop of `new_mem`: reads the journal from `block` on, up to the first missing record. `fuel`
is more than the number of records. -/
def readJournal (db : Db H K) (base : Nat) : Nat → Nat → DeathRowQueue H K →
    Option (DeathRowQueue H K)
  | 0, _, _ => none
  | fuel + 1, block, queue =>
    match db.journal block with
    | none => some queue
    | some record => do
      let queue ← queue.importBlock base block record
      readJournal db base fuel (block + 1) queue

/-- A queue with all blocks in memory. -/
def newMem (fuel : Nat) (db : Db H K) (base : Nat) : Option (DeathRowQueue H K) :=
  readJournal db base fuel base (.mem [] .empty)

/-- A queue that is backed by the database, with only a few blocks in memory. -/
def newDbBacked (last : Option Nat) (windowSize : Nat) : DeathRowQueue H K :=
  let cacheCapacity := max 1 (min windowSize defaultMaxBlockConstraint)
  .dbBacked (loadBatchFromDb db [] base cacheCapacity) cacheCapacity last

end DeathRowQueue

/-! ## The window -/

namespace RefWindow

/-- The window of a database. -/
def new (fuel : Nat) (db : Db H K) (windowSize : Nat) (countInsertions : Bool) :
    Option (RefWindow H K) := do
  let base := (db.lastPruned.map (· + 1)).getD 0
  let queue ← if countInsertions then DeathRowQueue.newMem fuel db base
    else some (.newDbBacked db base db.lastCanonical windowSize)
  some ⟨queue, base⟩

variable (w : RefWindow H K)

def windowSize : Nat := w.queue.len w.base

def isEmpty : Bool := w.windowSize == 0

/-- The hash of the next pruning block. -/
def nextHash (db : Db H K) : Option H × RefWindow H K :=
  match w.queue with
  | .dbBacked cache cacheCapacity last =>
    let cache := DeathRowQueue.refill db cache w.base cacheCapacity
    (cache.head?.map DeathRow.hash, { w with queue := .dbBacked cache cacheCapacity last })
  | .mem deathRows _ => (deathRows.head?.map DeathRow.hash, w)

/-- Prune next block. Expects at least one block in the window. Adds changes to `commit`. -/
def pruneOne (db : Db H K) (commit : CommitSet H K V) :
    Except Error Unit × RefWindow H K × CommitSet H K V :=
  match w.queue.popFront db w.base with
  | (some pruned, queue) =>
    (.ok (), ⟨queue, w.base + 1⟩,
      { data := { commit.data with deleted := commit.data.deleted ++ pruned.deleted }
        metaInserted := commit.metaInserted ++ [.lastPruned w.base]
        metaDeleted := commit.metaDeleted ++ [w.base] })
  | (none, queue) => (.error .blockUnavailable, { w with queue := queue }, commit)

/-- The base of the window with a block of the number at its end, if it is the next one. -/
def baseFor (number : Nat) : Option Nat :=
  if w.base = 0 ∧ w.isEmpty ∧ number > 0 then
    -- assume that parent was canonicalized
    some number
  else if w.base + w.windowSize ≠ number then none
  else some w.base

/-- Add a change set to the window. Creates a journal record and pushes it to `commit`. -/
def noteCanonical (hash : H) (number : Nat) (commit : CommitSet H K V) :
    Option (Except Error Unit × RefWindow H K × CommitSet H K V) :=
  match w.baseFor number with
  | none => some (.error .invalidBlockNumber, w, commit)
  | some base => do
    let inserted := if w.queue.isMem then commit.data.inserted.map Prod.fst else []
    let record : JournalRecord H K := ⟨hash, inserted, commit.data.deleted⟩
    let queue ← w.queue.importBlock base number record
    some (.ok (), ⟨queue, base⟩,
      { commit with
        data := { commit.data with deleted := [] }
        metaInserted := commit.metaInserted ++ [.journal number record] })

end RefWindow

end StateDb.Pruning
