-- SUMMARY: The window of non-canonical blocks: levels of overlays, values, pins, journal.
import SubstrateIpfs.Base.FinMap
import SubstrateIpfs.Base.Run

/-!
# The non-canonical overlay

Blocks that are not canonical yet are kept in levels, one level for each block number
after the last canonicalized block. The values that the blocks insert are shared and
reference counted. A block that is discarded while it is pinned, or while a block above
it is, is kept aside until it is unpinned.

Every block is journaled in the database under its number and an index that is unique in
its level; the overlay is rebuilt from the journal at the start.

A call that panics (`expect`) has no result.
-/

namespace StateDb

/-- `MAX_BLOCKS_PER_LEVEL`. -/
def maxBlocksPerLevel : Nat := 32

/-- The errors of the calls of the overlay. -/
inductive StateDbError where
  /-- Trying to canonicalize invalid block. -/
  | invalidBlock
  /-- Trying to insert block with invalid number. -/
  | invalidBlockNumber
  /-- Trying to insert block with unknown parent. -/
  | invalidParent
  /-- Too many unfinalized sibling blocks inserted. -/
  | tooManySiblingBlocks (number : Nat)
  /-- Trying to insert existing block. -/
  | blockAlreadyExists
  deriving DecidableEq

/-- A set of state node changes. -/
structure ChangeSet (K V : Type) where
  inserted : List (K × V)
  deleted : List K

structure JournalRecord (H K V : Type) where
  hash : H
  parentHash : H
  inserted : List (K × V)
  deleted : List K

/-- What is written to the metadata: the last canonicalized block, or the journal record of a
block under its number and its index. -/
inductive MetaEntry (H K V : Type) where
  | lastCanonical (hash : H) (number : Nat)
  | journal (key : Nat × Nat) (record : JournalRecord H K V)

/-- A set of changes to the backing database. Of the metadata only journal records are deleted. -/
structure CommitSet (H K V : Type) where
  data : ChangeSet K V
  metaInserted : List (MetaEntry H K V)
  metaDeleted : List (Nat × Nat)

/-- `CommitSet::default`. -/
def CommitSet.empty {H K V : Type} : CommitSet H K V := ⟨⟨[], []⟩, [], []⟩

structure BlockOverlay (H K : Type) where
  hash : H
  journalIndex : Nat
  journalKey : Nat × Nat
  inserted : List K
  deleted : List K
  deriving DecidableEq

structure OverlayLevel (H K : Type) where
  blocks : List (BlockOverlay H K)
  /-- Bitmask of available journal indicies. -/
  usedIndicies : BitVec 64

/-- The maps that discarding works on. -/
structure Books (H K V : Type) where
  parents : FinMap H H
  /-- Ref counted. -/
  values : FinMap K (Nat × V)
  pinnedInsertions : FinMap H (List K × Nat)

structure Overlay (H K V : Type) extends Books H K V where
  lastCanonicalized : Option (H × Nat)
  levels : List (OverlayLevel H K)
  /-- Would be deleted but kept around because block is pinned, ref counted. -/
  pinned : FinMap H Nat
  pinnedCanonicalized : List H

variable {H K V : Type}

/-- The overlay over an empty database. -/
def Overlay.empty : Overlay H K V where
  parents := .empty
  values := .empty
  pinnedInsertions := .empty
  lastCanonicalized := none
  levels := []
  pinned := .empty
  pinnedCanonicalized := []

/-- The state of the loop of `canonicalize`: the overlay, and what is collected for the database. -/
abbrev Canonicalization (H K V : Type) := Overlay H K V × ChangeSet K V × List (Nat × Nat)

/-! ## Levels -/

/-- `u64::trailing_ones`. -/
def trailingOnes (v : BitVec 64) : Nat := ((List.range 64).find? fun i => !v.getLsbD i).getD 64

namespace OverlayLevel

def new : OverlayLevel H K := ⟨[], 0⟩

def push (level : OverlayLevel H K) (overlay : BlockOverlay H K) : OverlayLevel H K :=
  ⟨level.blocks ++ [overlay], level.usedIndicies ||| (1#64 <<< overlay.journalIndex)⟩

def availableIndex (level : OverlayLevel H K) : Nat := trailingOnes level.usedIndicies

def remove (level : OverlayLevel H K) (index : Nat) :
    Option (BlockOverlay H K × OverlayLevel H K) :=
  level.blocks[index]?.map fun overlay =>
    (overlay, ⟨level.blocks.eraseIdx index,
      level.usedIndicies &&& ~~~(1#64 <<< overlay.journalIndex)⟩)

end OverlayLevel

/-! ## Values -/

section
variable [DecidableEq K]

/-- One round of `insert_values`. -/
def insertValue (values : FinMap K (Nat × V)) (kv : K × V) : FinMap K (Nat × V) :=
  match values.get? kv.1 with
  | some (counter, value) => values.insert kv.1 (counter + 1, value)
  | none => values.insert kv.1 (1, kv.2)

def insertValues (values : FinMap K (Nat × V)) (inserted : List (K × V)) : FinMap K (Nat × V) :=
  inserted.foldl insertValue values

/-- One round of `discard_values`. -/
def discardValue (values : FinMap K (Nat × V)) (k : K) : FinMap K (Nat × V) :=
  match values.get? k with
  | some (counter, value) =>
    if counter - 1 = 0 then values.erase k else values.insert k (counter - 1, value)
  | none => values

def discardValues (values : FinMap K (Nat × V)) (inserted : List K) : FinMap K (Nat × V) :=
  inserted.foldl discardValue values

end

variable [DecidableEq H] [DecidableEq K]

/-! ## Discarding -/

variable (b : Books H K V)

/-- Drops a block and its values. -/
def Books.discard (overlay : BlockOverlay H K) : Books H K V :=
  { b with
    parents := b.parents.erase overlay.hash
    values := discardValues b.values overlay.inserted }

/-- A block that was taken out of its level is saved to be discarded later if there are pins on it
or above it, and discarded immediately if there are not. -/
def Books.settle (overlay : BlockOverlay H K) (numPinned : Nat) : Books H K V :=
  if numPinned ≠ 0 then
    { b with
      pinnedInsertions := b.pinnedInsertions.insert overlay.hash (overlay.inserted, numPinned) }
  else b.discard overlay

/-- The number of pins with the block itself, `below` the one without. -/
def withSelf (pinned : FinMap H Nat) (hash : H) (numPinned : Nat) : Nat :=
  if (pinned.get? hash).isSome then numPinned + 1 else numPinned

/-- The position of the first block whose parent is `hash`. Every block has to have a parent. -/
def childPosition (parents : FinMap H H) (hash : H) : List (BlockOverlay H K) → Option (Option Nat)
  | [] => some none
  | overlay :: blocks => do
    let parent ← parents.get? overlay.hash
    if parent = hash then some (some 0)
    else
      let i ← childPosition parents hash blocks
      some (i.map (· + 1))

section
variable (pinned : FinMap H Nat)

/-- The loop of `discard_descendants` over the children of `hash` in one level. `recurse` discards
the descendants of a child in the levels above; each round takes a block out of the level, so
there are at most as many rounds as blocks. -/
def discardChildren
    (recurse : List (OverlayLevel H K) → Books H K V → H →
      Option (Nat × List (OverlayLevel H K) × Books H K V)) :
    Nat → OverlayLevel H K → List (OverlayLevel H K) → Books H K V → H →
      Option (Nat × List (OverlayLevel H K) × Books H K V)
  | 0, level, remainder, b, _ => some (0, level :: remainder, b)
  | fuel + 1, level, remainder, b, hash => do
    match ← childPosition b.parents hash level.blocks with
    | none => some (0, level :: remainder, b)
    | some i =>
      let (overlay, level) ← level.remove i
      let (numPinned, remainder, b) ← recurse remainder b overlay.hash
      let numPinned := withSelf pinned overlay.hash numPinned
      let (pinnedChildren, levels, b) ←
        discardChildren recurse fuel level remainder (b.settle overlay numPinned) hash
      some (numPinned + pinnedChildren, levels, b)

/-- Takes the descendants of `hash` out of the levels. Returns the number of pins on them. The first
argument is the number of levels. -/
def discardDescendants :
    Nat → List (OverlayLevel H K) → Books H K V → H →
      Option (Nat × List (OverlayLevel H K) × Books H K V)
  | 0, levels, b, _ => some (0, levels, b)
  | _ + 1, [], b, _ => some (0, [], b)
  | depth + 1, level :: remainder, b, hash =>
    discardChildren pinned (discardDescendants depth) level.blocks.length level remainder b hash

end

/-- The journal keys of the descendants of `hash`. -/
def discardJournals (parents : FinMap H H) :
    List (OverlayLevel H K) → H → Option (List (Nat × Nat))
  | [], _ => some []
  | level :: above, hash => do
    let keys ← level.blocks.mapM fun overlay => do
      let parent ← parents.get? overlay.hash
      if parent = hash then
        let keys ← discardJournals parents above overlay.hash
        some (overlay.journalKey :: keys)
      else some []
    some keys.flatten

/-! ## Pins -/

namespace Overlay
variable (o : Overlay H K V)

/-- Pin state values in memory. -/
def pin (hash : H) : Overlay H K V :=
  { o with pinned := o.pinned.insert hash (((o.pinned.get? hash).getD 0 + 1) % 2 ^ 32) }

end Overlay

/-- What the pinned insertions weigh in the loop of `unpin`: every round makes them lighter. -/
def Books.weight : Nat := b.pinnedInsertions.total fun _ e => e.2 + 1

/-- One round of the loop of `unpin`, for a block that is kept aside. -/
def Books.release (hash : H) (inserted : List K) (count : Nat) : Books H K V :=
  if count - 1 = 0 then
    { parents := b.parents.erase hash
      values := discardValues b.values inserted
      pinnedInsertions := b.pinnedInsertions.erase hash }
  else
    { b with pinnedInsertions := b.pinnedInsertions.insert hash (inserted, count - 1) }

theorem Books.weight_release {b : Books H K V} {hash : H} {ins : List K} {c : Nat}
    (h : b.pinnedInsertions.get? hash = some (ins, c)) :
    (b.release hash ins c).weight < b.weight := by
  have hwt : b.weight = c + 1 + (b.pinnedInsertions.erase hash).total fun _ e => e.2 + 1 :=
    FinMap.total_erase h
  unfold release
  split
  · show (b.pinnedInsertions.erase hash).total _ < _
    omega
  · show (b.pinnedInsertions.insert hash (ins, c - 1)).total _ < _
    rw [FinMap.total_insert]
    omega

/-- The loop of `unpin`: along the parents, as long as they are kept aside. -/
def Books.unpinFrom (b : Books H K V) (hash : H) : Books H K V :=
  match _h : b.pinnedInsertions.get? hash with
  | none => b
  | some (inserted, count) =>
    match b.parents.get? hash with
    | none => b.release hash inserted count
    | some parent => (b.release hash inserted count).unpinFrom parent
  termination_by b.weight
  decreasing_by exact b.weight_release ‹_›

namespace Overlay
variable (o : Overlay H K V)

variable (levels : List (OverlayLevel H K)) (hash : H) (number : Nat)

/-- Discard pinned state. -/
def unpin : Overlay H K V :=
  match o.pinned.get? hash with
  | none => o
  | some refs =>
    if (refs + (2 ^ 32 - 1)) % 2 ^ 32 = 0 then
      { o with toBooks := o.toBooks.unpinFrom hash, pinned := o.pinned.erase hash }
    else { o with pinned := o.pinned.insert hash ((refs + (2 ^ 32 - 1)) % 2 ^ 32) }

/-- Confirm that all changes made to commit sets are on disk. Allows for temporarily pinned blocks
to be released. -/
def sync : Overlay H K V :=
  { o.pinnedCanonicalized.foldl unpin { o with pinnedCanonicalized := [] } with
    pinnedCanonicalized := [] }

/-! ## Insertion -/

def frontBlockNumber : Nat :=
  match o.lastCanonicalized with
  | some (_, n) => n + 1
  | none => 0

/-- The checks of `insert` on number and parent. The first block says which block is taken to be
canonical. -/
def checkParent (parentHash : H) : Except StateDbError (Option (H × Nat)) :=
  if o.levels.isEmpty ∧ o.lastCanonicalized = none ∧ number > 0 then
    -- assume that parent was canonicalized
    .ok (some (parentHash, number - 1))
  else
    match o.lastCanonicalized with
    | none => .ok none
    | some (h, n) =>
      if number < o.frontBlockNumber ∨ number > o.frontBlockNumber + o.levels.length then
        .error .invalidBlockNumber
      else if number = o.frontBlockNumber then
        -- check for valid parent if inserting on second level or higher
        if h = parentHash ∧ n = number - 1 then .ok none else .error .invalidParent
      else if (o.parents.get? parentHash).isSome then .ok none
      else .error .invalidParent

/-- The levels with a place for the new block, and the index of its level. -/
def makeRoom : List (OverlayLevel H K) × Nat :=
  if o.levels.isEmpty ∨ number = o.frontBlockNumber + o.levels.length then
    (o.levels ++ [OverlayLevel.new], o.levels.length)
  else (o.levels, number - o.frontBlockNumber)

/-- Puts a block into a level. -/
def addBlock (i : Nat) (level : OverlayLevel H K) (hash : H) (number : Nat) (parentHash : H)
    (changeset : ChangeSet K V) : Overlay H K V :=
  let index := level.availableIndex
  let overlay : BlockOverlay H K :=
    ⟨hash, index, (number, index), changeset.inserted.map Prod.fst, changeset.deleted⟩
  { o with
    levels := levels.set i (level.push overlay)
    parents := o.parents.insert hash parentHash
    values := insertValues o.values changeset.inserted }

/-- Insert a new block into the overlay. If inserted on the second level or lover expects parent to
be present in the window. -/
def insert (parentHash : H) (changeset : ChangeSet K V) :
    Option (Except StateDbError (CommitSet H K V) × Overlay H K V) :=
  match o.checkParent number parentHash with
  | .error e => some (.error e, o)
  | .ok assumed =>
    let (levels, i) := o.makeRoom number
    let last := assumed.or o.lastCanonicalized
    match levels[i]? with
    | none => none
    | some level =>
      if level.blocks.length ≥ maxBlocksPerLevel then
        some (.error (.tooManySiblingBlocks number),
          { o with levels := levels, lastCanonicalized := last })
      else if level.blocks.any fun overlay => overlay.hash = hash then
        some (.error .blockAlreadyExists, { o with levels := levels, lastCanonicalized := last })
      else
        let record : JournalRecord H K V :=
          ⟨hash, parentHash, changeset.inserted, changeset.deleted⟩
        let entries := (assumed.toList.map fun (h, n) => .lastCanonical h n) ++
          [.journal (number, level.availableIndex) record]
        let commit : CommitSet H K V := { (CommitSet.empty : CommitSet H K V) with
          metaInserted := entries }
        some (.ok commit,
          { o.addBlock levels i level hash number parentHash changeset with
            lastCanonicalized := last })

/-! ## Canonicalization -/

/-- One block of the first level in the loop of `canonicalize`. `index` is the position of the block
that is canonicalized. -/
def canonicalizeOne (index : Nat) :
    Canonicalization H K V → BlockOverlay H K × Nat → Option (Canonicalization H K V)
  | (o, data, journals), (overlay, i) =>
    if i = index then do
      -- that's the one we need to canonicalize
      let inserted ← overlay.inserted.mapM fun k => (o.values.get? k).map fun v => (k, v.2)
      let books := o.toBooks.settle overlay (withSelf o.pinned overlay.hash 0)
      some ({ o with toBooks := books },
        ⟨data.inserted ++ inserted, data.deleted ++ overlay.deleted⟩,
        journals ++ [overlay.journalKey])
    else do
      -- discard this overlay
      let keys ← discardJournals o.parents o.levels overlay.hash
      let (pinnedChildren, levels, books) ←
        discardDescendants o.pinned o.levels.length o.levels o.toBooks overlay.hash
      let books := books.settle overlay (withSelf o.pinned overlay.hash pinnedChildren)
      some ({ o with toBooks := books, levels := levels }, data,
        journals ++ keys ++ [overlay.journalKey])

/-- Select a top-level root and canonicalize it. Discards all sibling subtrees and the root. Returns
the block number of the canonicalized block. -/
def canonicalize (commit : CommitSet H K V) :
    Option (Except StateDbError Nat × Overlay H K V × CommitSet H K V) :=
  match o.levels with
  | [] => some (.error .invalidBlock, o, commit)
  | level :: above =>
    match level.blocks.findIdx? fun overlay => overlay.hash = hash with
    | none => some (.error .invalidBlock, { o with levels := above }, commit)
    | some index => do
      -- force pin canonicalized block so that it is no discarded immediately
      let forced := ({ o with levels := above } : Overlay H K V).pin hash
      let start := { forced with pinnedCanonicalized := o.pinnedCanonicalized ++ [hash] }
      let (o, data, journals) ←
        level.blocks.zipIdx.foldlM (canonicalizeOne index) (start, commit.data, [])
      let number := o.frontBlockNumber
      some (.ok number, { o with lastCanonicalized := some (hash, number) },
        { data := data
          metaInserted := commit.metaInserted ++ [.lastCanonical hash number]
          metaDeleted := commit.metaDeleted ++ journals })

/-! ## Reading and reverting -/

/-- Get a value from the node overlay. This searches in every existing changeset. -/
def get (key : K) : Option V := (o.values.get? key).map Prod.snd

/-- Check if the block is in the canonicalization queue. -/
def haveBlock : Bool := (o.parents.get? hash).isSome

/-- Revert a single level. Returns commit set that deletes the journal or `None` if not possible. -/
def revertOne : Option (CommitSet H K V) × Overlay H K V :=
  match o.levels.getLast? with
  | none => (none, o)
  | some level =>
    (some { (CommitSet.empty : CommitSet H K V) with
        metaDeleted := level.blocks.map BlockOverlay.journalKey },
      { o with
        toBooks := level.blocks.foldl Books.discard o.toBooks
        levels := o.levels.dropLast })

/-- Without the last level if it is empty. -/
def trim : List (OverlayLevel H K) :=
  if levels.getLast?.any fun level => level.blocks.isEmpty then levels.dropLast else levels

/-- The last level with a block that has the hash, and the position of the block in it. -/
def locate : Option (Nat × Nat) :=
  levels.zipIdx.reverse.findSome? fun (level, i) =>
    (level.blocks.findIdx? fun overlay => overlay.hash = hash).map fun j => (i, j)

/-- Revert a single block. Returns commit set that deletes the journal or `None` if not possible. -/
def remove (hash : H) : Option (Option (CommitSet H K V) × Overlay H K V) :=
  match locate o.levels hash with
  | none => some (none, { o with levels := trim o.levels })
  | some (i, j) =>
    -- check that it does not have any children
    if i ≠ o.levels.length - 1 ∧ hash ∈ o.parents.values then some (none, o)
    else do
      let level ← o.levels[i]?
      let (overlay, level) ← level.remove j
      some (some { (CommitSet.empty : CommitSet H K V) with metaDeleted := [overlay.journalKey] },
        { o with
          toBooks := o.toBooks.discard overlay
          levels := trim (o.levels.set i level) })

end Overlay

/-! ## Calls -/

/-- The calls of the overlay. -/
inductive Call (H K V : Type) where
  | insert (hash : H) (number : Nat) (parentHash : H) (changeset : ChangeSet K V)
  | canonicalize (hash : H)
  | revertOne
  | remove (hash : H)
  | pin (hash : H)
  | unpin (hash : H)
  | sync

namespace Overlay

/-- The overlay after a call. -/
def call (o : Overlay H K V) : Call H K V → Option (Overlay H K V)
  | .insert hash number parentHash changeset =>
    (o.insert hash number parentHash changeset).map Prod.snd
  | .canonicalize hash => (o.canonicalize hash .empty).map fun r => r.2.1
  | .revertOne => some o.revertOne.2
  | .remove hash => (o.remove hash).map Prod.snd
  | .pin hash => some (o.pin hash)
  | .unpin hash => some (o.unpin hash)
  | .sync => some o.sync

/-- A run stops at a call that panics. -/
def step (o : Option (Overlay H K V)) (c : Call H K V) : Option (Overlay H K V) := o.bind (call · c)

end Overlay

end StateDb
