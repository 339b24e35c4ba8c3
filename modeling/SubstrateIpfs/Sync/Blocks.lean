-- SUMMARY: The blocks being downloaded: ranges that are requested, completed and queued for import.
import SubstrateIpfs.Base.FinMap

/-!
# Blocks being downloaded

Block numbers are split into ranges, each stored under its first number. A range is being
downloaded by some number of peers, or complete, or queued for import. Block numbers are
natural numbers. Lengths are read as `u32`, as the code does.
-/

namespace Sync

variable {P H B : Type}

/-- Blocks as they come from the wire. -/
class WireBlock (B : Type) (H : outParam Type) where
  hash : B → H

/-- Block data with origin. -/
structure BlockData (P B : Type) where
  block : B
  /-- The peer, we received this from. -/
  origin : Option P

def asU32 (n : ℕ) : ℕ := n % 2 ^ 32

inductive BlockRangeState (P B : Type) where
  | downloading (len downloading : ℕ)
  | complete (blocks : List (BlockData P B))
  | queued (len : ℕ)

def BlockRangeState.len : BlockRangeState P B → ℕ
  | .downloading len _ => len
  | .complete blocks => asU32 blocks.length
  | .queued len => len

/-- The blocks from the peer. -/
def BlockRangeState.received (blocks : List B) (who : P) : BlockRangeState P B :=
  .complete (blocks.map fun block => ⟨block, some who⟩)

/-- A collection of blocks being downloaded. -/
structure BlockCollection (P H B : Type) where
  /-- Downloaded blocks. -/
  blocks : OrderedMap ℕ (BlockRangeState P B)
  peerRequests : FinMap P ℕ
  /-- Block ranges downloaded and queued for import. Maps the hash of the first block to the first
  number and the number after the last. -/
  queuedBlocks : FinMap H (ℕ × ℕ)

/-- A range of numbers without its end, and how many peers download it already. -/
structure Candidate where
  start : ℕ
  stop : ℕ
  downloading : ℕ

namespace BlockCollection

def new : BlockCollection P H B := ⟨.empty, .empty, .empty⟩

/-- Insert a set of blocks into collection. -/
def insert (self : BlockCollection P H B) (start : ℕ) (blocks : List B) (who : P) :
    BlockCollection P H B :=
  if blocks.isEmpty then
    self
  else
    let inserted := { self with blocks := self.blocks.insert start (.received blocks who) }
    match self.blocks.get? start with
    | some (.complete existing) =>
      -- ignored block data already downloaded
      if blocks.length ≤ existing.length then self else inserted
    | _ => inserted

/-- A range that may be downloaded by one more peer. -/
def parallel (maxParallel : ℕ) : ℕ × BlockRangeState P B → Option Candidate
  | (start, .downloading len downloading) =>
    if downloading < maxParallel then some ⟨start, start + len, downloading⟩ else none
  | _ => none

/-- The loop over the ranges, after the first one. -/
def findAfter (count maxParallel : ℕ) (prev : ℕ × BlockRangeState P B) :
    List (ℕ × BlockRangeState P B) → Candidate
  | [] =>
    -- last range
    (parallel maxParallel prev).getD ⟨prev.1 + prev.2.len, prev.1 + prev.2.len + count, 0⟩
  | next :: rest =>
    match parallel maxParallel prev with
    | some candidate => candidate
    | none =>
      if prev.1 + prev.2.len < next.1 then
        -- gap
        ⟨prev.1 + prev.2.len, min next.1 (prev.1 + prev.2.len + count), 0⟩
      else
        findAfter count maxParallel next rest

/-- The range to be downloaded next. -/
def find (firstDifferent count maxParallel : ℕ) : List (ℕ × BlockRangeState P B) → Candidate
  | [] => ⟨firstDifferent, firstDifferent + count, 0⟩
  | first :: rest =>
    if firstDifferent < first.1 then
      -- gap at the start
      ⟨firstDifferent, min (firstDifferent + count) first.1, 0⟩
    else
      findAfter count maxParallel first rest

section
variable [DecidableEq P]

/-- Returns a set of block hashes that require a header download. The returned set is marked as
being downloaded. An empty range is a panic. -/
def neededBlocks (self : BlockCollection P H B) (who : P)
    (count peerBest common maxParallel maxAhead : ℕ) :
    Option (Option (ℕ × ℕ) × BlockCollection P H B) :=
  if peerBest ≤ common then
    some (none, self)
  else
    -- first block number that we need to download
    let firstDifferent := common + 1
    let range := find firstDifferent (asU32 count) maxParallel self.blocks.entries
    -- crop to peers best
    if peerBest < range.start then
      some (none, self)
    else
      let stop := min (peerBest + 1) range.stop
      if self.blocks.entries.head?.any fun first => first.1 + maxAhead < range.start then
        -- too far ahead
        some (none, self)
      else if stop ≤ range.start then
        none
      else
        some (some (range.start, stop),
          { self with
            peerRequests := self.peerRequests.insert who range.start
            blocks := self.blocks.insert range.start
              (.downloading (stop - range.start) (range.downloading + 1)) })

def clearPeerDownload (self : BlockCollection P H B) (who : P) : BlockCollection P H B :=
  match self.peerRequests.get? who with
  | none => self
  | some start =>
    let self := { self with peerRequests := self.peerRequests.erase who }
    match self.blocks.get? start with
    | some (.downloading len downloading) =>
      if 1 < downloading then
        { self with blocks := self.blocks.insert start (.downloading len (downloading - 1)) }
      else
        { self with blocks := self.blocks.erase start }
    | _ => self

end

section
variable [DecidableEq H]

/-- The loop of `readyBlocks`: the ranges it leaves, the queued blocks and the blocks that are
ready. -/
def readyLoop [WireBlock B H] : ℕ → List (ℕ × BlockRangeState P B) → FinMap H (ℕ × ℕ) →
    List (ℕ × BlockRangeState P B) × FinMap H (ℕ × ℕ) × List (BlockData P B)
  | prev, (start, .complete blocks) :: rest, queued =>
    if prev < start then
      ((start, .complete blocks) :: rest, queued, [])
    else
      let len := asU32 blocks.length
      let queued := match blocks.head? with
        | some first => queued.insert (WireBlock.hash first.block) (start, start + len)
        | none => queued
      let (rest, queued, ready) := readyLoop (start + len) rest queued
      ((start, .queued len) :: rest, queued, blocks ++ ready)
  | prev, (start, .queued len) :: rest, queued =>
    if prev < start then
      ((start, .queued len) :: rest, queued, [])
    else
      let (rest, queued, ready) := readyLoop prev rest queued
      ((start, .queued len) :: rest, queued, ready)
  | _, (start, .downloading len downloading) :: rest, queued =>
    ((start, .downloading len downloading) :: rest, queued, [])
  | _, [], queued => ([], queued, [])

theorem map_fst_readyLoop [WireBlock B H] (p : ℕ) (rs : List (ℕ × BlockRangeState P B))
    (q : FinMap H (ℕ × ℕ)) :
    (readyLoop p rs q).1.map Prod.fst = rs.map Prod.fst := by
  fun_induction readyLoop p rs q <;> simp_all

/-- Get a valid chain of blocks ordered in descending order and ready for importing. For each
returned block hash `clearQueued` must be called at some later stage. -/
def readyBlocks [WireBlock B H] (self : BlockCollection P H B) (fromNumber : ℕ) :
    List (BlockData P B) × BlockCollection P H B :=
  let result := readyLoop fromNumber self.blocks.entries self.queuedBlocks
  (result.2.2, { self with
    blocks := self.blocks.withValues result.1 (map_fst_readyLoop ..)
    queuedBlocks := result.2.1 })

def clearQueued (self : BlockCollection P H B) (hash : H) : BlockCollection P H B :=
  match self.queuedBlocks.get? hash with
  | none => self
  | some (start, stop) =>
    { self with
      queuedBlocks := self.queuedBlocks.erase hash
      blocks := (List.range' start (stop - start)).foldl OrderedMap.erase self.blocks }

end

end BlockCollection

end Sync
