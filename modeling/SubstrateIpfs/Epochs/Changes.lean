-- SUMMARY: Epoch changes across all forks, looked up for children and pruned at finality.
import SubstrateIpfs.Base.FinMap
import SubstrateIpfs.ForkTree.Lookup

/-!
# Epoch changes

The first block of every epoch announces the next one. The announced epochs of all forks
are kept in a fork tree under the blocks that announce them, with their start and end
slots only. The data of the epochs is in a map beside it. The first epoch of a chain
starts at its first block, which announces the second one, and both are kept under it.

As in the fork tree, a call returns its result and what it leaves behind, and `none` is a
panic.
-/

namespace Epochs

variable {H N E Slot Err : Type}

/-! ## Epochs -/

/-- Epoch data. The slots covered by an epoch are `startSlot .. endSlot`. -/
class Epoch (E : Type) (Slot : outParam Type) where
  startSlot : E → Slot
  endSlot : E → Slot

/-- Header of epoch data, consisting of start and end slot. -/
structure EpochHeader (Slot : Type) where
  startSlot : Slot
  endSlot : Slot
  deriving DecidableEq

def EpochHeader.ofEpoch [Epoch E Slot] (epoch : E) : EpochHeader Slot where
  startSlot := Epoch.startSlot epoch
  endSlot := Epoch.endSlot epoch

/-- Position of the epoch identifier. -/
inductive EpochIdentifierPosition where
  /-- The identifier points to a genesis epoch `epoch_0`. -/
  | genesis0
  /-- The identifier points to a genesis epoch `epoch_1`. -/
  | genesis1
  | regular
  deriving DecidableEq

structure EpochIdentifier (H N : Type) where
  position : EpochIdentifierPosition
  /-- Hash of the block when the epoch is signaled. -/
  hash : H
  /-- Number of the block when the epoch is signaled. -/
  number : N
  deriving DecidableEq

/-- The viable epoch under which a block can be verified. -/
inductive ViableEpoch (E : Type) where
  | unimportedGenesis (epoch : E)
  | signaled (epoch : E)
  deriving DecidableEq

/-- Descriptor for a viable epoch. -/
inductive ViableEpochDescriptor (H N Slot : Type) where
  /-- The epoch is an unimported genesis, with given start slot number. -/
  | unimportedGenesis (slot : Slot)
  /-- The epoch is signaled and has been imported, with given identifier and header. -/
  | signaled (identifier : EpochIdentifier H N) (header : EpochHeader Slot)
  deriving DecidableEq

/-- Persisted epoch stored in `EpochChanges`. -/
inductive PersistedEpoch (E : Type) where
  | genesis (epoch0 epoch1 : E)
  | regular (epoch : E)
  deriving DecidableEq

/-- Persisted epoch header stored in the fork tree. -/
inductive PersistedEpochHeader (Slot : Type) where
  | genesis (epoch0 epoch1 : EpochHeader Slot)
  | regular (epoch : EpochHeader Slot)

def PersistedEpoch.header [Epoch E Slot] : PersistedEpoch E → PersistedEpochHeader Slot
  | .genesis epoch0 epoch1 => .genesis (.ofEpoch epoch0) (.ofEpoch epoch1)
  | .regular epoch => .regular (.ofEpoch epoch)

/-- Hashes are bytes. The first one can be changed. -/
class HashBytes (H : Type) where
  modifyFirst : (UInt8 → UInt8) → H → H

/-- Flip the first bit of the parent hash to get a hash which has not been in the chain before. -/
def fakeHeadHash [HashBytes H] (parentHash : H) : H :=
  HashBytes.modifyFirst (· ^^^ 0b10000000) parentHash

end Epochs

open Epochs

/-- Tree of all epoch changes across all seen forks. -/
structure EpochChanges (H N E Slot : Type) where
  inner : ForkTree H N (PersistedEpochHeader Slot)
  epochs : FinMap (H × N) (PersistedEpoch E)

namespace EpochChanges

variable {H N E Slot Err : Type}

def new : EpochChanges H N E Slot := ⟨.new, .empty⟩

/-! ## Pruning -/

section
variable [DecidableEq H] [LinearOrder N] [LinearOrder Slot]
  (descendentOfBuilder : Option (H × H) → H → H → Except Err Bool)

/-- The announced epoch has started at the slot. -/
def hasStarted (slot : Slot) : PersistedEpochHeader Slot → Bool
  | .genesis _ epoch1 => epoch1.startSlot ≤ slot
  | .regular epoch => epoch.startSlot ≤ slot

/-- Prune out finalized epochs, except for the ancestor of the finalized block, which was authored
at the given slot. -/
def pruneFinalized (self : EpochChanges H N E Slot) (hash : H) (number : N) (slot : Slot) :
    Option (Except (ForkTree.Error Err) Unit × EpochChanges H N E Slot) := do
  match ← self.inner.prune (descendentOfBuilder none) hash number (hasStarted slot) with
  | (.error error, inner) => return (.error error, { self with inner := inner })
  | (.ok removed, inner) =>
    let epochs := removed.foldl (fun epochs (hash, number, _) => epochs.erase (hash, number))
      self.epochs
    return (.ok (), ⟨inner, epochs⟩)

/-! ## Looking up -/

section
omit [LinearOrder Slot]

/-- The epoch with the given identifier. -/
def epoch (self : EpochChanges H N E Slot) (id : EpochIdentifier H N) : Option E := do
  match ← self.epochs.get? (id.hash, id.number), id.position with
  | .genesis epoch0 _, .genesis0 => some epoch0
  | .genesis _ epoch1, .genesis1 => some epoch1
  | .regular epoch, .regular => some epoch
  | _, _ => none

/-- The viable epoch with given descriptor. -/
def viableEpoch (self : EpochChanges H N E Slot) (makeGenesis : Slot → E) :
    ViableEpochDescriptor H N Slot → Option (ViableEpoch E)
  | .unimportedGenesis slot => some (.unimportedGenesis (makeGenesis slot))
  | .signaled identifier _ => (self.epoch identifier).map .signaled

/-- The epoch data from an epoch descriptor. -/
def epochData (self : EpochChanges H N E Slot) (makeGenesis : Slot → E) :
    ViableEpochDescriptor H N Slot → Option E
  | .unimportedGenesis slot => some (makeGenesis slot)
  | .signaled identifier _ => self.epoch identifier

end

section
omit [DecidableEq H] [LinearOrder N]

/-- The start slot of the epoch was before the slot of our block. The genesis special-case doesn't
need to look at `epoch_1`. -/
def isLive (slot : Slot) : PersistedEpochHeader Slot → Bool
  | .genesis epoch0 _ => epoch0.startSlot ≤ slot
  | .regular epoch => epoch.startSlot ≤ slot

/-- Which of the internal epochs of a genesis node to use is based on their start slot. -/
def position (slot : Slot) :
    PersistedEpochHeader Slot → EpochIdentifierPosition × EpochHeader Slot
  | .genesis epoch0 epoch1 =>
    if epoch1.startSlot ≤ slot then (.genesis1, epoch1) else (.genesis0, epoch0)
  | .regular epoch => (.regular, epoch)

/-- The descriptor of the epoch that a node holds for the slot. -/
def descriptor (slot : Slot) (node : ForkTree.Node H N (PersistedEpochHeader Slot)) :
    ViableEpochDescriptor H N Slot :=
  .signaled ⟨(position slot node.data).1, node.hash, node.number⟩ (position slot node.data).2

end

variable [Zero N] [One N] [Add N] [HashBytes H]

/-- Finds the epoch for a child of the given block, assuming the given slot number. -/
def epochDescriptorForChildOf (self : EpochChanges H N E Slot) (parentHash : H) (parentNumber : N)
    (slot : Slot) :
    Option (Except (ForkTree.Error Err) (Option (ViableEpochDescriptor H N Slot))) :=
  if parentNumber = 0 then
    -- need to insert the genesis epoch
    some (.ok (some (.unimportedGenesis slot)))
  else
    -- a fake chain head which descends from the parent, so that the parent is looked at too
    let fakeHeadHash := fakeHeadHash parentHash
    let isDescendentOf := descendentOfBuilder (some (fakeHeadHash, parentHash))
    (self.inner.findNodeWhere isDescendentOf fakeHeadHash (parentNumber + 1) (isLive slot)).map
      fun found => found.map fun node => node.map (descriptor slot)

/-- Finds the epoch data for a child of the given block. -/
def epochDataForChildOf (self : EpochChanges H N E Slot) (parentHash : H) (parentNumber : N)
    (slot : Slot) (makeGenesis : Slot → E) : Option (Except (ForkTree.Error Err) (Option E)) :=
  (self.epochDescriptorForChildOf descendentOfBuilder parentHash parentNumber slot).map
    fun result => result.map fun descriptor => descriptor.bind (self.epochData makeGenesis)

/-! ## Importing -/

/-- Import a new epoch-change, signalled at the given block, which has not been imported yet. -/
def importEpoch [Epoch E Slot] (self : EpochChanges H N E Slot) (hash : H) (number : N)
    (parentHash : H) (epoch : PersistedEpoch E) :
    Option (Except (ForkTree.Error Err) Unit × EpochChanges H N E Slot) := do
  let isDescendentOf := descendentOfBuilder (some (hash, parentHash))
  match ← self.inner.importNode isDescendentOf hash number epoch.header with
  | (.ok _, inner) => return (.ok (), ⟨inner, self.epochs.insert (hash, number) epoch⟩)
  | (.error .duplicate, inner) => return (.ok (), ⟨inner, self.epochs.insert (hash, number) epoch⟩)
  | (.error error, inner) => return (.error error, { self with inner := inner })

end

end EpochChanges
