-- SUMMARY: The bags list: nodes and bags in storage, insertion, removal, moves, iteration, checks.
import SubstrateIpfs.Base.FinMap
import SubstrateIpfs.Base.Run

/-!
# The bags list

A sorted list of accounts, sorted up to bags: every account is in the bag of its score,
and each bag is a doubly linked list. Nodes and bags are separate storage records; a bag
has the first and the last node of its list, a node has its neighbours.

Storage is a record of the two storage maps and the counter of the first one. What logs
an error and goes on (`defensive!`) goes on here; `expect` is a call that has no result.
-/

namespace BagsList

/-- `u32::MAX`. -/
def u32Max : Nat := 2 ^ 32 - 1

/-- A count as `u32`. -/
def asU32 (n : Nat) : Nat := n % 2 ^ 32

/-- `ensure!`. -/
def ensure (b : Bool) (msg : String) : Except String Unit := if b then .ok () else .error msg

/-! ## Thresholds -/

/-- The upper thresholds of the bags. They are strictly increasing (`integrity_test`). -/
structure Thresholds (S : Type) [LinearOrder S] where
  list : List S
  sorted : list.Pairwise (· < ·)

section
variable {S : Type} [LinearOrder S] [OrderTop S]

/-- `partition_point` of a slice that has the elements with `pred` in front of the others. -/
def partitionPoint (l : List S) (pred : S → Bool) : Nat := (l.takeWhile pred).length

/-- Given a certain score, to which bag does it belong to? -/
def notionalBagFor (thresholds : Thresholds S) (score : S) : S :=
  let idx := partitionPoint thresholds.list fun threshold => decide (threshold < score)
  thresholds.list[idx]?.getD ⊤

/-- The thresholds, with the greatest score as the last one. -/
def Thresholds.withTop (thresholds : Thresholds S) : List S :=
  if thresholds.list.getLast? = some ⊤ then thresholds.list else thresholds.list ++ [⊤]

end

/-! ## Storage -/

structure Node (K S : Type) where
  id : K
  prev : Option K
  next : Option K
  bagUpper : S
  score : S
  deriving DecidableEq

/-- A bag in memory. -/
structure Bag (K S : Type) where
  head : Option K
  tail : Option K
  bagUpper : S

/-- The storage of the pallet. The upper threshold of a bag is not stored with it. -/
structure Lists (K S : Type) where
  listNodes : FinMap K (Node K S)
  counterForListNodes : Nat
  listBags : S → Option (Option K × Option K)

inductive ListError where
  | duplicate
  | notHeavier
  | notInSameBag
  | nodeNotFound
  deriving DecidableEq

variable {K S : Type}

namespace Lists

def empty : Lists K S := ⟨.empty, 0, fun _ => none⟩

variable [DecidableEq K]

variable (s : Lists K S)

/-- `Node::get`. -/
def getNode (id : K) : Option (Node K S) := s.listNodes.get? id

def contains (id : K) : Bool := (s.getNode id).isSome

/-- `Node::put`. The map counts its entries. -/
def putNode (node : Node K S) : Lists K S :=
  { s with
    listNodes := s.listNodes.insert node.id node
    counterForListNodes :=
      if s.contains node.id then s.counterForListNodes else min (s.counterForListNodes + 1) u32Max }

/-- `Node::remove_from_storage_unchecked`. -/
def removeNode (node : Node K S) : Lists K S :=
  { s with
    listNodes := s.listNodes.erase node.id
    counterForListNodes :=
      if s.contains node.id then s.counterForListNodes - 1 else s.counterForListNodes }

/-- A stored node gets another `next`, if it is there. -/
def mutateNext (id next : Option K) : Lists K S :=
  match id.bind s.getNode with
  | none => s
  | some node => s.putNode { node with next := next }

/-- A stored node gets another `prev`, if it is there. -/
def mutatePrev (id prev : Option K) : Lists K S :=
  match id.bind s.getNode with
  | none => s
  | some node => s.putNode { node with prev := prev }

end Lists

open BagsList.Lists

/-! ## Nodes -/

namespace Node

/-- `true` when this voter is a bag head or tail. -/
def isTerminal (node : Node K S) : Bool := node.prev.isNone || node.next.isNone

/-- `true` when this voter is in the wrong bag. -/
def isMisplaced [LinearOrder S] [OrderTop S] (thresholds : Thresholds S) (node : Node K S)
    (currentScore : S) : Bool :=
  decide (notionalBagFor thresholds currentScore ≠ node.bagUpper)

variable [DecidableEq K]

variable (s : Lists K S) (node : Node K S)

/-- `Node::prev`: the previous node in the bag. -/
def prevNode : Option (Node K S) := node.prev.bind s.getNode

/-- `Node::next`: the next node in the bag. -/
def nextNode : Option (Node K S) := node.next.bind s.getNode

/-- Update neighbouring nodes to point to each other. -/
def excise : Lists K S := (s.mutateNext node.prev node.next).mutatePrev node.next node.prev

end Node

/-! ## Bags -/

namespace Bag

section
variable [DecidableEq S]

/-- Get a bag by its upper score. -/
def get (s : Lists K S) (bagUpper : S) : Option (Bag K S) :=
  (s.listBags bagUpper).map fun r => ⟨r.1, r.2, bagUpper⟩

/-- Get a bag by its upper score or make it, appropriately initialized. -/
def getOrMake (s : Lists K S) (bagUpper : S) : Bag K S :=
  (get s bagUpper).getD ⟨none, none, bagUpper⟩

def isEmpty (bag : Bag K S) : Bool := bag.head.isNone && bag.tail.isNone

/-- Put the bag back into storage. -/
def put (s : Lists K S) (bag : Bag K S) : Lists K S :=
  { s with
    listBags := Function.update s.listBags bag.bagUpper
      (if bag.isEmpty then none else some (bag.head, bag.tail)) }

end

variable [DecidableEq K]

variable (s : Lists K S) (bag : Bag K S)

/-- `Bag::head`: the head node in this bag. -/
def headNode : Option (Node K S) := bag.head.bind s.getNode

/-- `Bag::tail`: the tail node in this bag. -/
def tailNode : Option (Node K S) := bag.tail.bind s.getNode

/-- The nodes from one on, at most so many. -/
def walk (s : Lists K S) : Nat → Option (Node K S) → List (Node K S)
  | 0, _ => []
  | _ + 1, none => []
  | n + 1, some node => node :: walk s n (node.nextNode s)

/-- Iterate over the nodes in this bag. An iteration that goes around in a circle is cut off after
the first repetition. -/
def iter : List (Node K S) := walk s (s.listNodes.size + 1) (bag.headNode s)

/-- Check if the bag contains a node with `id`. -/
def contains (id : K) : Bool := (bag.iter s).any fun n => decide (n.id = id)

/-- Insert a node into this bag. The nodes are stored, the bag is not. -/
def insertNodeUnchecked (node : Node K S) : Bag K S × Lists K S :=
  if bag.tail = some node.id then (bag, s)
  else
    -- update this node now, treating it as the new tail.
    let s := s.putNode { node with bagUpper := bag.bagUpper, prev := bag.tail, next := none }
    -- update the previous tail.
    let s := s.mutateNext bag.tail (some node.id)
    ({ bag with
        tail := some node.id
        head := match bag.head with
          | none => some node.id
          | some head => some head }, s)

/-- Insert a new id into this bag. -/
def insertUnchecked [Zero S] (s : Lists K S) (bag : Bag K S) (id : K) (score : S) :
    Bag K S × Lists K S :=
  bag.insertNodeUnchecked s ⟨id, none, none, 0, score⟩

/-- Remove a node from this bag. The neighbours are stored, the bag is not. -/
def removeNodeUnchecked (node : Node K S) : Bag K S × Lists K S :=
  ({ bag with
      tail := if bag.tail = some node.id then node.prev else bag.tail
      head := if bag.head = some node.id then node.next else bag.head }, node.excise s)

/-- Check the internal state of the bag. -/
def tryState : Except String Unit := do
  ensure ((bag.headNode s).elim bag.tail.isNone fun head => (head.prevNode s).isNone)
    "head has a prev"
  ensure ((bag.tailNode s).elim bag.head.isNone fun tail => (tail.nextNode s).isNone)
    "tail has a next"
  ensure (decide ((bag.iter s).map Node.id).Nodup) "duplicate found in bag"

end Bag

/-- Check the internal state of a node. -/
def Node.tryState [DecidableEq K] [DecidableEq S] (s : Lists K S) (node : Node K S) :
    Except String Unit :=
  match Bag.get s node.bagUpper with
  | none => .error "bag not found for node"
  | some expectedBag => do
    ensure (expectedBag.contains s node.id) "node does not exist in the expected bag"
    let nonTerminalCheck := !node.isTerminal && decide (expectedBag.head ≠ some node.id) &&
      decide (expectedBag.tail ≠ some node.id)
    let terminalCheck :=
      decide (expectedBag.head = some node.id) || decide (expectedBag.tail = some node.id)
    ensure (nonTerminalCheck || terminalCheck) "a terminal node is neither its bag head or tail"

/-! ## The list -/

namespace Lists

variable [DecidableEq K] [LinearOrder S] [OrderTop S]

variable (thresholds : Thresholds S) (s : Lists K S)

/-- Iterate over all nodes in all bags in the list. -/
def iter : List (Node K S) := (thresholds.withTop.reverse.filterMap (Bag.get s)).flatMap (·.iter s)

/-- Same as `iter`, but we start from a specific node. All items after this node are returned,
excluding `start` itself. -/
def iterFrom (start : K) : Except ListError (List (Node K S)) :=
  match s.getNode start with
  | none => .error .nodeNotFound
  | some startNode =>
    let startBag := Bag.walk s (s.listNodes.size + 1) (startNode.nextNode s)
    let idx := partitionPoint thresholds.list fun threshold =>
      decide (threshold < startNode.bagUpper)
    let leftoverBags := (thresholds.list.take idx).reverse.filterMap (Bag.get s)
    .ok (startBag ++ leftoverBags.flatMap (·.iter s))

/-- Insert a new id into the appropriate bag in the list. -/
def insert [Zero S] (thresholds : Thresholds S) (s : Lists K S) (id : K) (score : S) :
    Except ListError Unit × Lists K S :=
  if s.contains id then (.error .duplicate, s)
  else
    let bag := Bag.getOrMake s (notionalBagFor thresholds score)
    let r := bag.insertUnchecked s id score
    (.ok (), r.1.put r.2)

/-- Insert several ids into the appropriate bags in the list. Continues with insertions if
duplicates are detected. -/
def insertMany [Zero S] (thresholds : Thresholds S) (s : Lists K S) (ids : List K)
    (scoreOf : K → S) : Nat × Lists K S :=
  ids.foldl (fun r id =>
    match r.2.insert thresholds id (scoreOf id) with
    | (.ok _, s) => (asU32 (r.1 + 1), s)
    | (.error _, s) => (r.1, s)) (0, s)

section
omit [OrderTop S]

/-- One round of `remove_many`: the bags whose head or tail was removed are kept in memory. -/
def removeOne (r : FinMap S (Bag K S) × Nat × Lists K S) (id : K) :
    FinMap S (Bag K S) × Nat × Lists K S :=
  let (bags, count, s) := r
  match s.getNode id with
  | none => (bags, count, s)
  | some node =>
    let count := asU32 (count + 1)
    if !node.isTerminal then (bags, count, (node.excise s).removeNode node)
    else
      let bag := (bags.get? node.bagUpper).getD (Bag.getOrMake s node.bagUpper)
      let r := bag.removeNodeUnchecked s node
      (bags.insert node.bagUpper r.1, count, r.2.removeNode node)

/-- Remove many ids from the list. The bags are put back in the order of their thresholds; as each
has a record of its own, the order does not matter. -/
def removeMany (ids : List K) : Nat × Lists K S :=
  let (bags, count, s) := ids.foldl removeOne (.empty, 0, s)
  (count, bags.values.foldl (fun s bag => bag.put s) s)

/-- Remove an id from the list, returning an error if `id` does not exists. -/
def remove (id : K) : Except ListError Unit × Lists K S :=
  if !s.contains id then (.error .nodeNotFound, s) else (.ok (), (s.removeMany [id]).2)

/-- The first half of `update_position_for`: take the node out of its bag. -/
def takeOut (node : Node K S) : Lists K S :=
  -- not a head or a tail, so we can just cut it out of the list.
  if !node.isTerminal then node.excise s
  else
    match Bag.get s node.bagUpper with
    | some bag =>
      let r := bag.removeNodeUnchecked s node
      r.1.put r.2
    | none => s

end

/-- Update a node's position in the list. -/
def updatePositionFor (node : Node K S) (newScore : S) : Option (S × S) × Lists K S :=
  let node := { node with score := newScore }
  if node.isMisplaced thresholds newScore then
    let oldBagUpper := node.bagUpper
    let s := s.takeOut node
    -- put the node into the appropriate new bag.
    let newBagUpper := notionalBagFor thresholds newScore
    let r := (Bag.getOrMake s newBagUpper).insertNodeUnchecked s node
    (some (oldBagUpper, newBagUpper), r.1.put r.2)
  else (none, s.putNode node)

/-- `do_rebag`: move the node of `account` to where its new score belongs. -/
def doRebag (account : K) (newScore : S) : Except ListError (Option (S × S)) × Lists K S :=
  match s.getNode account with
  | none => (.error .nodeNotFound, s)
  | some node =>
    let r := s.updatePositionFor thresholds node newScore
    (.ok r.1, r.2)

/-- Insert `node` directly in front of `at`. Panics if there is no bag for them. -/
def insertAtUnchecked (pos node : Node K S) : Option (Lists K S) :=
  -- connect `node` to its new `prev`.
  let node := { node with prev := pos.prev }
  let s := s.mutateNext pos.prev (some node.id)
  -- connect `node` and `at`.
  let node := { node with next := some pos.id }
  let pos := { pos with prev := some node.id }
  if node.isTerminal then
    match Bag.get s pos.bagUpper with
    | none => none
    | some bag =>
      let bag := if node.prev = none then { bag with head := some node.id } else bag
      some (((bag.put s).putNode pos).putNode node)
  else some ((s.putNode pos).putNode node)

/-- Put `heavier_id` to the position directly in front of `lighter_id`. -/
def putInFrontOf (score : K → S) (s : Lists K S) (lighterId heavierId : K) :
    Option (Except ListError Unit × Lists K S) :=
  match s.getNode lighterId, s.getNode heavierId with
  | some lighterNode, some heavierNode =>
    if lighterNode.bagUpper ≠ heavierNode.bagUpper then some (.error .notInSameBag, s)
    else if ¬ score lighterId < score heavierId then some (.error .notHeavier, s)
    else
      let s := (s.remove heavierId).2
      -- re-fetch `lighter_node`, it may have been updated when `heavier_node` was removed.
      match s.getNode lighterId with
      | none => some (.error .nodeNotFound, s)
      | some lighterNode => (s.insertAtUnchecked lighterNode heavierNode).map (.ok (), ·)
  | _, _ => some (.error .nodeNotFound, s)

/-- Check the internal state of the list. -/
def tryState : Except String Unit := do
  ensure (decide ((s.iter thresholds).map Node.id).Nodup) "duplicate identified"
  let iterCount := asU32 (s.iter thresholds).length
  let storedCount := s.counterForListNodes
  let nodesCount := asU32 s.listNodes.size
  ensure (iterCount == storedCount) "iter_count != stored_count"
  ensure (storedCount == nodesCount) "stored_count != nodes_count"
  let activeBags := thresholds.withTop.filterMap (Bag.get s)
  activeBags.forM (·.tryState s)
  let nodesInBagsCount :=
    activeBags.foldl (fun acc cur => asU32 (acc + asU32 (cur.iter s).length)) 0
  ensure (nodesCount == nodesInBagsCount) "stored_count != nodes_in_bags_count"
  s.listNodes.values.forM (·.tryState s)

/-! ## Calls -/

end Lists

/-- The calls that change the list. A call that moves a node takes it from the storage first. -/
inductive Op (K S : Type) where
  | insert (id : K) (score : S)
  | insertMany (ids : List K) (scoreOf : K → S)
  | remove (id : K)
  | removeMany (ids : List K)
  | updatePositionFor (id : K) (newScore : S)
  | putInFrontOf (score : K → S) (lighter heavier : K)

/-- The storage after a call, unless it panics. -/
def Lists.call [DecidableEq K] [LinearOrder S] [OrderTop S] [Zero S] (thresholds : Thresholds S)
    (s : Lists K S) : Op K S → Option (Lists K S)
  | .insert id score => some (s.insert thresholds id score).2
  | .insertMany ids scoreOf => some (s.insertMany thresholds ids scoreOf).2
  | .remove id => some (s.remove id).2
  | .removeMany ids => some (s.removeMany ids).2
  | .updatePositionFor id newScore => some (s.doRebag thresholds id newScore).2
  | .putInFrontOf score lighter heavier => (s.putInFrontOf score lighter heavier).map (·.2)

end BagsList
