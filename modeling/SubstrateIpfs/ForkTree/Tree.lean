-- SUMMARY: The fork tree: searched, extended, pruned and finalized by means of an ancestry oracle.
import SubstrateIpfs.Base.Vec

/-!
# The fork tree

A tree that stores nodes across multiple branches, each identified by its hash
and ordered by its number. The caller provides a function that tells whether one
hash descends from another, and that may fail.

An operation returns its result and the tree it leaves behind, also if the result
is an error. Indexing past the end of a vector is a panic, for which the whole
outcome is `none`. Vectors that are used as stacks have their top first.
-/

namespace ForkTree

open List Prod

variable {H N V E : Type}

/-! ## Nodes -/

structure Node (H N V : Type) where
  hash : H
  number : N
  data : V
  children : List (Node H N V)

namespace Node

mutual

/-- The number of nodes of the subtree. -/
def size : Node H N V → ℕ
  | ⟨_, _, _, children⟩ => sizes children + 1

def sizes : List (Node H N V) → ℕ
  | [] => 0
  | node :: nodes => node.size + sizes nodes

end

theorem size_eq (node : Node H N V) : node.size = sizes node.children + 1 := by
  cases node
  rfl

@[simp] theorem sizes_nil : sizes ([] : List (Node H N V)) = 0 := rfl

@[simp] theorem sizes_cons (node : Node H N V) (ns : List (Node H N V)) :
    sizes (node :: ns) = node.size + sizes ns := rfl

@[simp] theorem sizes_append (ns ns' : List (Node H N V)) :
    sizes (ns ++ ns') = sizes ns + sizes ns' := by
  induction ns with
  | nil => simp
  | cons node ns ih => simp [ih, add_assoc]

theorem sizes_perm {ns ns' : List (Node H N V)} (h : ns.Perm ns') : sizes ns = sizes ns' := by
  induction h with
  | nil => rfl
  | cons node _ ih => simp [ih]
  | swap node node' ns => simp [add_left_comm]
  | trans _ _ ih ih' => exact ih.trans ih'

@[simp] theorem sizes_reverse (ns : List (Node H N V)) : sizes ns.reverse = sizes ns :=
  sizes_perm ns.reverse_perm

theorem size_le_sizes {node : Node H N V} {ns : List (Node H N V)} (h : node ∈ ns) :
    node.size ≤ sizes ns := by
  induction ns with
  | nil => cases h
  | cons node' ns ih =>
    rcases mem_cons.mp h with rfl | h
    · exact Nat.le_add_right _ _
    · exact (ih h).trans (Nat.le_add_left _ _)

theorem size_lt_of_mem {node c : Node H N V} (h : c ∈ node.children) : c.size < node.size := by
  rw [size_eq node]
  exact Nat.lt_succ_of_le (size_le_sizes h)

/-- What holds of a node whenever it holds of its children holds of every node. -/
theorem induct {motive : Node H N V → Prop}
    (h : ∀ node, (∀ c ∈ node.children, motive c) → motive node) (node : Node H N V) :
    motive node :=
  h node fun c _ => induct h c
termination_by node.size
decreasing_by exact size_lt_of_mem (by assumption)

/-! ### Depth -/

/-- Push nodes of one height onto a stack, the last one on top. -/
def pushAll (nodes : List (Node H N V)) (height : ℕ) (stack : List (Node H N V × ℕ)) :
    List (Node H N V × ℕ) :=
  nodes.foldl (fun stack node => (node, height) :: stack) stack

theorem sizes_pushAll (ns : List (Node H N V)) (height : ℕ) (s : List (Node H N V × ℕ)) :
    sizes ((pushAll ns height s).map fst) = sizes ns + sizes (s.map fst) := by
  induction ns generalizing s with
  | nil => simp [pushAll]
  | cons node ns ih =>
    rw [pushAll, foldl_cons, ← pushAll, ih]
    simp only [map_cons, sizes_cons]
    omega

/-- The loop of `maxDepth`: nodes to be looked at with their heights. -/
def maxDepthLoop : List (Node H N V × ℕ) → ℕ → ℕ
  | [], max => max
  | (node, height) :: stack, max =>
    maxDepthLoop (pushAll node.children (height + 1) stack) (if max < height then height else max)
termination_by stack => sizes (stack.map fst)
decreasing_by
  simp only [sizes_pushAll, map_cons, sizes_cons, size_eq]
  omega

/-- Finds the max depth among all branches descendent from this node. -/
def maxDepth (self : Node H N V) : ℕ := maxDepthLoop [(self, 0)] 0

/-- Sort by max branch depth (decreasing). -/
def sortByDepth (nodes : List (Node H N V)) : List (Node H N V) :=
  nodes.mergeSort fun a b => b.maxDepth ≤ a.maxDepth

theorem sortByDepth_perm (ns : List (Node H N V)) : (sortByDepth ns).Perm ns := mergeSort_perm _ _

/-- Sort the children of the node, and then those of all nodes below. -/
def rebalance (self : Node H N V) : Node H N V :=
  { self with children := (sortByDepth self.children).attach.map fun child => rebalance child.1 }
termination_by self.size
decreasing_by exact size_lt_of_mem ((sortByDepth_perm _).mem_iff.mp child.2)

/-- Everything below the given nodes, in the order in which the iterator over
removed nodes takes them from its stack. -/
def removed : List (Node H N V) → List (H × N × V)
  | [] => []
  | node :: stack => (node.hash, node.number, node.data) :: removed (node.children ++ stack)
termination_by stack => sizes stack
decreasing_by simp [size_eq]

end Node

/-! ## The tree -/

/-- Error occurred when iterating with the tree. -/
inductive Error (E : Type) where
  /-- Adding duplicate node to tree. -/
  | duplicate
  /-- Finalizing descendent of tree node without finalizing ancestor(s). -/
  | unfinalizedAncestor
  /-- Imported or finalized node that is an ancestor of previously finalized node. -/
  | revert
  /-- Error throw by client when checking for node ancestry. -/
  | client (error : E)

/-- Result of finalizing a node (that could be a part of the tree or not). -/
inductive FinalizationResult (V : Type) where
  | changed (data : Option V)
  | unchanged

/-- Filtering action. -/
inductive FilterAction where
  /-- Remove the node and its subtree. -/
  | remove
  /-- Maintain the node. -/
  | keepNode
  /-- Maintain the node and its subtree. -/
  | keepTree
  deriving DecidableEq

end ForkTree

structure ForkTree (H N V : Type) where
  roots : List (ForkTree.Node H N V)
  bestFinalizedNumber : Option N

namespace ForkTree

open List Prod

variable {H N V E : Type}

/-- Create a new empty tree. -/
def new : ForkTree H N V := ⟨[], none⟩

/-- Rebalance the tree, i.e. sort child nodes by max branch depth (decreasing). -/
def rebalance (self : ForkTree H N V) : ForkTree H N V :=
  { self with roots := (Node.sortByDepth self.roots).map Node.rebalance }

/-! ### Paths -/

/-- The list of children that a path of indices leads to. -/
def childrenAt : List (Node H N V) → List ℕ → Option (List (Node H N V))
  | nodes, [] => some nodes
  | nodes, i :: path => do childrenAt (← nodes[i]?).children path

/-- Change the list of children that a path leads to. -/
def modifyAt (f : List (Node H N V) → List (Node H N V)) :
    List (Node H N V) → List ℕ → Option (List (Node H N V))
  | nodes, [] => some (f nodes)
  | nodes, i :: path => do
    let node ← nodes[i]?
    let children ← modifyAt f node.children path
    return nodes.set i { node with children := children }

/-- Remove the node that a path leads to. The empty path has no last index. -/
def removeAt : List (Node H N V) → List ℕ → Option (Node H N V × List (Node H N V))
  | _, [] => none
  | nodes, [i] => do
    let node ← nodes[i]?
    return (node, nodes.eraseIdx i)
  | nodes, i :: path => do
    let node ← nodes[i]?
    let (removed, children) ← removeAt node.children path
    return (removed, nodes.set i { node with children := children })

section
variable [LinearOrder N] (isDescendentOf : H → H → Except E Bool)

/-- Ask the oracle. Its errors are passed on. -/
def askClient (base block : H) : Except (Error E) Bool :=
  (isDescendentOf base block).mapError .client

/-! ### Searching -/

/-- What is left to do for the nodes of a stack, each with its next child. -/
def pending : List (Node H N V × ℕ) → ℕ
  | [] => 0
  | (node, i) :: stack =>
    Node.sizes (node.children.drop i) * 2 + 1 + pending stack

omit [LinearOrder N] in
theorem pending_push {node : Node H N V} {i : ℕ} (s : List (Node H N V × ℕ))
    (h : i < node.children.length) :
    pending ((node.children[i], 0) :: (node, i + 1) :: s) < pending ((node, i) :: s) ∧
      pending ((node, i + 1) :: s) < pending ((node, i) :: s) := by
  have hdrop : node.children.drop i = node.children[i] :: node.children.drop (i + 1) :=
    drop_eq_getElem_cons h
  simp only [pending, hdrop, Node.sizes_cons, drop_zero, Node.size_eq]
  omega

/-- The loop of the search below one root. The second element of each entry is the next child to
search into. Returns what is left of the stack, whether an ancestor was found, and whether one
passed the predicate. -/
def searchLoop (hash : H) (number : N) (predicate : V → Bool) :
    List (Node H N V × ℕ) → Bool → Except (Error E) (List (Node H N V × ℕ) × Bool × Bool)
  | [], isDescendent => .ok ([], isDescendent, false)
  | (node, i) :: stack, isDescendent =>
    if h : i < node.children.length ∧ isDescendent = false then
      let child := node.children.get ⟨i, h.1⟩
      if child.number < number then
        searchLoop hash number predicate ((child, 0) :: (node, i + 1) :: stack) isDescendent
      else
        searchLoop hash number predicate ((node, i + 1) :: stack) isDescendent
    else
      match if isDescendent then .ok true else askClient isDescendentOf node.hash hash with
      | .error error => .error error
      | .ok false => searchLoop hash number predicate stack isDescendent
      | .ok true =>
        if predicate node.data then
          .ok (stack, true, true)
        else
          searchLoop hash number predicate stack true
termination_by stack => pending stack
decreasing_by
  · exact (pending_push stack h.1).1
  · exact (pending_push stack h.1).2
  · simp [pending]
  · simp [pending]

/-- The loop over the roots, from the given index on. -/
def searchRoots (hash : H) (number : N) (predicate : V → Bool) :
    List (Node H N V) → ℕ → Except (Error E) (Option (List ℕ))
  | [], _ => .ok none
  | root :: roots, rootIdx =>
    if number ≤ root.number then
      searchRoots hash number predicate roots (rootIdx + 1)
    else
      match searchLoop isDescendentOf hash number predicate [(root, 0)] false with
      | .error error => .error error
      | .ok (stack, _, true) => .ok (some (rootIdx :: stack.reverse.map fun entry => entry.2 - 1))
      | .ok (_, true, false) => .ok none
      | .ok (_, false, false) => searchRoots hash number predicate roots (rootIdx + 1)

/-- Find the deepest ancestor of the given block that passes the predicate, and
return the path to it. -/
def findNodeIndexWhere (self : ForkTree H N V) (hash : H) (number : N) (predicate : V → Bool) :
    Except (Error E) (Option (List ℕ)) :=
  searchRoots isDescendentOf hash number predicate self.roots 0

/-- The number is not above that of the best finalized block. -/
def reverts (self : ForkTree H N V) (number : N) : Bool :=
  self.bestFinalizedNumber.any fun best => number ≤ best

/-! ### Importing and pruning -/

variable [DecidableEq H]

variable (self : ForkTree H N V) (hash : H) (number : N)

/-- Import a new node into the tree. Returns `true` if the imported node is a
root. -/
def importNode (data : V) : Option (Except (Error E) Bool × ForkTree H N V) :=
  if self.reverts number then
    some (.error .revert, self)
  else
    match self.findNodeIndexWhere isDescendentOf hash number fun _ => true with
    | .error error => some (.error error, self)
    | .ok parent => do
      -- without a parent the new node goes to the roots
      let path := parent.getD []
      let children ← childrenAt self.roots path
      if children.any (·.hash = hash) then
        return (.error .duplicate, self)
      let roots ← modifyAt (· ++ [⟨hash, number, data, []⟩]) self.roots path
      let self := { self with roots := roots }
      -- rebalance may be required only if we've extended the branch depth
      return (.ok parent.isNone, if children.length + 1 = 1 then self.rebalance else self)

/-- The child is the block itself or an ancestor of it. -/
def leadsTo (child : Node H N V) : Except (Error E) Bool :=
  if child.number = number ∧ child.hash = hash then
    .ok true
  else if child.number < number then
    askClient isDescendentOf child.hash hash
  else
    .ok false

/-- Keep the first child that leads to the block, and remove the others. -/
def pruneChildren (hash : H) (number : N) :
    List (Node H N V) → Bool → Except (Error E) (List (Node H N V) × List (Node H N V))
  | [], _ => .ok ([], [])
  | child :: children, isFirst =>
    match if isFirst then leadsTo isDescendentOf hash number child else .ok false with
    | .error error => .error error
    | .ok true => do
      let (kept, removed) ← pruneChildren hash number children false
      return (child :: kept, removed)
    | .ok false => do
      let (kept, removed) ← pruneChildren hash number children isFirst
      return (kept, child :: removed)

/-- Prune the tree: re-root it to the deepest ancestor of the given block that passes the predicate.
Returns all pruned node data. -/
def prune (predicate : V → Bool) : Option (Except (Error E) (List (H × N × V)) × ForkTree H N V) :=
  match self.findNodeIndexWhere isDescendentOf hash number predicate with
  | .error error => some (.error error, self)
  | .ok none => some (.ok [], self)
  | .ok (some path) => do
    let (root, oldRoots) ← removeAt self.roots path
    -- the roots have been taken out of the tree
    match pruneChildren isDescendentOf hash number root.children true with
    | .error error => return (.error error, { self with roots := [] })
    | .ok (kept, removed) =>
      let self := { self with roots := [{ root with children := kept }] }
      return (.ok (Node.removed (oldRoots ++ removed).reverse), self.rebalance)

/-! ### Finalizing -/

/-- Finalize root at given position: its children become the new roots. -/
def finalizeRootAt (position : ℕ) : Option (V × ForkTree H N V) := do
  let (node, _) ← Vec.swapRemove self.roots position
  return (node.data, { roots := node.children, bestFinalizedNumber := some node.number })

/-- Finalize the root at a position, if there is one. -/
def finalizePosition : Option ℕ → Option (Option V × ForkTree H N V)
  | none => some (none, self)
  | some position => do
    let (data, self) ← self.finalizeRootAt position
    return (some data, self)

/-- Finalize a root in the tree and return its data, if a root with the given hash
exists. -/
def finalizeRoot : Option (Option V × ForkTree H N V) :=
  self.finalizePosition (self.roots.findIdx? (·.hash = hash))

section
omit [LinearOrder N] [DecidableEq H]

/-- Go over the roots and push those to be kept back. If the check fails, the
roots pushed so far are left. Returns whether some root was dropped. -/
def retainRoots (keep : Node H N V → Except (Error E) Bool) :
    List (Node H N V) → List (Node H N V) → Bool → Except (Error E) Bool × List (Node H N V)
  | [], kept, changed => (.ok changed, kept)
  | root :: roots, kept, changed =>
    match keep root with
    | .error error => (.error error, kept)
    | .ok true => retainRoots keep roots (kept ++ [root]) changed
    | .ok false => retainRoots keep roots kept true

/-- Whether the answer is yes for some node. The first yes or error counts. -/
def anyNode (ask : Node H N V → Except (Error E) Bool) : List (Node H N V) → Except (Error E) Bool
  | [] => .ok false
  | node :: nodes =>
    match ask node with
    | .error error => .error error
    | .ok true => .ok true
    | .ok false => anyNode ask nodes

end

/-- Whether a finalization without data has changed the tree. -/
def FinalizationResult.ofChanged (changed : Bool) : FinalizationResult V :=
  if changed then .changed none else .unchanged

/-- Finalize a node in the tree: either an existing root, or a node that is not in
the tree. -/
def finalize : Option (Except (Error E) (FinalizationResult V) × ForkTree H N V) :=
  if self.reverts number then
    some (.error .revert, self)
  else do
    -- check if one of the current roots is being finalized
    match ← self.finalizeRoot hash with
    | (some data, self) => return (.ok (.changed (some data)), self)
    | (none, self) =>
      -- make sure we're not finalizing a descendent of any root
      let ask := fun root : Node H N V =>
        if root.number < number then askClient isDescendentOf root.hash hash else .ok false
      match anyNode ask self.roots with
      | .error error => return (.error error, self)
      | .ok true => return (.error .unfinalizedAncestor, self)
      | .ok false =>
        -- only keep roots that are part of the finalized branch
        let keep := fun root : Node H N V =>
          if number < root.number then askClient isDescendentOf hash root.hash else .ok false
        match retainRoots keep self.roots [] false with
        | (.error error, roots) => return (.error error, { self with roots := roots })
        | (.ok changed, roots) =>
          return (.ok (.ofChanged changed), { roots := roots, bestFinalizedNumber := some number })

/-- What a root is to a block that is finalized together with its ancestors. -/
inductive Relation where
  | finalized
  | descendant
  | ancestor
  | other

def relation (root : Node H N V) : Except (Error E) Relation :=
  if root.hash = hash then
    .ok .finalized
  else
    match if number < root.number then askClient isDescendentOf hash root.hash else .ok false with
    | .error error => .error error
    | .ok true => .ok .descendant
    | .ok false =>
      match if root.number < number then askClient isDescendentOf root.hash hash else .ok false with
      | .error error => .error error
      | .ok true => .ok .ancestor
      | .ok false => .ok .other

omit [LinearOrder N] [DecidableEq H] in
theorem sizes_swapRemove {rs rest : List (Node H N V)} {idx : ℕ} {root : Node H N V}
    (h : Vec.swapRemove rs idx = some (root, rest)) :
    Node.sizes rs = root.size + Node.sizes rest :=
  (Node.sizes_perm (Vec.swapRemove_eq_some h).2).trans (Node.sizes_cons root rest)

/-- The loop over the roots that opens the ancestors of the block. Returns the data
if the block itself is met. -/
def openAncestors (hash : H) (number : N) (best : Option N) :
    List (Node H N V) → ℕ → Bool → Except (Error E) (Option V × Bool) × ForkTree H N V
  | roots, idx, changed =>
    match _hswap : Vec.swapRemove roots idx with
    | none => (.ok (none, changed), ⟨roots, best⟩)
    | some (root, rest) =>
      match relation isDescendentOf hash number root with
      | .error error => (.error error, ⟨roots, best⟩)
      -- if we have met finalized root - open it and return
      | .ok .finalized => (.ok (some root.data, changed), ⟨root.children, some root.number⟩)
      -- if node is descendant of finalized block - just leave it as is
      | .ok .descendant => openAncestors hash number best roots (idx + 1) changed
      -- if node is ancestor of finalized block - remove it and continue with children
      | .ok .ancestor => openAncestors hash number best (rest ++ root.children) idx true
      -- if node is neither ancestor, nor descendant of the finalized block - remove it
      | .ok .other => openAncestors hash number best rest idx true
termination_by roots idx => (Node.sizes roots, roots.length - idx)
decreasing_by
  · have hlt : idx < roots.length := by
      by_contra hge
      rw [Vec.swapRemove_eq_none.mpr (Nat.le_of_not_lt hge)] at _hswap
      cases _hswap
    exact Prod.Lex.right _ (by omega)
  · refine Prod.Lex.left _ _ ?_
    rw [sizes_swapRemove _hswap, Node.sizes_append, Node.size_eq]
    omega
  · refine Prod.Lex.left _ _ ?_
    rw [sizes_swapRemove _hswap, Node.size_eq]
    omega

/-- Finalize a node in the tree and all its ancestors. -/
def finalizeWithAncestors : Option (Except (Error E) (FinalizationResult V) × ForkTree H N V) :=
  if self.reverts number then
    some (.error .revert, self)
  else do
    match ← self.finalizeRoot hash with
    | (some data, self) => return (.ok (.changed (some data)), self)
    | (none, self) =>
      match openAncestors isDescendentOf hash number self.bestFinalizedNumber self.roots 0
        false with
      | (.error error, self) => return (.error error, self)
      | (.ok (some data, _), self) => return (.ok (.changed (some data)), self)
      | (.ok (none, changed), self) =>
        return (.ok (.ofChanged changed), { self with bestFinalizedNumber := some number })

/-- The node is the block itself or an ancestor of it. -/
def isBlockOrAncestor (node : Node H N V) : Except (Error E) Bool :=
  if node.hash = hash then .ok true else askClient isDescendentOf node.hash hash

/-- Finalizing the block would finalize past the child. -/
def isFinalizedPast (child : Node H N V) : Except (Error E) Bool :=
  if child.number ≤ number then isBlockOrAncestor isDescendentOf hash child else .ok false

/-- The position of the first root that passes the predicate and is the block or
an ancestor of it. It is an error if one of its children is, too. -/
def rootToFinalize (hash : H) (number : N) (predicate : V → Bool) :
    List (Node H N V) → ℕ → Except (Error E) (Option ℕ)
  | [], _ => .ok none
  | root :: roots, i =>
    match if predicate root.data then isBlockOrAncestor isDescendentOf hash root else .ok false with
    | .error error => .error error
    | .ok false => rootToFinalize hash number predicate roots (i + 1)
    | .ok true =>
      match anyNode (isFinalizedPast isDescendentOf hash number) root.children with
      | .error error => .error error
      | .ok true => .error .unfinalizedAncestor
      | .ok false => .ok (some i)

/-- The root is a descendent of the finalized block, or the block itself, or an
ancestor of it. -/
def isRelated (root : Node H N V) : Except (Error E) Bool :=
  match if number < root.number then askClient isDescendentOf hash root.hash else .ok false with
  | .error error => .error error
  | .ok true => .ok true
  | .ok false =>
    if root.number = number ∧ root.hash = hash then
      .ok true
    else
      askClient isDescendentOf root.hash hash

/-- Finalize a root in the tree by either finalizing the node itself or a node's
descendent that's not in the tree. -/
def finalizeWithDescendentIf (predicate : V → Bool) :
    Option (Except (Error E) (FinalizationResult V) × ForkTree H N V) :=
  if self.reverts number then
    some (.error .revert, self)
  else
    match rootToFinalize isDescendentOf hash number predicate self.roots 0 with
    | .error error => some (.error error, self)
    | .ok position => do
      let (nodeData, self) ← self.finalizePosition position
      -- in case the root wasn't finalized earlier, presumably because the predicate
      -- didn't pass, ancestors are retained as well
      match retainRoots (isRelated isDescendentOf hash number) self.roots [] false with
      | (.error error, roots) => return (.error error, { self with roots := roots })
      | (.ok changed, roots) =>
        let result := match nodeData with
          | some data => .changed (some data)
          | none => .ofChanged changed
        return (.ok result, { roots := roots, bestFinalizedNumber := some number })

end

/-! ### Filtering -/

abbrev Filter (H N V : Type) := H → N → V → FilterAction

/-- Nodes with the positions of their parents among those that are kept. -/
abbrev Queue (H N V : Type) := List (Option ℕ × Node H N V)

/-- The state of the loop over one level of the tree: the nodes that are kept, the next level, and
the nodes that are removed. -/
structure Drain (H N V : Type) where
  retained : Queue H N V
  nextQueue : Queue H N V
  removed : List (Node H N V)

/-- What the loop does with one node. -/
def Drain.next (filter : Filter H N V) (acc : Drain H N V)
    (entry : Option ℕ × Node H N V) : Drain H N V :=
  let node := entry.2
  match filter node.hash node.number node.data with
  | .keepNode => { acc with
      retained := acc.retained ++ [(entry.1, { node with children := [] })]
      nextQueue := acc.nextQueue ++ node.children.reverse.map (some acc.retained.length, ·) }
  | .keepTree => { acc with retained := acc.retained ++ [entry] }
  | .remove => { acc with removed := acc.removed ++ [node] }

/-- One level. -/
def drainLevel (filter : Filter H N V) (queue retained : Queue H N V)
    (removed : List (Node H N V)) : Drain H N V :=
  queue.foldl (Drain.next filter) ⟨retained, [], removed⟩

theorem sizes_drainLevel (f : Filter H N V) (q : Queue H N V) (acc : Drain H N V) :
    Node.sizes ((q.foldl (Drain.next f) acc).nextQueue.map snd) + q.length ≤
      Node.sizes (acc.nextQueue.map snd) + Node.sizes (q.map snd) := by
  induction q generalizing acc with
  | nil => simp
  | cons e q ih =>
    have hnext : Node.sizes ((Drain.next f acc e).nextQueue.map snd) + 1 ≤
        Node.sizes (acc.nextQueue.map snd) + e.2.size := by
      obtain ⟨pidx, node⟩ := e
      rw [Node.size_eq, Drain.next]
      cases f node.hash node.number node.data with
      | keepNode => simp [add_assoc]
      | keepTree | remove => simp
    have hrest := ih (Drain.next f acc e)
    simp only [foldl_cons, length_cons, map_cons, Node.sizes_cons]
    omega

/-- Level after level. -/
def drainLoop (filter : Filter H N V) (queue retained : Queue H N V)
    (removed : List (Node H N V)) : Queue H N V × List (Node H N V) :=
  if queue.isEmpty then
    (retained, removed)
  else
    let acc := drainLevel filter queue retained removed
    drainLoop filter acc.nextQueue acc.retained acc.removed
termination_by Node.sizes (queue.map snd)
decreasing_by
  have hsizes := sizes_drainLevel filter queue ⟨retained, [], removed⟩
  have hpos : 0 < queue.length := by
    rw [length_pos_iff]
    rintro rfl
    simp_all
  simp only [map_nil, Node.sizes_nil, Nat.zero_add] at hsizes
  exact Nat.lt_of_lt_of_le (Nat.lt_add_of_pos_right hpos) hsizes

/-- Put the nodes that are kept together again, from the last one on. -/
def reassemble (retained : Queue H N V) (roots : List (Node H N V)) :
    Option (List (Node H N V)) :=
  match _hlast : retained.getLast? with
  | none => some roots
  | some (none, node) => reassemble retained.dropLast (roots ++ [node])
  | some (some parentIdx, node) => do
    let (grandparentIdx, parent) ← retained.dropLast[parentIdx]?
    let parent := { parent with children := parent.children ++ [node] }
    reassemble (retained.dropLast.set parentIdx (grandparentIdx, parent)) roots
termination_by retained.length
decreasing_by
  all_goals
    have hpos : 0 < retained.length := by
      rw [length_pos_iff]
      rintro rfl
      cases _hlast
    simp
    omega

/-- Remove from the tree some nodes (and their subtrees) using a filter. Returns
all the pruned nodes. -/
def drainFilter (self : ForkTree H N V) (filter : Filter H N V) :
    Option (List (H × N × V) × ForkTree H N V) := do
  let queue := self.roots.reverse.map (none, ·)
  let (retained, removed) := drainLoop filter queue [] []
  let roots ← reassemble retained []
  let self := { self with roots := roots }
  return (Node.removed removed.reverse, if removed.isEmpty then self else self.rebalance)

end ForkTree
