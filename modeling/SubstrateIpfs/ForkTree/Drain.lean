-- SUMMARY: Filtering the fork tree level by level is filtering it from the roots down.
import SubstrateIpfs.ForkTree.Tree

/-!
# Filtering the fork tree

`drainFilter` goes through the tree level by level and keeps the nodes in one
vector, each with the position of its parent, from which the tree is put together
again from the back. The result is what filtering each node and then its children
gives, with the children in their old order.
-/

namespace ForkTree

open List

variable {H N V : Type} {filter : Filter H N V}

namespace Node

mutual

/-- What the filter leaves of a node. -/
def filtered (filter : Filter H N V) : Node H N V → Option (Node H N V)
  | ⟨hash, number, data, children⟩ =>
    match filter hash number data with
    | .keepNode => some ⟨hash, number, data, filteredAll filter children⟩
    | .keepTree => some ⟨hash, number, data, children⟩
    | .remove => none

def filteredAll (filter : Filter H N V) : List (Node H N V) → List (Node H N V)
  | [] => []
  | node :: nodes =>
    match node.filtered filter with
    | some node => node :: filteredAll filter nodes
    | none => filteredAll filter nodes

end

theorem filteredAll_eq (nodes : List (Node H N V)) :
    filteredAll filter nodes = nodes.filterMap (filtered filter) := by
  induction nodes with
  | nil => rfl
  | cons node nodes ih =>
    rw [filteredAll, ih, filterMap_cons]
    cases node.filtered filter with
    | none | some => rfl

theorem filtered_keepNode {node : Node H N V}
    (h : filter node.hash node.number node.data = .keepNode) :
    node.filtered filter =
      some { node with children := node.children.filterMap (filtered filter) } := by
  cases node
  simp [filtered, h, filteredAll_eq]

theorem filtered_keepTree {node : Node H N V}
    (h : filter node.hash node.number node.data = .keepTree) :
    node.filtered filter = some node := by
  cases node
  simp [filtered, h]

theorem filtered_remove {node : Node H N V}
    (h : filter node.hash node.number node.data = .remove) : node.filtered filter = none := by
  cases node
  simp [filtered, h]

end Node

/-- What the filter leaves of the nodes of a queue. -/
def filteredQueue (filter : Filter H N V) (queue : Queue H N V) :
    Queue H N V :=
  queue.filterMap fun entry => (entry.2.filtered filter).map (entry.1, ·)

theorem filteredQueue_append (queue queue' : Queue H N V) :
    filteredQueue filter (queue ++ queue') =
      filteredQueue filter queue ++ filteredQueue filter queue' :=
  filterMap_append

theorem filteredQueue_map (pidx : Option ℕ) (nodes : List (Node H N V)) :
    filteredQueue filter (nodes.map (pidx, ·)) =
      (nodes.filterMap (Node.filtered filter)).map (pidx, ·) := by
  rw [filteredQueue, filterMap_map, map_filterMap]
  rfl

/-! ## Putting the tree together -/

variable {ret : Queue H N V} {roots : List (Node H N V)} {node : Node H N V}

theorem reassemble_nil : reassemble ([] : Queue H N V) roots = some roots := by
  rw [reassemble]
  rfl

theorem reassemble_root :
    reassemble (ret ++ [(none, node)]) roots = reassemble ret (roots ++ [node]) := by
  rw [reassemble]
  split
  next h => simp at h
  next h =>
    obtain rfl := by simpa using h
    simp
  next h => simp at h

theorem reassemble_child {pidx : ℕ} {gidx : Option ℕ} {par : Node H N V}
    (h : ret[pidx]? = some (gidx, par)) :
    reassemble (ret ++ [(some pidx, node)]) roots =
      reassemble (ret.set pidx (gidx, { par with children := par.children ++ [node] })) roots := by
  rw [reassemble]
  split
  next h => simp at h
  next h => simp at h
  next pidx' node' hlast =>
    obtain ⟨rfl, rfl⟩ := by simpa using hlast
    simp [h]

/-- Children that stand at the end, in reverse order, are put under their parent. -/
theorem reassemble_children (ret ret' : Queue H N V)
    (gidx : Option ℕ) (par : Node H N V) (children roots : List (Node H N V)) :
    reassemble (ret ++ (gidx, par) :: ret' ++
        children.reverse.map (some ret.length, ·)) roots =
      reassemble (ret ++
        (gidx, { par with children := par.children ++ children }) :: ret')
        roots := by
  induction children generalizing par with
  | nil => cases par; simp
  | cons child children ih =>
    have hl : (ret ++ (gidx, par) :: ret' ++
        children.reverse.map (some ret.length, ·))[ret.length]? = some (gidx, par) := by simp
    have hset : ∀ entry, (ret ++ (gidx, par) :: ret' ++
        children.reverse.map (some ret.length, ·)).set ret.length entry =
          ret ++ entry :: ret' ++ children.reverse.map (some ret.length, ·) := by
      simp
    rw [reverse_cons, map_append, ← append_assoc, map_singleton, reassemble_child hl, hset, ih]
    simp

/-! ## One level -/

/-- Filtering the next level and putting its nodes under those of this level, with
other nodes in between, is filtering this level. -/
theorem reassemble_drainLevel (queue ret ret' : Queue H N V) (rem roots : List (Node H N V)) :
    let acc := drainLevel filter queue ret rem
    reassemble (acc.retained ++ ret' ++ filteredQueue filter acc.nextQueue) roots =
      reassemble (ret ++ filteredQueue filter queue ++ ret') roots := by
  induction queue using reverseRecOn generalizing ret' with
  | nil => simp [drainLevel, filteredQueue]
  | append_singleton queue entry ih =>
    obtain ⟨pidx, node⟩ := entry
    simp only [drainLevel, foldl_append, foldl_cons, foldl_nil] at ih ⊢
    generalize queue.foldl (Drain.next filter) ⟨ret, [], rem⟩ = acc at ih ⊢
    cases hf : filter node.hash node.number node.data with
    | keepNode =>
      -- the children of the node stand at the end
      simp only [Drain.next, hf, filteredQueue_append, filteredQueue_map]
      have hchs := reassemble_children acc.retained
        (ret' ++ filteredQueue filter acc.nextQueue) pidx { node with children := [] }
        (node.children.filterMap (Node.filtered filter)) roots
      have hq := ih ((pidx, { node with
        children := node.children.filterMap (Node.filtered filter) }) :: ret')
      simp [filteredQueue, Node.filtered_keepNode hf] at hchs hq ⊢
      rw [hchs, hq]
    | keepTree =>
      simp only [Drain.next, hf]
      have hq := ih ((pidx, node) :: ret')
      simpa [filteredQueue, Node.filtered_keepTree hf] using hq
    | remove =>
      simp only [Drain.next, hf]
      simpa [filteredQueue, Node.filtered_remove hf] using ih ret'

/-! ## All levels -/

theorem reassemble_drainLoop (queue ret : Queue H N V) (rem roots : List (Node H N V)) :
    reassemble (drainLoop filter queue ret rem).1 roots =
      reassemble (ret ++ filteredQueue filter queue) roots := by
  induction queue, ret, rem using drainLoop.induct filter with
  | case1 queue ret rem hemp =>
    obtain rfl := isEmpty_iff.mp hemp
    simp [drainLoop, filteredQueue]
  | case2 queue ret rem hemp acc ih =>
    rw [drainLoop, if_neg hemp, ih]
    simpa using reassemble_drainLevel queue ret [] rem roots

theorem reassemble_roots (nodes : List (Node H N V)) :
    reassemble (nodes.map (none, ·)) roots = some (roots ++ nodes.reverse) := by
  induction nodes using reverseRecOn generalizing roots with
  | nil => rw [map_nil, reassemble_nil, reverse_nil, append_nil]
  | append_singleton nodes node ih =>
    rw [map_append, map_singleton, reassemble_root, ih]
    simp

/-- Filtering is done from the roots down. -/
theorem drainFilter_eq (self : ForkTree H N V) (filter : Filter H N V) :
    ∃ rem : List (Node H N V), self.drainFilter filter =
      let filtered := { self with roots := self.roots.filterMap (Node.filtered filter) }
      some (Node.removed rem.reverse,
        if rem.isEmpty then filtered else filtered.rebalance) := by
  refine ⟨(drainLoop filter (self.roots.reverse.map (none, ·)) [] []).2, ?_⟩
  have hl : reassemble (drainLoop filter (self.roots.reverse.map (none, ·)) [] []).1 [] =
      some (self.roots.filterMap (Node.filtered filter)) := by
    rw [reassemble_drainLoop, nil_append, filteredQueue_map, reassemble_roots,
      filterMap_reverse, reverse_reverse, nil_append]
  simp only [drainFilter, hl]
  rfl

end ForkTree
