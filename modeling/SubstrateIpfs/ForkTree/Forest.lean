-- SUMMARY: Fork trees that follow the ancestry of a block tree, and the nodes stored in them.
import SubstrateIpfs.Base.TreeOrder
import SubstrateIpfs.ForkTree.Tree

/-!
# Ordered forests

A block tree gives every block its number and its strict descendents. A forest of
nodes follows it if, level by level, the nodes are apart and the children of a node
are its descendents. That is enough for the children of a stored node to be exactly
its nearest stored descendents, wherever the others are stored.
-/

namespace ForkTree

open List

variable {H N V : Type} [LinearOrder N]

/-! ## Block trees -/

/-- Blocks with their numbers and their ancestry. The numbers increase along it. -/
structure BlockTree (H N : Type) [LinearOrder N] where
  number : H → N
  isDescendentOf : H → H → Bool
  trans : ∀ {a b c}, isDescendentOf a b → isDescendentOf b c → isDescendentOf a c
  chain : ∀ {a b c}, isDescendentOf a c → isDescendentOf b c →
    a = b ∨ isDescendentOf a b ∨ isDescendentOf b a
  number_lt : ∀ {a b}, isDescendentOf a b → number a < number b

namespace BlockTree

variable (t : BlockTree H N)

/-- The second block is a strict descendent of the first one. -/
def Below (a b : H) : Prop := t.isDescendentOf a b

theorem treeOrder : TreeOrder t.Below where
  irrefl _ h := lt_irrefl _ (t.number_lt h)
  trans := t.trans
  chain := t.chain

/-- The blocks are different and not related by ancestry. -/
abbrev Apart (a b : H) : Prop := TreeOrder.Apart t.Below a b

abbrev AtOrBelow (a b : H) : Prop := TreeOrder.AtOrBelow t.Below a b

end BlockTree

/-! ## Ordered nodes -/

variable {t : BlockTree H N} {S S' : Set H} {root : Node H N V} {rest : List (Node H N V)}
  {tree : ForkTree H N V}

/-- Nodes that are apart. -/
def AllApart (t : BlockTree H N) (nodes : List (Node H N V)) : Prop :=
  nodes.Pairwise fun a b => t.Apart a.hash b.hash

/-- The subtree of the node follows the block tree. All its hashes are in `S`. -/
inductive Node.Ordered (t : BlockTree H N) (S : Set H) : Node H N V → Prop where
  | mk {node : Node H N V} (hmem : node.hash ∈ S) (hnumber : node.number = t.number node.hash)
      (hbelow : ∀ child ∈ node.children, t.Below node.hash child.hash)
      (hapart : AllApart t node.children)
      (hchildren : ∀ child ∈ node.children, Node.Ordered t S child) : Node.Ordered t S node

/-- A list of nodes that are apart and ordered. -/
structure Forest (t : BlockTree H N) (S : Set H) (nodes : List (Node H N V)) : Prop where
  ordered : ∀ node ∈ nodes, node.Ordered t S
  apart : AllApart t nodes

namespace Node.Ordered

variable {node : Node H N V}

section
variable (h : node.Ordered t S)

include h

theorem hash_mem : node.hash ∈ S := by
  cases h with
  | mk hmem => exact hmem

theorem number_eq : node.number = t.number node.hash := by
  cases h with
  | mk _ hnum => exact hnum

theorem below_children : ∀ c ∈ node.children, t.Below node.hash c.hash := by
  cases h with
  | mk _ _ hbel => exact hbel

theorem forest : Forest t S node.children := by
  cases h with
  | mk _ _ _ hap hchs => exact ⟨hchs, hap⟩

/-- Change the children of a node. -/
theorem with_children {cs : List (Node H N V)} (hfor : Forest t S cs)
    (hbel : ∀ c ∈ cs, t.Below node.hash c.hash) :
    Ordered t S { node with children := cs } :=
  .mk h.hash_mem h.number_eq hbel hfor.apart hfor.ordered

end

theorem mono (hS : S ⊆ S') (h : node.Ordered t S) : node.Ordered t S' := by
  induction h with
  | mk hmem hnum hbel hap _ ih => exact .mk (hS hmem) hnum hbel hap ih

end Node.Ordered

namespace Forest

variable {ns ns' : List (Node H N V)} {node : Node H N V}

theorem nil : Forest t S ([] : List (Node H N V)) := ⟨forall_mem_nil _, .nil⟩

theorem mono (hS : S ⊆ S') (h : Forest t S ns) : Forest t S' ns :=
  ⟨fun node hmem => (h.ordered node hmem).mono hS, h.apart⟩

theorem perm (h : Forest t S ns) (hp : ns.Perm ns') : Forest t S ns' :=
  ⟨fun node hmem => h.ordered node (hp.mem_iff.mpr hmem), hp.pairwise h.apart fun hap => hap.symm⟩

theorem sublist (h : Forest t S ns) (hsub : ns'.Sublist ns) : Forest t S ns' :=
  ⟨fun node hmem => h.ordered node (hsub.subset hmem), h.apart.sublist hsub⟩

/-- A node is replaced by its children. -/
theorem open_node (h : Forest t S (node :: ns)) : Forest t S (ns ++ node.children) := by
  have hn := h.ordered node mem_cons_self
  refine ⟨forall_mem_append.mpr ⟨?_, hn.forest.ordered⟩, ?_⟩
  · exact fun n' hmem => h.ordered n' (mem_cons_of_mem _ hmem)
  · exact TreeOrder.pairwise_apart_replace t.treeOrder h.apart hn.forest.apart hn.below_children

/-- A node is put at the end. -/
theorem concat (h : Forest t S ns) (hn : node.Ordered t S)
    (hap : ∀ n' ∈ ns, t.Apart n'.hash node.hash) : Forest t S (ns ++ [node]) := by
  refine ⟨forall_mem_append.mpr ⟨h.ordered, by simpa using hn⟩, ?_⟩
  refine pairwise_append.mpr ⟨h.apart, pairwise_singleton _ _, ?_⟩
  simpa using hap

/-- Nodes are replaced one by one by ordered nodes with the same hash. -/
theorem map {f : Node H N V → Node H N V} (h : Forest t S ns)
    (hh : ∀ node ∈ ns, (f node).hash = node.hash)
    (hf : ∀ node ∈ ns, (f node).Ordered t S) : Forest t S (ns.map f) := by
  refine ⟨forall_mem_map.mpr hf, pairwise_map.mpr ?_⟩
  refine h.apart.imp_of_mem ?_
  intro a b ha hb hab
  rw [hh a ha, hh b hb]
  exact hab

end Forest

/-! ## Stored nodes -/

namespace Node

mutual

/-- The node and all nodes below it. -/
def nodes : Node H N V → List (Node H N V)
  | ⟨hash, number, data, children⟩ => ⟨hash, number, data, children⟩ :: nodesOf children

def nodesOf : List (Node H N V) → List (Node H N V)
  | [] => []
  | node :: rest => node.nodes ++ nodesOf rest

end

omit [LinearOrder N]

theorem nodesOf_cons (node : Node H N V) (rest : List (Node H N V)) :
    nodesOf (node :: rest) = node.nodes ++ nodesOf rest := rfl

theorem nodes_eq (node : Node H N V) : node.nodes = node :: nodesOf node.children := by
  cases node
  rfl

variable {node : Node H N V} {rs : List (Node H N V)}

theorem mem_nodesOf : node ∈ nodesOf rs ↔ ∃ root ∈ rs, node ∈ root.nodes := by
  induction rs with
  | nil => exact ⟨nofun, nofun⟩
  | cons root rs ih => simp only [nodesOf_cons, mem_append, ih, mem_cons, exists_eq_or_imp]

theorem mem_nodesOf_append :
    node ∈ nodesOf (rs ++ rest) ↔ node ∈ nodesOf rs ∨ node ∈ nodesOf rest := by
  simp only [mem_nodesOf, mem_append, or_and_right, exists_or]

theorem mem_nodesOf_perm (h : rs.Perm (root :: rest)) :
    node ∈ nodesOf rs ↔ node ∈ root.nodes ∨ node ∈ nodesOf rest := by
  simp only [mem_nodesOf, h.mem_iff, mem_cons, exists_eq_or_imp]

theorem mem_nodes {n' : Node H N V} : n' ∈ node.nodes ↔ n' = node ∨ n' ∈ nodesOf node.children := by
  rw [nodes_eq, mem_cons]

theorem mem_nodesOf_of_mem (h : node ∈ rs) : node ∈ nodesOf rs :=
  mem_nodesOf.mpr ⟨node, h, mem_nodes.mpr (.inl rfl)⟩

/-- What is below a node of a subtree is in the subtree. -/
theorem nodesOf_children_subset_nodes (h : node ∈ root.nodes) :
    nodesOf node.children ⊆ root.nodes := by
  induction root using induct with
  | h root ih =>
    rcases mem_nodes.mp h with rfl | h
    · rw [nodes_eq]
      exact subset_cons_self _ _
    · obtain ⟨c, hch, h⟩ := mem_nodesOf.mp h
      intro x hx
      exact mem_nodes.mpr (.inr (mem_nodesOf.mpr ⟨c, hch, ih c hch h hx⟩))

/-- What is stored below a stored node is stored. -/
theorem nodesOf_children_subset (h : node ∈ nodesOf rs) : nodesOf node.children ⊆ nodesOf rs := by
  obtain ⟨root, hr, hn⟩ := mem_nodesOf.mp h
  intro x hx
  exact mem_nodesOf.mpr ⟨root, hr, nodesOf_children_subset_nodes hn hx⟩

end Node

open Node (nodesOf)

/-- The nodes below an ordered node are ordered, and are its descendents. -/
theorem Node.Ordered.nodes {node n' : Node H N V} (h : node.Ordered t S)
    (hmem : n' ∈ node.nodes) : n'.Ordered t S ∧ t.AtOrBelow node.hash n'.hash := by
  induction h with
  | @mk node hm' hnum hbel hap hchs ih =>
    rcases mem_nodes.mp hmem with rfl | hmem
    · exact ⟨.mk hm' hnum hbel hap hchs, .refl _⟩
    · obtain ⟨c, hch, hmem⟩ := mem_nodesOf.mp hmem
      obtain ⟨hord, hat⟩ := ih c hch hmem
      exact ⟨hord, .inr (t.treeOrder.below_of_below_atOrBelow (hbel c hch) hat)⟩

theorem Node.Ordered.below_nodesOf {node n' : Node H N V} (h : node.Ordered t S)
    (hmem : n' ∈ nodesOf node.children) : t.Below node.hash n'.hash := by
  obtain ⟨c, hch, hmem⟩ := mem_nodesOf.mp hmem
  have hat := ((h.forest.ordered c hch).nodes hmem).2
  exact t.treeOrder.below_of_below_atOrBelow (h.below_children c hch) hat

namespace Forest

variable {rs : List (Node H N V)} {node n' : Node H N V}

theorem ordered_nodesOf (h : Forest t S rs) (hmem : node ∈ nodesOf rs) : node.Ordered t S := by
  obtain ⟨root, hr, hn⟩ := Node.mem_nodesOf.mp hmem
  exact ((h.ordered root hr).nodes hn).1

/-- Stored nodes with something at or below both of them are below the same root. -/
theorem same_root (h : Forest t S rs) {r' : Node H N V} (hr : root ∈ rs)
    (hr' : r' ∈ rs) (hn : node ∈ root.nodes) (hn' : n' ∈ r'.nodes)
    (hat : t.AtOrBelow node.hash n'.hash) : root = r' := by
  have hbel := ((h.ordered root hr).nodes hn).2
  have hbel' := ((h.ordered r' hr').nodes hn').2
  have hnot : ¬ t.Apart root.hash r'.hash := fun hap =>
    t.treeOrder.not_apart hat (.refl _) (hap.mono t.treeOrder hbel hbel')
  exact TreeOrder.eq_of_not_apart h.apart hr hr' hnot

end Forest

/-- Within an ordered subtree, descendents are stored below. -/
theorem Node.Ordered.mem_nodesOf_children {node n' : Node H N V} (h : root.Ordered t S)
    (hn : node ∈ root.nodes) (hn' : n' ∈ root.nodes)
    (hbel : t.Below node.hash n'.hash) : n' ∈ nodesOf node.children := by
  induction root using induct with
  | h root ih =>
    rcases mem_nodes.mp hn with rfl | hn
    · rcases mem_nodes.mp hn' with rfl | hn'
      · exact absurd hbel (t.treeOrder.irrefl _)
      · exact hn'
    rcases mem_nodes.mp hn' with rfl | hn'
    · -- the root is not below one of its own descendents
      exact absurd (t.treeOrder.trans (h.below_nodesOf hn) hbel) (t.treeOrder.irrefl _)
    · obtain ⟨c, hch, hn⟩ := mem_nodesOf.mp hn
      obtain ⟨child', hch', hn'⟩ := mem_nodesOf.mp hn'
      obtain rfl := h.forest.same_root hch hch' hn hn' (.inr hbel)
      exact ih c hch (h.forest.ordered c hch) hn hn'

namespace Forest

variable {rs : List (Node H N V)} {node n' : Node H N V}

/-- Descendents of a stored node are stored below it. -/
theorem mem_nodesOf_children (h : Forest t S rs) (hn : node ∈ nodesOf rs)
    (hn' : n' ∈ nodesOf rs) (hbel : t.Below node.hash n'.hash) :
    n' ∈ nodesOf node.children := by
  obtain ⟨root, hr, hn⟩ := Node.mem_nodesOf.mp hn
  obtain ⟨root', hroot', hn'⟩ := Node.mem_nodesOf.mp hn'
  obtain rfl := h.same_root hr hroot' hn hn' (.inr hbel)
  exact (h.ordered root hr).mem_nodesOf_children hn hn' hbel

/-- Nodes of different trees have different hashes. -/
theorem nodup_hashes_of_roots (h : Forest t S rs)
    (hrts : ∀ root ∈ rs, (root.nodes.map (·.hash)).Nodup) :
    ((nodesOf rs).map (·.hash)).Nodup := by
  induction rs with
  | nil => exact nodup_nil
  | cons root rs ih =>
    obtain ⟨hr, hrts⟩ := forall_mem_cons.mp hrts
    obtain ⟨hap, -⟩ := pairwise_cons.mp h.apart
    rw [Node.nodesOf_cons, map_append]
    refine hr.append (ih (h.sublist (sublist_cons_self _ _)) hrts) ?_
    intro hash hmem hm'
    obtain ⟨node, hn, rfl⟩ := mem_map.mp hmem
    obtain ⟨n', hn', heq⟩ := mem_map.mp hm'
    obtain ⟨root', hr', hn'⟩ := Node.mem_nodesOf.mp hn'
    obtain rfl := h.same_root mem_cons_self (mem_cons_of_mem _ hr') hn hn' (.inl heq)
    exact (hap root hr').1 rfl

end Forest

theorem Node.Ordered.nodup_hashes (h : root.Ordered t S) : (root.nodes.map (·.hash)).Nodup := by
  induction root using induct with
  | h root ih =>
    rw [nodes_eq]
    refine nodup_cons.mpr ⟨?_, ?_⟩
    · intro hmem
      obtain ⟨node, hn, heq⟩ := mem_map.mp hmem
      exact t.treeOrder.irrefl _ (heq ▸ h.below_nodesOf hn)
    · exact h.forest.nodup_hashes_of_roots fun c hch => ih c hch (h.forest.ordered c hch)

theorem Forest.nodup_hashes {rs : List (Node H N V)} (h : Forest t S rs) :
    ((nodesOf rs).map (·.hash)).Nodup :=
  h.nodup_hashes_of_roots fun root hr => (h.ordered root hr).nodup_hashes

/-! ## Well-formed trees -/

/-- The hash is stored below the base, with nothing stored in between. -/
structure NearestBelow (t : BlockTree H N) (stored : List H) (base hash : H) : Prop where
  mem : hash ∈ stored
  below : t.Below base hash
  nearest : ∀ between ∈ stored, ¬ (t.Below base between ∧ t.Below between hash)

/-- The hashes that are stored in the tree. -/
def hashes (tree : ForkTree H N V) : List H := (nodesOf tree.roots).map (·.hash)

/-- No hash is stored twice, roots and siblings are unrelated, and the children of
every stored node are exactly its nearest stored descendents. -/
structure WellFormed (t : BlockTree H N) (tree : ForkTree H N V) : Prop where
  nodup : tree.hashes.Nodup
  number : ∀ node ∈ nodesOf tree.roots, node.number = t.number node.hash
  roots_apart : AllApart t tree.roots
  children_apart : ∀ node ∈ nodesOf tree.roots, AllApart t node.children
  child_below : ∀ node ∈ nodesOf tree.roots, ∀ child ∈ node.children,
    t.Below node.hash child.hash ∧ node.number < child.number
  children_nearest : ∀ node ∈ nodesOf tree.roots, ∀ hash,
    hash ∈ node.children.map (·.hash) ↔ NearestBelow t tree.hashes node.hash hash

namespace Forest

variable {rs : List (Node H N V)} {node : Node H N V}

/-- Nothing is stored between a node and its child. -/
theorem nearestBelow_child (h : Forest t S rs) (hn : node ∈ nodesOf rs)
    {c : Node H N V} (hch : c ∈ node.children) :
    NearestBelow t ((nodesOf rs).map (·.hash)) node.hash c.hash := by
  have hord := h.ordered_nodesOf hn
  have hsto : c ∈ nodesOf rs := Node.nodesOf_children_subset hn (Node.mem_nodesOf_of_mem hch)
  refine ⟨mem_map_of_mem hsto, hord.below_children c hch, ?_⟩
  rintro _ hmem ⟨hbel, hb'⟩
  obtain ⟨between, hb, rfl⟩ := mem_map.mp hmem
  -- it would be stored below a child, which then is above another child
  obtain ⟨c', hch', hnds⟩ := Node.mem_nodesOf.mp (h.mem_nodesOf_children hn hb hbel)
  have hs : c ∈ c.nodes := Node.mem_nodes.mpr (.inl rfl)
  obtain rfl := hord.forest.same_root hch' hch hnds hs (.inr hb')
  have hat := ((hord.forest.ordered c' hch').nodes hnds).2
  exact t.treeOrder.irrefl _ (t.treeOrder.below_of_atOrBelow_below hat hb')

/-- A nearest stored descendent is a child. -/
theorem mem_children_of_nearestBelow (h : Forest t S rs) (hn : node ∈ nodesOf rs)
    {hash : H} (hne : NearestBelow t ((nodesOf rs).map (·.hash)) node.hash hash) :
    hash ∈ node.children.map (·.hash) := by
  obtain ⟨node', hn', rfl⟩ := mem_map.mp hne.mem
  obtain ⟨child, hch, hmem⟩ := Node.mem_nodesOf.mp (h.mem_nodesOf_children hn hn' hne.below)
  have hord := h.ordered_nodesOf hn
  rcases ((hord.forest.ordered child hch).nodes hmem).2 with heq | hbel
  · exact heq ▸ mem_map_of_mem hch
  · have hsto : child ∈ nodesOf rs := Node.nodesOf_children_subset hn (Node.mem_nodesOf_of_mem hch)
    exact absurd ⟨hord.below_children child hch, hbel⟩
      (hne.nearest child.hash (mem_map_of_mem hsto))

theorem wellFormed (h : Forest t S tree.roots) : WellFormed t tree where
  nodup := h.nodup_hashes
  number _ hnode := (h.ordered_nodesOf hnode).number_eq
  roots_apart := h.apart
  children_apart _ hnode := (h.ordered_nodesOf hnode).forest.apart
  child_below node hnode c hch := by
    have hord := h.ordered_nodesOf hnode
    have hbel := hord.below_children c hch
    rw [hord.number_eq, (hord.forest.ordered c hch).number_eq]
    exact ⟨hbel, t.number_lt hbel⟩
  children_nearest node hnode hash := by
    refine ⟨fun hmem => ?_, h.mem_children_of_nearestBelow hnode⟩
    obtain ⟨c, hch, rfl⟩ := mem_map.mp hmem
    exact h.nearestBelow_child hnode hch

end Forest

theorem WellFormed.forest (h : WellFormed t tree) : Forest t Set.univ tree.roots := by
  have hord : ∀ node ∈ nodesOf tree.roots, node.Ordered t Set.univ := by
    intro node
    induction node using Node.induct with
    | h node ih =>
      intro hmem
      refine .mk trivial (h.number node hmem) (fun c hch => ?_) (h.children_apart node hmem)
        fun c hch => ih c hch ?_
      · exact (h.child_below node hmem c hch).1
      · exact Node.nodesOf_children_subset hmem (Node.mem_nodesOf_of_mem hch)
  exact ⟨fun root hr => hord root (Node.mem_nodesOf_of_mem hr), h.roots_apart⟩

end ForkTree
