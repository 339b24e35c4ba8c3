-- SUMMARY: The search of the fork tree finds the deepest stored ancestor that passes the predicate.
import SubstrateIpfs.ForkTree.Forest

/-!
# Searching the fork tree

The search is a depth-first traversal in post-order with an explicit stack. The
stack is always the way from the root down to the node that is looked at next, and
all branches that have been left aside do not lead to the block.
-/

namespace ForkTree

open List Node

variable {H N V E : Type} [LinearOrder N] {t : BlockTree H N} {S : Set H}

/-- The oracle of a block tree never fails. -/
def BlockTree.oracle (t : BlockTree H N) (base block : H) : Except E Bool :=
  .ok (t.isDescendentOf base block)

@[simp] theorem askClient_oracle (ba b : H) :
    askClient (E := E) t.oracle ba b = .ok (t.isDescendentOf ba b) := rfl

/-! ## Ways down -/

/-- The stack is the way from the root to the node. Its entries are the nodes above,
each with the child to be looked at next. -/
inductive Way (root : Node H N V) : Node H N V → List (Node H N V × ℕ) → Prop where
  | root : Way root root []
  | child {parent node : Node H N V} {i : ℕ} {stack : List (Node H N V × ℕ)}
      (h : Way root parent stack) (hchild : parent.children[i]? = some node) :
      Way root node ((parent, i + 1) :: stack)

/-- A way on which no child before the one that it leads through is an ancestor of
the block. -/
inductive Descent (t : BlockTree H N) (hash : H) (root : Node H N V) :
    Node H N V → List (Node H N V × ℕ) → Prop where
  | root : Descent t hash root root []
  | child {parent node : Node H N V} {i : ℕ} {stack : List (Node H N V × ℕ)}
      (h : Descent t hash root parent stack) (hchild : parent.children[i]? = some node)
      (hexplored : ∀ child ∈ parent.children.take i, ¬ t.Below child.hash hash) :
      Descent t hash root node ((parent, i + 1) :: stack)

/-- The node that a path leads to, from a node on. -/
def descend (node : Node H N V) (path : List ℕ) : Option (Node H N V) :=
  path.foldlM (fun node i => node.children[i]?) node

/-- The node that a path leads to. -/
def nodeAt (roots : List (Node H N V)) : List ℕ → Option (Node H N V)
  | [] => none
  | i :: path => do descend (← roots[i]?) path

variable {hash : H} {root node : Node H N V} {s : List (Node H N V × ℕ)}

omit [LinearOrder N] in
theorem Way.descend_eq (h : Way root node s) :
    descend root (s.reverse.map fun e => e.2 - 1) = some node := by
  induction h with
  | root => rfl
  | child _ hch ih =>
    rw [reverse_cons, map_append, descend, foldlM_append, ← descend, ih]
    simpa using hch

omit [LinearOrder N] in
theorem Way.mem_nodes (h : Way root node s) : node ∈ root.nodes := by
  induction h with
  | root => exact Node.mem_nodes.mpr (.inl rfl)
  | child _ hch ih =>
    exact nodesOf_children_subset_nodes ih (mem_nodesOf_of_mem (mem_of_getElem? hch))

namespace Descent

section
variable (h : Descent t hash root node s)

include h

theorem way : Way root node s := by
  induction h with
  | root => exact .root
  | child _ hch _ ih => exact .child ih hch

theorem descend_eq : descend root (s.reverse.map fun e => e.2 - 1) = some node := h.way.descend_eq

theorem mem_nodes : node ∈ root.nodes := h.way.mem_nodes

end

end Descent

/-! ## The loop below one root -/

section
variable {desc : H → H → Except E Bool} {num : N} {p : V → Bool} {i : ℕ}

theorem searchLoop_nil (isd : Bool) :
    searchLoop (V := V) desc hash num p [] isd = .ok ([], isd, false) := by
  rw [searchLoop]

end

/-- The outcomes of the loop: the deepest ancestor of the block that passes the
predicate is found, or no ancestor passes it, or there is no ancestor. -/
inductive SearchResult (t : BlockTree H N) (hash : H) (predicate : V → Bool) (root : Node H N V) :
    List (Node H N V × ℕ) → Bool → Bool → Prop where
  | found {node : Node H N V} {stack : List (Node H N V × ℕ)}
      (h : Descent t hash root node stack) (hbelow : t.Below node.hash hash)
      (hpasses : predicate node.data)
      (hdeepest : ∀ node' ∈ nodesOf node.children, t.Below node'.hash hash →
        predicate node'.data = false) : SearchResult t hash predicate root stack true true
  | failed (hbelow : t.Below root.hash hash)
      (h : ∀ node ∈ root.nodes, t.Below node.hash hash → predicate node.data = false) :
      SearchResult t hash predicate root [] true false
  | unrelated (h : ¬ t.Below root.hash hash) : SearchResult t hash predicate root [] false false

section
variable {p : V → Bool}

/-- Ancestors of the block below a node are below the child that is one. -/
theorem Node.Ordered.ancestor_below_child {c n' : Node H N V} (h : node.Ordered t S)
    (hch : c ∈ node.children) (hbel : t.Below c.hash hash)
    (hmem : n' ∈ nodesOf node.children) (hb' : t.Below n'.hash hash) :
    n' ∈ c.nodes := by
  obtain ⟨c', hch', hmem⟩ := mem_nodesOf.mp hmem
  have hat := ((h.forest.ordered c' hch').nodes hmem).2
  have hnot : ¬ t.Apart c'.hash c.hash :=
    t.treeOrder.not_apart (.inr (t.treeOrder.below_of_atOrBelow_below hat hb')) (.inr hbel)
  obtain rfl := TreeOrder.eq_of_not_apart h.forest.apart hch' hch hnot
  exact hmem

/-- Going up from an ancestor below which no ancestor passes the predicate. -/
theorem searchLoop_up (hr : root.Ordered t S) (h : Descent t hash root node s)
    (hbel : t.Below node.hash hash)
    (hf : ∀ n' ∈ node.nodes, t.Below n'.hash hash → p n'.data = false) :
    ∃ stack' found, searchLoop (E := E) t.oracle hash (t.number hash) p s true =
        .ok (stack', true, found) ∧ SearchResult t hash p root stack' true found := by
  induction h with
  | root => exact ⟨[], false, searchLoop_nil true, .failed hbel hf⟩
  | @child par node i s h hch _ ih =>
    have hmem : node ∈ par.children := mem_of_getElem? hch
    have hpar := (hr.nodes h.mem_nodes).1
    have hpb : t.Below par.hash hash := t.treeOrder.trans (hpar.below_children node hmem) hbel
    have hde : ∀ n' ∈ nodesOf par.children, t.Below n'.hash hash →
        p n'.data = false := fun n' hm' hb' =>
      hf n' (hpar.ancestor_below_child hmem hbel hm' hb') hb'
    -- only the nodes above the ancestor are looked at
    rw [searchLoop, dif_neg fun hi => Bool.noConfusion hi.2]
    cases hp : p par.data with
    | true => exact ⟨s, true, rfl, .found h hpb hp hde⟩
    | false =>
      refine ih hpb fun n' hm' hb' => ?_
      rcases mem_nodes.mp hm' with rfl | hm'
      · exact hp
      · exact hde n' hm' hb'

/-- The loop, with all children before the next one left aside. -/
theorem searchLoop_spec (hr : root.Ordered t S) {i : ℕ} (h : Descent t hash root node s)
    (hex : ∀ child ∈ node.children.take i, ¬ t.Below child.hash hash) :
    ∃ stack' isd found,
      searchLoop (E := E) t.oracle hash (t.number hash) p ((node, i) :: s) false =
        .ok (stack', isd, found) ∧
      SearchResult t hash p root stack' isd found := by
  induction hn : pending ((node, i) :: s) using Nat.strong_induction_on generalizing node i s with
  | _ n ih =>
    subst hn
    have hnode := (hr.nodes h.mem_nodes).1
    rcases lt_or_ge i node.children.length with hi | hi
    · have hget : node.children[i]? = some node.children[i] := getElem?_eq_getElem hi
      have hch := hnode.forest.ordered _ (getElem_mem hi)
      rw [searchLoop, dif_pos ⟨hi, rfl⟩]
      dsimp only
      split
      · exact ih _ (pending_push s hi).1 (.child h hget hex) (by simp) rfl
      rename_i hge
      refine ih _ (pending_push s hi).2 h ?_ rfl
      intro child hmem hbel
      rw [take_add_one, hget] at hmem
      rcases mem_append.mp hmem with hmem | hmem
      · exact hex child hmem hbel
      · obtain rfl : child = node.children[i] := by simpa using hmem
        exact hge (hch.number_eq ▸ t.number_lt hbel)
    rw [take_of_length_le hi] at hex
    have hno : ∀ node' ∈ nodesOf node.children, ¬ t.Below node'.hash hash := by
      intro node' hmem hbel
      obtain ⟨child, hch, hmem⟩ := mem_nodesOf.mp hmem
      have hat := ((hnode.forest.ordered child hch).nodes hmem).2
      exact hex child hch (t.treeOrder.below_of_atOrBelow_below hat hbel)
    -- all children have been searched, the node itself is looked at
    have hdo : ¬ (i < node.children.length ∧ false = false) := fun hlt => hi.not_gt hlt.1
    rw [searchLoop, dif_neg hdo, askClient_oracle]
    cases hbel : t.isDescendentOf node.hash hash with
    | true =>
      cases hp : p node.data with
      | true =>
        exact ⟨s, true, true, rfl,
          .found h hbel hp fun node' hmem hb' => absurd hb' (hno node' hmem)⟩
      | false =>
        have hf : ∀ node' ∈ node.nodes, t.Below node'.hash hash → p node'.data = false := by
          intro node' hmem hb'
          rcases mem_nodes.mp hmem with rfl | hmem
          · exact hp
          · exact absurd hb' (hno node' hmem)
        obtain ⟨stack', found, hup, hres⟩ := searchLoop_up hr h hbel hf
        exact ⟨stack', true, found, hup, hres⟩
    | false =>
      have hnot : ¬ t.Below node.hash hash := fun h => Bool.false_ne_true (hbel.symm.trans h)
      cases h with
      | root => exact ⟨[], false, false, searchLoop_nil false, .unrelated hnot⟩
      | @child par _ j s h hch he' =>
        refine ih _ (by simp [pending]) h ?_ rfl
        intro child hmem
        rw [take_add_one, hch] at hmem
        rcases mem_append.mp hmem with hmem | hmem
        · exact he' child hmem
        · obtain rfl : child = node := by simpa using hmem
          exact hnot

/-! ## The search -/

/-- The outcomes of the search: the path to the deepest stored ancestor that passes
the predicate, if there is one. -/
inductive FindResult (t : BlockTree H N) (hash : H) (predicate : V → Bool)
    (roots : List (Node H N V)) : Option (List ℕ) → Prop where
  | found {path : List ℕ} {node : Node H N V} (hpath : nodeAt roots path = some node)
      (hbelow : t.Below node.hash hash) (hpasses : predicate node.data)
      (hdeepest : ∀ node' ∈ nodesOf node.children, t.Below node'.hash hash →
        predicate node'.data = false) : FindResult t hash predicate roots (some path)
  | none (h : ∀ node ∈ nodesOf roots, t.Below node.hash hash → predicate node.data = false) :
      FindResult t hash predicate roots none

theorem searchRoots_spec {all roots : List (Node H N V)} (h : Forest t S all) {ri : ℕ}
    (hrts : all.drop ri = roots)
    (hex : ∀ node ∈ nodesOf (all.take ri), t.Below node.hash hash → p node.data = false) :
    ∃ path, searchRoots (E := E) t.oracle hash (t.number hash) p roots ri = .ok path ∧
      FindResult t hash p all path := by
  induction roots generalizing ri with
  | nil =>
    refine ⟨none, rfl, .none ?_⟩
    rwa [take_of_length_le (drop_eq_nil_iff.mp hrts)] at hex
  | cons root roots ih =>
    have hget : all[ri]? = some root := by
      rw [← head?_drop, hrts, head?_cons]
    have hmem : root ∈ all := mem_of_getElem? hget
    have hr := h.ordered root hmem
    have hre : all.drop (ri + 1) = roots := by
      rw [← tail_drop, hrts, tail_cons]
    -- what is below this root can be left aside if the root is not an ancestor
    have hne : ¬ t.Below root.hash hash → ∀ node ∈ nodesOf (all.take (ri + 1)),
        t.Below node.hash hash → p node.data = false := by
      intro hnot node hn hbel
      obtain ⟨root', hr', hn⟩ := mem_nodesOf.mp hn
      rw [take_add_one, hget] at hr'
      rcases mem_append.mp hr' with hr' | hr'
      · exact hex node (mem_nodesOf.mpr ⟨root', hr', hn⟩) hbel
      · obtain rfl : root' = root := by simpa using hr'
        exact absurd (t.treeOrder.below_of_atOrBelow_below (hr.nodes hn).2 hbel) hnot
    rw [searchRoots]
    split
    next hle =>
      refine ih hre (hne fun hbel => ?_)
      exact not_lt_of_ge (hr.number_eq ▸ hle) (t.number_lt hbel)
    · have hde : Descent t hash root root [] := .root
      have hno : ∀ child ∈ root.children.take 0, ¬ t.Below child.hash hash := by simp
      obtain ⟨s, isd, found, hs, hres⟩ := searchLoop_spec hr hde hno
      rw [hs]
      cases hres with
      | @found node _ hde hbel hp hdeep =>
        refine ⟨_, rfl, .found ?_ hbel hp hdeep⟩
        simp only [nodeAt, hget]
        exact hde.descend_eq
      | failed hbel hf =>
        refine ⟨none, rfl, .none fun node hn hb' => ?_⟩
        obtain ⟨root', hr', hn⟩ := mem_nodesOf.mp hn
        have hat := ((h.ordered root' hr').nodes hn).2
        have hnot : ¬ t.Apart root'.hash root.hash := t.treeOrder.not_apart
          (.inr (t.treeOrder.below_of_atOrBelow_below hat hb')) (.inr hbel)
        obtain rfl := TreeOrder.eq_of_not_apart h.apart hr' hmem hnot
        exact hf node hn hb'
      | unrelated hnot => exact ih hre (hne hnot)

/-- The search in a forest that follows the block tree. -/
theorem findNodeIndexWhere_spec {tree : ForkTree H N V} (h : Forest t S tree.roots) (hash : H)
    (predicate : V → Bool) :
    ∃ path, tree.findNodeIndexWhere (E := E) t.oracle hash (t.number hash) predicate = .ok path ∧
      FindResult t hash predicate tree.roots path :=
  searchRoots_spec h drop_zero nofun

end

end ForkTree

/-! ## What a fork tree stores

The entries of a tree are the hashes, numbers and data of its nodes. Where the nodes are is
of no concern: in a forest that follows the block tree, the search finds the deepest entry
that passes the predicate.
-/

namespace ForkTree

open List Option

variable {H N V E : Type}

def Node.entry (node : Node H N V) : H × N × V := (node.hash, node.number, node.data)

/-- What the nodes store. -/
def entries (nodes : List (Node H N V)) : List (H × N × V) := (Node.nodesOf nodes).map Node.entry

section
variable {ns ns' r : List (Node H N V)} {n : Node H N V}

@[simp] theorem entries_nil : entries ([] : List (Node H N V)) = [] := rfl

@[simp] theorem entries_cons :
    entries (n :: ns) = n.entry :: (entries n.children ++ entries ns) := by
  unfold entries
  rw [Node.nodesOf_cons, Node.nodes_eq, map_append, map_cons, cons_append]

@[simp] theorem entries_append : entries (ns ++ ns') = entries ns ++ entries ns' := by
  induction ns with
  | nil => rfl
  | cons n ns ih => rw [cons_append, entries_cons, ih, entries_cons, cons_append, append_assoc]

theorem mem_entries {e : H × N × V} : e ∈ entries ns ↔ ∃ n ∈ Node.nodesOf ns, n.entry = e := mem_map

theorem entries_perm (h : ns.Perm ns') : (entries ns).Perm (entries ns') := by
  induction h with
  | nil => exact .refl _
  | cons n _ ih =>
    rw [entries_cons, entries_cons]
    exact (ih.append_left _).cons _
  | swap n n' ns =>
    have hs : (entries [n'] ++ entries [n]).Perm (entries [n] ++ entries [n']) := perm_append_comm
    simpa using hs.append_right (entries ns)
  | trans _ _ ih ih' => exact ih.trans ih'

/-- The children of one node change. -/
theorem entries_set {i : ℕ} {cs : List (Node H N V)} {e : List (H × N × V)} (hget : ns[i]? = some n)
    (hchs : (entries cs).Perm (e ++ entries n.children)) :
    (entries (ns.set i { n with children := cs })).Perm (e ++ entries ns) := by
  induction ns generalizing i with
  | nil => simp at hget
  | cons first ns ih =>
    cases i with
    | zero =>
      cases hget
      rw [set_cons_zero, entries_cons, entries_cons]
      refine .trans (.cons _ (hchs.append_right _)) ?_
      rw [append_assoc]
      exact perm_middle.symm
    | succ i =>
      rw [set_cons_succ, entries_cons, entries_cons]
      refine .trans (.cons _ ((ih (by simpa using hget)).append_left _)) ?_
      rw [← append_assoc]
      refine .trans (.cons _ (perm_append_comm.append_right _)) ?_
      rw [append_assoc]
      exact perm_middle.symm

/-- A leaf is put at the end of the list that a path leads to. -/
theorem entries_modifyAt {p : List ℕ} {l : Node H N V} (h : modifyAt (· ++ [l]) ns p = some ns') :
    (entries ns').Perm (entries [l] ++ entries ns) := by
  induction p generalizing ns ns' with
  | nil =>
    cases h
    rw [entries_append]
    exact perm_append_comm
  | cons i p ih =>
    obtain ⟨n, hn, h⟩ := bind_eq_some_iff.mp h
    obtain ⟨chs, hchs, h⟩ := bind_eq_some_iff.mp h
    cases h
    exact entries_set hn (ih hchs)

/-- The node that a path leads to is removed. -/
theorem entries_removeAt {p : List ℕ} (h : removeAt ns p = some (n, r)) :
    (entries ns).Perm (entries [n] ++ entries r) := by
  induction p generalizing ns r with
  | nil => cases h
  | cons i p ih =>
    cases p with
    | nil =>
      obtain ⟨node', hn, h⟩ := bind_eq_some_iff.mp h
      cases h
      obtain ⟨hi, rfl⟩ := List.getElem?_eq_some_iff.mp hn
      rw [← entries_append]
      exact entries_perm (getElem_cons_eraseIdx_perm hi).symm
    | cons j p =>
      obtain ⟨⟨hash, num, d, below⟩, hfst, h⟩ := bind_eq_some_iff.mp h
      obtain ⟨⟨rem, chs⟩, hrem, h⟩ := bind_eq_some_iff.mp h
      cases h
      obtain ⟨hi, hfst⟩ := List.getElem?_eq_some_iff.mp hfst
      -- put the node back among the children
      have hb : (ns.set i ⟨hash, num, d, chs⟩)[i]? =
          some ⟨hash, num, d, chs⟩ := getElem?_set_self hi
      have hp := entries_set hb (ih hrem)
      rwa [set_set, ← hfst, set_getElem_self] at hp

/-- The iterator over removed nodes takes all of them. -/
theorem removed_eq_entries (s : List (Node H N V)) : Node.removed s = entries s := by
  induction s using Node.removed.induct with
  | case1 => rw [Node.removed, entries_nil]
  | case2 n s ih => rw [Node.removed, ih, entries_append, entries_cons, Node.entry]

end

end ForkTree
