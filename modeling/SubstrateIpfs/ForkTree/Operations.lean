-- SUMMARY: Every operation of the fork tree keeps it well-formed, if ancestors are imported first.
import SubstrateIpfs.ForkTree.Drain
import SubstrateIpfs.ForkTree.Retention

/-!
# Operations keep the fork tree well-formed

Each operation takes a forest that follows the block tree to another one. A hash
is added by an import only, which needs to know that no descendent of the new
block is stored.
-/

namespace ForkTree

open List Option Prod Vec ForkTree

variable {H N V E : Type} [LinearOrder N] {t : BlockTree H N} {S : Set H}
  {ns rs : List (Node H N V)} {n : Node H N V} {tree : ForkTree H N V} {pa : List ℕ}
  {i : ℕ} {n' : Node H N V} {predicate : V → Bool}

/-! ## Rebalancing -/

section
omit [LinearOrder N]

theorem Node.rebalance_eq (node : Node H N V) : node.rebalance =
    { node with children := (sortByDepth node.children).map rebalance } := by
  rw [rebalance, List.attach_map_val]

theorem Node.hash_rebalance (node : Node H N V) : node.rebalance.hash = node.hash := by
  rw [rebalance_eq]

theorem entries_map_perm {f : Node H N V → Node H N V}
    (h : ∀ n ∈ ns, (entries [f n]).Perm (entries [n])) :
    (entries (ns.map f)).Perm (entries ns) := by
  induction ns with
  | nil => exact .refl _
  | cons n ns ih =>
    obtain ⟨hn, hnds⟩ := forall_mem_cons.mp h
    have hp := hn.append (ih hnds)
    rwa [← entries_append, ← entries_append] at hp

theorem Node.entries_rebalance (node : Node H N V) :
    (entries [node.rebalance]).Perm (entries [node]) := by
  induction node using induct with
  | h node ih =>
    have hsrt := entries_map_perm fun c hch =>
      ih c ((sortByDepth_perm node.children).mem_iff.mp hch)
    have hchs := hsrt.trans (entries_perm (sortByDepth_perm node.children))
    rw [rebalance_eq, entries_cons, entries_cons]
    exact (hchs.append_right _).cons _

/-- Rebalancing stores the same. -/
theorem entries_rebalance (tr : ForkTree H N V) :
    (entries tr.rebalance.roots).Perm (entries tr.roots) :=
  (entries_map_perm fun n _ => n.entries_rebalance).trans
    (entries_perm (Node.sortByDepth_perm tr.roots))

end

theorem Node.Ordered.rebalance (h : n.Ordered t S) : n.rebalance.Ordered t S := by
  induction n using induct with
  | h n ih =>
    have hsrt : Forest t S (sortByDepth n.children) := h.forest.perm (sortByDepth_perm _).symm
    have hmem : ∀ c ∈ sortByDepth n.children, c ∈ n.children :=
      fun c hch => (sortByDepth_perm _).mem_iff.mp hch
    have hfor : Forest t S ((sortByDepth n.children).map Node.rebalance) :=
      hsrt.map (fun c _ => c.hash_rebalance) fun c hch => ih c (hmem c hch) (hsrt.ordered c hch)
    rw [rebalance_eq]
    refine h.with_children hfor (forall_mem_map.mpr fun c hch => ?_)
    rw [c.hash_rebalance]
    exact h.below_children c (hmem c hch)

theorem Forest.rebalance (tr : ForkTree H N V) (h : Forest t S tr.roots) :
    Forest t S tr.rebalance.roots := by
  have hsrt : Forest t S (Node.sortByDepth tr.roots) := h.perm (Node.sortByDepth_perm _).symm
  exact hsrt.map (fun n _ => n.hash_rebalance) fun n hmem => (hsrt.ordered n hmem).rebalance

/-! ## Changing a node that a path leads to -/

omit [LinearOrder N] in
/-- Replacing a node by one that looks the same. -/
theorem map_set_eq {A : Type} {f : Node H N V → A} (hget : ns[i]? = some n)
    (hs : f n' = f n) : (ns.set i n').map f = ns.map f := by
  refine ext_getElem? fun j => ?_
  by_cases hj : i = j
  · subst hj
    obtain ⟨hi, rfl⟩ := List.getElem?_eq_some_iff.mp hget
    simp [hi, hs]
  · simp [hj]

/-- A node is replaced by an ordered one with the same hash. -/
theorem Forest.set (h : Forest t S ns) (hget : ns[i]? = some n)
    (hh : n'.hash = n.hash) (hn : n'.Ordered t S) :
    Forest t S (ns.set i n') := by
  refine ⟨fun b hmem => ?_, ?_⟩
  · rcases mem_or_eq_of_mem_set hmem with hmem | rfl
    · exact h.ordered b hmem
    · exact hn
  · have hap : (ns.map (·.hash)).Pairwise t.Apart := pairwise_map.mpr h.apart
    rw [← map_set_eq hget hh] at hap
    exact pairwise_map.mp hap

section
omit [LinearOrder N]

/-- A path of more than one index leads through the first node. -/
theorem nodeAt_cons {j : ℕ} (h : nodeAt ns (i :: j :: pa) = some n) :
    ∃ a, ns[i]? = some a ∧ nodeAt a.children (j :: pa) = some n := by
  obtain ⟨a, hfst, hn⟩ := bind_eq_some_iff.mp h
  exact ⟨a, hfst, hn⟩

theorem nodeAt_singleton (h : nodeAt ns [i] = some n) : ns[i]? = some n := by
  obtain ⟨first, hfst, hn⟩ := bind_eq_some_iff.mp h
  exact hfst.trans hn

theorem mem_nodesOf_of_nodeAt (h : nodeAt ns pa = some n) : n ∈ Node.nodesOf ns := by
  induction pa generalizing ns with
  | nil => cases h
  | cons i pa ih =>
    cases pa with
    | nil => exact Node.mem_nodesOf_of_mem (mem_of_getElem? (nodeAt_singleton h))
    | cons j pa =>
      obtain ⟨first, hfst, hn⟩ := nodeAt_cons h
      exact Node.nodesOf_children_subset (Node.mem_nodesOf_of_mem (mem_of_getElem? hfst)) (ih hn)

/-- The children of the node that a path leads to. -/
theorem childrenAt_of_nodeAt (h : nodeAt ns pa = some n) : childrenAt ns pa = some n.children := by
  induction pa generalizing ns with
  | nil => cases h
  | cons i pa ih =>
    cases pa with
    | nil => simp [childrenAt, nodeAt_singleton h]
    | cons j pa =>
      obtain ⟨first, hfst, hn⟩ := nodeAt_cons h
      rw [childrenAt, hfst]
      exact ih hn

end

/-- A new leaf is put under the node that a path leads to. -/
theorem Forest.modifyAt (h : Forest t S ns) {leaf : Node H N V}
    (hp : nodeAt ns pa = some n) (hl : leaf.Ordered t S) (hbel : t.Below n.hash leaf.hash)
    (hap : ∀ child ∈ n.children, t.Apart child.hash leaf.hash) :
    ∃ nodes', modifyAt (· ++ [leaf]) ns pa = some nodes' ∧ Forest t S nodes' ∧
      nodes'.map (·.hash) = ns.map (·.hash) := by
  induction pa generalizing ns with
  | nil => cases hp
  | cons i pa ih =>
    cases pa with
    | nil =>
      have hget := nodeAt_singleton hp
      have hord := h.ordered n (mem_of_getElem? hget)
      refine ⟨ns.set i { n with children := n.children ++ [leaf] }, ?_, ?_, ?_⟩
      · simp [modifyAt, hget]
      · refine h.set hget rfl ?_
        refine hord.with_children (hord.forest.concat hl hap) ?_
        refine forall_mem_append.mpr ⟨hord.below_children, ?_⟩
        simpa using hbel
      · exact map_set_eq hget rfl
    | cons j pa =>
      obtain ⟨first, hfst, hn⟩ := nodeAt_cons hp
      have hord := h.ordered first (mem_of_getElem? hfst)
      obtain ⟨cs, hmod, hfor, hhs⟩ := ih hord.forest hn
      refine ⟨ns.set i { first with children := cs }, ?_, ?_, ?_⟩
      · rw [modifyAt, hfst]
        simp [hmod]
      · refine h.set hfst rfl (hord.with_children hfor ?_)
        have hall : ∀ hash ∈ cs.map (·.hash), t.Below first.hash hash := by
          rw [hhs]
          exact forall_mem_map.mpr hord.below_children
        exact forall_mem_map.mp hall
      · exact map_set_eq hfst rfl

omit [LinearOrder N] in
/-- The node that a path leads to can be removed. -/
theorem removeAt_of_nodeAt (h : nodeAt ns pa = some n) :
    ∃ rest, removeAt ns pa = some (n, rest) := by
  induction pa generalizing ns with
  | nil => cases h
  | cons i pa ih =>
    cases pa with
    | nil => exact ⟨ns.eraseIdx i, by simp [removeAt, nodeAt_singleton h]⟩
    | cons j pa =>
      obtain ⟨first, hfst, hn⟩ := nodeAt_cons h
      obtain ⟨rest, hrem⟩ := ih hn
      exact ⟨ns.set i { first with children := rest }, by simp [removeAt, hfst, hrem]⟩

/-! ## Importing and pruning -/

section
variable [DecidableEq H] {hash : H}

omit [DecidableEq H] in
/-- The new node, which has no children yet. -/
theorem ordered_leaf (hash : H) (d : V) :
    Node.Ordered t (insert hash S) (⟨hash, t.number hash, d, []⟩ : Node H N V) :=
  .mk (Set.mem_insert _ _) rfl (forall_mem_nil _) .nil (forall_mem_nil _)

/-- Nodes none of which is the new block or an ancestor of it are apart from it, if
it has no descendents among them. -/
theorem apart_of_not_duplicate (hord : ∀ n ∈ ns, n.Ordered t S)
    (hnew : ∀ hash' ∈ S, ¬ t.Below hash hash') (hdup : ¬ ns.any (·.hash = hash) = true)
    (hbel : ∀ n ∈ ns, ¬ t.Below n.hash hash) :
    ∀ n ∈ ns, t.Apart n.hash hash := by
  intro n hmem
  refine ⟨?_, hbel n hmem, hnew _ (hord n hmem).hash_mem⟩
  rintro rfl
  exact hdup (any_eq_true.mpr ⟨n, hmem, decide_eq_true rfl⟩)

omit [LinearOrder N] [DecidableEq H] in
theorem hashes_rebalance (tr : ForkTree H N V) :
    (tr.rebalance.roots.map (·.hash)).Perm (tr.roots.map (·.hash)) := by
  have hh : ((fun n => n.hash) ∘ Node.rebalance : Node H N V → H) = fun n => n.hash :=
    funext Node.hash_rebalance
  rw [rebalance, List.map_map, hh]
  exact (Node.sortByDepth_perm tr.roots).map _

/-- The outcomes of an import. The new node becomes a root, or goes below one. -/
inductive Imported (tree : ForkTree H N V) (hash : H) (number : N) (data : V) :
    Except (Error E) Bool → ForkTree H N V → Prop where
  | reverted (h : tree.reverts number = true) : Imported tree hash number data (.error .revert) tree
  | duplicate (h : hash ∈ tree.hashes) : Imported tree hash number data (.error .duplicate) tree
  | added {isRoot : Bool} {tree' : ForkTree H N V} (hreverts : tree.reverts number = false)
      (hbest : tree'.bestFinalizedNumber = tree.bestFinalizedNumber)
      (hentries : (entries tree'.roots).Perm ((hash, number, data) :: entries tree.roots))
      (hroots : (tree'.roots.map (·.hash)).Perm
        (if isRoot then hash :: tree.roots.map (·.hash) else tree.roots.map (·.hash))) :
      Imported tree hash number data (.ok isRoot) tree'

/-- What an import finds out: the list that the new node is put at the end of, and the forest
then. -/
theorem Forest.pushed (h : Forest t S tree.roots) (hnew : ∀ hash' ∈ S, ¬ t.Below hash hash')
    (data : V) {path : Option (List ℕ)} (hres : FindResult t hash (fun _ => true) tree.roots path) :
    ∃ chs, childrenAt tree.roots (path.getD []) = some chs ∧
      Node.nodesOf chs ⊆ Node.nodesOf tree.roots ∧
      (¬ chs.any (·.hash = hash) = true → ∃ rs,
        ForkTree.modifyAt (· ++ [⟨hash, t.number hash, data, []⟩]) tree.roots (path.getD []) =
          some rs ∧ Forest t (insert hash S) rs ∧
        rs.map (·.hash) =
          if path.isNone then tree.roots.map (·.hash) ++ [hash] else tree.roots.map (·.hash)) := by
  have hs : Forest t (insert hash S) tree.roots := h.mono (Set.subset_insert _ _)
  cases hres with
  | @found path n hp hbel _ hde =>
    have hmem := mem_nodesOf_of_nodeAt hp
    refine ⟨n.children, childrenAt_of_nodeAt hp, Node.nodesOf_children_subset hmem, fun hdup => ?_⟩
    have hno := h.ordered_nodesOf hmem
    have hap := apart_of_not_duplicate hno.forest.ordered hnew hdup
      fun child hch hb' =>
        Bool.false_ne_true (hde child (Node.mem_nodesOf_of_mem hch) hb').symm
    exact hs.modifyAt hp (ordered_leaf hash data) hbel hap
  | none hn =>
    refine ⟨tree.roots, rfl, List.Subset.refl _, fun hdup =>
      ⟨_, rfl, hs.concat (ordered_leaf hash data) ?_, map_append⟩⟩
    exact apart_of_not_duplicate h.ordered hnew hdup fun root hr hbel =>
      Bool.false_ne_true (hn root (Node.mem_nodesOf_of_mem hr) hbel).symm

/-- An import of a block without stored descendents. -/
theorem Forest.importNode (h : Forest t S tree.roots) (hnew : ∀ hash' ∈ S, ¬ t.Below hash hash')
    (d : V) :
    ∃ res t', tree.importNode (E := E) t.oracle hash (t.number hash) d =
        some (res, t') ∧ Forest t (insert hash S) t'.roots ∧
      Imported tree hash (t.number hash) d res t' := by
  have hs : Forest t (insert hash S) tree.roots := h.mono (Set.subset_insert _ _)
  unfold ForkTree.importNode
  split
  next hrev => exact ⟨_, tree, rfl, hs, .reverted hrev⟩
  rename_i hrev
  obtain ⟨pa, hf, hres⟩ := findNodeIndexWhere_spec (E := E) h hash fun _ => true
  obtain ⟨chs, hat, hsto, hpush⟩ := h.pushed hnew d hres
  simp only [hf, hat, bind_eq_bind, bind_some]
  by_cases hdup : chs.any (·.hash = hash) = true
  · rw [if_pos hdup]
    refine ⟨_, tree, rfl, hs, .duplicate ?_⟩
    obtain ⟨c, hch, heq⟩ := any_eq_true.mp hdup
    exact mem_map.mpr ⟨c, hsto (Node.mem_nodesOf_of_mem hch), of_decide_eq_true heq⟩
  obtain ⟨rs, hmod, hfor, hhs⟩ := hpush hdup
  rw [if_neg hdup, hmod]
  have hen := entries_modifyAt hmod
  have hrts : (rs.map (·.hash)).Perm (if pa.isNone then
      hash :: tree.roots.map (·.hash) else tree.roots.map (·.hash)) := by
    rw [hhs]
    split
    · exact perm_append_singleton _ _
    · exact .refl _
  refine ⟨_, _, rfl, ?_⟩
  split
  · refine ⟨rebalance { tree with roots := rs } hfor, .added ?_ rfl ?_ ?_⟩
    · exact Bool.eq_false_iff.mpr hrev
    · exact (entries_rebalance { tree with roots := rs }).trans hen
    · exact (hashes_rebalance { tree with roots := rs }).trans hrts
  · exact ⟨hfor, .added (Bool.eq_false_iff.mpr hrev) rfl hen hrts⟩

theorem pruneChildren_false {d : H → H → Except E Bool} {num : N} (chs : List (Node H N V)) :
    pruneChildren d hash num chs false = .ok ([], chs) := by
  induction chs with
  | nil => rfl
  | cons child chs ih =>
    rw [pruneChildren, ih]
    rfl

/-- Siblings do not both lead to one block. -/
theorem Forest.length_leads_le (h : Forest t S rs) (hash : H) :
    (rs.filter (t.leads hash)).length ≤ 1 := by
  have hap : (rs.filter (t.leads hash)).Pairwise fun a b => t.Apart a.hash b.hash :=
    h.apart.sublist filter_sublist
  have hl : ∀ r ∈ rs.filter (t.leads hash), t.AtOrBelow r.hash hash :=
    fun r hr => BlockTree.leads_iff.mp (mem_filter.mp hr).2
  match rs.filter (t.leads hash), hap, hl with
  | [], _, _ => exact Nat.zero_le _
  | [_], _, _ => exact le_rfl
  | a :: b :: _, hap, hl =>
    have hab := (pairwise_cons.mp hap).1 b mem_cons_self
    exact absurd hab (t.treeOrder.not_apart (hl a (by simp)) (hl b (by simp)))

/-- At most one child leads to the block. It is kept, the others are removed. -/
theorem Forest.pruneChildren {chs : List (Node H N V)} (h : Forest t S chs) (hash : H) :
    ∃ rem, pruneChildren (E := E) t.oracle hash (t.number hash) chs true =
        .ok (chs.filter (t.leads hash), rem) ∧
      chs.Perm (chs.filter (t.leads hash) ++ rem) := by
  induction chs with
  | nil => exact ⟨[], rfl, .refl _⟩
  | cons c chs ih =>
    have hch := h.ordered c mem_cons_self
    rw [ForkTree.pruneChildren, leadsTo_oracle hch]
    cases hl : t.leads hash c with
    | true =>
      have hoth : chs.filter (t.leads hash) = [] := by
        have hone := h.length_leads_le hash
        rw [filter_cons_of_pos hl, length_cons] at hone
        exact eq_nil_of_length_eq_zero (by omega)
      refine ⟨chs, ?_, ?_⟩
      · rw [pruneChildren_false, filter_cons_of_pos hl, hoth]
        rfl
      · rw [filter_cons_of_pos hl, hoth]
        exact .refl _
    | false =>
      obtain ⟨rem, hpru, hp⟩ := ih (h.sublist (sublist_cons_self _ _))
      have hf : (c :: chs).filter (t.leads hash) = chs.filter (t.leads hash) :=
        filter_cons_of_neg (by simp [hl])
      refine ⟨c :: rem, ?_, ?_⟩
      · rw [hpru, hf]
        rfl
      · rw [hf]
        exact (hp.cons c).trans perm_middle.symm

/-- The entry is the deepest ancestor of the block that passes the predicate. -/
structure Deepest (t : BlockTree H N) (stored : List (H × N × V)) (hash : H) (predicate : V → Bool)
    (entry : H × N × V) : Prop where
  mem : entry ∈ stored
  below : t.Below entry.1 hash
  passes : predicate entry.2.2
  deepest : ∀ entry' ∈ stored, t.Below entry'.1 hash → predicate entry'.2.2 →
    t.AtOrBelow entry'.1 entry.1

omit [DecidableEq H] in
/-- An ancestor that passes the predicate, with none that passes it stored below. -/
theorem Forest.deepest (h : Forest t S tree.roots) (hn : n ∈ Node.nodesOf tree.roots)
    (hbel : t.Below n.hash hash) (hp : predicate n.data)
    (hde : ∀ n' ∈ Node.nodesOf n.children, t.Below n'.hash hash → predicate n'.data = false) :
    Deepest t (entries tree.roots) hash predicate n.entry := by
  refine ⟨mem_entries.mpr ⟨n, hn, rfl⟩, hbel, hp, ?_⟩
  intro entry hent hb' hp'
  obtain ⟨n', hn', rfl⟩ := mem_entries.mp hent
  -- both are ancestors of the block, and what is stored below the found one does not pass
  rcases t.treeOrder.chain hb' hbel with heq | hup | hdo
  · exact .inl heq.symm
  · exact .inr hup
  · have hf := hde n' (h.mem_nodesOf_children hn hn' hdo) hb'
    exact absurd hp' (Bool.eq_false_iff.mp hf)

/-- What pruning leaves: all, if no ancestor of the block passes the predicate, or the deepest one
that does with its at most one child that is the block or an ancestor of it. -/
inductive Rerooted (t : BlockTree H N) (hash : H) (predicate : V → Bool) (tree : ForkTree H N V) :
    ForkTree H N V → Prop where
  | unchanged
      (h : ∀ entry ∈ entries tree.roots, t.Below entry.1 hash → predicate entry.2.2 = false) :
      Rerooted t hash predicate tree tree
  | deepest {tree' : ForkTree H N V} {node : Node H N V} (hnode : node ∈ Node.nodesOf tree.roots)
      (hdeepest : Deepest t (entries tree.roots) hash predicate node.entry)
      (hone : (node.children.filter (t.leads hash)).length ≤ 1)
      (hentries : (entries tree'.roots).Perm
        (node.entry :: entries (node.children.filter (t.leads hash)))) :
      Rerooted t hash predicate tree tree'

/-- Pruning to the node that the search has found. -/
theorem Forest.prune_of_found (h : Forest t S tree.roots) {hash : H}
    (hf : tree.findNodeIndexWhere (E := E) t.oracle hash (t.number hash) predicate = .ok (some pa))
    (hp : nodeAt tree.roots pa = some n) :
    ∃ rem tree', tree.prune (E := E) t.oracle hash (t.number hash) predicate =
        some (.ok rem, tree') ∧ Forest t S tree'.roots ∧
      tree'.bestFinalizedNumber = tree.bestFinalizedNumber ∧
      (entries tree.roots).Perm (entries tree'.roots ++ rem) ∧
      (entries tree'.roots).Perm (n.entry :: entries (n.children.filter (t.leads hash))) := by
  have hn := h.ordered_nodesOf (mem_nodesOf_of_nodeAt hp)
  obtain ⟨oldRoots, hrem⟩ := removeAt_of_nodeAt hp
  obtain ⟨rem, hpru, hchs⟩ := hn.forest.pruneChildren (E := E) hash
  have hr : Node.Ordered t S { n with children := n.children.filter (t.leads hash) } :=
    hn.with_children (hn.forest.sublist filter_sublist)
      fun child hch => hn.below_children child (mem_of_mem_filter hch)
  have hfor : Forest t S [{ n with children := n.children.filter (t.leads hash) }] :=
    ⟨forall_mem_singleton.mpr hr, pairwise_singleton _ _⟩
  have hs := entries_rebalance
    { tree with roots := [{ n with children := n.children.filter (t.leads hash) }] }
  rw [entries_cons, entries_nil, append_nil] at hs
  unfold prune
  simp only [hf, hrem, hpru, bind_eq_bind, bind_some]
  refine ⟨_, _, rfl, rebalance { tree with roots := _ } hfor, rfl, ?_, hs⟩
  -- the node with its children and the other roots are all there was
  have hall := entries_removeAt hrem
  rw [entries_cons, entries_nil, append_nil] at hall
  refine hall.trans (.trans ?_ (hs.symm.append_right _))
  rw [removed_eq_entries]
  have hg := (entries_perm (reverse_perm (oldRoots ++ rem))).symm
  refine .trans (.append_right _ (.cons _ (entries_perm hchs))) ?_
  refine .trans ?_ (hg.append_left _)
  rw [entries_append, entries_append, cons_append, append_assoc]
  exact (perm_append_comm.append_left _).cons _

theorem Forest.prune (h : Forest t S tree.roots) (hash : H) (p : V → Bool) :
    ∃ rem t', tree.prune (E := E) t.oracle hash (t.number hash) p =
        some (.ok rem, t') ∧ Forest t S t'.roots ∧
      t'.bestFinalizedNumber = tree.bestFinalizedNumber ∧
      (entries tree.roots).Perm (entries t'.roots ++ rem) ∧
      Rerooted t hash p tree t' := by
  obtain ⟨pa, hf, hres⟩ := findNodeIndexWhere_spec h hash p
  cases hres with
  | none hno =>
    refine ⟨[], tree, by rw [ForkTree.prune, hf], h, rfl, by rw [append_nil], .unchanged ?_⟩
    intro entry hent
    obtain ⟨n, hn, rfl⟩ := mem_entries.mp hent
    exact hno n hn
  | @found pa n hp hbel hpa hde =>
    have hn := mem_nodesOf_of_nodeAt hp
    obtain ⟨rem, t', hpru, h', hb, hpe, hen⟩ := h.prune_of_found hf hp
    exact ⟨rem, t', hpru, h', hb, hpe,
      .deepest hn (h.deepest hn hbel hpa hde)
        ((h.ordered_nodesOf hn).forest.length_leads_le hash) hen⟩

end

/-! ## Filtering -/

theorem Forest.filterMap {f : Node H N V → Option (Node H N V)} (h : Forest t S ns)
    (hf : ∀ n ∈ ns, ∀ n', f n = some n' →
      n'.Ordered t S ∧ n'.hash = n.hash) : Forest t S (ns.filterMap f) := by
  refine ⟨fun n' hmem => ?_, pairwise_filterMap.mpr ?_⟩
  · obtain ⟨n, hn, hs⟩ := mem_filterMap.mp hmem
    exact (hf n hn n' hs).1
  · refine h.apart.imp_of_mem ?_
    intro a b ha hb hab a' ha' b' hb'
    rw [(hf a ha a' ha').2, (hf b hb b' hb').2]
    exact hab

/-- What is left of a node is the node with some of the nodes below it. -/
theorem Node.Ordered.filtered {f : Filter H N V} (h : n.Ordered t S) :
    ∀ n', n.filtered f = some n' → n'.Ordered t S ∧ n'.hash = n.hash := by
  induction n using induct with
  | h n ih =>
    intro n' hfil
    cases hf : f n.hash n.number n.data with
    | remove =>
      rw [filtered_remove hf] at hfil
      cases hfil
    | keepTree =>
      rw [filtered_keepTree hf] at hfil
      cases hfil
      exact ⟨h, rfl⟩
    | keepNode =>
      rw [filtered_keepNode hf] at hfil
      cases hfil
      have hchs := fun c hch => ih c hch (h.forest.ordered c hch)
      refine ⟨h.with_children (h.forest.filterMap hchs) fun c' hmem => ?_, rfl⟩
      obtain ⟨c, hch, hs⟩ := mem_filterMap.mp hmem
      rw [(hchs c hch c' hs).2]
      exact h.below_children c hch

theorem Forest.drainFilter (h : Forest t S tree.roots) (f : Filter H N V) :
    ∃ res t', tree.drainFilter f = some (res, t') ∧ Forest t S t'.roots := by
  obtain ⟨rem, hdr⟩ := drainFilter_eq tree f
  have hfor : Forest t S (tree.roots.filterMap (Node.filtered f)) :=
    h.filterMap fun r hr => (h.ordered r hr).filtered
  refine ⟨_, _, hdr, ?_⟩
  split
  · exact hfor
  · exact rebalance { tree with roots := tree.roots.filterMap (Node.filtered f) } hfor

/-! ## Runs -/

/-- The operations that change the tree, called for blocks with their numbers. -/
inductive Call (H N V : Type) where
  | importNode (hash : H) (data : V)
  | finalize (hash : H)
  | finalizeRoot (hash : H)
  | finalizeWithAncestors (hash : H)
  | finalizeWithDescendentIf (hash : H) (predicate : V → Bool)
  | prune (hash : H) (predicate : V → Bool)
  | drainFilter (filter : Filter H N V)
  | rebalance

/-- The block that a call imports. -/
def Call.imported : Call H N V → Option H
  | .importNode hash _ => some hash
  | _ => none

/-- No block is imported after one of its descendents. -/
def AncestorsFirst (t : BlockTree H N) (calls : List (Call H N V)) : Prop :=
  calls.Pairwise fun earlier later => ∀ descendent ∈ earlier.imported, ∀ hash ∈ later.imported,
    ¬ t.Below hash descendent

variable [DecidableEq H]

/-- The tree after a call, whatever the call returns. -/
def step (t : BlockTree H N) (tree : ForkTree H N V) : Call H N V → Option (ForkTree H N V)
  | .importNode hash data =>
    (tree.importNode (E := Empty) t.oracle hash (t.number hash) data).map snd
  | .finalize hash => (tree.finalize (E := Empty) t.oracle hash (t.number hash)).map snd
  | .finalizeRoot hash => (tree.finalizeRoot hash).map snd
  | .finalizeWithAncestors hash =>
    (tree.finalizeWithAncestors (E := Empty) t.oracle hash (t.number hash)).map snd
  | .finalizeWithDescendentIf hash predicate =>
    (tree.finalizeWithDescendentIf (E := Empty) t.oracle hash (t.number hash) predicate).map snd
  | .prune hash predicate =>
    (tree.prune (E := Empty) t.oracle hash (t.number hash) predicate).map snd
  | .drainFilter filter => (tree.drainFilter filter).map snd
  | .rebalance => some tree.rebalance

/-- The tree after a sequence of calls. -/
def run (t : BlockTree H N) (calls : List (Call H N V)) (tree : ForkTree H N V) :
    Option (ForkTree H N V) :=
  calls.foldlM (step t) tree

/-- Every call keeps the forest. Its hashes are those imported so far. -/
theorem Forest.step (h : Forest t S tree.roots) (c : Call H N V)
    (hnew : ∀ hash ∈ c.imported, ∀ hash' ∈ S, ¬ t.Below hash hash') :
    ∃ t', step t tree c = some t' ∧ Forest t (S ∪ {hash | hash ∈ c.imported}) t'.roots := by
  -- only an import adds to the set of hashes
  have hm : ∀ {ns : List (Node H N V)}, Forest t S ns →
      Forest t (S ∪ {hash | hash ∈ c.imported}) ns :=
    fun h => h.mono Set.subset_union_left
  cases c with
  | importNode hash d =>
    obtain ⟨res, t', himp, h', -⟩ := h.importNode (hnew hash rfl) d
    refine ⟨t', congrArg (Option.map snd) himp, h'.mono ?_⟩
    exact Set.insert_subset (.inr rfl) Set.subset_union_left
  | finalize hash =>
    obtain ⟨res, t', hfin, h', -⟩ := h.finalize hash
    exact ⟨t', congrArg (Option.map snd) hfin, hm h'⟩
  | finalizeRoot hash =>
    obtain ⟨res, t', hfin, h'⟩ := h.finalizeRoot hash
    exact ⟨t', congrArg (Option.map snd) hfin, hm h'⟩
  | finalizeWithAncestors hash =>
    obtain ⟨res, t', hfin, h', -⟩ := h.finalizeWithAncestors hash
    exact ⟨t', congrArg (Option.map snd) hfin, hm h'⟩
  | finalizeWithDescendentIf hash predicate =>
    obtain ⟨res, t', hfin, h'⟩ := h.finalizeWithDescendentIf hash predicate
    exact ⟨t', congrArg (Option.map snd) hfin, hm h'⟩
  | prune hash predicate =>
    obtain ⟨rem, t', hpru, h', -⟩ := h.prune hash predicate
    exact ⟨t', congrArg (Option.map snd) hpru, hm h'⟩
  | drainFilter f =>
    obtain ⟨res, t', hdr, h'⟩ := h.drainFilter f
    exact ⟨t', congrArg (Option.map snd) hdr, hm h'⟩
  | rebalance => exact ⟨_, rfl, hm h.rebalance⟩

theorem Forest.run (h : Forest t S tree.roots) {cs : List (Call H N V)} (hcs : AncestorsFirst t cs)
    (hnew : ∀ c ∈ cs, ∀ hash ∈ c.imported, ∀ hash' ∈ S, ¬ t.Below hash hash') :
    ∃ t' S', run t cs tree = some t' ∧ Forest t S' t'.roots := by
  induction cs generalizing tree S with
  | nil => exact ⟨tree, S, rfl, h⟩
  | cons c cs ih =>
    obtain ⟨hfst, hr⟩ := pairwise_cons.mp hcs
    obtain ⟨hcall, hlat⟩ := forall_mem_cons.mp hnew
    obtain ⟨tree1, hs, h1⟩ := h.step c hcall
    obtain ⟨t', S', hrun, h'⟩ := ih h1 hr fun l hmem hash hh hash' hm' => by
      rcases hm' with hm' | hm'
      · exact hlat l hmem hash hh hash' hm'
      · exact hfst l hmem hash' hm' hash hh
    refine ⟨t', S', ?_, h'⟩
    rw [run, foldlM_cons, hs]
    exact hrun

/-- Whatever is called on a new tree, no call panics and the tree is well-formed,
if no block is imported after one of its descendents. -/
theorem wellFormed_run {calls : List (Call H N V)} (h : AncestorsFirst t calls) :
    ∃ tree, run t calls new = some tree ∧ WellFormed t tree := by
  have hnew : Forest t ∅ (new : ForkTree H N V).roots := .nil
  obtain ⟨tree, S, hrun, hfor⟩ := hnew.run h fun _ _ _ _ _ hmem => absurd hmem (Set.notMem_empty _)
  exact ⟨tree, hrun, hfor.wellFormed⟩

/-- Two forks above a common block: `0 - 1 - 2` and `0 - 3`. -/
def twoForks : BlockTree (Fin 4) ℕ where
  number
    | 0 => 0
    | 1 => 1
    | 2 => 2
    | 3 => 1
  isDescendentOf a b := (a, b) ∈ [(0, 1), (0, 2), (0, 3), (1, 2)]
  trans := by decide
  chain := by decide
  number_lt := by decide

theorem wellFormed_run_twoForks :
    ∃ tree, run twoForks [.importNode 0 (), .importNode 1 (), .importNode 3 (), .importNode 2 (),
        .prune 2 fun _ => true, .finalizeWithAncestors 2] new = some tree ∧
      WellFormed twoForks tree := by
  refine wellFormed_run ?_
  simp [AncestorsFirst, Call.imported, BlockTree.Below, twoForks]

end ForkTree
