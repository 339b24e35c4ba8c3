-- SUMMARY: Finalizing a block keeps exactly the stored nodes below it, with their subtrees.
import SubstrateIpfs.ForkTree.Search

/-!
# What finalizing keeps

A block that is finalized leaves its strict descendents, each with the subtree that it had, also if
its ancestors are finalized with it.
-/

namespace ForkTree

open List Node Vec

open Node (nodesOf)

variable {H N V E : Type} [LinearOrder N] {t : BlockTree H N} {S : Set H} {hash : H} {num : N}
  {tree tree' : ForkTree H N V} {rs rs' : List (Node H N V)} {ro : Node H N V}

/-! ## Descendents of the block -/

/-- The stored nodes, with what is stored below them, are those strictly below the block. -/
def KeepsBelow (t : BlockTree H N) (hash : H) (roots roots' : List (Node H N V)) : Prop :=
  ∀ node, node ∈ nodesOf roots' ↔ node ∈ nodesOf roots ∧ t.Below hash node.hash

/-- All roots are below the block. -/
theorem Forest.keepsBelow_self (h : Forest t S rs)
    (hbel : ∀ ro ∈ rs, t.Below hash ro.hash) : KeepsBelow t hash rs rs := by
  refine fun node => (and_iff_left_of_imp fun hn => ?_).symm
  obtain ⟨ro, hr, hn⟩ := mem_nodesOf.mp hn
  exact t.treeOrder.below_of_below_atOrBelow (hbel ro hr) ((h.ordered ro hr).nodes hn).2

/-- The block itself is stored: its descendents are below it. -/
theorem Forest.keepsBelow_children (h : Forest t S rs) (hr : ro ∈ nodesOf rs) :
    KeepsBelow t ro.hash rs ro.children := by
  refine fun node => ⟨fun hn => ?_, fun hn => h.mem_nodesOf_children hr hn.1 hn.2⟩
  exact ⟨nodesOf_children_subset hr hn, (h.ordered_nodesOf hr).below_nodesOf hn⟩

/-- The tree of a root has no descendent of the block if the root is not related to it. -/
theorem Node.Ordered.not_below_of_other {n : Node H N V} (h : ro.Ordered t S)
    (hne : ro.hash ≠ hash) (hnot : ¬ t.Below hash ro.hash) (hn' : ¬ t.Below ro.hash hash)
    (hmem : n ∈ ro.nodes) : ¬ t.Below hash n.hash := by
  intro hbel
  have hap : ¬ t.Apart ro.hash hash := t.treeOrder.not_apart (h.nodes hmem).2 (.inr hbel)
  exact hap ⟨hne, hn', hnot⟩

theorem KeepsBelow.trans {rs'' : List (Node H N V)} (h : KeepsBelow t hash rs' rs'')
    (heq : ∀ n, t.Below hash n.hash → (n ∈ nodesOf rs' ↔ n ∈ nodesOf rs)) :
    KeepsBelow t hash rs rs'' := by
  intro n
  rw [h n]
  exact and_congr_left (heq n)

/-- What is kept, as a list. -/
theorem KeepsBelow.perm (hk : KeepsBelow t hash rs rs') (h : Forest t S rs) (h' : Forest t S rs') :
    (nodesOf rs').Perm ((nodesOf rs).filter fun n => t.isDescendentOf hash n.hash) := by
  refine (perm_ext_iff_of_nodup h'.nodup_hashes.of_map (h.nodup_hashes.of_map.filter _)).mpr ?_
  intro n
  rw [hk n, mem_filter]
  rfl

/-! ## The oracle of the block tree -/

/-- An ancestor has a smaller number, so asking for the numbers first does not matter. -/
theorem askClient_of_lt (ba b : H) :
    (if t.number ba < t.number b then askClient (E := E) t.oracle ba b else .ok false) =
      .ok (t.isDescendentOf ba b) := by
  split
  · rfl
  next hge =>
    have hnot : t.isDescendentOf ba b = false :=
      Bool.eq_false_iff.mpr fun hbel => hge (t.number_lt hbel)
    rw [hnot]

omit [LinearOrder N] in
theorem retainRoots_eq {keep : Node H N V → Except (Error E) Bool} {p : Node H N V → Bool}
    (hk : ∀ ro ∈ rs, keep ro = .ok (p ro)) (kept : List (Node H N V)) (c : Bool) :
    ∃ changed', retainRoots keep rs kept c = (.ok changed', kept ++ rs.filter p) := by
  induction rs generalizing kept c with
  | nil => exact ⟨c, by rw [filter_nil, append_nil]; rfl⟩
  | cons ro rs ih =>
    obtain ⟨hr, hrts⟩ := forall_mem_cons.mp hk
    rw [retainRoots, hr]
    cases hp : p ro with
    | true => simpa [hp] using ih hrts (kept ++ [ro]) c
    | false => simpa [hp] using ih hrts kept true

omit [LinearOrder N] in
theorem anyNode_eq_false {ask : Node H N V → Except (Error E) Bool}
    (h : anyNode ask rs = .ok false) : ∀ ro ∈ rs, ask ro = .ok false := by
  induction rs with
  | nil => exact forall_mem_nil _
  | cons ro rs ih =>
    rw [anyNode] at h
    split at h
    · cases h
    · cases h
    next hr => exact forall_mem_cons.mpr ⟨hr, ih h⟩

variable [DecidableEq H]

/-- The child is the block itself or an ancestor of it. -/
def BlockTree.leads (t : BlockTree H N) (hash : H) (child : Node H N V) : Bool :=
  decide (hash = child.hash) || t.isDescendentOf child.hash hash

theorem BlockTree.leads_iff : t.leads hash ro = true ↔ t.AtOrBelow ro.hash hash := by
  rw [leads, Bool.or_eq_true, decide_eq_true_iff]
  rfl

theorem leadsTo_oracle (h : ro.Ordered t S) :
    leadsTo (E := E) t.oracle hash (t.number hash) ro = .ok (t.leads hash ro) := by
  unfold leadsTo BlockTree.leads
  rw [h.number_eq, askClient_of_lt]
  by_cases heq : ro.hash = hash
  · subst heq
    simp
  · rw [if_neg fun hand => heq hand.2, decide_eq_false (Ne.symm heq), Bool.false_or]

theorem isRelated_oracle (h : ro.Ordered t S) (hash : H) :
    isRelated (E := E) t.oracle hash (t.number hash) ro =
      .ok (t.isDescendentOf hash ro.hash || t.leads hash ro) := by
  unfold isRelated BlockTree.leads
  rw [h.number_eq, askClient_of_lt]
  cases t.isDescendentOf hash ro.hash with
  | true => rfl
  | false =>
    by_cases heq : ro.hash = hash
    · subst heq
      simp
    · rw [if_neg fun hand => heq hand.2, decide_eq_false (Ne.symm heq)]
      rfl

/-- What a root is to the block, in the block tree. -/
theorem relation_spec (h : ro.Ordered t S) {r : Relation}
    (hr : relation (E := E) t.oracle hash (t.number hash) ro = .ok r) :
    match r with
    | .finalized => ro.hash = hash
    | .descendant => t.Below hash ro.hash
    | .ancestor => t.Below ro.hash hash
    | .other => ro.hash ≠ hash ∧ ¬ t.Below hash ro.hash ∧ ¬ t.Below ro.hash hash := by
  unfold relation at hr
  rw [h.number_eq, askClient_of_lt, askClient_of_lt] at hr
  split at hr
  next heq =>
    cases hr
    exact heq
  rename_i hne
  cases hbel : t.isDescendentOf hash ro.hash with
  | true =>
    rw [hbel] at hr
    cases hr
    exact hbel
  | false =>
    rw [hbel] at hr
    cases habv : t.isDescendentOf ro.hash hash with
    | true =>
      rw [habv] at hr
      cases hr
      exact habv
    | false =>
      rw [habv] at hr
      cases hr
      exact ⟨hne, Bool.eq_false_iff.mp hbel, Bool.eq_false_iff.mp habv⟩

/-! ## Finalizing -/

omit [LinearOrder N] [DecidableEq H] in
/-- The children of a root become the roots. -/
theorem finalizePosition_of_lt {i : ℕ} (hi : i < tree.roots.length) :
    tree.finalizePosition (some i) = some (some tree.roots[i].data,
      ⟨tree.roots[i].children, some tree.roots[i].number⟩) := by
  obtain ⟨rest, hs, -⟩ := swapRemove_of_lt hi
  simp only [finalizePosition, finalizeRootAt, hs]
  rfl

omit [LinearOrder N] in
/-- The block is a root, or it is none. -/
theorem finalizeRoot_cases (tr : ForkTree H N V) (hash : H) :
    (∃ ro ∈ tr.roots, ro.hash = hash ∧
        tr.finalizeRoot hash = some (some ro.data, ⟨ro.children, some ro.number⟩)) ∨
      (∀ ro ∈ tr.roots, ro.hash ≠ hash) ∧ tr.finalizeRoot hash = some (none, tr) := by
  unfold finalizeRoot
  cases hf : tr.roots.findIdx? (·.hash = hash) with
  | none =>
    have hn := findIdx?_eq_none_iff.mp hf
    exact .inr ⟨fun ro hr => of_decide_eq_false (hn ro hr), rfl⟩
  | some i =>
    obtain ⟨hi, hh, -⟩ := findIdx?_eq_some_iff_getElem.mp hf
    exact .inl ⟨_, getElem_mem hi, of_decide_eq_true hh, finalizePosition_of_lt hi⟩

theorem Forest.finalizeRoot (h : Forest t S tree.roots) (hash : H) :
    ∃ d tree', tree.finalizeRoot hash = some (d, tree') ∧ Forest t S tree'.roots := by
  rcases finalizeRoot_cases tree hash with ⟨ro, hr, -, heq⟩ | ⟨-, heq⟩
  · exact ⟨_, _, heq, (h.ordered ro hr).forest⟩
  · exact ⟨_, _, heq, h⟩

/-- What finalizing a block leaves: the stored nodes below it, with their subtrees. -/
structure Finalized (t : BlockTree H N) (hash : H) (tree tree' : ForkTree H N V) : Prop where
  kept : (nodesOf tree'.roots).Perm
    ((nodesOf tree.roots).filter fun node => t.isDescendentOf hash node.hash)
  best : tree'.bestFinalizedNumber = some (t.number hash)

omit [DecidableEq H] in
theorem Forest.finalized_root (h : Forest t S tree.roots) (hr : ro ∈ tree.roots)
    (hh : ro.hash = hash) : Finalized t hash tree ⟨ro.children, some ro.number⟩ := by
  subst hh
  have hord := h.ordered ro hr
  exact ⟨(h.keepsBelow_children (mem_nodesOf_of_mem hr)).perm h hord.forest,
    congrArg some hord.number_eq⟩

theorem Forest.finalize (h : Forest t S tree.roots) (hash : H) :
    ∃ res tree', tree.finalize (E := E) t.oracle hash (t.number hash) =
        some (res, tree') ∧ Forest t S tree'.roots ∧
      ∀ changed, res = .ok changed → Finalized t hash tree tree' := by
  unfold ForkTree.finalize
  split
  · exact ⟨_, tree, rfl, h, nofun⟩
  rcases finalizeRoot_cases tree hash with ⟨ro, hr, hh, heq⟩ | ⟨hne, heq⟩
  · rw [heq]
    exact ⟨_, _, rfl, (h.ordered ro hr).forest, fun _ _ => h.finalized_root hr hh⟩
  simp only [heq, Option.bind_eq_bind, Option.bind_some]
  split
  · exact ⟨_, tree, rfl, h, nofun⟩
  · exact ⟨_, tree, rfl, h, nofun⟩
  rename_i hany
  -- the roots that are kept are those below the block
  obtain ⟨changed, hret⟩ := retainRoots_eq
    (fun ro hr => (h.ordered ro hr).number_eq ▸ askClient_of_lt hash _) [] false
  rw [hret]
  have hfor := h.sublist (filter_sublist (p := fun ro => t.isDescendentOf hash ro.hash))
  refine ⟨_, _, rfl, hfor, fun _ _ => ⟨KeepsBelow.perm ?_ h hfor, rfl⟩⟩
  refine (hfor.keepsBelow_self fun ro hr => (mem_filter.mp hr).2).trans ?_
  intro node hbel
  simp only [mem_nodesOf, mem_filter]
  refine exists_congr fun ro => ⟨fun hr => ⟨hr.1.1, hr.2⟩, ?_⟩
  rintro ⟨hr, hn⟩
  have hord := h.ordered ro hr
  have habv := anyNode_eq_false hany ro hr
  rw [hord.number_eq, askClient_of_lt] at habv
  refine ⟨⟨hr, ?_⟩, hn⟩
  by_contra hnot
  exact hord.not_below_of_other (hne ro hr) hnot (Bool.eq_false_iff.mp (Except.ok.inj habv)) hn hbel

section
variable {d : H → H → Except E Bool} {b : Option N} {idx : ℕ} {c : Bool}
  {r : List (Node H N V)}

theorem openAncestors_none (h : swapRemove rs idx = none) :
    openAncestors d hash num b rs idx c = (.ok (none, c), ⟨rs, b⟩) := by
  rw [openAncestors]
  split
  · rfl
  next h' => cases h.symm.trans h'

theorem openAncestors_some (h : swapRemove rs idx = some (ro, r)) :
    openAncestors d hash num b rs idx c =
      match relation d hash num ro with
      | .error error => (.error error, ⟨rs, b⟩)
      | .ok .finalized => (.ok (some ro.data, c), ⟨ro.children, some ro.number⟩)
      | .ok .descendant => openAncestors d hash num b rs (idx + 1) c
      | .ok .ancestor =>
        openAncestors d hash num b (r ++ ro.children) idx true
      | .ok .other => openAncestors d hash num b r idx true := by
  rw [openAncestors]
  split
  next h' => cases h.symm.trans h'
  next h' =>
    obtain ⟨rfl, rfl⟩ := Prod.mk.inj (Option.some.inj (h.symm.trans h'))
    rfl

end

/-- A root is left, opened or dropped in each round, and the loop keeps the descendents of the
block. The roots before the index are descendents. -/
theorem Forest.openAncestors (h : Forest t S rs) {b : Option N} {idx : ℕ} {c : Bool}
    (hbef : ∀ ro ∈ rs.take idx, t.Below hash ro.hash) {res : Except (Error E) (Option V × Bool)}
    (ho : openAncestors (E := E) t.oracle hash (t.number hash) b rs idx c = (res, tree')) :
    Forest t S tree'.roots ∧ ∀ f c', res = .ok (f, c') →
      KeepsBelow t hash rs tree'.roots ∧
        tree'.bestFinalizedNumber = if f.isSome then some (t.number hash) else b := by
  induction rs, idx, c using openAncestors.induct (E := E) t.oracle hash (t.number hash) with
  | case1 rs idx c hs =>
    rw [openAncestors_none hs] at ho
    cases ho
    rw [take_of_length_le (swapRemove_eq_none.mp hs)] at hbef
    refine ⟨h, ?_⟩
    rintro _ _ ⟨⟩
    exact ⟨h.keepsBelow_self hbef, rfl⟩
  | case2 rs idx c ro r hs error hrel =>
    rw [openAncestors_some hs, hrel] at ho
    cases ho
    exact ⟨h, nofun⟩
  | case3 rs idx c ro r hs hrel =>
    have hr : ro ∈ rs := mem_of_getElem? (swapRemove_eq_some hs).1
    have hord := h.ordered ro hr
    obtain rfl : ro.hash = hash := relation_spec hord hrel
    rw [openAncestors_some hs, hrel] at ho
    cases ho
    refine ⟨hord.forest, ?_⟩
    rintro _ _ ⟨⟩
    exact ⟨h.keepsBelow_children (mem_nodesOf_of_mem hr), congrArg some hord.number_eq⟩
  | case4 rs idx c ro r hs hrel ih =>
    have hget := (swapRemove_eq_some hs).1
    have hr : t.Below hash ro.hash := relation_spec (h.ordered ro (mem_of_getElem? hget)) hrel
    rw [openAncestors_some hs, hrel] at ho
    refine ih h ?_ ho
    rw [take_add_one, hget]
    exact forall_mem_append.mpr ⟨hbef, by simpa using hr⟩
  | case5 rs idx c ro r hs hrel ih =>
    obtain ⟨hget, hp⟩ := swapRemove_eq_some hs
    have hr : t.Below ro.hash hash := relation_spec (h.ordered ro (mem_of_getElem? hget)) hrel
    rw [openAncestors_some hs, hrel] at ho
    rw [← take_of_swapRemove hs ro.children] at hbef
    obtain ⟨hfor, hk⟩ := ih (h.perm hp).open_node hbef ho
    refine ⟨hfor, fun f c' hok => ?_⟩
    obtain ⟨hk, hb⟩ := hk f c' hok
    refine ⟨hk.trans fun n hbel => ?_, hb⟩
    -- the root itself is above the block
    have hne : n ≠ ro := by
      rintro rfl
      exact t.treeOrder.irrefl _ (t.treeOrder.trans hr hbel)
    rw [mem_nodesOf_perm hp, mem_nodesOf_append, mem_nodes, or_iff_right hne, or_comm]
  | case6 rs idx c ro r hs hrel ih =>
    obtain ⟨hget, hp⟩ := swapRemove_eq_some hs
    have hord := h.ordered ro (mem_of_getElem? hget)
    obtain ⟨hne, hnot, hn'⟩ := relation_spec hord hrel
    rw [openAncestors_some hs, hrel] at ho
    rw [← take_of_swapRemove hs [], append_nil] at hbef
    obtain ⟨hfor, hk⟩ := ih ((h.perm hp).sublist (sublist_cons_self _ _)) hbef ho
    refine ⟨hfor, fun f c' hok => ?_⟩
    obtain ⟨hk, hb⟩ := hk f c' hok
    refine ⟨hk.trans fun n hbel => ?_, hb⟩
    rw [mem_nodesOf_perm hp]
    exact (or_iff_right fun hmem => hord.not_below_of_other hne hnot hn' hmem hbel).symm

theorem Forest.finalizeWithAncestors (h : Forest t S tree.roots) (hash : H) :
    ∃ res tree', tree.finalizeWithAncestors (E := E) t.oracle hash (t.number hash) =
        some (res, tree') ∧ Forest t S tree'.roots ∧
      ∀ c, res = .ok c → Finalized t hash tree tree' := by
  unfold ForkTree.finalizeWithAncestors
  split
  · exact ⟨_, tree, rfl, h, nofun⟩
  rcases finalizeRoot_cases tree hash with ⟨ro, hr, hh, heq⟩ | ⟨-, heq⟩
  · rw [heq]
    exact ⟨_, _, rfl, (h.ordered ro hr).forest, fun _ _ => h.finalized_root hr hh⟩
  simp only [heq, Option.bind_eq_bind, Option.bind_some]
  cases ho : ForkTree.openAncestors t.oracle hash (t.number hash)
    tree.bestFinalizedNumber tree.roots 0 false with
  | mk res tree' =>
    obtain ⟨hfor, hk⟩ := h.openAncestors (by simp) ho
    cases res with
    | error error => exact ⟨_, _, rfl, hfor, nofun⟩
    | ok res =>
      obtain ⟨f, c⟩ := res
      obtain ⟨hkept, hbest⟩ := hk f c rfl
      cases f with
      | some data => exact ⟨_, _, rfl, hfor, fun _ _ => ⟨hkept.perm h hfor, hbest⟩⟩
      | none => exact ⟨_, _, rfl, hfor, fun _ _ => ⟨hkept.perm h hfor, rfl⟩⟩

/-- The position is that of a root. -/
theorem lt_of_rootToFinalize {d : H → H → Except E Bool} {num : N} {p : V → Bool} {a i : ℕ}
    (h : rootToFinalize d hash num p rs a = .ok (some i)) :
    i < a + rs.length := by
  induction rs generalizing a with
  | nil => cases h
  | cons ro rs ih =>
    rw [rootToFinalize] at h
    split at h
    · cases h
    · have hi := ih h
      rw [length_cons]
      omega
    · split at h
      · cases h
      · cases h
      · cases h
        rw [length_cons]
        omega

theorem Forest.finalizeWithDescendentIf (h : Forest t S tree.roots) (hash : H) (pred : V → Bool) :
    ∃ res tree',
      tree.finalizeWithDescendentIf (E := E) t.oracle hash (t.number hash) pred =
        some (res, tree') ∧ Forest t S tree'.roots := by
  unfold ForkTree.finalizeWithDescendentIf
  split
  · exact ⟨_, tree, rfl, h⟩
  split
  · exact ⟨_, tree, rfl, h⟩
  rename_i pos hp
  obtain ⟨data, tree1, hfin, h1⟩ : ∃ data tree1,
      tree.finalizePosition pos = some (data, tree1) ∧ Forest t S tree1.roots := by
    cases pos with
    | none => exact ⟨none, tree, rfl, h⟩
    | some i =>
      have hi : i < tree.roots.length := by simpa using lt_of_rootToFinalize hp
      exact ⟨_, _, finalizePosition_of_lt hi, (h.ordered _ (getElem_mem hi)).forest⟩
  obtain ⟨changed, hret⟩ := retainRoots_eq
    (fun ro hr => isRelated_oracle (E := E) (h1.ordered ro hr) hash) [] false
  simp only [hfin, hret, Option.bind_eq_bind, Option.bind_some]
  exact ⟨_, _, rfl, h1.sublist filter_sublist⟩

end ForkTree
