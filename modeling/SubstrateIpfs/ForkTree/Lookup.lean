-- SUMMARY: Looking up the deepest stored ancestor that passes a predicate, also for a new head.
import SubstrateIpfs.ForkTree.Operations

/-!
# Lookups

A lookup returns the deepest stored ancestor of a block that passes the predicate. It
depends on what is stored only, not on where. The block may be a head that is yet to
come, whose parent is known: the oracle is asked about ancestors of this head only, and
answers as in the block tree with the head put below its parent.
-/

namespace ForkTree

open List Bool Node BlockTree

variable {H N V E : Type} [LinearOrder N] {t : BlockTree H N} {S : Set H}
  {tree : ForkTree H N V} {hash : H} {number : N} {predicate : V → Bool}

/-! ## The oracle is asked about one block -/

section
variable {d d' : H → H → Except E Bool}

section
variable (h : ∀ base, d base hash = d' base hash)

include h

theorem searchLoop_congr (s : List (Node H N V × ℕ)) (isD : Bool) :
    searchLoop d hash number predicate s isD =
      searchLoop d' hash number predicate s isD := by
  have hask : ∀ base, askClient d base hash = askClient d' base hash :=
    fun base => congrArg _ (h base)
  induction hpe : pending s using Nat.strong_induction_on generalizing s isD with
  | h n ih =>
    subst hpe
    cases s with
    | nil => rw [searchLoop, searchLoop]
    | cons entry s =>
      obtain ⟨node, i⟩ := entry
      have hr : pending s < pending ((node, i) :: s) := by simp [pending]
      rw [searchLoop.eq_def d, searchLoop.eq_def d']
      simp only [hask]
      split
      next hch =>
        obtain ⟨hp, hs⟩ := pending_push s hch.1
        split
        · exact ih _ hp _ _ rfl
        · exact ih _ hs _ _ rfl
      · split
        · rfl
        · exact ih _ hr _ _ rfl
        · split
          · rfl
          · exact ih _ hr _ _ rfl

theorem searchRoots_congr (rs : List (Node H N V)) (ri : ℕ) :
    searchRoots d hash number predicate rs ri =
      searchRoots d' hash number predicate rs ri := by
  induction rs generalizing ri with
  | nil => rfl
  | cons root rs ih => rw [searchRoots, searchRoots, searchLoop_congr h, ih]

theorem findNodeIndexWhere_congr (tr : ForkTree H N V) :
    tr.findNodeIndexWhere d hash number predicate =
      tr.findNodeIndexWhere d' hash number predicate :=
  searchRoots_congr h tr.roots 0

end

end

/-! ## Looking up -/

/-- Find the deepest ancestor of the given block that passes the predicate. -/
def findNodeWhere (isDescendentOf : H → H → Except E Bool) (self : ForkTree H N V) (hash : H)
    (number : N) (predicate : V → Bool) : Option (Except (Error E) (Option (Node H N V))) :=
  match self.findNodeIndexWhere isDescendentOf hash number predicate with
  | .error error => some (.error error)
  | .ok none => some (.ok none)
  | .ok (some path) => (nodeAt self.roots path).map fun node => .ok (some node)

/-- What a lookup returns. -/
inductive Found (t : BlockTree H N) (stored : List (H × N × V)) (hash : H) (predicate : V → Bool) :
    Option (H × N × V) → Prop where
  | none (h : ∀ entry ∈ stored, t.Below entry.1 hash → predicate entry.2.2 = false) :
      Found t stored hash predicate none
  | some {entry : H × N × V} (h : Deepest t stored hash predicate entry) :
      Found t stored hash predicate (some entry)

/-- Entries with the same hash are the same. -/
theorem Forest.entry_eq (h : Forest t S tree.roots) {e e' : H × N × V}
    (hmem : e ∈ entries tree.roots) (hm' : e' ∈ entries tree.roots)
    (heq : e.1 = e'.1) : e = e' := by
  obtain ⟨node, hn, rfl⟩ := mem_entries.mp hmem
  obtain ⟨node', hnode', rfl⟩ := mem_entries.mp hm'
  rw [inj_on_of_nodup_map h.nodup_hashes hn hnode' heq]

theorem Forest.findNodeWhere (h : Forest t S tree.roots) (hash : H) (p : V → Bool) :
    ∃ found, tree.findNodeWhere (E := E) t.oracle hash (t.number hash) p =
        some (.ok found) ∧
      Found t (entries tree.roots) hash p (found.map entry) := by
  obtain ⟨path, hf, hres⟩ := findNodeIndexWhere_spec h hash p
  unfold ForkTree.findNodeWhere
  rw [hf]
  cases hres with
  | none hn =>
    refine ⟨none, rfl, .none fun entry hent hbel => ?_⟩
    obtain ⟨node, hno, rfl⟩ := mem_entries.mp hent
    exact hn node hno hbel
  | @found path node hp hbel hpa hde =>
    exact ⟨some node, congrArg (Option.map _) hp,
      .some (h.deepest (mem_nodesOf_of_nodeAt hp) hbel hpa hde)⟩

/-- The search returns the path to the deepest stored ancestor of the block that passes the
predicate, and no path exactly if there is no such ancestor. A path is in range, and leads to the
node that `findNodeWhere` returns. -/
theorem findNodeIndexWhere_deepest (h : WellFormed t tree) (hash : H) (predicate : V → Bool) :
    ∃ result,
      tree.findNodeIndexWhere (E := E) t.oracle hash (t.number hash) predicate = .ok result ∧
      (result = none ↔ ∀ entry ∈ entries tree.roots, t.Below entry.1 hash →
        predicate entry.2.2 = false) ∧
      tree.findNodeWhere (E := E) t.oracle hash (t.number hash) predicate =
        some (.ok (result.bind (nodeAt tree.roots))) ∧
      ∀ path, result = some path → ∃ node, nodeAt tree.roots path = some node ∧
        Deepest t (entries tree.roots) hash predicate node.entry := by
  obtain ⟨result, hf, hres⟩ := findNodeIndexWhere_spec h.forest hash predicate
  refine ⟨result, hf, ?_⟩
  unfold findNodeWhere
  rw [hf]
  cases hres with
  | none hn =>
    refine ⟨iff_of_true rfl fun entry hent => ?_, rfl, nofun⟩
    obtain ⟨node, hno, rfl⟩ := mem_entries.mp hent
    exact hn node hno
  | @found path node hp hbel hpa hde =>
    have hent := h.forest.deepest (mem_nodesOf_of_nodeAt hp) hbel hpa hde
    refine ⟨iff_of_false nofun fun hn => ?_, ?_, ?_⟩
    · exact absurd hpa (eq_false_iff.mp (hn _ hent.mem hbel))
    · simp [hp]
    · rintro _ ⟨⟩
      exact ⟨node, hp, hent⟩

local instance neZeroFour : NeZero 4 := ⟨four_ne_zero⟩

/-- Two forks, with a block on each of them that is yet to be finalized. -/
def forked : ForkTree (Fin 4) ℕ Unit :=
  ⟨[⟨0, 0, (), [⟨1, 1, (), [⟨2, 2, (), []⟩]⟩, ⟨3, 1, (), []⟩]⟩], none⟩

theorem wellFormed_forked : WellFormed twoForks forked := by
  have hl : ∀ hash, Ordered twoForks Set.univ (⟨hash, twoForks.number hash, (), []⟩) :=
    fun hash => .mk trivial rfl (forall_mem_nil _) .nil (forall_mem_nil _)
  have hr : Ordered twoForks Set.univ
      (⟨0, 0, (), [⟨1, 1, (), [⟨2, 2, (), []⟩]⟩, ⟨3, 1, (), []⟩]⟩) := by
    refine .mk trivial rfl ?_ ?_ ?_
    · simp [Below, twoForks]
    · simp [AllApart, TreeOrder.Apart, Below, twoForks]
    · refine forall_mem_cons.mpr ⟨.mk trivial rfl ?_ (pairwise_singleton _ _) ?_, ?_⟩
      · simp [Below, twoForks]
      · exact forall_mem_singleton.mpr (hl 2)
      · exact forall_mem_singleton.mpr (hl 3)
  exact Forest.wellFormed ⟨forall_mem_singleton.mpr hr, pairwise_singleton _ _⟩

theorem findNodeIndexWhere_forked :
    ∃ path node, forked.findNodeIndexWhere (E := Empty) twoForks.oracle 2 2 (fun _ => true) =
        .ok (some path) ∧ nodeAt forked.roots path = some node ∧
      Deepest twoForks (entries forked.roots) 2 (fun _ => true) node.entry := by
  obtain ⟨res, hf, hn, -, hs⟩ := findNodeIndexWhere_deepest wellFormed_forked 2 fun _ => true
  cases res with
  | none =>
    have hfa := hn.mp rfl (1, 1, ()) (by simp [forked, entry]) rfl
    cases hfa
  | some path =>
    obtain ⟨node, hp, hde⟩ := hs path rfl
    exact ⟨path, node, hf, hp, hde⟩

/-- A lookup in part of what was stored gives the same if what it gave is still there. -/
theorem Found.unique {s s' : List (H × N × V)} {f f' : Option (H × N × V)}
    (h : Found t s hash predicate f) (h' : Found t s' hash predicate f')
    (hsub : s' ⊆ s) (hk : ∀ e, Deepest t s hash predicate e → e ∈ s')
    (heq : ∀ e ∈ s, ∀ e' ∈ s, e.1 = e'.1 → e = e') :
    f' = f := by
  cases h with
  | none hn =>
    cases h' with
    | none => rfl
    | some hd' =>
      have hf := hn _ (hsub hd'.mem) hd'.below
      exact absurd hd'.passes (eq_false_iff.mp hf)
  | @some e hde =>
    have hmem := hk e hde
    cases h' with
    | none hn =>
      have hf := hn e hmem hde.below
      exact absurd hde.passes (eq_false_iff.mp hf)
    | @some e' hd' =>
      have hdo := hde.deepest e' (hsub hd'.mem) hd'.below hd'.passes
      have hup := hd'.deepest e hmem hde.below hde.passes
      refine congrArg Option.some (heq _ (hsub hd'.mem) _ hde.mem ?_)
      rcases hup with hup | hup
      · exact hup
      · have hs := t.treeOrder.below_of_below_atOrBelow hup hdo
        exact absurd hs (t.treeOrder.irrefl _)

/-! ## What stays after pruning -/

omit [LinearOrder N] in
theorem mem_hashes : hash ∈ tree.hashes ↔ ∃ n ∈ nodesOf tree.roots, n.hash = hash := mem_map

omit [LinearOrder N] in
theorem map_fst_entries (tr : ForkTree H N V) :
    (entries tr.roots).map Prod.fst = tr.hashes := map_map

/-- A node with something stored between it and the block: if only the child that leads to the
block is kept, all of the chains through the block are kept. -/
theorem Forest.mem_kept [DecidableEq H] (h : Forest t S tree.roots) {node : Node H N V}
    (hn : node ∈ nodesOf tree.roots) {f : H} (hfst : f ∈ tree.hashes)
    (hbel : t.Below node.hash f) (hat : t.AtOrBelow f hash) {e : H × N × V}
    (hent : e ∈ entries tree.roots) (hr : t.AtOrBelow node.hash e.1)
    (hcha : t.AtOrBelow e.1 hash ∨ t.AtOrBelow hash e.1) :
    e ∈ node.entry :: entries (node.children.filter (t.leads hash)) := by
  obtain ⟨n', hn', rfl⟩ := mem_entries.mp hent
  rcases hr with heq | hr
  · exact mem_cons.mpr (.inl (h.entry_eq hent (mem_entries.mpr ⟨node, hn, rfl⟩) heq))
  refine mem_cons_of_mem _ (mem_entries.mpr ⟨n', ?_, rfl⟩)
  have hord := h.ordered_nodesOf hn
  have hsto := h.mem_nodesOf_children hn hn' hr
  obtain ⟨c, hch, hmem⟩ := mem_nodesOf.mp hsto
  have a := ((hord.forest.ordered c hch).nodes hmem).2
  refine mem_nodesOf.mpr ⟨c, mem_filter.mpr ⟨hch, leads_iff.mpr ?_⟩, hmem⟩
  rcases hcha with hup | hdo
  · exact t.treeOrder.atOrBelow_trans a hup
  -- the child through which the first block is reached is above the node as well
  obtain ⟨firstNode, n, rfl⟩ := mem_hashes.mp hfst
  obtain ⟨child', hch', hmem'⟩ := mem_nodesOf.mp (h.mem_nodesOf_children hn n hbel)
  have hl := t.treeOrder.atOrBelow_trans ((hord.forest.ordered child' hch').nodes hmem').2 hat
  have hnot := t.treeOrder.not_apart (t.treeOrder.atOrBelow_trans hl hdo) a
  obtain rfl := TreeOrder.eq_of_not_apart hord.forest.apart hch' hch hnot
  exact hl

/-! ## A head that is yet to come -/

/-- The hash is not one of the block tree. -/
def BlockTree.Unrelated (t : BlockTree H N) (hash : H) : Prop :=
  ∀ other, ¬ t.Below other hash ∧ ¬ t.Below hash other

namespace BlockTree

variable [DecidableEq H] {p head : H} {n : N}

/-- The block tree with a new head below the parent. -/
def withHead (t : BlockTree H N) (parent head : H) (headNumber : N) (hne : head ≠ parent)
    (hhead : t.Unrelated head) (hnumber : t.number parent < headNumber) : BlockTree H N where
  number hash := if hash = head then headNumber else t.number hash
  isDescendentOf base hash :=
    t.isDescendentOf base hash ||
      (decide (hash = head) && (decide (base = parent) || t.isDescendentOf base parent))
  trans := by
    intro a b c hab hbc
    simp only [or_eq_true, and_eq_true, decide_eq_true_eq] at hab hbc ⊢
    rcases hab with hab | ⟨rfl, -⟩
    · rcases hbc with hbc | ⟨hc, hb⟩
      · exact .inl (t.trans hab hbc)
      · refine .inr ⟨hc, .inr ?_⟩
        rcases hb with rfl | hb
        · exact hab
        · exact t.trans hab hb
    · -- nothing is below the head
      rcases hbc with hbc | ⟨-, hb | hb⟩
      · exact absurd hbc (hhead _).2
      · exact absurd hb hne
      · exact absurd hb (hhead _).2
  chain := by
    intro a b c hac hbc
    simp only [or_eq_true, and_eq_true, decide_eq_true_eq] at hac hbc ⊢
    rcases hac with hac | ⟨rfl, ha⟩
    · rcases hbc with hbc | ⟨rfl, -⟩
      · exact (t.chain hac hbc).imp_right (Or.imp .inl .inl)
      · exact absurd hac (hhead _).1
    rcases hbc with hbc | ⟨-, hb⟩
    · exact absurd hbc (hhead _).1
    rcases ha with rfl | ha
    · rcases hb with rfl | hb
      · exact .inl rfl
      · exact .inr (.inr (.inl hb))
    · rcases hb with rfl | hb
      · exact .inr (.inl (.inl ha))
      · exact (t.chain ha hb).imp_right (Or.imp .inl .inl)
  number_lt := by
    intro a b hab
    simp only [or_eq_true, and_eq_true, decide_eq_true_eq] at hab
    rcases hab with hab | ⟨rfl, ha⟩
    · have ha : a ≠ head := by
        rintro rfl
        exact (hhead b).2 hab
      have hb : b ≠ head := by
        rintro rfl
        exact (hhead a).1 hab
      rw [if_neg ha, if_neg hb]
      exact t.number_lt hab
    · rw [if_pos rfl]
      rcases ha with rfl | ha
      · rwa [if_neg (Ne.symm hne)]
      · rw [if_neg]
        · exact (t.number_lt ha).trans hnumber
        · rintro rfl
          exact (hhead parent).2 ha

variable {hne : head ≠ p} {hh : t.Unrelated head} {hn : t.number p < n}
  {b hash : H}

theorem below_withHead_of_ne (h : hash ≠ head) :
    (t.withHead p head n hne hh hn).Below b hash ↔ t.Below b hash := by
  simp [Below, withHead, h]

theorem below_withHead : (t.withHead p head n hne hh hn).Below b head ↔ t.AtOrBelow b p := by
  have hnot : t.isDescendentOf b head = false := eq_false_iff.mpr (hh b).1
  simp only [Below, withHead, hnot, decide_true, Bool.true_and, Bool.false_or, or_eq_true,
    decide_eq_true_eq]
  exact or_congr_left eq_comm

theorem number_withHead : (t.withHead p head n hne hh hn).number head = n := if_pos rfl

end BlockTree

/-- The forest does not have the head. -/
theorem Forest.withHead [DecidableEq H] {p head : H} {n : N} (hne : head ≠ p)
    (hh : t.Unrelated head) (hn : t.number p < n) (hnot : head ∉ S)
    {ns : List (Node H N V)} (h : Forest t S ns) :
    Forest (t.withHead p head n hne hh hn) S ns := by
  have hap : ∀ {ns : List (Node H N V)}, (∀ node ∈ ns, node.hash ∈ S) → AllApart t ns →
      AllApart (t.withHead p head n hne hh hn) ns := by
    intro ns hmem hap
    refine hap.imp_of_mem fun {a b} ha hb hab => ⟨hab.1, ?_, ?_⟩
    · rw [below_withHead_of_ne (ne_of_mem_of_not_mem (hmem b hb) hnot)]
      exact hab.2.1
    · rw [below_withHead_of_ne (ne_of_mem_of_not_mem (hmem a ha) hnot)]
      exact hab.2.2
  have hord : ∀ {node : Node H N V}, node.Ordered t S →
      node.Ordered (t.withHead p head n hne hh hn) S := by
    intro node hno
    induction hno with
    | @mk node hmem hn' hbel hap' hchs ih =>
      have hch := fun c hch => (hchs c hch).hash_mem
      refine .mk hmem ?_ (fun c hm' => ?_) (hap hch hap') ih
      · exact hn'.trans (if_neg (ne_of_mem_of_not_mem hmem hnot)).symm
      · rw [below_withHead_of_ne (ne_of_mem_of_not_mem (hch c hm') hnot)]
        exact hbel c hm'
  exact ⟨fun node hno => hord (h.ordered node hno),
    hap (fun node hno => (h.ordered node hno).hash_mem) h.apart⟩

/-- A lookup for a head below the parent finds the deepest entry at or above the parent. -/
theorem Forest.findHead [DecidableEq H] {par head : H} {n : N} (hne : head ≠ par)
    (hh : t.Unrelated head) (hn : t.number par < n) (hnot : head ∉ S)
    (h : Forest t S tree.roots) {desc : H → H → Except E Bool}
    (hans : ∀ base, desc base head = .ok (decide (base = par) || t.isDescendentOf base par))
    (p : V → Bool) :
    ∃ found, tree.findNodeWhere desc head n p = some (.ok found) ∧
      Found (t.withHead par head n hne hh hn) (entries tree.roots) head p (found.map entry) := by
  have hf := (h.withHead hne hh hn hnot).findNodeWhere (E := E) head p
  rw [number_withHead] at hf
  have hask : ∀ base, desc base head = (t.withHead par head n hne hh hn).oracle base head := by
    intro base
    have hfls : t.isDescendentOf base head = false := eq_false_iff.mpr (hh base).1
    rw [hans base]
    simp [oracle, BlockTree.withHead, hfls]
  rw [ForkTree.findNodeWhere] at hf ⊢
  rwa [findNodeIndexWhere_congr hask]

end ForkTree
