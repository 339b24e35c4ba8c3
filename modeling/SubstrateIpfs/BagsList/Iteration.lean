-- SUMMARY: Iterating over the bags list yields every id once, in order, along every run of calls.
import SubstrateIpfs.BagsList.Operations

/-!
# Iteration and the state check

The iteration over a bag follows the `next` links from its head. For a storage that
stands for lists it ends, and yields the nodes of the list of the bag. Everything else
is read off the lists.
-/

namespace BagsList

open List Option Nat Run BagsList.Lists Bag

variable {K S : Type} {n : Node K S} {l : List K} {id : K}

/-! ## Thresholds -/

section
variable [LinearOrder S] [OrderTop S] {ts : Thresholds S}

theorem Thresholds.sorted_withTop : ts.withTop.Pairwise (· < ·) := by
  unfold withTop
  split
  · exact ts.sorted
  rename_i hla
  refine pairwise_append.mpr ⟨ts.sorted, pairwise_singleton _ _, ?_⟩
  intro x hx y hy
  rw [mem_singleton.mp hy]
  refine lt_of_le_of_ne le_top ?_
  rintro rfl
  -- nothing comes behind the greatest score
  obtain ⟨l, l', hl⟩ := append_of_mem hx
  cases l' with
  | nil =>
    rw [hl, getLast?_concat] at hla
    exact hla rfl
  | cons z l' =>
    have hsrt := ts.sorted
    rw [hl, pairwise_append, pairwise_cons] at hsrt
    exact not_top_lt (hsrt.2.1.1 z mem_cons_self)

theorem notionalBagFor_mem (s : S) : notionalBagFor ts s ∈ ts.withTop := by
  unfold notionalBagFor Thresholds.withTop
  dsimp only
  generalize partitionPoint ts.list _ = idx
  cases hidx : ts.list[idx]? with
  | none =>
    split
    next hl => exact mem_of_getLast? hl
    · simp
  | some u =>
    have hmem := mem_of_getElem? hidx
    split
    · exact hmem
    · exact mem_append_left _ hmem

/-- The thresholds below one, among all. -/
theorem Thresholds.withTop_eq {u : S} (hu : u ∈ ts.withTop) :
    ∃ us, ts.withTop = ts.list.take (partitionPoint ts.list (· < u)) ++ u :: us := by
  obtain ⟨b, a, heq⟩ := append_of_mem hu
  have hsrt := ts.sorted_withTop
  rw [heq, pairwise_append] at hsrt
  have hbel : ts.withTop.takeWhile (· < u) = b := by
    rw [heq, takeWhile_append_of_pos fun x hx => decide_eq_true (hsrt.2.2 x hx u mem_cons_self),
      takeWhile_cons_of_neg (by simp), append_nil]
  have hpre := takeWhile_prefix (l := ts.list) (· < u)
  have hl : ts.withTop.takeWhile (· < u) = ts.list.takeWhile (· < u) := by
    unfold withTop
    split
    · rfl
    · rw [takeWhile_append]
      split
      next hlen => simp [hpre.eq_of_length hlen]
      · rfl
  rw [partitionPoint, ← prefix_iff_eq_take.mp hpre, ← hl, hbel]
  exact ⟨a, heq⟩

end

/-! ## The nodes of a bag -/

section
variable [DecidableEq K] {s : Lists K S}

/-- The stored nodes of a list of ids. -/
def nodesOf (s : Lists K S) (l : List K) : List (Node K S) := l.filterMap s.getNode

/-- Every id of the list is stored. -/
theorem map_id_nodesOf (hkey : s.Keyed) (hl : ∀ k ∈ l, s.contains k = true) :
    (nodesOf s l).map Node.id = l := by
  induction l with
  | nil => rfl
  | cons a l ih =>
    obtain ⟨n, hn⟩ := isSome_iff_exists.mp (hl a mem_cons_self)
    have hr := ih fun k hk => hl k (mem_cons_of_mem _ hk)
    unfold nodesOf at hr ⊢
    rw [filterMap_cons_some hn, map_cons, hr, hkey a n hn]

/-- Following the links of a chain yields its nodes. -/
theorem walk_chain {p : Option K} {fu : Nat} (hcha : Linked.Chain some s.links p l none)
    (hf : l.length ≤ fu) : walk s fu (l.head?.bind s.getNode) = nodesOf s l := by
  induction l generalizing p fu with
  | nil => cases fu <;> rfl
  | cons a l ih =>
    obtain ⟨fu, rfl⟩ : ∃ f, fu = f + 1 := ⟨fu - 1, by rw [length_cons] at hf; omega⟩
    obtain ⟨hlk, hrest⟩ := hcha
    obtain ⟨n, hn, heq⟩ := map_eq_some_iff.mp hlk
    have hne : n.next = l.head? := by
      rw [Linked.headOr_some, or_none] at heq
      exact congrArg Prod.snd heq
    rw [head?_cons, bind_some, hn, walk, Node.nextNode, hne,
      ih hrest (le_of_succ_le_succ hf), nodesOf, nodesOf, filterMap_cons_some hn]

end

section
variable [DecidableEq K] [LinearOrder S] [OrderTop S] {s : Lists K S} {thresholds : Thresholds S}
  {m : S → List K} {u : S}

section
variable (h : Holds thresholds s m)

include h

theorem Holds.contains_of_mem {k : K} (hk : k ∈ m u) : s.contains k = true := by
  rw [contains_iff_upper, (h.arranged.mem u k).mp hk, isSome_some]

theorem Holds.length_le : (m u).length ≤ s.listNodes.size :=
  FinMap.length_le_size (h.arranged.nodup u) fun _ hk => h.contains_of_mem hk

theorem Holds.iter_of : (of u (m u)).iter s = nodesOf s (m u) :=
  walk_chain (h.arranged.chain u) (le_succ_of_le h.length_le)

theorem Holds.get_eq : get s u = if m u = [] then none else some (.of u (m u)) := by
  split
  next hm =>
    rw [Bag.get, h.bags, hm]
    rfl
  next hm => exact get_of (h.bags u) hm

theorem Holds.of_get {b : Bag K S} (hb : get s u = some b) : m u ≠ [] ∧ b = .of u (m u) := by
  rw [h.get_eq] at hb
  split at hb
  · cases hb
  next hm => exact ⟨hm, (some.inj hb).symm⟩

/-- The iteration over bags, read off the lists. -/
theorem Holds.iter_bags (us : List S) :
    (us.filterMap (get s)).flatMap (·.iter s) = us.flatMap fun u => nodesOf s (m u) := by
  induction us with
  | nil => rfl
  | cons u us ih =>
    rw [flatMap_cons, ← ih]
    by_cases hm : m u = []
    · rw [filterMap_cons_none (by rw [h.get_eq, if_pos hm]), hm]
      rfl
    · rw [filterMap_cons_some (by rw [h.get_eq, if_neg hm]), flatMap_cons, h.iter_of]

theorem Holds.iter_eq :
    s.iter thresholds = thresholds.withTop.reverse.flatMap fun u => nodesOf s (m u) :=
  h.iter_bags _

theorem Holds.map_id_iter :
    (s.iter thresholds).map Node.id = thresholds.withTop.reverse.flatMap m := by
  rw [h.iter_eq, map_flatMap]
  refine congrArg (flatMap · _) ?_
  funext u
  exact map_id_nodesOf h.tagged.keyed fun k hk => h.contains_of_mem hk

theorem Holds.nodup_iter : ((s.iter thresholds).map Node.id).Nodup := by
  rw [h.map_id_iter, nodup_flatMap]
  refine ⟨fun u _ => h.arranged.nodup u, ?_⟩
  refine (pairwise_reverse.mpr Thresholds.sorted_withTop).imp ?_
  intro u u' hlt k hk hk'
  have hup := (h.arranged.mem u k).mp hk
  rw [(h.arranged.mem u' k).mp hk', some.injEq] at hup
  exact hlt.ne hup

theorem Holds.bagUpper_mem (hn : s.getNode id = some n) : n.bagUpper ∈ thresholds.withTop := by
  have hpld : n.bagUpper = notionalBagFor thresholds n.score := (h.tagged id n.tag (tag_eq hn)).2
  exact hpld ▸ notionalBagFor_mem _

theorem Holds.mem_iter (id : K) : id ∈ (s.iter thresholds).map Node.id ↔ s.contains id = true := by
  rw [h.map_id_iter, mem_flatMap]
  constructor
  · rintro ⟨u, -, hid⟩
    exact h.contains_of_mem hid
  · intro hid
    obtain ⟨n, hn⟩ := isSome_iff_exists.mp hid
    exact ⟨n.bagUpper, mem_reverse.mpr (h.bagUpper_mem hn), (h.arranged.mem _ _).mpr (upper_eq hn)⟩

theorem Holds.length_iter : (s.iter thresholds).length = s.listNodes.size := by
  have hlen : ((s.iter thresholds).map Node.id).length = s.listNodes.size :=
    FinMap.length_eq_size h.nodup_iter h.mem_iter
  rwa [length_map] at hlen

/-- The bag of a node of a list. -/
theorem Holds.bagUpper_of_mem (hn : n ∈ nodesOf s (m u)) : n.bagUpper = u := by
  obtain ⟨k, hk, hn⟩ := mem_filterMap.mp hn
  have hup := (h.arranged.mem u k).mp hk
  rw [upper_eq hn] at hup
  exact some.inj hup

theorem Holds.pairwise_iter : (s.iter thresholds).Pairwise fun a b => b.bagUpper ≤ a.bagUpper := by
  rw [h.iter_eq, pairwise_flatMap]
  constructor
  · intro u _
    refine pairwise_of_forall_mem_list fun a ha b hb => ?_
    rw [h.bagUpper_of_mem ha, h.bagUpper_of_mem hb]
  · refine (pairwise_reverse.mpr Thresholds.sorted_withTop).imp ?_
    intro u u' hlt a ha b hb
    rw [h.bagUpper_of_mem ha, h.bagUpper_of_mem hb]
    exact hlt.le

end

/-! ## Well-formed lists -/

/-- What the bags list is meant to be. -/
structure Lists.WellFormed (thresholds : Thresholds S) (s : Lists K S) : Prop where
  /-- A stored bag is a doubly linked list from its head to its tail, and not empty. -/
  bag : ∀ u b, Bag.get s u = some b → (b.iter s).map Node.id ≠ [] ∧
    ((b.iter s).map Node.id).Nodup ∧ b.head = ((b.iter s).map Node.id).head? ∧
    b.tail = ((b.iter s).map Node.id).getLast? ∧
    Linked.Chain some s.links none ((b.iter s).map Node.id) none
  /-- A stored node is in one bag, which is the one of its score. -/
  node : ∀ id n, s.getNode id = some n → n.id = id ∧
    n.bagUpper = notionalBagFor thresholds n.score ∧
    ∀ u, (∃ b, Bag.get s u = some b ∧ n ∈ b.iter s) ↔ u = n.bagUpper
  /-- The iteration yields every id once. -/
  iter_nodup : ((s.iter thresholds).map Node.id).Nodup
  iter_mem : ∀ id, id ∈ (s.iter thresholds).map Node.id ↔ s.contains id = true
  /-- The bags come in descending order. -/
  iter_order : (s.iter thresholds).Pairwise fun a b => b.bagUpper ≤ a.bagUpper

theorem Holds.mem_nodesOf (h : Holds thresholds s m) (hn : s.getNode id = some n) :
    n ∈ nodesOf s (m u) ↔ u = n.bagUpper := by
  constructor
  · intro hmem
    exact (h.bagUpper_of_mem hmem).symm
  · rintro rfl
    exact mem_filterMap.mpr ⟨id, (h.arranged.mem _ _).mpr (upper_eq hn), hn⟩

theorem Holds.wellFormed (h : Holds thresholds s m) : s.WellFormed thresholds where
  bag u b hb := by
    obtain ⟨hm, rfl⟩ := h.of_get hb
    rw [h.iter_of, map_id_nodesOf h.tagged.keyed fun k hk => h.contains_of_mem hk]
    exact ⟨hm, h.arranged.nodup u, rfl, rfl, h.arranged.chain u⟩
  node id n hn := by
    obtain ⟨hid, hpld⟩ := h.tagged id n.tag (tag_eq hn)
    refine ⟨hid, hpld, fun u => ?_⟩
    rw [← h.mem_nodesOf hn]
    constructor
    · rintro ⟨b, hb, hmem⟩
      obtain ⟨-, rfl⟩ := h.of_get hb
      rwa [h.iter_of] at hmem
    intro hmem
    refine ⟨.of u (m u), ?_, by rwa [h.iter_of]⟩
    rw [h.get_eq, if_neg]
    intro hm
    rw [hm] at hmem
    cases hmem
  iter_nodup := h.nodup_iter
  iter_mem := h.mem_iter
  iter_order := h.pairwise_iter

/-! ## The state check -/

theorem ensure_true {b : Bool} {msg : String} (h : b = true) : ensure b msg = .ok () := by
  rw [ensure, if_pos h]

theorem forM_ok {A : Type} {l : List A} {f : A → Except String Unit} (h : ∀ a ∈ l, f a = .ok ()) :
    l.forM f = .ok () := by
  induction l with
  | nil => rfl
  | cons a l ih =>
    change (f a >>= fun _ => l.forM f) = .ok ()
    rw [h a mem_cons_self]
    exact ih fun b hb => h b (mem_cons_of_mem _ hb)

/-- The sum of counts, as `u32` in every step. -/
theorem foldl_asU32 {A : Type} {l : List A} {f : A → Nat} (acc : Nat) :
    l.foldl (fun acc cur => asU32 (acc + asU32 (f cur))) (asU32 acc) =
      asU32 (acc + (l.map f).sum) := by
  induction l generalizing acc with
  | nil => rfl
  | cons a l ih =>
    have hs : asU32 (asU32 acc + asU32 (f a)) = asU32 (acc + f a) := (add_mod ..).symm
    rw [foldl_cons, hs, ih, map_cons, sum_cons, Nat.add_assoc]

theorem asU32_of_le {n : Nat} (h : n ≤ u32Max) : asU32 n = n :=
  mod_eq_of_lt (lt_of_le_of_lt h (by decide))

section
variable (h : Holds thresholds s m)

include h

theorem Holds.tryState_bag : (of u (m u)).tryState s = .ok () := by
  have hh : ((of u (m u)).headNode s).elim (of u (m u)).tail.isNone
      (fun head => (head.prevNode s).isNone) = true := by
    cases hm : m u with
    | nil => rfl
    | cons a l =>
      obtain ⟨n, hn⟩ := isSome_iff_exists.mp (h.contains_of_mem (by rw [hm]; exact mem_cons_self))
      have hp := (h.arranged.ends (l := []) (links_eq hn) hm).1
      have hno : (of u (a :: l)).headNode s = some n := hn
      rw [hno, elim_some, Node.prevNode, hp]
      rfl
  have ht : ((of u (m u)).tailNode s).elim (of u (m u)).head.isNone
      (fun tail => (tail.nextNode s).isNone) = true := by
    rcases (m u).eq_nil_or_concat with hm | ⟨l, a, hm⟩
    · rw [hm]
      rfl
    have hm : m u = l ++ a :: [] := hm.trans (concat_eq_append ..)
    obtain ⟨n, hn⟩ := isSome_iff_exists.mp (h.contains_of_mem (u := u) (k := a) (by simp [hm]))
    have hne := (h.arranged.ends (links_eq hn) hm).2
    have hno : (of u (m u)).tailNode s = some n := by
      rw [tailNode, of, hm, getLast?_concat]
      exact hn
    rw [hno, elim_some, Node.nextNode, hne]
    rfl
  have hnd : decide (((of u (m u)).iter s).map Node.id).Nodup = true := by
    rw [h.iter_of, map_id_nodesOf h.tagged.keyed fun k hk => h.contains_of_mem hk]
    exact decide_eq_true (h.arranged.nodup u)
  unfold Bag.tryState
  rw [ensure_true hh, ensure_true ht, ensure_true hnd]
  rfl

theorem Holds.tryState_node (hn : s.getNode id = some n) : n.tryState s = .ok () := by
  have hid := h.tagged.keyed id n hn
  subst hid
  have hmem : n ∈ nodesOf s (m n.bagUpper) := (h.mem_nodesOf hn).mpr rfl
  obtain ⟨l, l', hm, hp, hne⟩ := h.arranged.split (links_eq hn) (upper_eq hn)
  have hget : get s n.bagUpper = some (.of n.bagUpper (m n.bagUpper)) := by
    rw [h.get_eq, if_neg (by simp [hm])]
  have hc : (of n.bagUpper (m n.bagUpper)).contains s n.id = true := by
    rw [Bag.contains, h.iter_of]
    exact any_eq_true.mpr ⟨n, hmem, decide_eq_true rfl⟩
  -- an end of the list, or neither its head nor its tail
  have hen : (!n.isTerminal && decide ((of n.bagUpper (m n.bagUpper)).head ≠ some n.id) &&
      decide ((of n.bagUpper (m n.bagUpper)).tail ≠ some n.id) ||
      (decide ((of n.bagUpper (m n.bagUpper)).head = some n.id) ||
        decide ((of n.bagUpper (m n.bagUpper)).tail = some n.id))) = true := by
    by_cases hh : (of n.bagUpper (m n.bagUpper)).head = some n.id
    · simp [hh]
    by_cases hta : (of n.bagUpper (m n.bagUpper)).tail = some n.id
    · simp [hta]
    have hl : l ≠ [] := by
      rintro rfl
      exact hh (by rw [hm]; rfl)
    have hl' : l' ≠ [] := by
      rintro rfl
      exact hta (by rw [of, hm, getLast?_concat])
    have ht : n.isTerminal = false := by
      rw [Node.isTerminal, hp, hne]
      simp [hl, hl']
    simp [hh, ht]
  unfold Node.tryState
  rw [hget]
  dsimp only
  rw [ensure_true hc, ensure_true hen]
  rfl

end

/-- The state check passes, as long as the counter is right and has not overflown. -/
theorem Holds.tryState (h : Holds thresholds s m) (hcnt : s.Counted)
    (hmax : s.listNodes.size ≤ u32Max) : s.tryState thresholds = .ok () := by
  have hc : asU32 (s.iter thresholds).length = s.counterForListNodes := by
    rw [h.length_iter, asU32_of_le hmax, hcnt]
  have hnds : s.counterForListNodes = asU32 s.listNodes.size := by
    rw [asU32_of_le hmax, hcnt]
  have hba : (thresholds.withTop.filterMap (get s)).foldl
      (fun acc cur => asU32 (acc + asU32 (cur.iter s).length)) 0 = asU32 s.listNodes.size := by
    have hf := foldl_asU32 (l := thresholds.withTop.filterMap (get s))
      (f := fun cur => (cur.iter s).length) 0
    have hlen := h.length_iter
    rw [Lists.iter, length_flatMap, filterMap_reverse, map_reverse, sum_reverse] at hlen
    rw [hlen, Nat.zero_add] at hf
    exact hf
  unfold Lists.tryState
  dsimp only
  rw [ensure_true (decide_eq_true h.nodup_iter), ensure_true (beq_iff_eq.mpr hc),
    ensure_true (beq_iff_eq.mpr hnds), ensure_true (beq_iff_eq.mpr hba.symm),
    forM_ok fun b hb => ?_, forM_ok fun n hn => ?_]
  · rfl
  · obtain ⟨id, hid⟩ := FinMap.mem_values.mp hn
    exact h.tryState_node hid
  · obtain ⟨u, -, hget⟩ := mem_filterMap.mp hb
    obtain ⟨-, rfl⟩ := h.of_get hget
    exact h.tryState_bag

/-! ## Runs -/

section
variable [Zero S]

/-- The storage after a call, if no call so far has panicked. -/
def Lists.step (thresholds : Thresholds S) (s : Option (Lists K S)) (e : Op K S) :
    Option (Lists K S) :=
  s.bind (·.call thresholds e)

theorem holds_run (ops : List (Op K S)) : Always (step thresholds)
    (fun o => ∃ s m, o = some s ∧ Holds thresholds s m) (some .empty) ops := by
  refine Run.Each.always (G := fun _ _ => True) ?_ ⟨_, _, rfl, holds_empty⟩ fun _ _ _ => trivial
  rintro o e ⟨s, m, rfl, h⟩ -
  obtain ⟨s', hs', ⟨m', h'⟩, -⟩ := h.call e
  exact ⟨s', m', hs', h'⟩

theorem counted_run {ops : List (Op K S)}
    (hmax : Always (step thresholds) (fun o => ∀ s, o = some s →
      s.listNodes.size ≤ u32Max) (some .empty) ops) : Always (step thresholds)
    (fun o => ∀ s, o = some s → (∃ m, Holds thresholds s m) ∧ s.Counted) (some .empty) ops := by
  refine Run.Each.always_some (fun s e s' hI hG hc => ?_) ⟨⟨_, holds_empty⟩, rfl⟩ hmax.each_next
  obtain ⟨⟨m, h⟩, hcnt⟩ := hI
  obtain ⟨t, hs, hho, hcnt'⟩ := h.call e
  cases hs.symm.trans hc
  exact ⟨hho, hcnt' hcnt (hG s' hc)⟩

/-- Along every run, no call panics and the list is well-formed in every state. The state check
passes in every state, if at no time more than `u32::MAX` ids are stored. -/
theorem wellFormed_of_calls (thresholds : Thresholds S) (ops : List (Op K S)) :
    Run.Always (Lists.step thresholds) (fun o => ∃ s, o = some s ∧ s.WellFormed thresholds)
      (some .empty) ops ∧
    (Run.Always (Lists.step thresholds) (fun o => ∀ s, o = some s → s.listNodes.size ≤ u32Max)
        (some .empty) ops →
      Run.Always (Lists.step thresholds) (fun o => ∀ s, o = some s → s.tryState thresholds = .ok ())
        (some .empty) ops) := by
  constructor
  · intro pre hpre
    obtain ⟨s, m, hs, h⟩ := holds_run ops pre hpre
    exact ⟨s, hs, h.wellFormed⟩
  · intro hmax pre hpre s hs
    obtain ⟨⟨m, h⟩, hcnt⟩ := counted_run hmax pre hpre s hs
    exact h.tryState hcnt (hmax pre hpre s hs)

/-- Three bags. -/
def smallThresholds : Thresholds (Fin 100) := ⟨[10, 20], by decide⟩

/-- Insertions, a move to another bag, a move inside a bag, and removals. -/
def smallRun : List (Op Nat (Fin 100)) :=
  [.insertMany [1, 2, 3, 4] fun id => if id = 4 then 30 else 5, .updatePositionFor 2 15,
    .putInFrontOf (fun id => if id = 3 then 9 else 5) 1 3, .insert 2 8, .removeMany [4, 7]]

theorem tryState_smallRun : ∃ s : Lists Nat (Fin 100),
    exec (Lists.step smallThresholds) (some .empty) smallRun = some s ∧
      s.tryState smallThresholds = .ok () ∧
      (s.iter smallThresholds).map Node.id = [2, 3, 1] := by
  have hsz : ∀ pre ∈ smallRun.inits, ∀ s, exec (step smallThresholds) (some .empty) pre =
      some s → s.listNodes.size ≤ u32Max := by
    decide +kernel
  obtain ⟨s, hs, hi⟩ : ∃ s, exec (step smallThresholds) (some .empty) smallRun = some s ∧
      (s.iter smallThresholds).map Node.id = [2, 3, 1] := by
    decide +kernel
  exact ⟨s, hs, (wellFormed_of_calls smallThresholds smallRun).2
    (fun pre hpre => hsz pre ((mem_inits _ _).mpr hpre)) _ prefix_rfl s hs, hi⟩

/-- The storage after a new id was inserted. -/
theorem Holds.insert_new (h : Holds thresholds s m) (sc : S) (hnew : s.contains id = false) :
    (s.insert thresholds id sc).2.listNodes.size = s.listNodes.size + 1 ∧
      (s.insert thresholds id sc).2.counterForListNodes = min (s.counterForListNodes + 1) u32Max ∧
      ∀ k, (s.insert thresholds id sc).2.contains k = true → k = id ∨ s.contains k = true := by
  have hup : s.upper id = none := by
    rw [contains_iff_upper] at hnew
    simpa using hnew
  obtain ⟨-, hrel⟩ := insertNode ⟨id, none, none, 0, sc⟩ h.arranged hup
    (fun _ => rfl) (fun _ => rfl) h.tagged h.bags rfl
  unfold Lists.insert
  rw [hnew]
  refine ⟨hrel.size.trans ?_, hrel.counter.trans ?_, fun k hk => ?_⟩
  · rw [size_putNode, if_neg]
    exact Bool.eq_false_iff.mp hnew
  · unfold putNode
    rw [if_neg]
    exact Bool.eq_false_iff.mp hnew
  · by_cases hid : k = id
    · exact .inl hid
    · refine .inr ?_
      have htag := (congrFun (hrel.tag.trans tag_putNode) k).trans (Function.update_of_ne hid ..)
      rw [← isSome_tag] at hk ⊢
      exact (congrArg isSome htag).symm.trans hk

end

/-- Many insertions of new ids. -/
theorem insertions_eq (ts : Thresholds (Fin 2)) (n : Nat) : ∃ (s : Lists Nat (Fin 2))
    (m : Fin 2 → List Nat), exec (step ts) (some .empty)
      ((range n).map fun id => .insert id 0) = some s ∧ Holds ts s m ∧
      s.listNodes.size = n ∧ s.counterForListNodes = min n u32Max ∧
      ∀ k, s.contains k = true → k < n := by
  induction n with
  | zero => exact ⟨_, _, rfl, holds_empty, rfl, rfl, fun k hk => by cases hk⟩
  | succ n ih =>
    obtain ⟨s, m, hs, h, hsi, hcnt, hlt⟩ := ih
    have hnew : s.contains n = false := by
      rw [Bool.eq_false_iff]
      exact fun hn => lt_irrefl n (hlt n hn)
    obtain ⟨hs', hc', hc⟩ := h.insert_new 0 hnew
    obtain ⟨-, m', h'⟩ := h.insert n 0
    refine ⟨_, m', ?_, h', by rw [hs', hsi], ?_, fun k hk => ?_⟩
    · rw [range_succ, map_append, exec_append, hs]
      rfl
    · rw [hc']
      omega
    · rcases hc k hk with rfl | hold
      · exact lt_succ_self k
      · exact lt_succ_of_lt (hlt k hold)

/-- With one id more than the counter can count, the state check fails. -/
theorem tryState_overflow : ∃ s : Lists Nat (Fin 2),
    exec (Lists.step ⟨[], .nil⟩) (some .empty)
      ((List.range (2 ^ 32)).map fun id => .insert id 0) = some s ∧
      s.tryState ⟨[], .nil⟩ = .error "iter_count != stored_count" := by
  obtain ⟨s, m, hs, h, hsi, hcnt, -⟩ := insertions_eq ⟨[], .nil⟩ (2 ^ 32)
  refine ⟨s, hs, ?_⟩
  have hc : (asU32 (s.iter ⟨[], .nil⟩).length == s.counterForListNodes) = false := by
    rw [h.length_iter, hsi, hcnt]
    decide
  unfold Lists.tryState
  dsimp only
  rw [ensure_true (decide_eq_true h.nodup_iter), hc]
  rfl

/-! ## Iteration from a node -/

/-- The nodes that are left behind the last one seen. -/
def Lists.after (thresholds : Thresholds S) (s : Lists K S) : Option K → List (Node K S)
  | none => s.iter thresholds
  | some last => (s.iterFrom thresholds last).toOption.getD []

/-- The ids of pages of the given sizes, each from the last id of the pages before. -/
def Lists.pages (thresholds : Thresholds S) (s : Lists K S) : Option K → List ℕ → List K
  | _, [] => []
  | last, size :: sizes =>
    let page := ((s.after thresholds last).take size).map Node.id
    page ++ s.pages thresholds (page.getLast?.or last) sizes

section
variable (h : Holds thresholds s m)

include h

theorem Holds.getNode_of_mem_iter (hn : n ∈ s.iter thresholds) : s.getNode n.id = some n := by
  rw [h.iter_eq] at hn
  obtain ⟨u, -, hn⟩ := mem_flatMap.mp hn
  obtain ⟨k, -, hk⟩ := mem_filterMap.mp hn
  rwa [h.tagged.keyed k n hk]

/-- What comes behind a node. -/
theorem Holds.iterFrom_eq (hn : s.getNode n.id = some n) : ∃ b a,
    s.iter thresholds = b ++ n :: a ∧ s.iterFrom thresholds n.id = .ok a := by
  obtain ⟨us, hus⟩ := Thresholds.withTop_eq (h.bagUpper_mem hn)
  obtain ⟨l, l', hm, -, hnext⟩ := h.arranged.split (links_eq hn) (upper_eq hn)
  have hcha := h.arranged.chain n.bagUpper
  rw [hm, Linked.chain_append] at hcha
  have hlen : l'.length ≤ s.listNodes.size := by
    have hle := h.length_le (u := n.bagUpper)
    rw [hm, length_append, length_cons] at hle
    omega
  have hbag : walk s (s.listNodes.size + 1) (n.nextNode s) = nodesOf s l' := by
    rw [Node.nextNode, hnext]
    exact walk_chain hcha.2.2 (le_succ_of_le hlen)
  have hf : s.iterFrom thresholds n.id = .ok (nodesOf s l' ++
      (thresholds.list.take (partitionPoint thresholds.list (· < n.bagUpper))).reverse.flatMap
        fun u => nodesOf s (m u)) := by
    unfold iterFrom
    rw [hn]
    dsimp only
    rw [hbag, h.iter_bags]
  refine ⟨us.reverse.flatMap (fun u => nodesOf s (m u)) ++ nodesOf s l, _, ?_, hf⟩
  rw [h.iter_eq, hus]
  simp [nodesOf, hm, filterMap_cons_some hn]

/-- The nodes seen so far are all in front of the nodes that are left. -/
theorem Holds.after_eq {se left : List (Node K S)} (hi : s.iter thresholds = se ++ left) :
    s.after thresholds (se.getLast?.map Node.id) = left := by
  rcases se.eq_nil_or_concat with rfl | ⟨se, n, rfl⟩
  · exact hi
  rw [concat_eq_append, append_assoc, singleton_append] at hi
  have hn := h.getNode_of_mem_iter (hi ▸ mem_append_right se mem_cons_self)
  obtain ⟨before, after, hi', hf⟩ := h.iterFrom_eq hn
  have hnd := h.nodup_iter.of_map
  rw [hi, nodup_middle, nodup_cons, mem_append, not_or] at hnd
  -- the node is at one place only
  obtain ⟨-, -, rfl⟩ := (append_cons_inj_of_notMem hnd.1.1 hnd.1.2).mp (hi.symm.trans hi')
  rw [concat_eq_append, getLast?_concat, map_some, Lists.after, hf]
  rfl

/-- Pages are a segment of the iteration. -/
theorem Holds.pages_eq {se left : List (Node K S)} (ss : List ℕ)
    (hi : s.iter thresholds = se ++ left) :
    s.pages thresholds (se.getLast?.map Node.id) ss = (left.take ss.sum).map Node.id := by
  induction ss generalizing se left with
  | nil => rfl
  | cons si ss ih =>
    have hn : s.iter thresholds = se ++ left.take si ++ left.drop si := by
      rw [append_assoc, take_append_drop, hi]
    have hr := ih hn
    rw [pages, h.after_eq hi, sum_cons, take_add, map_append, ← hr, getLast?_append,
      map_or, getLast?_map]

end

/-- From a stored id on, the iteration yields what comes behind it. So pages, each of which starts
behind the last id of the one before, have every id once. -/
theorem iterFrom_and_pages (h : Holds thresholds s m) :
    (∀ id, s.contains id = true → ∃ before n after, n.id = id ∧
      s.iter thresholds = before ++ n :: after ∧ s.iterFrom thresholds id = .ok after) ∧
    ∀ sizes : List ℕ, s.listNodes.size ≤ sizes.sum →
      (s.pages thresholds none sizes).Nodup ∧
        ∀ id, id ∈ s.pages thresholds none sizes ↔ s.contains id = true := by
  constructor
  · intro id hid
    obtain ⟨n, hn⟩ := isSome_iff_exists.mp hid
    have hkey := h.tagged.keyed id n hn
    subst hkey
    obtain ⟨before, after, hi, hf⟩ := h.iterFrom_eq hn
    exact ⟨before, n, after, rfl, hi, hf⟩
  · intro sizes hsz
    have hall : (s.iter thresholds).length ≤ sizes.sum := by rwa [h.length_iter]
    have hpgs : s.pages thresholds none sizes = _ := h.pages_eq sizes (nil_append _).symm
    rw [hpgs, take_of_length_le hall]
    exact ⟨h.nodup_iter, h.mem_iter⟩

theorem pages_smallRun : ∃ s : Lists Nat (Fin 100),
    exec (step smallThresholds) (some .empty) smallRun = some s ∧
      (s.pages smallThresholds none [1, 2]).Nodup ∧ 3 ∈ s.pages smallThresholds none [1, 2] := by
  obtain ⟨s, hs, hsi, hmem⟩ : ∃ s, exec (step smallThresholds) (some .empty) smallRun = some s ∧
      s.listNodes.size ≤ [1, 2].sum ∧ s.contains 3 = true := by
    decide +kernel
  obtain ⟨_, m, hs', h⟩ := holds_run smallRun smallRun prefix_rfl
  cases hs.symm.trans hs'
  obtain ⟨hnd, hall⟩ := (iterFrom_and_pages h).2 [1, 2] hsi
  exact ⟨s, hs, hnd, (hall 3).mpr hmem⟩

end

end BagsList
