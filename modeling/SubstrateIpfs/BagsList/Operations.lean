-- SUMMARY: Every call on the bags list keeps it arranged in bags.
import SubstrateIpfs.BagsList.Links

/-!
# Calls on the bags list

`Holds thresholds s m` says that the storage stands for the lists `m`, one for each bag:
the nodes are linked in this order, the record of a bag points to the ends of its list,
and every node is in the bag of its score. Each call takes a storage that stands for some
lists to one that stands for others.

Removing many ids keeps the bags it changes in memory; `Removing` is the state of that
loop, where the record of such a bag is out of date.
-/

namespace BagsList

open List Option Function FinMap Linked Bag

variable {K S : Type} {ls : K → Option (Option K × Option K)} {bags : FinMap S (Bag K S)}
  {s1 s2 : Lists K S} {upper : K → Option S} {rs : S → Option (Option K × Option K)}

/-! ## Bags and their records -/

/-- The bag with the given list. -/
def Bag.of (u : S) (l : List K) : Bag K S := ⟨l.head?, l.getLast?, u⟩

/-- The record of a bag with the given list. -/
def record (l : List K) : Option (Option K × Option K) := l.head?.map fun a => (some a, l.getLast?)

section
variable {s s' : Lists K S} {u : S} {l l' : List K} {a x : K}

theorem record_congr (hh : l.head? = l'.head?) (hl : l.getLast? = l'.getLast?) :
    record l = record l' := by
  rw [record, hh, hl, record]

theorem Bag.bagUpper_of : (of u l).bagUpper = u := rfl

theorem Bag.of_concat : of u (l ++ [x]) = ⟨l.head?.or (some x), some x, u⟩ := by
  rw [of, getLast?_concat, head?_append]
  rfl

/-- Leaving a node out in the middle keeps both ends. -/
theorem Node.ends_of_isTerminal (n : Node K S) {all : List K} (hall : all = l ++ n.id :: l')
    (hp : n.prev = l.getLast?) (hn : n.next = l'.head?) (ht : (!n.isTerminal) = true) :
    all.head? = (l ++ l').head? ∧ all.getLast? = (l ++ l').getLast? := by
  rw [isTerminal, hp, hn] at ht
  have hl : l ≠ [] := by
    rintro rfl
    simp at ht
  have hl' : l' ≠ [] := by
    rintro rfl
    simp at ht
  rw [hall]
  constructor
  · rw [head?_append_of_ne_nil _ hl, head?_append_of_ne_nil _ hl]
  · rw [getLast?_append_of_ne_nil _ (cons_ne_nil _ l'),
      getLast?_append_of_ne_nil _ hl', getLast?_cons_of_ne_nil hl']

theorem Bag.get_of (h : s.listBags u = record l) (hl : l ≠ []) : get s u = some (.of u l) := by
  cases l with
  | nil => exact absurd rfl hl
  | cons a l =>
    rw [get, h]
    rfl

theorem Bag.getOrMake_of (h : s.listBags u = record l) : getOrMake s u = .of u l := by
  cases l with
  | nil =>
    rw [getOrMake, get, h]
    rfl
  | cons a l => rw [getOrMake, get_of h (cons_ne_nil a l), getD_some]

theorem listBags_put_of [DecidableEq S] :
    ((of u l).put s).listBags = update s.listBags u (record l) := by
  cases l with
  | nil | cons => rfl

/-- The records follow the list of one bag. -/
theorem record_update [DecidableEq S] {m : S → List K} (hrs : ∀ x, rs x = record (m x)) (x : S) :
    update rs u (record l) x = record (update m u l x) := by
  rw [funext hrs]
  exact (apply_update (fun _ => record) m u l x).symm

/-- The records stay, if the ends of the list do. -/
theorem record_update_of_eq [DecidableEq S] {m : S → List K} (hrs : ∀ x, rs x = record (m x))
    (hl : record (m u) = record l) (x : S) : rs x = record (update m u l x) := by
  rw [← record_update hrs, ← hl, ← hrs, update_eq_self]

end

/-! ## What a storage stands for -/

section
variable [DecidableEq K] [LinearOrder S] [OrderTop S]

/-- Every node is stored under its id, and is in the bag of its score. -/
def Lists.Tagged (thresholds : Thresholds S) (s : Lists K S) : Prop :=
  ∀ k t, s.tag k = some t → t.1 = k ∧ t.2.1 = notionalBagFor thresholds t.2.2

/-- The storage stands for one list of ids for each bag. -/
structure Holds (thresholds : Thresholds S) (s : Lists K S) (m : S → List K) : Prop where
  arranged : Arranged s.links s.upper m
  tagged : s.Tagged thresholds
  bags : ∀ u, s.listBags u = record (m u)

end

namespace Lists

section
variable [DecidableEq K] [LinearOrder S] [OrderTop S] {s s' : Lists K S}
  {ts : Thresholds S} {k : K}

theorem Tagged.keyed (h : s.Tagged ts) : s.Keyed := fun k n hn => (h k n.tag (tag_eq hn)).1

theorem Tagged.congr (h : s.Tagged ts) (htag : s'.tag = s.tag) : s'.Tagged ts := by
  intro k t ht
  rw [htag] at ht
  exact h k t ht

theorem Tagged.update (h : s.Tagged ts) {o : Option (K × S × S)} (htag : s'.tag = update s.tag k o)
    (ho : ∀ t, o = some t → t.1 = k ∧ t.2.1 = notionalBagFor ts t.2.2) :
    s'.Tagged ts := by
  intro x t ht
  rw [htag] at ht
  by_cases hx : x = k
  · subst hx
    rw [update_self] at ht
    exact ho t ht
  · rw [update_of_ne hx] at ht
    exact h x t ht

end

/-! ## The counter -/

section
variable [DecidableEq K] {s s' : Lists K S} {n : Node K S}

/-- The counter is the number of nodes. -/
def Counted (s : Lists K S) : Prop := s.counterForListNodes = s.listNodes.size

theorem Counted.relinked (h : s.Counted) (hrel : Relinked s s') : s'.Counted := by
  rw [Counted, hrel.counter, hrel.size]
  exact h

theorem size_putNode : (s.putNode n).listNodes.size =
    if s.contains n.id then s.listNodes.size else s.listNodes.size + 1 := by
  unfold contains
  cases hn : s.getNode n.id with
  | none => exact congrArg (fun m => size m + 1) (erase_of_none hn)
  | some n' => exact size_erase_add_one hn

/-- The counter follows as long as it has not reached its limit. -/
theorem Counted.putNode (h : s.Counted) (hmax : (s.putNode n).listNodes.size ≤ u32Max) :
    (s.putNode n).Counted := by
  rw [Counted, size_putNode]
  rw [size_putNode] at hmax
  unfold Lists.putNode
  split
  · exact h
  next hn =>
    rw [if_neg hn] at hmax
    rw [h, min_eq_left hmax]

theorem Counted.removeNode (h : s.Counted) : (s.removeNode n).Counted := by
  unfold Counted Lists.removeNode contains
  cases hn : s.getNode n.id with
  | none => rwa [erase_of_none hn]
  | some n' =>
    have hs : (s.listNodes.erase n.id).size + 1 = s.listNodes.size := size_erase_add_one hn
    rw [isSome_some, if_pos rfl, h, ← hs, Nat.add_sub_cancel]

/-- The number of nodes does not fall, and the counter follows while it can. -/
structure Grows (s s' : Lists K S) : Prop where
  size : s.listNodes.size ≤ s'.listNodes.size
  counted : s.Counted → s'.listNodes.size ≤ u32Max → s'.Counted

omit [DecidableEq K] in
theorem Grows.refl : Grows s s := ⟨le_rfl, fun h _ => h⟩

omit [DecidableEq K] in
theorem Grows.trans (h : Grows s s1) (h' : Grows s1 s2) : Grows s s2 :=
  ⟨le_trans h.size h'.size, fun hc hmax =>
    h'.counted (h.counted hc (le_trans h'.size hmax)) hmax⟩

theorem Relinked.grows (h : Relinked s s') : Grows s s' :=
  ⟨le_of_eq h.size.symm, fun hc _ => hc.relinked h⟩

theorem grows_putNode : Grows s (s.putNode n) := by
  refine ⟨?_, fun hc hmax => hc.putNode hmax⟩
  rw [size_putNode]
  split
  · exact le_rfl
  · exact Nat.le_succ _

end

end Lists

open BagsList.Lists

/-! ## Putting a node at the end of a bag -/

section
variable [DecidableEq K] {s : Lists K S} {bag : Bag K S} {node : Node K S}

/-- The node that is put, as the new tail. -/
def Bag.asTail (bag : Bag K S) (node : Node K S) : Node K S :=
  { node with bagUpper := bag.bagUpper, prev := bag.tail, next := none }

theorem insertNodeUnchecked_eq (hkey : s.Keyed) (ht : bag.tail ≠ some node.id) :
    (bag.insertNodeUnchecked s node).1 =
        ⟨bag.head.or (some node.id), some node.id, bag.bagUpper⟩ ∧
      Relinked (s.putNode (bag.asTail node)) (bag.insertNodeUnchecked s node).2 ∧
      (bag.insertNodeUnchecked s node).2.links =
        setNext? (update s.links node.id (some (bag.tail, none))) bag.tail (some node.id) := by
  have hkey' : (s.putNode (bag.asTail node)).Keyed := by
    intro k n hn
    rw [getNode_putNode] at hn
    split at hn
    next hk =>
      cases hn
      exact hk.symm
    · exact hkey k n hn
  have hput := mutateNext_eq hkey' bag.tail (some node.id)
  rw [links_putNode] at hput
  unfold insertNodeUnchecked
  rw [if_neg ht]
  refine ⟨?_, hput.1, hput.2⟩
  cases bag.head <;> rfl

end

section
variable [DecidableEq K] [LinearOrder S] [OrderTop S] {s s' : Lists K S} {ts : Thresholds S}
  {m : S → List K} {u : S} {n : Node K S} {l : List K}

/-- A node that is in none of the lists is put at the end of the one where it belongs. It may be
stored already, with other links. -/
theorem Holds.insertNode (node : Node K S) (harr : Arranged ls upper m)
    (hupp : upper node.id = none) (hlk : ∀ r, update s1.links node.id r = update ls node.id r)
    (huppers : ∀ r, update s1.upper node.id r = update upper node.id r)
    (hta : s1.Tagged ts) (hb : ∀ u, s1.listBags u = record (m u))
    (hu : u = notionalBagFor ts node.score) :
    Holds ts (((getOrMake s1 u).insertNodeUnchecked s1 node).1.put
        ((getOrMake s1 u).insertNodeUnchecked s1 node).2)
      (update m u (m u ++ [node.id])) ∧
    Relinked (s1.putNode ((of u (m u)).asTail node))
      ((getOrMake s1 u).insertNodeUnchecked s1 node).2 := by
  have hmem : node.id ∉ m u := by
    rw [harr.mem, hupp]
    simp
  have htail : (of u (m u)).tail ≠ some node.id := fun h => hmem (mem_of_getLast? h)
  rw [getOrMake_of (hb u)]
  obtain ⟨hbag, hrel, hl⟩ := insertNodeUnchecked_eq hta.keyed htail
  have htag : ((of u (m u)).insertNodeUnchecked s1 node).2.tag =
      update s1.tag node.id (some (node.id, u, node.score)) := by
    rw [hrel.tag, tag_putNode]
    rfl
  have hbag' : ((of u (m u)).insertNodeUnchecked s1 node).1 = .of u (m u ++ [node.id]) :=
    hbag.trans of_concat.symm
  refine ⟨⟨?_, ?_, fun x => ?_⟩, hrel⟩
  · have hcat := harr.concat (u := u) hupp
    have hup := upper_of_tag_update htag
    rw [map_some, huppers] at hup
    have hl' : ((of u (m u)).insertNodeUnchecked s1 node).2.links = _ := hl
    rw [hlk] at hl'
    rw [← hup] at hcat
    exact hl' ▸ hcat
  · refine hta.update htag fun t ht => ?_
    cases ht
    exact ⟨rfl, hu⟩
  · rw [hbag', listBags_put_of, hrel.listBags]
    exact record_update hb x

end

/-! ## Taking a node out of its bag -/

section
variable [DecidableEq K] {s : Lists K S} {bag : Bag K S} {n : Node K S} {u : S} {a : K}
  {l l' : List K}

/-- The ends of a bag without one of its nodes. -/
theorem removeNodeUnchecked_of (hnd : (l ++ a :: l').Nodup) (hid : n.id = a)
    (hp : n.prev = l.getLast?) (hn : n.next = l'.head?) :
    ((of u (l ++ a :: l')).removeNodeUnchecked s n).1 = .of u (l ++ l') := by
  obtain ⟨-, hnd', hdi⟩ := nodup_append'.mp hnd
  have hal' := (nodup_cons.mp hnd').1
  have hal : a ∉ l := fun h => hdi h mem_cons_self
  have hh : (if (l ++ a :: l').head? = some a then l'.head? else (l ++ a :: l').head?) =
      (l ++ l').head? := by
    cases l with
    | nil => simp
    | cons b l =>
      have hb : b ≠ a := fun h => hal (h ▸ mem_cons_self)
      simp [hb]
  have ht : (if (l ++ a :: l').getLast? = some a then l.getLast? else
      (l ++ a :: l').getLast?) = (l ++ l').getLast? := by
    rcases l'.eq_nil_or_concat with rfl | ⟨l', b, rfl⟩
    · simp
    · have hb : b ≠ a := fun h => hal' (by simp [h])
      rw [concat_eq_append, ← cons_append, ← append_assoc, ← append_assoc,
        getLast?_concat, getLast?_concat, if_neg (by simpa using hb)]
  unfold removeNodeUnchecked of
  rw [hid, hp, hn, hh, ht]

end

section
variable [DecidableEq K] [LinearOrder S] [OrderTop S] {s s' : Lists K S} {ts : Thresholds S}
  {m : S → List K} {n : Node K S}

section
omit [DecidableEq K] [LinearOrder S] [OrderTop S]

/-- The neighbours of an id of a list. -/
theorem Arranged.ends (h : Arranged ls upper m) {u : S} {a : K} {p n : Option K} {l l' : List K}
    (hlk : ls a = some (p, n)) (hm : m u = l ++ a :: l') :
    p = l.getLast? ∧ n = l'.head? := by
  have hcha := h.chain u
  rw [hm] at hcha
  rw [hcha.links_open, some.injEq, Prod.mk.injEq] at hlk
  exact ⟨hlk.1.symm, hlk.2.symm⟩

/-- Where a stored node is in the list of its bag. -/
theorem Arranged.split (h : Arranged ls upper m) (hlk : ls n.id = some (n.prev, n.next))
    (hup : upper n.id = some n.bagUpper) :
    ∃ l l', m n.bagUpper = l ++ n.id :: l' ∧ n.prev = l.getLast? ∧ n.next = l'.head? := by
  obtain ⟨l, l', hm⟩ := append_of_mem ((h.mem n.bagUpper n.id).mpr hup)
  exact ⟨l, l', hm, h.ends hlk hm⟩

end

omit [LinearOrder S] [OrderTop S] in
/-- A node that is cut out and removed. -/
theorem tables_remove (node : Node K S) (hkey : s.Keyed) :
    ((node.excise s).removeNode node).links = update (setPrev? (setNext?
        s.links node.prev node.next) node.next node.prev) node.id none ∧
      ((node.excise s).removeNode node).tag = update s.tag node.id none := by
  obtain ⟨hrel, hlk⟩ := excise_eq hkey node
  rw [links_removeNode, hlk, tag_removeNode, hrel.tag]
  exact ⟨rfl, rfl⟩

/-- The state of the loop of `remove_many`: the bags in memory are those that the lists say, and
the others are up to date in storage. -/
structure Removing (thresholds : Thresholds S) (bags : FinMap S (Bag K S)) (s : Lists K S)
    (m : S → List K) : Prop where
  arranged : Arranged s.links s.upper m
  tagged : s.Tagged thresholds
  cached : ∀ u bag, bags.get? u = some bag → bag = .of u (m u)
  stored : ∀ u, bags.get? u = none → s.listBags u = record (m u)

theorem Removing.removeOne (h : Removing ts bags s m) (c : Nat) (id : K) :
    ∃ m', Removing ts (removeOne (bags, c, s) id).1 (removeOne (bags, c, s) id).2.2 m' := by
  unfold Lists.removeOne
  dsimp only
  split
  · exact ⟨m, h⟩
  rename_i n hn
  have hid := h.tagged.keyed id n hn
  subst hid
  obtain ⟨l, l', hm, hp, hne⟩ := h.arranged.split (links_eq hn) (upper_eq hn)
  obtain ⟨hlk, htag⟩ := tables_remove n h.tagged.keyed
  have hrel := (excise_eq h.tagged.keyed n).1
  have hnd := h.arranged.nodup n.bagUpper
  rw [hm] at hnd
  have harr : Arranged ((n.excise s).removeNode n).links
      ((n.excise s).removeNode n).upper (update m n.bagUpper (l ++ l')) := by
    rw [hlk, upper_of_tag_update htag, hp, hne]
    exact h.arranged.remove hm
  have ht : ((n.excise s).removeNode n).Tagged ts := h.tagged.update htag (by simp)
  have hb : ((n.excise s).removeNode n).listBags = s.listBags := hrel.listBags
  refine ⟨update m n.bagUpper (l ++ l'), ?_⟩
  split
  next hte =>
    -- both ends of the list stay
    obtain ⟨hh, hl⟩ := n.ends_of_isTerminal hm hp hne hte
    refine ⟨harr, ht, fun u bag hbag => ?_, fun u hu => ?_⟩
    · rw [h.cached u bag hbag]
      by_cases hx : u = n.bagUpper
      · subst hx
        rw [update_self, of, hh, hl, of]
      · rw [update_of_ne hx]
    · rw [hb, h.stored u hu]
      by_cases hx : u = n.bagUpper
      · subst hx
        rw [update_self, record_congr hh hl]
      · rw [update_of_ne hx]
  · have hbag : (bags.get? n.bagUpper).getD (getOrMake s n.bagUpper) =
        .of n.bagUpper (l ++ n.id :: l') := by
      rw [← hm]
      cases hget : bags.get? n.bagUpper with
      | none => rw [getD_none, getOrMake_of (h.stored _ hget)]
      | some bag => rw [getD_some, h.cached _ _ hget]
    rw [hbag]
    have hg := removeNodeUnchecked_of (s := s) (u := n.bagUpper) hnd rfl hp hne
    refine ⟨harr, ht, fun u bag hget => ?_, fun u hget => ?_⟩
    · rcases of_get?_insert hget with ⟨rfl, rfl⟩ | ⟨hx, hget⟩
      · rw [update_self, hg]
      · rw [update_of_ne hx]
        exact h.cached u bag hget
    · rw [get?_insert] at hget
      split at hget
      · cases hget
      next hx =>
        rw [update_of_ne hx]
        exact (congrFun hb u).trans (h.stored u hget)

omit [OrderTop S] in
theorem Lists.Counted.removeOne (h : s.Counted) {c : Nat} (hkey : s.Keyed) (id : K) :
    (removeOne (bags, c, s) id).2.2.Counted := by
  have hexc := fun n => h.relinked (excise_eq hkey n).1
  unfold Lists.removeOne
  dsimp only
  split
  · exact h
  next n _ =>
    split
    · exact (hexc n).removeNode
    · exact (hexc n).removeNode

/-- The loop over all ids. -/
theorem Removing.foldl (h : Removing ts bags s m) (c : Nat) (ids : List K) :
    (s.Counted → (ids.foldl Lists.removeOne (bags, c, s)).2.2.Counted) ∧
      ∃ m', Removing ts (ids.foldl Lists.removeOne (bags, c, s)).1
        (ids.foldl Lists.removeOne (bags, c, s)).2.2 m' := by
  induction ids generalizing bags c s m with
  | nil => exact ⟨fun hc => hc, m, h⟩
  | cons id ids ih =>
    obtain ⟨m1, h1⟩ := h.removeOne c id
    obtain ⟨hcnt, hrest⟩ := ih h1 (Lists.removeOne (bags, c, s) id).2.1
    exact ⟨fun hc => hcnt (hc.removeOne h.tagged.keyed id), hrest⟩

section
omit [DecidableEq K] [OrderTop S]

theorem foldl_put_nodes (bs : List (Bag K S)) :
    (bs.foldl (fun s bag => bag.put s) s).listNodes = s.listNodes ∧
      (bs.foldl (fun s bag => bag.put s) s).counterForListNodes = s.counterForListNodes := by
  induction bs generalizing s with
  | nil => exact ⟨rfl, rfl⟩
  | cons b bs ih => exact ih

/-- Bags that are put back. -/
theorem listBags_foldl_put {bs : List (Bag K S)}
    (hbs : ∀ b ∈ bs, b = .of b.bagUpper (m b.bagUpper)) (u : S) :
    (bs.foldl (fun s bag => bag.put s) s).listBags u =
      if u ∈ bs.map bagUpper then record (m u) else s.listBags u := by
  induction bs generalizing s with
  | nil => rfl
  | cons b bs ih =>
    rw [foldl_cons, ih fun b' hb' => hbs b' (mem_cons_of_mem _ hb'),
      hbs b mem_cons_self, listBags_put_of, map_cons, bagUpper_of]
    by_cases hu : u ∈ bs.map bagUpper
    · rw [if_pos hu, if_pos (mem_cons_of_mem _ hu)]
    rw [if_neg hu]
    by_cases hub : u = b.bagUpper
    · subst hub
      rw [update_self, if_pos (mem_cons_self)]
    · rw [update_of_ne hub, if_neg]
      simpa [hub] using hu

end

theorem Holds.removeMany (h : Holds ts s m) (ids : List K) :
    (s.Counted → (s.removeMany ids).2.Counted) ∧ ∃ m', Holds ts (s.removeMany ids).2 m' := by
  have hst : Removing ts .empty s m := ⟨h.arranged, h.tagged, by simp, fun u _ => h.bags u⟩
  obtain ⟨hcnt, m', hend⟩ := hst.foldl 0 ids
  unfold Lists.removeMany
  generalize ids.foldl removeOne (.empty, 0, s) = r at hcnt hend
  obtain ⟨bags, count, s1⟩ := r
  have hv : ∀ b ∈ bags.values, b = .of b.bagUpper (m' b.bagUpper) := by
    intro b hb
    obtain ⟨u, hu⟩ := mem_values.mp hb
    have hof := hend.cached u b hu
    rw [hof]
    rfl
  obtain ⟨hnds, hco⟩ := foldl_put_nodes bags.values
  obtain ⟨hlk, htag, hup⟩ := tables_congr hnds
  refine ⟨fun hc => ?_, m', ?_, hend.tagged.congr htag, fun u => ?_⟩
  · rw [Counted, hnds, hco]
    exact hcnt hc
  · rw [hlk, hup]
    exact hend.arranged
  rw [listBags_foldl_put hv]
  split
  · rfl
  rename_i hu
  refine hend.stored u ?_
  cases hget : bags.get? u with
  | none => rfl
  | some b =>
    refine absurd (mem_map.mpr ⟨b, mem_values.mpr ⟨u, hget⟩, ?_⟩) hu
    rw [hend.cached u b hget]
    rfl

omit [OrderTop S] in
/-- The id is gone, and nobody else is touched. -/
theorem tag_remove (hkey : s.Keyed) (id : K) : (s.remove id).2.tag = update s.tag id none := by
  have hupd : s.getNode id = none → s.tag = update s.tag id none := by
    intro hn
    have htag : s.tag id = none := by
      rw [tag, hn, map_none]
    rw [← htag]
    exact (update_eq_self _ _).symm
  unfold remove
  split
  next hnot =>
    refine hupd ?_
    simpa [Lists.contains] using hnot
  · have hone : (removeOne (.empty, 0, s) id).2.2.tag = update s.tag id none := by
      unfold removeOne
      dsimp only
      split
      next hn => exact hupd hn
      next n hnode =>
        rw [← hkey id n hnode]
        split
        · exact (tables_remove _ hkey).2
        · exact (tables_remove _ hkey).2
    exact (tables_congr (foldl_put_nodes _).1).2.1.trans hone

theorem Holds.remove (h : Holds ts s m) (id : K) :
    (s.Counted → (s.remove id).2.Counted) ∧ ∃ m', Holds ts (s.remove id).2 m' := by
  unfold Lists.remove
  split
  · exact ⟨fun hc => hc, m, h⟩
  · exact h.removeMany [id]

/-! ## Insertion -/

theorem Holds.insert [Zero S] (h : Holds ts s m) (id : K) (score : S) :
    Grows s (s.insert ts id score).2 ∧ ∃ m', Holds ts (s.insert ts id score).2 m' := by
  unfold Lists.insert
  split
  · exact ⟨.refl, m, h⟩
  rename_i hnot
  have hup : s.upper id = none := by
    rw [contains_iff_upper] at hnot
    simpa using hnot
  obtain ⟨hho, hrel⟩ := insertNode ⟨id, none, none, 0, score⟩ h.arranged hup
    (fun _ => rfl) (fun _ => rfl) h.tagged h.bags rfl
  have hgr := grows_putNode.trans hrel.grows
  exact ⟨⟨hgr.size, hgr.counted⟩, _, hho⟩

theorem Holds.insertMany [Zero S] (h : Holds ts s m) (ids : List K) (sc : K → S) :
    Grows s (s.insertMany ts ids sc).2 ∧ ∃ m', Holds ts (s.insertMany ts ids sc).2 m' := by
  unfold Lists.insertMany
  generalize 0 = c
  induction ids generalizing s m c with
  | nil => exact ⟨.refl, m, h⟩
  | cons id ids ih =>
    obtain ⟨hgr, m1, h1⟩ := h.insert id (sc id)
    rw [foldl_cons]
    split
    next hr =>
      rw [hr] at hgr h1
      obtain ⟨hgr', hre⟩ := ih h1 (asU32 (c + 1))
      exact ⟨hgr.trans hgr', hre⟩
    next hr =>
      rw [hr] at hgr h1
      obtain ⟨hgr', hre⟩ := ih h1 c
      exact ⟨hgr.trans hgr', hre⟩

/-! ## Moves -/

/-- The node is cut out of its bag; its own record is still there. -/
theorem Holds.takeOut (h : Holds ts s m) (node : Node K S)
    (hlk : s.links node.id = some (node.prev, node.next))
    (hup : s.upper node.id = some node.bagUpper) :
    ∃ m', Arranged (update (s.takeOut node).links node.id none)
        (update (s.takeOut node).upper node.id none) m' ∧
      (s.takeOut node).tag = s.tag ∧ (∀ u, (s.takeOut node).listBags u = record (m' u)) ∧
      Grows s (s.takeOut node) := by
  obtain ⟨l, l', hm, hp, hn⟩ := h.arranged.split hlk hup
  obtain ⟨hrel, hexc⟩ := excise_eq h.tagged.keyed node
  have hnd := h.arranged.nodup node.bagUpper
  rw [hm] at hnd
  have hrem := h.arranged.remove hm
  rw [← hp, ← hn, ← hexc, ← hrel.upper] at hrem
  refine ⟨update m node.bagUpper (l ++ l'), ?_⟩
  unfold Lists.takeOut
  split
  next ht =>
    refine ⟨hrem, hrel.tag, fun u => ?_, hrel.grows⟩
    obtain ⟨hh, hl⟩ := node.ends_of_isTerminal hm hp hn ht
    rw [hrel.listBags]
    exact record_update_of_eq h.bags (record_congr hh hl) u
  · have hget : get s node.bagUpper = some (.of node.bagUpper (l ++ node.id :: l')) := by
      rw [← hm]
      exact get_of (h.bags _) (by simp [hm])
    rw [hget]
    have hg := removeNodeUnchecked_of (s := s) (u := node.bagUpper) hnd rfl hp hn
    refine ⟨hrem, hrel.tag, fun u => ?_, hrel.grows.size, hrel.grows.counted⟩
    dsimp only
    rw [hg, listBags_put_of]
    exact record_update (fun x => (congrFun hrel.listBags x).trans (h.bags x)) u

theorem Holds.doRebag (h : Holds ts s m) (id : K) (newScore : S) :
    Grows s (s.doRebag ts id newScore).2 ∧ ∃ m', Holds ts (s.doRebag ts id newScore).2 m' := by
  unfold Lists.doRebag
  split
  · exact ⟨.refl, m, h⟩
  rename_i n hn
  have hid := h.tagged.keyed id n hn
  subst hid
  unfold updatePositionFor
  dsimp only
  split
  · -- out of the old bag, and to the end of the new one
    have hlk := links_eq hn
    have hup := upper_eq hn
    obtain ⟨m1, harr, htag, hb, hgr⟩ := h.takeOut
      { n with score := newScore } hlk hup
    obtain ⟨hho, hrel⟩ := insertNode { n with score := newScore } harr
      (update_self ..) (fun _ => (update_idem ..).symm)
      (fun _ => (update_idem ..).symm) (h.tagged.congr htag) hb rfl
    have hgr := (hgr.trans grows_putNode).trans hrel.grows
    exact ⟨⟨hgr.size, hgr.counted⟩, _, hho⟩
  next hpld =>
    have hpld : notionalBagFor ts newScore = n.bagUpper := by
      simpa [Node.isMisplaced] using hpld
    have htag : (s.putNode { n with score := newScore }).tag =
        update s.tag n.id (some (n.id, n.bagUpper, newScore)) := tag_putNode
    refine ⟨grows_putNode, m, ?_, h.tagged.update htag fun t ht => ?_, h.bags⟩
    · have hlk : (s.putNode { n with score := newScore }).links = s.links := by
        rw [links_putNode, ← links_eq hn]
        exact update_eq_self _ _
      have hup : (s.putNode { n with score := newScore }).upper = s.upper := by
        rw [upper_of_tag_update htag, map_some, ← upper_eq hn]
        exact update_eq_self _ _
      rw [hlk, hup]
      exact h.arranged
    · cases ht
      exact ⟨rfl, hpld.symm⟩

/-- A node that is not stored is put in front of one that is. -/
theorem Holds.insertAt (h : Holds ts s m) (node pos : Node K S)
    (hpos : s.getNode pos.id = some pos) (hn : s.upper node.id = none)
    (hbag : node.bagUpper = pos.bagUpper) (hpld : node.bagUpper = notionalBagFor ts node.score) :
    ∃ s', s.insertAtUnchecked pos node = some s' ∧ Grows s s' ∧ ∃ m', Holds ts s' m' := by
  obtain ⟨l, l', hm, hp, hnext⟩ := h.arranged.split (links_eq hpos) (upper_eq hpos)
  have hnd := h.arranged.nodup pos.bagUpper
  rw [hm] at hnd
  have hposl : pos.id ∉ l := fun hl =>
    (disjoint_of_nodup_append hnd) hl mem_cons_self
  unfold insertAtUnchecked
  dsimp only
  obtain ⟨hrel, hlk⟩ := mutateNext_eq h.tagged.keyed pos.prev (some node.id)
  generalize s.mutateNext pos.prev (some node.id) = s1 at hrel hlk ⊢
  -- the tables with both nodes put
  have hpo : s1.links pos.id = some (pos.prev, pos.next) := by
    rw [hlk, hp, setNext?_last_of_notMem hposl, links_eq hpos, hp]
  obtain ⟨pos', hp', hpostag⟩ : ∃ n, s1.getNode pos.id = some n ∧ n.tag = pos.tag := by
    have htag := congrFun hrel.tag pos.id
    rw [tag_eq hpos] at htag
    exact map_eq_some_iff.mp htag
  have hput : Relinked s1 (s1.putNode { pos with prev := some node.id }) :=
    relinked_putNode hp' hpostag.symm
  have htab : ∀ s2 : Lists K S, s2.listNodes = ((s1.putNode { pos with prev := some node.id
      }).putNode { node with prev := pos.prev, next := some pos.id }).listNodes →
      Arranged s2.links s2.upper (update m pos.bagUpper (l ++ node.id :: pos.id :: l')) ∧
      s2.Tagged ts := by
    intro s2 hnds
    obtain ⟨hl, ht, hu⟩ := tables_congr hnds
    have htag : s2.tag = update s.tag node.id (some node.tag) := by
      rw [ht, tag_putNode, hput.tag, hrel.tag]
      rfl
    refine ⟨?_, h.tagged.update htag fun t ht => ?_⟩
    · have hins := h.arranged.insertBefore hn hm
      have hs : update s1.links pos.id (some (some node.id, pos.next)) =
          setPrev s1.links pos.id (some node.id) := by
        rw [setPrev, hpo, map_some]
      rw [hl, links_putNode, links_putNode, hs, hlk, upper_of_tag_update htag]
      rw [hp, map_some]
      have hbag' : node.tag.2.1 = pos.bagUpper := hbag
      rw [hbag']
      exact hins
    · cases ht
      exact ⟨rfl, hpld⟩
  have hgr : Grows s ((s1.putNode { pos with prev := some node.id }).putNode
      { node with prev := pos.prev, next := some pos.id }) :=
    (hrel.grows.trans hput.grows).trans grows_putNode
  split
  next hte =>
    have hl : l = [] := by
      rw [Node.isTerminal, hp] at hte
      simpa using hte
    subst hl
    have hget : get s1 pos.bagUpper = some (.of pos.bagUpper (pos.id :: l')) := by
      rw [nil_append] at hm
      rw [← hm]
      exact get_of (by rw [hrel.listBags]; exact h.bags _) (by simp [hm])
    rw [hget]
    dsimp only
    rw [if_pos (by rw [hp]; rfl)]
    refine ⟨_, rfl, ⟨hgr.size, hgr.counted⟩, _, (htab _ rfl).1, (htab _ rfl).2, fun u => ?_⟩
    have hb := listBags_put_of (s := s1) (u := pos.bagUpper) (l := node.id :: pos.id :: l')
    rw [hrel.listBags] at hb
    exact (congrFun hb u).trans (record_update h.bags u)
  next hte =>
    have hl : l ≠ [] := by
      rintro rfl
      rw [Node.isTerminal, hp] at hte
      simp at hte
    refine ⟨_, rfl, hgr, _, (htab _ rfl).1, (htab _ rfl).2, fun u => ?_⟩
    have hb : ((s1.putNode { pos with prev := some node.id }).putNode
        { node with prev := pos.prev, next := some pos.id }).listBags = s.listBags := hrel.listBags
    rw [hb]
    refine record_update_of_eq h.bags ?_ u
    -- the element is not the last one, so the record stays
    rw [hm]
    refine record_congr ?_ ?_
    · rw [head?_append_of_ne_nil _ hl, head?_append_of_ne_nil _ hl]
    · rw [getLast?_append_of_ne_nil _ (cons_ne_nil _ _),
        getLast?_append_of_ne_nil _ (cons_ne_nil _ _), getLast?_cons_cons]

theorem Holds.putInFrontOf (h : Holds ts s m) (sc : K → S) (l hea : K) :
    ∃ r s', s.putInFrontOf sc l hea = some (r, s') ∧
      (∃ m', Holds ts s' m') ∧
      (s.Counted → s'.listNodes.size ≤ u32Max → s'.Counted) := by
  have hs : (∃ m', Holds ts s m') ∧
      (s.Counted → s.listNodes.size ≤ u32Max → s.Counted) := ⟨⟨m, h⟩, fun hc _ => hc⟩
  unfold Lists.putInFrontOf
  split
  next light heavierNode hlit hhv =>
    split
    · exact ⟨_, s, rfl, hs⟩
    rename_i hbag
    split
    · exact ⟨_, s, rfl, hs⟩
    rename_i hsc
    obtain ⟨hcnt, m1, h1⟩ := h.remove hea
    have htag := tag_remove h.tagged.keyed hea
    have hne : l ≠ hea := by
      rintro rfl
      exact hsc (lt_irrefl _)
    dsimp only
    split
    · exact ⟨_, _, rfl, ⟨m1, h1⟩, fun hc _ => hcnt hc⟩
    rename_i l' hl'
    -- both nodes are as they were, up to links
    have hid := h1.tagged.keyed l l' hl'
    have hid' := h.tagged.keyed hea heavierNode hhv
    have htag' := congrFun htag l
    rw [update_of_ne hne, tag_eq hl', tag_eq hlit, some.injEq] at htag'
    have hup : l'.bagUpper = light.bagUpper :=
      congrArg (fun t => t.2.1) htag'
    obtain ⟨s', hs', hgr, hho⟩ := h1.insertAt heavierNode l'
      (by rw [hid]; exact hl') (by
        rw [hid', upper_of_tag_update htag, update_self]
        rfl) (by rw [hup]; exact (not_not.mp hbag).symm)
      (h.tagged hea _ (tag_eq hhv)).2
    rw [hs']
    exact ⟨_, s', rfl, hho, fun hc hmax => hgr.counted (hcnt hc) hmax⟩
  · exact ⟨_, s, rfl, hs⟩

/-! ## All calls -/

theorem holds_empty : Holds ts (empty : Lists K S) fun _ => [] :=
  ⟨⟨fun _ => trivial, fun _ => nodup_nil, fun u k => by simp [upper, tag, getNode, Lists.empty]⟩,
    fun k t ht => by simp [tag, getNode, Lists.empty] at ht, fun _ => rfl⟩

/-- Every call returns, and keeps the list arranged and counted. -/
theorem Holds.call [Zero S] (h : Holds ts s m) (e : Op K S) :
    ∃ s', s.call ts e = some s' ∧ (∃ m', Holds ts s' m') ∧
      (s.Counted → s'.listNodes.size ≤ u32Max → s'.Counted) := by
  cases e with
  | insert id sc =>
    obtain ⟨hgr, hho⟩ := h.insert id sc
    exact ⟨_, rfl, hho, hgr.counted⟩
  | insertMany ids sco =>
    obtain ⟨hgr, hho⟩ := h.insertMany ids sco
    exact ⟨_, rfl, hho, hgr.counted⟩
  | remove id =>
    obtain ⟨hcnt, hho⟩ := h.remove id
    exact ⟨_, rfl, hho, fun hc _ => hcnt hc⟩
  | removeMany ids =>
    obtain ⟨hcnt, hho⟩ := h.removeMany ids
    exact ⟨_, rfl, hho, fun hc _ => hcnt hc⟩
  | updatePositionFor id ns =>
    obtain ⟨hgr, hho⟩ := h.doRebag id ns
    exact ⟨_, rfl, hho, hgr.counted⟩
  | putInFrontOf sc l hea =>
    obtain ⟨r, s', hs', hho⟩ := h.putInFrontOf sc l hea
    exact ⟨s', by rw [Lists.call, hs', map_some], hho⟩

end

end BagsList
