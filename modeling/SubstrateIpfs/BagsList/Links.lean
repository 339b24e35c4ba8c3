-- SUMMARY: The bags list as a table of links and one of tags, and what pointer updates do to both.
import SubstrateIpfs.Base.Linked
import SubstrateIpfs.BagsList.Pallet

/-!
# Links and tags

A stored node is seen in two parts: its links to the neighbours, and its tag (the rest: its id, its
bag and its score). The functions that cut a node out of a bag or put it in change the links of
neighbours and leave every other tag alone.

`Arranged` says what the tables stand for: one list of ids for each bag.
-/

namespace BagsList

open List Option Function Linked

variable {K S : Type}

/-- What a node has besides its links. -/
def Node.tag (n : Node K S) : K × S × S := (n.id, n.bagUpper, n.score)

/-! ## Lists arranged in bags -/

/-- The tables link the ids of each bag in the order of its list. -/
structure Arranged (links : K → Option (Option K × Option K)) (upper : K → Option S)
    (m : S → List K) : Prop where
  chain : ∀ u, Linked.Chain some links none (m u) none
  nodup : ∀ u, (m u).Nodup
  mem : ∀ u k, k ∈ m u ↔ upper k = some u

namespace Arranged

variable [DecidableEq K] [DecidableEq S] {ls ls' : K → Option (Option K × Option K)}
  {upp : K → Option S} {m : S → List K} {u : S} {a x : K} {l l' : List K}

section
variable (h : Arranged ls upp m)

include h

/-- One bag is changed, and the tag of one id. -/
theorem change {o : Option S} (hcha : Chain some ls' none l none) (hnd : l.Nodup)
    (hlk : ∀ k, k ∉ m u → k ≠ x → ls' k = ls k) (hx : upp x = none ∨ x ∈ m u)
    (ho : ∀ u', o = some u' → u' = u) (hmem : ∀ k, k ∈ l ↔ if k = x then o = some u else k ∈ m u) :
    Arranged ls' (update upp x o) (update m u l) := by
  have hoth : ∀ u', u' ≠ u → x ∉ m u' := by
    intro u' hu hx'
    have hup := (h.mem u' x).mp hx'
    rcases hx with hn | hm'
    · rw [hn] at hup
      cases hup
    · rw [(h.mem u x).mp hm'] at hup
      exact hu (some.inj hup).symm
  refine ⟨fun u' => ?_, fun u' => ?_, fun u' k => ?_⟩
  · by_cases hu : u' = u
    · subst hu
      rwa [update_self]
    rw [update_of_ne hu]
    refine (h.chain u').congr fun k hk => hlk k (fun hk' => ?_) ?_
    · have hk := (h.mem u' k).mp hk
      rw [(h.mem u k).mp hk'] at hk
      exact hu (some.inj hk).symm
    · rintro rfl
      exact hoth u' hu hk
  · by_cases hu : u' = u
    · subst hu
      rwa [update_self]
    · rw [update_of_ne hu]
      exact h.nodup u'
  · by_cases hu : u' = u
    · subst hu
      rw [update_self, hmem]
      by_cases hk : k = x
      · subst hk
        rw [if_pos rfl, update_self]
      · rw [if_neg hk, update_of_ne hk, h.mem]
    · rw [update_of_ne hu]
      by_cases hk : k = x
      · subst hk
        rw [update_self]
        exact ⟨fun hk => absurd hk (hoth u' hu), fun hk => absurd (ho u' hk) hu⟩
      · rw [update_of_ne hk, h.mem]

/-- A node leaves its bag. -/
theorem remove (hm : m u = l ++ a :: l') :
    Arranged (update (setPrev? (setNext? ls l.getLast? l'.head?) l'.head?
      l.getLast?) a none) (update upp a none) (update m u (l ++ l')) := by
  have hcha := h.chain u
  have hnd := h.nodup u
  rw [hm] at hcha hnd
  have ha : a ∉ l ++ l' := (nodup_middle.mp hnd |> nodup_cons.mp).1
  refine h.change ((hcha.excise hnd).update ha none) ?_ (fun k hk hka => ?_)
    (.inr (by simp [hm])) (by simp) fun k => ?_
  · exact (nodup_middle.mp hnd |> nodup_cons.mp).2
  · rw [hm, mem_append, not_or, mem_cons, not_or] at hk
    rw [update_of_ne hka, setPrev?_head_of_notMem hk.2.2, setNext?_last_of_notMem hk.1]
  · split
    next hk =>
      subst hk
      simpa using ha
    next hk => simp [hm, hk]

/-- A node that is in no bag gets in at the end of one. -/
theorem concat (hx : upp x = none) :
    Arranged (setNext? (update ls x (some ((m u).getLast?, none)))
      (m u).getLast? (some x)) (update upp x (some u))
      (update m u (m u ++ [x])) := by
  have hxm : x ∉ m u := by
    rw [h.mem, hx]
    simp
  refine h.change ((h.chain u).concat (h.nodup u) hxm) ?_ (fun k hk hkx => ?_) (.inl hx)
    (fun u' hu => (some.inj hu).symm) fun k => ?_
  · exact List.Nodup.append (h.nodup u) (nodup_singleton x) (disjoint_singleton.mpr hxm)
  · rw [setNext?_last_of_notMem hk, update_of_ne hkx]
  · split
    next hk => simp [hk]
    next hk => simp [hk]

/-- A node that is in no bag gets in before another one. -/
theorem insertBefore (hx : upp x = none) (hm : m u = l ++ a :: l') :
    Arranged (update (setPrev (setNext? ls l.getLast? (some x)) a
      (some x)) x (some (l.getLast?, some a))) (update upp x (some u))
      (update m u (l ++ x :: a :: l')) := by
  have hxm : x ∉ m u := by
    rw [h.mem, hx]
    simp
  have hcha := h.chain u
  have hnd := h.nodup u
  rw [hm] at hcha hnd hxm
  refine h.change (hcha.insertBefore hnd hxm) ?_ (fun k hk hkx => ?_) (.inl hx)
    (fun u' hu => (some.inj hu).symm) fun k => ?_
  · exact nodup_middle.mpr (nodup_cons.mpr ⟨hxm, hnd⟩)
  · rw [hm, mem_append, not_or, mem_cons, not_or] at hk
    rw [update_of_ne hkx, setPrev_of_ne hk.2.1, setNext?_last_of_notMem hk.1]
  · split
    next hk => simp [hk]
    next hk => simp [hm, hk]

end

end Arranged

/-! ## The tables of a storage -/

namespace Lists

variable [DecidableEq K] {s s' : Lists K S} {k : K} {n node : Node K S}

/-- The links of the stored nodes. -/
def links (s : Lists K S) (k : K) : Option (Option K × Option K) :=
  (s.getNode k).map fun n => (n.prev, n.next)

/-- The tags of the stored nodes. -/
def tag (s : Lists K S) (k : K) : Option (K × S × S) := (s.getNode k).map Node.tag

/-- The bags of the stored nodes. -/
def upper (s : Lists K S) (k : K) : Option S := (s.tag k).map fun t => t.2.1

/-- Every node is stored under its id. -/
def Keyed (s : Lists K S) : Prop := ∀ k n, s.getNode k = some n → n.id = k

theorem links_eq (h : s.getNode k = some n) : s.links k = some (n.prev, n.next) := by
  rw [links, h, map_some]

theorem tag_eq (h : s.getNode k = some n) : s.tag k = some n.tag := by
  rw [tag, h, map_some]

theorem upper_eq (h : s.getNode k = some n) : s.upper k = some n.bagUpper := by
  rw [upper, tag_eq h]
  rfl

theorem tables_congr (h : s'.listNodes = s.listNodes) :
    s'.links = s.links ∧ s'.tag = s.tag ∧ s'.upper = s.upper := by
  have htag : s'.tag = s.tag := by
    unfold tag getNode
    rw [h]
  refine ⟨?_, htag, ?_⟩
  · unfold links getNode
    rw [h]
  · unfold upper
    rw [htag]

theorem isSome_tag : (s.tag k).isSome = s.contains k := isSome_map

theorem contains_iff_upper : s.contains k = (s.upper k).isSome := by
  rw [upper, isSome_map, isSome_tag]

theorem getNode_putNode : (s.putNode n).getNode k = if k = n.id then some n else s.getNode k :=
  FinMap.get?_insert

theorem getNode_removeNode : (s.removeNode n).getNode k = if k = n.id then none else s.getNode k :=
  FinMap.get?_erase

/-- A function of the nodes, after one was put. -/
theorem map_getNode_putNode {B : Type} (f : Node K S → B) :
    (fun k => ((s.putNode n).getNode k).map f) =
      update (fun k => (s.getNode k).map f) n.id (some (f n)) := by
  funext k
  rw [getNode_putNode]
  by_cases hk : k = n.id
  · rw [if_pos hk, hk, update_self, map_some]
  · rw [if_neg hk, update_of_ne hk]

theorem map_getNode_removeNode {B : Type} (f : Node K S → B) :
    (fun k => ((s.removeNode n).getNode k).map f) =
      update (fun k => (s.getNode k).map f) n.id none := by
  funext k
  rw [getNode_removeNode]
  by_cases hk : k = n.id
  · rw [if_pos hk, hk, update_self, map_none]
  · rw [if_neg hk, update_of_ne hk]

theorem links_putNode : (s.putNode n).links = update s.links n.id (some (n.prev, n.next)) :=
  map_getNode_putNode _

theorem tag_putNode : (s.putNode n).tag = update s.tag n.id (some n.tag) := map_getNode_putNode _

theorem links_removeNode : (s.removeNode n).links = update s.links n.id none :=
  map_getNode_removeNode _

theorem tag_removeNode : (s.removeNode n).tag = update s.tag n.id none := map_getNode_removeNode _

theorem upper_of_tag_update {o : Option (K × S × S)} (h : s'.tag = update s.tag k o) :
    s'.upper = update s.upper k (o.map fun t => t.2.1) := by
  funext x
  unfold upper
  rw [h]
  by_cases hx : x = k
  · rw [hx, update_self, update_self]
  · rw [update_of_ne hx, update_of_ne hx]

/-! ## Changes of links -/

/-- The storages differ in the links of nodes only. -/
structure Relinked (s s' : Lists K S) : Prop where
  tag : s'.tag = s.tag
  listBags : s'.listBags = s.listBags
  size : s'.listNodes.size = s.listNodes.size
  counter : s'.counterForListNodes = s.counterForListNodes

theorem Relinked.refl : Relinked s s := ⟨rfl, rfl, rfl, rfl⟩

theorem Relinked.trans {t v : Lists K S} (h : Relinked s t) (h' : Relinked t v) : Relinked s v :=
  ⟨h'.tag.trans h.tag, h'.listBags.trans h.listBags, h'.size.trans h.size,
    h'.counter.trans h.counter⟩

theorem Relinked.upper (h : Relinked s s') : s'.upper = s.upper := by
  funext k
  rw [Lists.upper, h.tag, Lists.upper]

theorem keyed_of_tag (h : s.Keyed) (htag : s'.tag = s.tag) : s'.Keyed := by
  intro k n hn
  have hk := congrFun htag k
  rw [tag_eq hn] at hk
  obtain ⟨n', hn', heq⟩ := map_eq_some_iff.mp hk.symm
  have hid : n'.id = n.id := congrArg Prod.fst heq
  rw [← hid]
  exact h k n' hn'

theorem contains_of_getNode (h : s.getNode k = some n) : s.contains k = true := by
  rw [contains, h, isSome_some]

/-- A stored node is put back with other links. -/
theorem relinked_putNode (h : s.getNode node.id = some n) (htag : node.tag = n.tag) :
    Relinked s (s.putNode node) := by
  refine ⟨?_, rfl, ?_, ?_⟩
  · rw [tag_putNode, htag, ← tag_eq h]
    exact update_eq_self _ _
  · exact FinMap.size_erase_add_one h
  · unfold putNode
    rw [if_pos (contains_of_getNode h)]

/-- A stored node is put back with other links, if it is there. -/
theorem mutate_eq (hkey : s.Keyed) (k : K) (f : Node K S → Node K S)
    (g : Option K × Option K → Option K × Option K) (htag : ∀ n, (f n).tag = n.tag)
    (hlk : ∀ n, ((f n).prev, (f n).next) = g (n.prev, n.next)) :
    let s' := match s.getNode k with
      | none => s
      | some node => s.putNode (f node)
    Relinked s s' ∧ s'.links = update s.links k ((s.links k).map g) := by
  cases hk : s.getNode k with
  | none =>
    have hn : s.links k = none := by
      rw [links, hk, map_none]
    refine ⟨.refl, ?_⟩
    rw [hn, map_none, ← hn]
    exact (update_eq_self _ _).symm
  | some n =>
    have hid : (f n).id = k := (congrArg Prod.fst (htag n)).trans (hkey k n hk)
    refine ⟨relinked_putNode (by rw [hid, hk]) (htag n), ?_⟩
    rw [links_putNode, hlk, hid, links_eq hk, map_some]

theorem mutateNext_eq (hkey : s.Keyed) (a x : Option K) :
    Relinked s (s.mutateNext a x) ∧ (s.mutateNext a x).links = setNext? s.links a x := by
  cases a with
  | none => exact ⟨.refl, rfl⟩
  | some k => exact mutate_eq hkey k ({ · with next := x }) _ (fun _ => rfl) fun _ => rfl

theorem mutatePrev_eq (hkey : s.Keyed) (a x : Option K) :
    Relinked s (s.mutatePrev a x) ∧ (s.mutatePrev a x).links = setPrev? s.links a x := by
  cases a with
  | none => exact ⟨.refl, rfl⟩
  | some k => exact mutate_eq hkey k ({ · with prev := x }) _ (fun _ => rfl) fun _ => rfl

/-- The neighbours of the node are linked to each other. -/
theorem excise_eq (hkey : s.Keyed) (node : Node K S) : Relinked s (node.excise s) ∧
    (node.excise s).links =
      setPrev? (setNext? s.links node.prev node.next) node.next node.prev := by
  obtain ⟨hrel, hlk⟩ := mutateNext_eq hkey node.prev node.next
  obtain ⟨hrel', hlk'⟩ := mutatePrev_eq (keyed_of_tag hkey hrel.tag) node.next node.prev
  exact ⟨hrel.trans hrel', hlk'.trans (by rw [hlk])⟩

end Lists

end BagsList
