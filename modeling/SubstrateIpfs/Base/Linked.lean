-- SUMMARY: Doubly linked lists spread over a table of links: chains, pointer updates, and rings.
import Mathlib

/-!
# Doubly linked lists

The elements of a linked list are keys of a table; the record of an element has the
links to its neighbours. A link is a key or an end marker: `R` is the type of links
and `emb` sends a key to the link that points to it. A list with open ends takes
`some` for `emb`, a ring takes `id`.

`Chain emb links p l n` says that the table links the elements of `l` in this order,
behind `p` and before `n`. A ring is a chain that is behind its last element and
before its first one.
-/

namespace Linked

open List Option Function

variable {K R : Type*}

/-- The link to the first element of the list, or `n`. -/
def headOr (emb : K → R) : List K → R → R
  | [], n => n
  | a :: _, _ => emb a

/-- The link to the last element of the list, or `p`. -/
def lastOr (emb : K → R) : R → List K → R
  | p, [] => p
  | _, a :: l => lastOr emb (emb a) l

/-- The elements of the list are linked in this order, behind `p` and before `n`. -/
def Chain (emb : K → R) (links : K → Option (R × R)) : R → List K → R → Prop
  | _, [], _ => True
  | p, a :: l, n => links a = some (p, headOr emb l n) ∧ Chain emb links (emb a) l n

section
variable {emb : K → R} {ls ls' : K → Option (R × R)} {p n : R} {a : K} {l l' : List K}

@[simp] theorem headOr_cons : headOr emb (a :: l) n = emb a := rfl

@[simp] theorem headOr_nil : headOr emb [] n = n := rfl

@[simp] theorem lastOr_nil : lastOr emb p [] = p := rfl

@[simp] theorem lastOr_cons : lastOr emb p (a :: l) = lastOr emb (emb a) l := rfl

@[simp] theorem headOr_append : headOr emb (l ++ l') n = headOr emb l (headOr emb l' n) := by
  cases l <;> rfl

@[simp] theorem lastOr_append : lastOr emb p (l ++ l') = lastOr emb (lastOr emb p l) l' := by
  induction l generalizing p with
  | nil => rfl
  | cons a l ih => exact ih

theorem chain_append :
    Chain emb ls p (l ++ l') n ↔
      Chain emb ls p l (headOr emb l' n) ∧ Chain emb ls (lastOr emb p l) l' n := by
  induction l generalizing p with
  | nil => simp [Chain]
  | cons a l ih => simp only [cons_append, Chain, headOr_append, ih, lastOr_cons, and_assoc]

theorem Chain.congr (h : Chain emb ls p l n) (heq : ∀ x ∈ l, ls' x = ls x) :
    Chain emb ls' p l n := by
  induction l generalizing p with
  | nil => trivial
  | cons a l ih =>
    refine ⟨(heq a mem_cons_self).trans h.1, ih h.2 fun x hx => ?_⟩
    exact heq x (mem_cons_of_mem _ hx)

/-- The links of an element of a chain. -/
theorem Chain.links_eq (h : Chain emb ls p (l ++ a :: l') n) :
    ls a = some (lastOr emb p l, headOr emb l' n) :=
  (chain_append.mp h).2.1

end

/-! ## Updates of one link -/

section
variable [DecidableEq K]

/-- The table after the first link of `a` was changed, if `a` has any. -/
def setPrev (links : K → Option (R × R)) (a : K) (p : R) : K → Option (R × R) :=
  update links a ((links a).map fun r => (p, r.2))

/-- The table after the second link of `a` was changed, if `a` has any. -/
def setNext (links : K → Option (R × R)) (a : K) (n : R) : K → Option (R × R) :=
  update links a ((links a).map fun r => (r.1, n))

variable {emb : K → R} {ls : K → Option (R × R)} {p n : R} {a x : K} {l : List K}

@[simp] theorem isSome_setPrev : (setPrev ls a p x).isSome = (ls x).isSome := by
  unfold setPrev
  by_cases hx : x = a
  · subst hx
    simp
  · simp [hx]

@[simp] theorem isSome_setNext : (setNext ls a n x).isSome = (ls x).isSome := by
  unfold setNext
  by_cases hx : x = a
  · subst hx
    simp
  · simp [hx]

theorem setPrev_of_ne (h : x ≠ a) : setPrev ls a p x = ls x := update_of_ne h ..

theorem setNext_of_ne (h : x ≠ a) : setNext ls a n x = ls x := update_of_ne h ..

theorem Chain.setPrev (h : Chain emb ls p (a :: l) n) (ha : a ∉ l) (p' : R) :
    Chain emb (setPrev ls a p') p' (a :: l) n := by
  refine ⟨by simp [Linked.setPrev, h.1], h.2.congr fun x hx => setPrev_of_ne ?_⟩
  rintro rfl
  exact ha hx

theorem Chain.setNext (h : Chain emb ls p (l ++ [a]) n) (ha : a ∉ l) (n' : R) :
    Chain emb (setNext ls a n') p (l ++ [a]) n' := by
  obtain ⟨hl, hla, -⟩ := chain_append.mp h
  refine chain_append.mpr ⟨hl.congr fun x hx => setNext_of_ne ?_, ?_, trivial⟩
  · rintro rfl
    exact ha hx
  · simp [Linked.setNext, hla]

theorem Chain.update (h : Chain emb ls p l n) (ha : a ∉ l) (r : Option (R × R)) :
    Chain emb (update ls a r) p l n := by
  refine h.congr fun x hx => update_of_ne ?_ ..
  rintro rfl
  exact ha hx

end

/-! ## Lists with open ends -/

section
variable {ls : K → Option (Option K × Option K)} {a x : K} {l l' : List K} {p n : Option K}

theorem lastOr_some : lastOr some p l = l.getLast?.or p := by
  induction l generalizing p with
  | nil => rfl
  | cons a l ih => rw [lastOr_cons, ih, getLast?_cons, or_some, some_or]

theorem headOr_some : headOr some l n = l.head?.or n := by
  cases l <;> rfl

/-- A chain with an open end on either side, cut between two elements. -/
theorem chain_open_append : Chain some ls none (l ++ l') none ↔
    Chain some ls none l l'.head? ∧ Chain some ls l.getLast? l' none := by
  rw [chain_append, headOr_some, lastOr_some, or_none, or_none]

theorem Chain.links_open (h : Chain some ls none (l ++ a :: l') none) :
    ls a = some (l.getLast?, l'.head?) := by
  rw [h.links_eq, headOr_some, lastOr_some, or_none, or_none]

variable [DecidableEq K]

/-- The table after the first link of an element was changed, if there is one. -/
def setPrev? (links : K → Option (Option K × Option K)) (a p : Option K) :
    K → Option (Option K × Option K) :=
  a.elim links fun a => setPrev links a p

/-- The table after the second link of an element was changed, if there is one. -/
def setNext? (links : K → Option (Option K × Option K)) (a n : Option K) :
    K → Option (Option K × Option K) :=
  a.elim links fun a => setNext links a n

theorem setPrev?_head_of_notMem (h : x ∉ l) : setPrev? ls l.head? p x = ls x := by
  cases l with
  | nil => rfl
  | cons a l => exact setPrev_of_ne fun hx => h (hx ▸ mem_cons_self)

theorem setNext?_last_of_notMem (h : x ∉ l) : setNext? ls l.getLast? n x = ls x := by
  cases hl : l.getLast? with
  | none => rfl
  | some a => exact setNext_of_ne fun hx => h (hx ▸ mem_of_getLast? hl)

theorem Chain.setPrev? (h : Chain some ls p l n) (hnd : l.Nodup) (p' : Option K) :
    Chain some (setPrev? ls l.head? p') p' l n := by
  cases l with
  | nil => trivial
  | cons a l => exact h.setPrev (nodup_cons.mp hnd).1 p'

theorem Chain.setNext? (h : Chain some ls p l n) (hnd : l.Nodup) (n' : Option K) :
    Chain some (setNext? ls l.getLast? n') p l n' := by
  rcases l.eq_nil_or_concat with rfl | ⟨l, a, rfl⟩
  · trivial
  · rw [concat_eq_append] at hnd h ⊢
    rw [getLast?_concat]
    exact h.setNext (disjoint_singleton.mp (disjoint_of_nodup_append hnd)) n'

/-- The neighbours of an element that leaves are linked to each other. -/
theorem Chain.excise (h : Chain some ls none (l ++ a :: l') none) (hnd : (l ++ a :: l').Nodup) :
    Chain some (Linked.setPrev? (Linked.setNext? ls l.getLast? l'.head?) l'.head? l.getLast?)
      none (l ++ l') none := by
  obtain ⟨hl, -, hl'⟩ := chain_open_append.mp h
  obtain ⟨hnl, hnl', hdisj⟩ := nodup_append'.mp hnd
  refine chain_open_append.mpr ⟨?_, ?_⟩
  · refine (hl.setNext? hnl l'.head?).congr fun x hx => setPrev?_head_of_notMem fun hx' => ?_
    exact hdisj hx (mem_cons_of_mem _ hx')
  · refine (hl'.congr fun x hx => setNext?_last_of_notMem fun hx' => ?_).setPrev?
      (nodup_cons.mp hnl').2 _
    exact hdisj hx' (mem_cons_of_mem _ hx)

/-- A new element gets in at the end. -/
theorem Chain.concat (h : Chain some ls none l none) (hnd : l.Nodup) (hx : x ∉ l) :
    Chain some (Linked.setNext? (Function.update ls x (some (l.getLast?, none))) l.getLast?
      (some x)) none (l ++ [x]) none := by
  refine chain_open_append.mpr ⟨(h.update hx _).setNext? hnd (some x), ?_, trivial⟩
  rw [setNext?_last_of_notMem hx, update_self, headOr_nil]

/-- A new element gets in before another one. -/
theorem Chain.insertBefore (h : Chain some ls none (l ++ a :: l') none)
    (hnd : (l ++ a :: l').Nodup) (hx : x ∉ l ++ a :: l') :
    Chain some (Function.update (Linked.setPrev (Linked.setNext? ls l.getLast? (some x)) a
      (some x)) x (some (l.getLast?, some a))) none (l ++ x :: a :: l') none := by
  obtain ⟨hl, hal'⟩ := chain_open_append.mp h
  obtain ⟨hnl, hnl', hdi⟩ := nodup_append'.mp hnd
  rw [mem_append, not_or] at hx
  refine chain_open_append.mpr ⟨?_, ?_, ?_⟩
  · refine ((hl.setNext? hnl (some x)).congr fun y hy => setPrev_of_ne ?_).update hx.1 _
    rintro rfl
    exact hdi hy mem_cons_self
  · rw [update_self, headOr_cons]
  · refine update ?_ hx.2 _
    refine (hal'.congr fun y hy => setNext?_last_of_notMem fun hy' => ?_).setPrev
      (nodup_cons.mp hnl').1 _
    exact hdi hy' hy

end

/-! ## Rings -/

/-- The keys with links are those of the list, and they are linked in a circle. -/
structure IsRing (links : K → Option (K × K)) (ring : List K) : Prop where
  nodup : ring.Nodup
  mem_iff : ∀ x, x ∈ ring ↔ (links x).isSome
  circle : ∀ p n, Chain id links (lastOr id p ring) ring (headOr id ring n)

namespace IsRing

variable {ls : K → Option (K × K)} {a p n : K} {l l' : List K}

theorem chain (h : IsRing ls (a :: l)) : Chain id ls (lastOr id a l) (a :: l) a := h.circle a a

theorem of_chain (hnd : (a :: l).Nodup) (hmem : ∀ x, x ∈ a :: l ↔ (ls x).isSome)
    (h : Chain id ls (lastOr id a l) (a :: l) a) : IsRing ls (a :: l) :=
  ⟨hnd, hmem, fun _ _ => h⟩

theorem nil (h : ∀ x, ls x = none) : IsRing ls [] := by
  refine ⟨nodup_nil, fun x => ?_, fun _ _ => trivial⟩
  simp [h x]

/-- A ring may be read from any of its elements. -/
theorem rotate (h : IsRing ls (l ++ l')) : IsRing ls (l' ++ l) := by
  refine ⟨nodup_append_comm.mp h.nodup, fun x => ?_, fun p n => ?_⟩
  · rw [← h.mem_iff, mem_append, mem_append, or_comm]
  cases l with
  | nil => simpa using h.circle p n
  | cons a l =>
    cases l' with
    | nil => simpa using h.circle p n
    | cons b l' =>
      obtain ⟨hl, hl'⟩ := chain_append.mp (h.circle p n)
      rw [lastOr_append] at hl hl'
      rw [lastOr_append]
      exact chain_append.mpr ⟨hl', hl⟩

theorem of_mem {ring : List K} (h : IsRing ls ring) (ha : (ls a).isSome) :
    ∃ l, IsRing ls (a :: l) := by
  obtain ⟨l, l', rfl⟩ := append_of_mem ((h.mem_iff a).mpr ha)
  exact ⟨l' ++ l, h.rotate⟩

theorem links_head (h : IsRing ls (a :: l)) : ls a = some (lastOr id a l, headOr id l a) :=
  h.chain.1

/-- The last element of a chain, split off. -/
theorem exists_concat : ∃ l', a :: l = l' ++ [lastOr id a l] := by
  induction l generalizing a with
  | nil => exact ⟨[], rfl⟩
  | cons b l ih =>
    obtain ⟨l', heq⟩ := ih
    exact ⟨a :: l', congrArg (a :: ·) heq⟩

/-- The neighbours of an element have it for their neighbour. -/
theorem neighbours (h : IsRing ls l) (ha : ls a = some (p, n)) :
    (∃ m, ls n = some (a, m)) ∧ ∃ m, ls p = some (m, a) := by
  obtain ⟨l, h⟩ := h.of_mem (a := a) (by simp [ha])
  have hh := h.links_head
  rw [ha] at hh
  obtain ⟨rfl, rfl⟩ := hh
  constructor
  · cases l with
    | nil => exact ⟨_, ha⟩
    | cons b l => exact ⟨_, h.chain.2.1⟩
  · obtain ⟨l', heq⟩ := exists_concat
    have hcha := h.chain
    rw [heq] at hcha
    exact ⟨_, hcha.links_eq⟩

variable [DecidableEq K]

theorem singleton (h : ∀ x, ls x = none) : IsRing (update ls a (some (a, a))) [a] := by
  refine of_chain (nodup_singleton a) (fun x => ?_) ⟨by simp, trivial⟩
  by_cases hx : x = a
  · subst hx
    simp
  · simp [hx, h x]

/-- A new element gets in between the last one and the first one. -/
theorem insert (h : IsRing ls (a :: l)) {x : K} (hx : ls x = none) {t : K}
    (ht : t = lastOr id a l) :
    IsRing (update (setNext (setPrev ls a x) t x) x (some (t, a))) (a :: (l ++ [x])) := by
  subst ht
  have hmem : x ∉ a :: l := by
    rw [h.mem_iff, hx]
    simp
  obtain ⟨l', heq⟩ := exists_concat
  have hnd := h.nodup
  -- the first link of the old head, the second link of the old tail, and the new element
  have hp := h.chain.setPrev (nodup_cons.mp h.nodup).1 x
  rw [heq] at hp hnd
  have hn := hp.setNext (disjoint_singleton.mp (disjoint_of_nodup_append hnd)) x
  rw [← heq] at hn
  refine of_chain ?_ (fun y => ?_) ?_
  · rw [← cons_append]
    exact List.Nodup.append h.nodup (nodup_singleton x) (disjoint_singleton.mpr hmem)
  · by_cases hy : y = x
    · subst hy
      simp
    · rw [update_of_ne hy, isSome_setNext, isSome_setPrev, ← h.mem_iff]
      simp [hy]
  · rw [← cons_append, chain_append, lastOr_append]
    exact ⟨hn.update hmem _, by simp, trivial⟩

/-- The neighbours of an element that leaves are linked to each other. -/
theorem remove (h : IsRing ls l) (ha : ls a = some (p, n)) (hne : a ≠ n) :
    ∃ ring, IsRing (update (setNext (setPrev ls n p) p n) a none) ring := by
  obtain ⟨l, h⟩ := h.of_mem (a := a) (by simp [ha])
  have hh := h.links_head
  rw [ha] at hh
  obtain ⟨rfl, rfl⟩ := hh
  obtain ⟨hal, hnd⟩ := nodup_cons.mp h.nodup
  have hmem := h.mem_iff
  cases l with
  | nil => exact absurd rfl hne
  | cons b l =>
    obtain ⟨l', heq⟩ := exists_concat
    have hnd' := hnd
    have hp := h.chain.2.setPrev (nodup_cons.mp hnd).1 (lastOr id b l)
    rw [heq] at hp hnd'
    have hn := hp.setNext (disjoint_singleton.mp (disjoint_of_nodup_append hnd')) b
    rw [← heq] at hn
    refine ⟨b :: l, of_chain hnd (fun y => ?_) (hn.update hal none)⟩
    by_cases hy : y = a
    · subst hy
      simp [hal]
    · rw [update_of_ne hy, isSome_setNext, isSome_setPrev, ← hmem]
      simp [hy]

/-- An element that is its own neighbour is the only one. -/
theorem remove_only (h : IsRing ls l) (ha : ls a = some (p, a)) (x : K) :
    update ls a none x = none := by
  obtain ⟨l, h⟩ := h.of_mem (a := a) (by simp [ha])
  by_cases hx : x = a
  · subst hx
    simp
  rw [update_of_ne hx, ← not_isSome_iff_eq_none, ← h.mem_iff]
  have hh := h.links_head
  rw [ha, some.injEq, Prod.mk.injEq] at hh
  cases l with
  | nil => simpa using hx
  | cons b l =>
    have hab : a = b := hh.2
    exact absurd (hab ▸ mem_cons_self) (nodup_cons.mp h.nodup).1

end IsRing

end Linked
