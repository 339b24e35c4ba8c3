-- SUMMARY: The books of the non-canonical overlay: which blocks the reference counters stand for.
import SubstrateIpfs.StateDb.NonCanonical

/-!
# The books of the overlay

`Books.Accounts b bs` says that the maps of the overlay stand for the blocks `bs` and for the blocks
kept aside: every one has its parent recorded, no hash is used twice, and the counter of a key is
the number of times these blocks insert it.

While descendants are discarded, blocks wait for their own descendants in nobody's level. So `bs`
are the blocks in the levels with any others.
-/

namespace StateDb

open List FinMap OverlayLevel Books

variable {H K V : Type} {ins : List K} {counter : Nat} {value : V}

/-! ## Counters -/

section
variable [DecidableEq K] {vs : FinMap K (Nat × V)} {k : K}

/-- The reference counter of a key. -/
def counterOf (values : FinMap K (Nat × V)) (k : K) : Nat := ((values.get? k).map Prod.fst).getD 0

/-- No key is kept with a counter of zero. -/
def Positive (values : FinMap K (Nat × V)) : Prop :=
  ∀ k counter value, values.get? k = some (counter, value) → 0 < counter

theorem counterOf_insertValue {kv : K × V} :
    counterOf (insertValue vs kv) k = counterOf vs k + if kv.1 = k then 1 else 0 := by
  unfold insertValue counterOf
  by_cases hk : kv.1 = k
  · subst hk
    split
    next h => simp [h]
    next h => simp [h]
  · split <;> rw [get?_insert_of_ne (symm hk), if_neg hk, Nat.add_zero]

theorem counterOf_insertValues {i : List (K × V)} :
    counterOf (insertValues vs i) k = counterOf vs k + (i.map Prod.fst).count k := by
  induction i generalizing vs with
  | nil => rfl
  | cons kv i ih =>
    have hc : insertValues vs (kv :: i) = insertValues (insertValue vs kv) i := rfl
    rw [hc, ih, counterOf_insertValue, map_cons, count_cons]
    simp only [beq_iff_eq]
    omega

theorem counterOf_discardValue {k' : K} :
    counterOf (discardValue vs k') k = counterOf vs k - if k' = k then 1 else 0 := by
  unfold discardValue counterOf
  by_cases hk : k' = k
  · subst hk
    split
    next counter value h =>
      split
      next hz => simp [h, hz]
      · simp [h]
    next h => simp [h]
  · rw [if_neg hk, Nat.sub_zero]
    split
    · split
      · rw [get?_erase_of_ne (symm hk)]
      · rw [get?_insert_of_ne (symm hk)]
    · rfl

theorem counterOf_discardValues :
    counterOf (discardValues vs ins) k = counterOf vs k - ins.count k := by
  induction ins generalizing vs with
  | nil => rfl
  | cons k' ins ih =>
    have hc : discardValues vs (k' :: ins) = discardValues (discardValue vs k') ins := rfl
    rw [hc, ih, counterOf_discardValue, count_cons]
    simp only [beq_iff_eq]
    omega

theorem Positive.insertValues (h : Positive vs) (i : List (K × V)) :
    Positive (insertValues vs i) := by
  induction i generalizing vs with
  | nil => exact h
  | cons kv i ih =>
    refine ih fun k counter value hk => ?_
    unfold insertValue at hk
    split at hk
    all_goals
      obtain ⟨-, hk⟩ | ⟨-, hk⟩ := of_get?_insert hk
      · cases hk
        exact Nat.succ_pos _
      · exact h k counter value hk

theorem Positive.discardValues (h : Positive vs) (i : List K) : Positive (discardValues vs i) := by
  induction i generalizing vs with
  | nil => exact h
  | cons k' i ih =>
    refine ih fun k counter value hk => ?_
    unfold discardValue at hk
    split at hk
    · split at hk
      · exact h k counter value (of_get?_erase hk).2
      next hcnt =>
        obtain ⟨-, hk⟩ | ⟨-, hk⟩ := of_get?_insert hk
        · cases hk
          exact Nat.pos_of_ne_zero hcnt
        · exact h k counter value hk
    · exact h k counter value hk

/-- Insertions leave the values that are there. -/
theorem get?_insertValues (i : List (K × V)) (h : vs.get? k = some (counter, value)) :
    ∃ c', (insertValues vs i).get? k = some (c', value) := by
  induction i generalizing vs counter with
  | nil => exact ⟨counter, h⟩
  | cons kv i ih =>
    have hone : ∃ c', (insertValue vs kv).get? k = some (c', value) := by
      unfold insertValue
      by_cases hk : k = kv.1
      · subst hk
        rw [h]
        exact ⟨_, get?_insert_self⟩
      · split <;> exact ⟨counter, (get?_insert_of_ne hk).trans h⟩
    obtain ⟨c', hone⟩ := hone
    exact ih hone

/-- A value after insertions was there, or is one of those inserted. -/
theorem of_get?_insertValues {i : List (K × V)}
    (h : (insertValues vs i).get? k = some (counter, value)) :
    (∃ c', vs.get? k = some (c', value)) ∨ (k, value) ∈ i := by
  induction i generalizing vs with
  | nil => exact .inl ⟨counter, h⟩
  | cons kv i ih =>
    rcases ih h with ⟨c', hone⟩ | hmem
    · unfold insertValue at hone
      by_cases hk : k = kv.1
      · subst hk
        split at hone
        next counter0 value0 h0 =>
          rw [get?_insert_self] at hone
          cases hone
          exact .inl ⟨counter0, h0⟩
        · rw [get?_insert_self] at hone
          cases hone
          exact .inr mem_cons_self
      · split at hone
        all_goals
          rw [get?_insert_of_ne hk] at hone
          exact .inl ⟨c', hone⟩
    · exact .inr (mem_cons_of_mem _ hmem)

/-- A value after discarding is the one that was there. -/
theorem of_get?_discardValues (h : (discardValues vs ins).get? k = some (counter, value)) :
    ∃ c', vs.get? k = some (c', value) := by
  induction ins generalizing vs with
  | nil => exact ⟨counter, h⟩
  | cons k' ins ih =>
    obtain ⟨c', hone⟩ := ih h
    unfold discardValue at hone
    split at hone
    next counter0 value0 h0 =>
      split at hone
      · exact ⟨c', (of_get?_erase hone).2⟩
      · obtain ⟨rfl, heq⟩ | ⟨-, hone⟩ := of_get?_insert hone
        · cases heq
          exact ⟨counter0, h0⟩
        · exact ⟨c', hone⟩
    · exact ⟨c', hone⟩

/-- A key with a counter has a value. -/
theorem isSome_of_counterOf (h : 0 < counterOf vs k) : (vs.get? k).isSome := by
  unfold counterOf at h
  cases hk : vs.get? k with
  | none => simp [hk] at h
  | some v => rfl

end

/-! ## Accounts -/

section
variable [DecidableEq K] {bs : List (BlockOverlay H K)} {x : BlockOverlay H K}

/-- How often the blocks insert a key. -/
def occurrences (bs : List (BlockOverlay H K)) (k : K) : Nat :=
  (bs.map fun x => x.inserted.count k).sum

/-- How often the blocks kept aside insert a key. -/
def Books.kept (b : Books H K V) (k : K) : Nat := b.pinnedInsertions.total fun _ e => e.1.count k

@[simp] theorem occurrences_cons {k : K} :
    occurrences (x :: bs) k = x.inserted.count k + occurrences bs k := rfl

theorem count_le_occurrences (hx : x ∈ bs) (k : K) : x.inserted.count k ≤ occurrences bs k := by
  induction bs with
  | nil => cases hx
  | cons y bs ih =>
    cases mem_cons.mp hx with
    | inl heq => exact heq ▸ Nat.le_add_right ..
    | inr hx => exact (ih hx).trans (Nat.le_add_left ..)

theorem occurrences_perm {bs' : List (BlockOverlay H K)} (h : bs.Perm bs') (k : K) :
    occurrences bs k = occurrences bs' k := (h.map _).sum_nat

end

variable [DecidableEq H] [DecidableEq K] {parents : H → Option H} {blks : List (BlockOverlay H K)}

/-- The maps stand for the blocks `bs` and the blocks kept aside. -/
structure Books.Accounts (b : Books H K V) (bs : List (BlockOverlay H K)) : Prop where
  unique : (bs.map BlockOverlay.hash).Nodup
  apart : ∀ x ∈ bs, b.pinnedInsertions.get? x.hash = none
  known : ∀ h, (b.parents.get? h).isSome ↔
    h ∈ bs.map BlockOverlay.hash ∨ (b.pinnedInsertions.get? h).isSome
  positive : Positive b.values
  counted : ∀ k, counterOf b.values k = occurrences bs k + b.kept k

namespace Books.Accounts

variable {b : Books H K V} {bs bs' : List (BlockOverlay H K)} {x y : BlockOverlay H K}

theorem perm (h : b.Accounts bs) (hp : bs.Perm bs') : b.Accounts bs' where
  unique := (hp.map _).nodup_iff.mp h.unique
  apart := fun x hx => h.apart x (hp.mem_iff.mpr hx)
  known := fun h' => by rw [h.known, (hp.map _).mem_iff]
  positive := h.positive
  counted := fun k => by rw [h.counted, occurrences_perm hp]

theorem parent_isSome (h : b.Accounts bs) (hx : x ∈ bs) : (b.parents.get? x.hash).isSome :=
  (h.known x.hash).mpr (.inl (mem_map_of_mem hx))

/-- What is kept aside is not one of the blocks. -/
theorem aside_ne (h : b.Accounts bs) {hash : H} {e : List K × Nat}
    (he : b.pinnedInsertions.get? hash = some e) (hx : x ∈ bs) : hash ≠ x.hash := by
  rintro rfl
  rw [h.apart x hx] at he
  cases he

/-- Blocks are told apart by their hashes. -/
theorem eq_of_hash (h : b.Accounts bs) (hx : x ∈ bs) (hy : y ∈ bs) (heq : x.hash = y.hash) :
    x = y :=
  inj_on_of_nodup_map h.unique hx hy heq

theorem hash_ne (h : b.Accounts (x :: bs)) (hy : y ∈ bs) : y.hash ≠ x.hash := by
  have hx := (nodup_cons.mp h.unique).1
  intro heq
  rw [← heq] at hx
  exact hx (mem_map_of_mem hy)

/-- No two of the blocks have the same hash. -/
theorem hash_ne_append (h : b.Accounts (bs ++ bs')) (hx : x ∈ bs) (hy : y ∈ bs') :
    x.hash ≠ y.hash := by
  have hu := h.unique
  rw [map_append] at hu
  exact fun heq => disjoint_of_nodup_append hu (mem_map_of_mem hx) (heq ▸ mem_map_of_mem hy)

/-- A block that is dropped. -/
theorem discard (h : b.Accounts (x :: bs)) : (b.discard x).Accounts bs where
  unique := (nodup_cons.mp h.unique).2
  apart := fun y hy => h.apart y (mem_cons_of_mem _ hy)
  known := fun h' => by
    have hap := h.apart x mem_cons_self
    have hnot := (nodup_cons.mp h.unique).1
    show ((b.parents.erase x.hash).get? h').isSome ↔ _
    rw [get?_erase]
    split
    next heq =>
      subst heq
      have hke : (b.discard x).pinnedInsertions.get? x.hash = none := hap
      simp only [hke, Option.isSome_none, Bool.false_eq_true, or_false, false_iff]
      exact hnot
    next hne =>
      rw [h.known h', map_cons, mem_cons, or_iff_right hne]
      rfl
  positive := h.positive.discardValues _
  counted := fun k => by
    have hk := h.counted k
    have hke : (b.discard x).kept k = b.kept k := rfl
    rw [occurrences_cons] at hk
    show counterOf (discardValues b.values x.inserted) k = _
    rw [counterOf_discardValues]
    omega

/-- A block that is kept aside. -/
theorem save (h : b.Accounts (x :: bs)) (n : Nat) :
    ({ b with
      pinnedInsertions := b.pinnedInsertions.insert x.hash (x.inserted, n) } :
        Books H K V).Accounts bs where
  unique := (nodup_cons.mp h.unique).2
  apart := fun y hy => by
    rw [get?_insert_of_ne (h.hash_ne hy)]
    exact h.apart y (mem_cons_of_mem _ hy)
  known := fun h' => by
    rw [h.known h', get?_insert, map_cons, mem_cons]
    split
    next heq => simp [heq]
    next hne => rw [or_iff_right hne]
  positive := h.positive
  counted := fun k => by
    have hk : (b.pinnedInsertions.insert x.hash (x.inserted, n)).total
        (fun _ e => e.1.count k) = x.inserted.count k + b.kept k := by
      rw [total_insert, erase_of_none (h.apart x mem_cons_self)]
      rfl
    rw [h.counted k, occurrences_cons]
    unfold kept at hk ⊢
    rw [hk]
    omega

/-- A block that comes in. -/
theorem add (h : b.Accounts bs) (hash : H) (ph : H) (i : List (K × V))
    (hnew : b.parents.get? hash = none) (hx : x.hash = hash) (hins : x.inserted = i.map Prod.fst) :
    ({ b with
      parents := b.parents.insert hash ph
      values := insertValues b.values i } : Books H K V).Accounts (x :: bs) := by
  subst hx
  have hunk := mt (h.known x.hash).mpr (by simp [hnew])
  rw [not_or] at hunk
  refine ⟨nodup_cons.mpr ⟨hunk.1, h.unique⟩, fun y hy => ?_, fun h' => ?_,
    h.positive.insertValues _, fun k => ?_⟩
  · cases mem_cons.mp hy with
    | inl heq =>
      subst heq
      simpa using hunk.2
    | inr hy => exact h.apart y hy
  · rw [get?_insert, map_cons, mem_cons]
    split
    next heq => simp [heq]
    next hne => rw [h.known h', or_iff_right hne]
  · have hkept : ({ b with
        parents := b.parents.insert x.hash ph
        values := insertValues b.values i } : Books H K V).kept k = b.kept k := rfl
    rw [counterOf_insertValues, h.counted k, occurrences_cons, hins]
    omega

/-- One round of the loop of `unpin`. -/
theorem release (h : b.Accounts bs) {hash : H} {c : Nat}
    (hke : b.pinnedInsertions.get? hash = some (ins, c)) :
    (b.release hash ins c).Accounts bs := by
  have hne : ∀ x ∈ bs, x.hash ≠ hash := fun x hx => (h.aside_ne hke hx).symm
  have htot : ∀ k, b.kept k =
      ins.count k + (b.pinnedInsertions.erase hash).total fun _ e => e.1.count k :=
    fun k => total_erase hke
  unfold Books.release
  split
  · refine ⟨h.unique, fun x hx => ?_, fun h' => ?_, h.positive.discardValues _, fun k => ?_⟩
    · rw [get?_erase_of_ne (hne x hx)]
      exact h.apart x hx
    · rw [get?_erase, get?_erase]
      split
      next heq =>
        subst heq
        simp only [Option.isSome_none, Bool.false_eq_true, or_false, false_iff, mem_map,
          not_exists, not_and]
        exact hne
      · exact h.known h'
    · have hk := h.counted k
      rw [htot k] at hk
      show counterOf (discardValues b.values ins) k = occurrences bs k +
        (b.pinnedInsertions.erase hash).total fun _ e => e.1.count k
      rw [counterOf_discardValues]
      omega
  · refine ⟨h.unique, fun x hx => ?_, fun h' => ?_, h.positive, fun k => ?_⟩
    · rw [get?_insert_of_ne (hne x hx)]
      exact h.apart x hx
    · rw [h.known h', get?_insert]
      split
      next heq =>
        subst heq
        simp [hke]
      · rfl
    · rw [h.counted k, htot k]
      unfold kept
      rw [total_insert]

end Books.Accounts

/-! ## Shedding blocks -/

/-- From books with blocks `bs` to books with blocks `bs'`: some blocks are gone, what is kept aside
was kept aside before or was a block, and the parents are those they were. -/
structure Sheds (b : Books H K V) (bs : List (BlockOverlay H K)) (b' : Books H K V)
    (bs' : List (BlockOverlay H K)) : Prop where
  accounts : b'.Accounts bs'
  subset : bs' ⊆ bs
  parents : ∀ y ∈ bs', b'.parents.get? y.hash = b.parents.get? y.hash
  aside : ∀ h e', b'.pinnedInsertions.get? h = some e' →
    (∃ e, b.pinnedInsertions.get? h = some e ∧ e.1 = e'.1) ∨
      ∃ x ∈ bs, x.hash = h ∧ x.inserted = e'.1
  aside_parents : ∀ h e', b'.pinnedInsertions.get? h = some e' →
    b'.parents.get? h = b.parents.get? h
  values : ∀ k counter value, b'.values.get? k = some (counter, value) →
    ∃ counter', b.values.get? k = some (counter', value)

namespace Sheds

variable {b b1 b2 : Books H K V} {bs bs1 bs2 : List (BlockOverlay H K)} {x : BlockOverlay H K}

theorem of_perm (h : b.Accounts bs) (hp : bs.Perm bs1) : Sheds b bs b bs1 :=
  ⟨h.perm hp, fun _ hx => hp.mem_iff.mpr hx, fun _ _ => rfl,
    fun _ e he => .inl ⟨e, he, rfl⟩, fun _ _ _ => rfl, fun _ counter _ hk => ⟨counter, hk⟩⟩

theorem refl (h : b.Accounts bs) : Sheds b bs b bs := of_perm h (.refl _)

theorem trans (h : Sheds b bs b1 bs1) (h' : Sheds b1 bs1 b2 bs2) : Sheds b bs b2 bs2 where
  accounts := h'.accounts
  subset := fun _ hx => h.subset (h'.subset hx)
  parents := fun y hy => (h'.parents y hy).trans (h.parents y (h'.subset hy))
  aside := fun k e' he' => by
    rcases h'.aside k e' he' with ⟨e, he, heq⟩ | ⟨x, hx, hk, heq⟩
    · rw [← heq]
      exact h.aside k e he
    · exact .inr ⟨x, h.subset hx, hk, heq⟩
  aside_parents := fun k e' he' => by
    refine (h'.aside_parents k e' he').trans ?_
    rcases h'.aside k e' he' with ⟨e, he, -⟩ | ⟨x, hx, rfl, -⟩
    · exact h.aside_parents k e he
    · exact h.parents x hx
  values := fun k counter value hk => by
    obtain ⟨c', hk'⟩ := h'.values k counter value hk
    exact h.values k c' value hk'

theorem discard (h : b.Accounts (x :: bs)) : Sheds b (x :: bs) (b.discard x) bs where
  accounts := h.discard
  subset := fun _ hy => mem_cons_of_mem _ hy
  parents := fun _ hy => get?_erase_of_ne (h.hash_ne hy)
  aside := fun _ e he => .inl ⟨e, he, rfl⟩
  aside_parents := fun _ _ he => get?_erase_of_ne (h.aside_ne he mem_cons_self)
  values := fun _ _ _ hk => of_get?_discardValues hk

theorem settle (h : b.Accounts (x :: bs)) (n : Nat) : Sheds b (x :: bs) (b.settle x n) bs := by
  unfold Books.settle
  split
  · refine ⟨h.save n, fun _ hy => mem_cons_of_mem _ hy, fun _ _ => rfl, fun k e he => ?_,
      fun _ _ _ => rfl, fun _ counter _ hk => ⟨counter, hk⟩⟩
    obtain ⟨rfl, rfl⟩ | ⟨-, he⟩ := of_get?_insert he
    · exact .inr ⟨x, mem_cons_self, rfl, rfl⟩
    · exact .inl ⟨e, he, rfl⟩
  · exact discard h

/-- All blocks of a list are dropped. -/
theorem discardAll {xs : List (BlockOverlay H K)} (h : b.Accounts (xs ++ bs)) :
    Sheds b (xs ++ bs) (xs.foldl Books.discard b) bs := by
  induction xs generalizing b with
  | nil => exact refl h
  | cons x xs ih => exact (discard h).trans (ih h.discard)

theorem release (h : b.Accounts bs) {hash : H} {c : Nat}
    (hke : b.pinnedInsertions.get? hash = some (ins, c)) :
    Sheds b bs (b.release hash ins c) bs := by
  refine ⟨h.release hke, fun _ hx => hx, fun y hy => ?_, fun k e he => .inl ?_,
    fun k e he => ?_, fun k counter value hk => ?_⟩
  · unfold Books.release
    split
    · exact get?_erase_of_ne (h.aside_ne hke hy).symm
    · rfl
  · unfold Books.release at he
    split at he
    · exact ⟨e, (of_get?_erase he).2, rfl⟩
    · obtain ⟨rfl, rfl⟩ | ⟨-, he⟩ := of_get?_insert he
      · exact ⟨(ins, c), hke, rfl⟩
      · exact ⟨e, he, rfl⟩
  · unfold Books.release at he ⊢
    split at he
    next hz =>
      rw [if_pos hz]
      exact get?_erase_of_ne (of_get?_erase he).1
    next hpos => rw [if_neg hpos]
  · unfold Books.release at hk
    split at hk
    · exact of_get?_discardValues hk
    · exact ⟨counter, hk⟩

theorem unpinFrom (h : b.Accounts bs) (hash : H) : Sheds b bs (b.unpinFrom hash) bs := by
  fun_induction Books.unpinFrom b hash with
  | case1 => exact refl h
  | case2 b hash ins c hk => exact release h hk
  | case3 b hash ins c hk par hpar ih =>
    exact (release h hk).trans (ih (h.release hk))

end Sheds

/-! ## Levels -/

section
omit [DecidableEq H] [DecidableEq K]
variable {level l' : OverlayLevel H K} {i : Nat} {x : BlockOverlay H K}
  {ls : List (OverlayLevel H K)}

/-- The blocks of all levels. -/
def blocksOf (levels : List (OverlayLevel H K)) : List (BlockOverlay H K) :=
  levels.flatMap OverlayLevel.blocks

@[simp] theorem blocksOf_nil : blocksOf ([] : List (OverlayLevel H K)) = [] := rfl

@[simp] theorem blocksOf_cons : blocksOf (level :: ls) = level.blocks ++ blocksOf ls := rfl

@[simp] theorem blocksOf_append {ls' : List (OverlayLevel H K)} :
    blocksOf (ls ++ ls') = blocksOf ls ++ blocksOf ls' := flatMap_append

theorem mem_blocksOf :
    x ∈ blocksOf ls ↔ ∃ (i : Nat) (l : OverlayLevel H K), ls[i]? = some l ∧ x ∈ l.blocks := by
  unfold blocksOf
  rw [mem_flatMap]
  constructor
  · rintro ⟨l, hlev, hx⟩
    obtain ⟨i, hi⟩ := mem_iff_getElem?.mp hlev
    exact ⟨i, l, hi, hx⟩
  · rintro ⟨i, l, hi, hx⟩
    exact ⟨l, mem_of_getElem? hi, hx⟩

/-- What `remove` takes out and what it leaves. -/
theorem OverlayLevel.remove_eq (h : level.remove i = some (x, l')) :
    level.blocks[i]? = some x ∧ l'.blocks = level.blocks.eraseIdx i ∧
      level.blocks.Perm (x :: l'.blocks) := by
  obtain ⟨y, hy, heq⟩ := Option.map_eq_some_iff.mp h
  cases heq
  obtain ⟨hi, rfl⟩ := List.getElem?_eq_some_iff.mp hy
  exact ⟨hy, rfl, (getElem_cons_eraseIdx_perm hi).symm⟩

/-- Every block of a level has its parent in the level below. -/
def Chained (parents : H → Option H) (levels : List (OverlayLevel H K)) : Prop :=
  ∀ i below level, levels[i]? = some below → levels[i + 1]? = some level →
    ∀ y ∈ level.blocks, ∃ x ∈ below.blocks, parents y.hash = some x.hash

theorem chained_nil : Chained parents ([] : List (OverlayLevel H K)) := by
  intro i below level h
  simp at h

theorem chained_cons :
    Chained parents (level :: ls) ↔
      (∀ next, ls[0]? = some next →
        ∀ y ∈ next.blocks, ∃ x ∈ level.blocks, parents y.hash = some x.hash) ∧
      Chained parents ls := by
  constructor
  · intro h
    exact ⟨fun next hn => h 0 level next rfl (by simpa using hn),
      fun i b next hbel hn =>
        h (i + 1) b next (by simpa using hbel) (by simpa using hn)⟩
  · rintro ⟨hfst, hr⟩ i b next hbel hn
    cases i with
    | zero =>
      cases hbel
      exact hfst next (by simpa using hn)
    | succ i => exact hr i b next (by simpa using hbel) (by simpa using hn)

theorem Chained.congr {ps' : H → Option H} (h : Chained parents ls)
    (heq : ∀ y ∈ blocksOf ls, ps' y.hash = parents y.hash) : Chained ps' ls := by
  intro i b level hbel hlev y hy
  obtain ⟨x, hx, hpar⟩ := h i b level hbel hlev y hy
  exact ⟨x, hx, (heq y (mem_blocksOf.mpr ⟨_, level, hlev, hy⟩)).trans hpar⟩

end

/-! ## Discarding the descendants of a block -/

/-- What `discard_descendants` does, one child after the other. -/
inductive Discards (pinned : FinMap H Nat) :
    List (OverlayLevel H K) → Books H K V → H → Nat → List (OverlayLevel H K) → Books H K V → Prop
  | done {levels : List (OverlayLevel H K)} {b : Books H K V} {hash : H}
      (h : ∀ level, levels[0]? = some level →
        ∀ x ∈ level.blocks, b.parents.get? x.hash ≠ some hash) :
      Discards pinned levels b hash 0 levels b
  | child {level level' : OverlayLevel H K} {remainder remainder' levels' : List (OverlayLevel H K)}
      {b b1 b' : Books H K V} {hash : H} {i m n : Nat} {x : BlockOverlay H K}
      (hparent : b.parents.get? x.hash = some hash)
      (hremove : level.remove i = some (x, level'))
      (habove : Discards pinned remainder b x.hash m remainder' b1)
      (hrest : Discards pinned (level' :: remainder')
        (b1.settle x (withSelf pinned x.hash m)) hash n levels' b') :
      Discards pinned (level :: remainder) b hash (withSelf pinned x.hash m + n) levels' b'

section
variable {p : FinMap H Nat} {ls ls' : List (OverlayLevel H K)} {b b' : Books H K V}
  {hash : H} {n : Nat}

omit [DecidableEq K] in
theorem childPosition_eq_none (h : childPosition b.parents hash blks = some none) :
    ∀ x ∈ blks, b.parents.get? x.hash ≠ some hash := by
  induction blks with
  | nil => simp
  | cons ov blks ih =>
    obtain ⟨par, hpar, h⟩ := Option.bind_eq_some_iff.mp h
    split at h
    · cases h
    rename_i hne
    obtain ⟨i, hi, h⟩ := Option.bind_eq_some_iff.mp h
    obtain rfl : i = none := by simpa using h
    intro x hx
    cases mem_cons.mp hx with
    | inl heq =>
      subst heq
      rw [hpar]
      simpa using hne
    | inr hx => exact ih hi x hx

omit [DecidableEq K] in
theorem childPosition_eq_some {i : Nat} (h : childPosition b.parents hash blks = some (some i)) :
    ∃ x, blks[i]? = some x ∧ b.parents.get? x.hash = some hash := by
  induction blks generalizing i with
  | nil => cases h
  | cons ov blks ih =>
    obtain ⟨par, hpar, h⟩ := Option.bind_eq_some_iff.mp h
    split at h
    next heq =>
      cases h
      exact ⟨ov, rfl, heq ▸ hpar⟩
    · obtain ⟨j, hj, h⟩ := Option.bind_eq_some_iff.mp h
      rw [Option.some.injEq, Option.map_eq_some_iff] at h
      obtain ⟨j, rfl, rfl⟩ := h
      exact ih hj

theorem Discards.length_eq (h : Discards p ls b hash n ls' b') : ls'.length = ls.length := by
  induction h with
  | done => rfl
  | child _ _ _ _ i ihr =>
    rw [ihr, length_cons, length_cons, i]

omit [DecidableEq H] [DecidableEq K] in
/-- The blocks around, when a child and descendants of it are gone. -/
theorem remove_subset {l l' : OverlayLevel H K} {x : BlockOverlay H K}
    {rem r' : List (OverlayLevel H K)} (hp : l.blocks.Perm (x :: l'.blocks))
    (habv : blocksOf r' ⊆ blocksOf rem) :
    blocksOf (l' :: r') ⊆ blocksOf (l :: rem) :=
  append_subset.mpr ⟨fun _ hy => mem_append_left _ (hp.mem_iff.mpr (mem_cons_of_mem _ hy)),
    fun _ hy => mem_append_right _ (habv hy)⟩

theorem Discards.subset (h : Discards p ls b hash n ls' b') : blocksOf ls' ⊆ blocksOf ls := by
  induction h with
  | done => exact fun _ hx => hx
  | child _ hrem _ _ i ihr =>
    obtain ⟨-, -, hp⟩ := remove_eq hrem
    exact fun y hy => remove_subset hp i (ihr hy)

theorem discards_of_discardDescendants {d : Nat} (hdep : d = ls.length)
    (h : discardDescendants p d ls b hash = some (n, ls', b')) :
    Discards p ls b hash n ls' b' := by
  induction d generalizing ls b hash n ls' b' with
  | zero =>
    obtain rfl := eq_nil_of_length_eq_zero hdep.symm
    cases h
    exact .done (by simp)
  | succ d ih =>
    cases ls with
    | nil => cases hdep
    | cons lv rem =>
      have hlen : d = rem.length := by simpa using hdep
      clear hdep
      unfold discardDescendants at h
      generalize hf : lv.blocks.length = f at h
      -- the rounds over the children in the first level
      induction f generalizing lv rem b n with
      | zero =>
        cases h
        have hnil := eq_nil_of_length_eq_zero hf
        refine .done fun l hl x hx => ?_
        cases hl
        rw [hnil] at hx
        cases hx
      | succ f ihf =>
        obtain ⟨pos, hp, h⟩ := Option.bind_eq_some_iff.mp h
        cases pos with
        | none =>
          cases h
          refine .done fun l hl x hx => ?_
          cases hl
          exact childPosition_eq_none hp x hx
        | some i =>
          obtain ⟨⟨x, level1⟩, hrem, h⟩ := Option.bind_eq_some_iff.mp h
          obtain ⟨⟨m, rem', b1⟩, habv, h⟩ := Option.bind_eq_some_iff.mp h
          obtain ⟨⟨n', levels1, b2⟩, hr, h⟩ := Option.bind_eq_some_iff.mp h
          cases h
          obtain ⟨y, hy, hpar⟩ := childPosition_eq_some hp
          obtain ⟨hx, -, hperm⟩ := remove_eq hrem
          cases hy.symm.trans hx
          have habv := ih hlen habv
          have hfuel' := hperm.length_eq
          rw [length_cons] at hfuel'
          have hlen' : d = rem'.length := by rw [habv.length_eq, hlen]
          exact .child hpar hrem habv (ihf _ _ hlen' (by omega) hr)

omit [DecidableEq H] [DecidableEq K] in
/-- A child waits among the other blocks until its own descendants are gone. -/
theorem remove_perm {l l' : OverlayLevel H K} {x : BlockOverlay H K}
    (hp : l.blocks.Perm (x :: l'.blocks)) (bs : List (BlockOverlay H K))
    (rem : List (OverlayLevel H K)) :
    (blocksOf (l :: rem) ++ bs).Perm
        (blocksOf rem ++ (x :: (l'.blocks ++ bs))) ∧
      (blocksOf rem ++ (x :: (l'.blocks ++ bs))).Perm (x :: (blocksOf (l' :: rem) ++ bs)) := by
  have hin : (blocksOf rem ++ (x :: (l'.blocks ++ bs))).Perm
      (x :: (blocksOf (l' :: rem) ++ bs)) := by
    refine perm_middle.trans (.cons x ?_)
    rw [← append_assoc]
    exact perm_append_comm.append_right _
  refine ⟨.trans ?_ hin.symm, hin⟩
  exact (hp.append_right _).append_right _

/-- The books after the descendants are gone, whatever other blocks there are. -/
theorem Discards.sheds (h : Discards p ls b hash n ls' b')
    (bs : List (BlockOverlay H K)) (ha : b.Accounts (blocksOf ls ++ bs)) :
    Sheds b (blocksOf ls ++ bs) b' (blocksOf ls' ++ bs) := by
  induction h generalizing bs with
  | done => exact .refl ha
  | @child level level' rem r' ls' b b1 b' hash i m n x hpar hrem habv
      hrest iha ihr =>
    obtain ⟨-, -, hp⟩ := remove_eq hrem
    have hout := (remove_perm hp bs rem).1
    have hin := (remove_perm hp bs r').2
    have h1 := iha _ (ha.perm hout)
    have h2 := Sheds.of_perm h1.accounts hin
    have h3 := Sheds.settle h2.accounts (withSelf p x.hash m)
    exact ((((Sheds.of_perm ha hout).trans h1).trans h2).trans h3).trans (ihr _ h3.accounts)

/-- The parents of what is left are where they were, and the children of `hash` are gone. -/
theorem Discards.chained (h : Discards p ls b hash n ls' b')
    (bs : List (BlockOverlay H K)) (ha : b.Accounts (blocksOf ls ++ bs))
    (hch : Chained b.parents.get? ls) :
    Chained b'.parents.get? ls' ∧
      ∀ lv', ls'[0]? = some lv' → ∃ lv, ls[0]? = some lv ∧
        ∀ y ∈ lv'.blocks, y ∈ lv.blocks ∧ b.parents.get? y.hash ≠ some hash := by
  induction h generalizing bs with
  | done h => exact ⟨hch, fun lv' hlev' => ⟨lv', hlev', fun y hy =>
      ⟨hy, h lv' hlev' y hy⟩⟩⟩
  | @child lv lv' rem r' ls' b b1 b' hash i m n x hpar hrem habv
      hrest iha ihr =>
    obtain ⟨hx, -, hp⟩ := remove_eq hrem
    have hout := (remove_perm hp bs rem).1
    have hin := (remove_perm hp bs r').2
    obtain ⟨hfst, hrmd⟩ := chained_cons.mp hch
    have h1 := habv.sheds _ (ha.perm hout)
    have h2 := (Sheds.of_perm h1.accounts hin).trans
      (.settle (h1.accounts.perm hin) (withSelf p x.hash m))
    have hs := ((Sheds.of_perm ha hout).trans h1).trans h2
    obtain ⟨hch1, hn⟩ := iha _ (ha.perm hout) hrmd
    have hk : ∀ y ∈ blocksOf (lv' :: r'),
        (b1.settle x (withSelf p x.hash m)).parents.get? y.hash = b.parents.get? y.hash :=
      fun y hy => hs.parents y (mem_append_left _ hy)
    have hch' : Chained (b1.settle x (withSelf p x.hash m)).parents.get? (lv' :: r') := by
      refine chained_cons.mpr ⟨fun next hn' y hy => ?_, hch1.congr fun y hy => ?_⟩
      · -- a block above that is left is not a child of `x`
        obtain ⟨next0, hnext0, hsub⟩ := hn next hn'
        obtain ⟨hy0, hnot⟩ := hsub y hy
        obtain ⟨z, hz, hpz⟩ := hfst next0 hnext0 y hy0
        have hz' : z ∈ lv'.blocks := by
          cases mem_cons.mp (hp.mem_iff.mp hz) with
          | inl heq => exact absurd (heq ▸ hpz) hnot
          | inr hz' => exact hz'
        refine ⟨z, hz', (hk y ?_).trans hpz⟩
        exact mem_append_right _ (mem_blocksOf.mpr ⟨0, next, hn', hy⟩)
      · exact h2.parents y (by simp [hy])
    obtain ⟨hch'', hl''⟩ := ihr _ hs.accounts hch'
    refine ⟨hch'', fun l hl => ⟨lv, rfl, fun y hy => ?_⟩⟩
    obtain ⟨l', hl', hsub⟩ := hl'' l hl
    cases hl'
    obtain ⟨hy', hnot⟩ := hsub y hy
    refine ⟨hp.mem_iff.mpr (mem_cons_of_mem _ hy'), ?_⟩
    rwa [hk y (mem_append_left _ hy')] at hnot

end

end StateDb
