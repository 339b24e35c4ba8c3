-- SUMMARY: The structure of the non-canonical overlay: levels, parents and counters agree.
import SubstrateIpfs.StateDb.Calls

/-!
# The structure of the overlay

A block is one level above its parent, the blocks of the first level are children of the
last canonicalized block, and the reference counter of a key is the number of blocks that
insert it, those kept aside included.

An accepted insertion only has to name some known block as its parent, and a rejected
canonicalization has already taken out the first level. `Orderly` says what has to hold for
a call so that the structure is kept.
-/

namespace StateDb

open List Option OverlayLevel Sheds Run

variable {H K V : Type} [DecidableEq H] [DecidableEq K] {x : BlockOverlay H K}
  {y : BlockOverlay H K} {r : List (BlockOverlay H K)}

namespace Overlay

variable (o : Overlay H K V) (hash : H) (number : Nat) (parentHash : H) (changeset : ChangeSet K V)

/-- The structure of the overlay. -/
structure Structured : Prop where
  parent_below : ∀ i below level, o.levels[i]? = some below → o.levels[i + 1]? = some level →
    ∀ y ∈ level.blocks, ∃ x ∈ below.blocks, o.parents.get? y.hash = some x.hash
  rooted : ∀ level last n, o.levels[0]? = some level → o.lastCanonicalized = some (last, n) →
    ∀ y ∈ level.blocks, o.parents.get? y.hash = some last
  counted : ∀ k, counterOf o.values k =
    (blocksOf o.levels).countP (fun x => k ∈ x.inserted) +
      o.pinnedInsertions.values.countP (fun e => k ∈ e.1)

/-- The parent of a block that is put on level `i` is on the level below. -/
def ParentBelow : Nat → Prop
  | 0 => True
  | j + 1 => ∃ x ∈ (o.levels[j]?.map blocks).getD [], x.hash = parentHash

instance (i : Nat) : Decidable (o.ParentBelow parentHash i) := by
  cases i <;> unfold ParentBelow <;> infer_instance

/-- The insertion returns `Ok`. -/
def Accepts : Prop := (o.insert hash number parentHash changeset).any (fun r => r.1.toBool) = true

instance : Decidable (o.Accepts hash number parentHash changeset) :=
  inferInstanceAs (Decidable (_ = true))

/-- A block that is accepted is new, and on the level above its parent. -/
def Fits : Prop :=
  o.Accepts hash number parentHash changeset →
    o.parents.get? hash = none ∧ o.ParentBelow parentHash (o.makeRoom number).2

instance : Decidable (o.Fits hash number parentHash changeset) :=
  inferInstanceAs (Decidable (_ → _ = _ ∧ _))

/-- The counters of the inserted keys, which are `u32`, do not overflow. -/
def Countable : Prop :=
  ∀ kv ∈ changeset.inserted,
    counterOf o.values kv.1 + (changeset.inserted.map Prod.fst).count kv.1 < 2 ^ 32

instance : Decidable (o.Countable changeset) :=
  inferInstanceAs (Decidable (∀ kv ∈ changeset.inserted, _ < _))

/-- The block to canonicalize is in the first level, unless there is none in it. -/
def Selects : Prop :=
  ∀ level ∈ o.levels.head?, level.blocks = [] ∨ hash ∈ level.blocks.map BlockOverlay.hash

instance : Decidable (o.Selects hash) :=
  inferInstanceAs (Decidable (∀ level ∈ o.levels.head?, _ ∨ _))

/-- What has to hold for a call. -/
def Orderly : Call H K V → Prop
  | .insert hash number parentHash changeset =>
    o.Fits hash number parentHash changeset ∧ (o.Accepts hash number parentHash changeset →
      (changeset.inserted.map Prod.fst).Nodup ∧ o.Countable changeset)
  | .canonicalize hash => o.Selects hash
  | _ => True

instance (c : Call H K V) : Decidable (o.Orderly c) := by
  cases c <;> unfold Orderly <;> infer_instance

/-! ## The invariant -/

/-- The invariant: the books stand for the blocks in the levels. -/
structure Sound : Prop where
  accounts : o.toBooks.Accounts (blocksOf o.levels)
  chained : Chained o.parents.get? o.levels
  rooted : ∀ level last n, o.levels[0]? = some level → o.lastCanonicalized = some (last, n) →
    ∀ y ∈ level.blocks, o.parents.get? y.hash = some last

theorem sound_empty : Sound (empty : Overlay H K V) where
  accounts :=
    { unique := nodup_nil
      apart := fun _ hx => absurd hx not_mem_nil
      known := fun h => by simp [empty, blocksOf]
      positive := fun k cnt value h => by simp [empty] at h
      counted := fun k => rfl }
  chained := chained_nil
  rooted := fun level last n h => by simp [empty] at h

/-- Some blocks of the overlay are gone. -/
def Sheds (o o' : Overlay H K V) : Prop :=
  StateDb.Sheds o.toBooks (blocksOf o.levels) o'.toBooks (blocksOf o'.levels)

variable {o o' : Overlay H K V} {hash : H} {number : Nat} {ph : H}
  {cs : ChangeSet K V} {asm : Option (H × Nat)} {ls a : List (OverlayLevel H K)}
  {i : Nat} {level : OverlayLevel H K} {co : CommitSet H K V}

/-- Some blocks of the levels are gone, from the top. -/
theorem Sound.of_prefix (h : o.Sound) (hpre : o'.levels <+: o.levels) (hs : o.Sheds o')
    (hl : o'.lastCanonicalized = o.lastCanonicalized) : o'.Sound where
  accounts := hs.accounts
  chained := (h.chained.of_prefix hpre).congr hs.parents
  rooted := fun level l n hlev hso y hy => by
    obtain ⟨tail, ht⟩ := hpre
    have hlev' : o.levels[0]? = some level := by
      rw [← ht, getElem?_append_left (List.getElem?_eq_some_iff.mp hlev).1]
      exact hlev
    rw [hs.parents y (mem_blocksOf.mpr ⟨0, level, hlev, hy⟩)]
    exact h.rooted level l n hlev' (hl ▸ hso) y hy

/-- The levels are the same. -/
theorem Sound.of_books (h : o.Sound) (hl : o'.levels = o.levels) (hs : o.Sheds o')
    (hla : o'.lastCanonicalized = o.lastCanonicalized) : o'.Sound :=
  h.of_prefix (hl ▸ prefix_rfl) hs hla

/-! ## Insertion -/

omit [DecidableEq H] [DecidableEq K] in
/-- A new level has no blocks yet. -/
theorem Room.levels_eq (h : Room o number ls i level) :
    ls[i]? = some level ∧ blocksOf ls = blocksOf o.levels ∧
      ∀ j, blocksAt ls j = blocksAt o.levels j := by
  cases h with
  | old hne hlev => exact ⟨hlev, rfl, fun _ => rfl⟩
  | new hnew =>
    refine ⟨getElem?_concat_length, ?_, fun j => ?_⟩
    · rw [blocksOf_append]
      exact append_nil _
    unfold blocksAt
    rw [getElem?_append]
    split
    · rfl
    next hj =>
      rw [getElem?_eq_none (Nat.le_of_not_lt hj)]
      cases j - o.levels.length <;> rfl

section
variable (h : Inserted o hash number ph cs asm ls i level co o')

include h

/-- The blocks after an insertion. -/
theorem Inserted.blocksOf_perm :
    (blocksOf o'.levels).Perm (newBlock level hash number cs :: blocksOf o.levels) := by
  obtain ⟨hlev, hb, -⟩ := h.room.levels_eq
  rw [h.result, ← hb]
  exact blocksOf_set_cons hlev (perm_append_singleton _ _)

/-- Once there is a block, the last canonicalized block stays. -/
theorem Inserted.last_eq (hne : o.levels ≠ []) : o'.lastCanonicalized = o.lastCanonicalized := by
  rw [h.result, assumed_eq_none (.inl hne) h.checked]
  rfl

theorem Inserted.accounts (hbks : o.toBooks.Accounts (blocksOf o.levels))
    (hnew : o.parents.get? hash = none) : o'.toBooks.Accounts (blocksOf o'.levels) := by
  refine Books.Accounts.perm ?_ h.blocksOf_perm.symm
  rw [h.result]
  exact hbks.add hash ph cs.inserted hnew rfl rfl

end

omit [DecidableEq H] [DecidableEq K] in
theorem mem_push : y ∈ (level.push x).blocks ↔ y = x ∨ y ∈ level.blocks := by
  show y ∈ level.blocks ++ [x] ↔ _
  rw [mem_append, mem_singleton, or_comm]

section
variable (h : Inserted o hash number ph cs asm ls i level co o')

include h

/-- A block of a level was there before, or is the new one. -/
theorem Inserted.mem_blocksAt {j : Nat} : y ∈ blocksAt o'.levels j ↔
    i = j ∧ y = newBlock level hash number cs ∨ y ∈ blocksAt o.levels j := by
  obtain ⟨hlev, -, hs⟩ := h.room.levels_eq
  rw [h.result, ← hs, blocksAt_set hlev]
  by_cases hj : i = j
  · subst hj
    rw [if_pos rfl, mem_push, blocksAt, hlev]
    simp
  · simp [hj]

theorem Inserted.parents_eq {z : H} (hz : (o.parents.get? z).isSome)
    (hnew : o.parents.get? hash = none) : o'.parents.get? z = o.parents.get? z := by
  rw [h.result]
  refine FinMap.get?_insert_of_ne ?_
  rintro rfl
  rw [hnew] at hz
  cases hz

theorem Inserted.parents_self : o'.parents.get? hash = some ph := by
  rw [h.result]
  exact FinMap.get?_insert_self

end

theorem Sound.inserted (hs : o.Sound) (h : Inserted o hash number ph cs asm ls i level co o')
    (hnew : o.parents.get? hash = none) (hpar : o.ParentBelow ph i) : o'.Sound := by
  have hagr : ∀ y ∈ blocksOf o.levels, o'.parents.get? y.hash = o.parents.get? y.hash :=
    fun y hy => h.parents_eq (hs.accounts.parent_isSome hy) hnew
  refine ⟨h.accounts hs.accounts hnew, chained_iff.mpr fun j y hy => ?_,
    fun f la n hfst hla y hy => ?_⟩
  · obtain ⟨rfl, rfl⟩ | hy := h.mem_blocksAt.mp hy
    · obtain ⟨z, hz, heq⟩ := hpar
      exact ⟨z, h.mem_blocksAt.mpr (.inr hz), heq ▸ h.parents_self⟩
    · obtain ⟨z, hz, hbel⟩ := chained_iff.mp hs.chained j y hy
      exact ⟨z, h.mem_blocksAt.mpr (.inr hz), (hagr y (blocksAt_subset hy)).trans hbel⟩
  · obtain ⟨hi, rfl⟩ | hy := h.mem_blocksAt.mp (mem_blocksAt.mpr ⟨f, hfst, hy⟩)
    · rw [h.number_eq.2 hi la n hla]
      exact h.parents_self
    obtain ⟨l, hl, hmem⟩ := mem_blocksAt.mp hy
    rw [hagr y (blocksAt_subset hy)]
    refine hs.rooted l la n hl (h.last_eq ?_ ▸ hla) y hmem
    rintro hnil
    rw [hnil] at hl
    cases hl

/-! ## Canonicalization -/

/-- One block of the first level. -/
theorem Processes.sheds {d d' : ChangeSet K V} {js js' : List (Nat × Nat)}
    (h : Processes hash (o, d, js) x (o', d', js'))
    (hbks : o.toBooks.Accounts (blocksOf o.levels ++ x :: r)) :
    StateDb.Sheds o.toBooks (blocksOf o.levels ++ x :: r) o'.toBooks (blocksOf o'.levels ++ r) := by
  cases h with
  | canonical hx hins =>
    have hfr := of_perm hbks perm_middle
    exact hfr.trans (.settle hfr.accounts _)
  | discarded hx hkeys hdi =>
    have hg := hdi.sheds _ hbks
    have hfr := of_perm hg.accounts perm_middle
    exact (hg.trans hfr).trans (.settle hfr.accounts _)

/-- The overlay in the middle of `canonicalize`, with the blocks of the first level that are left. A
block of what is now the first level is a child of the block that is canonicalized, or of one that
is left. -/
structure Canonicalizing (o0 : Overlay H K V) (hash : H)
    (s : Canonicalization H K V) (rest : List (BlockOverlay H K)) :
    Prop where
  sheds : StateDb.Sheds o0.toBooks (blocksOf o0.levels) s.1.toBooks (blocksOf s.1.levels ++ rest)
  chained : Chained s.1.parents.get? s.1.levels
  rooted : ∀ level, s.1.levels[0]? = some level → ∀ y ∈ level.blocks,
    s.1.parents.get? y.hash = some hash ∨ ∃ z ∈ rest, s.1.parents.get? y.hash = some z.hash

theorem Canonicalizing.step {o0 : Overlay H K V} {s s' : Canonicalization H K V}
    (h : Canonicalizing o0 hash s (x :: r)) (hx : Processes hash s x s') :
    Canonicalizing o0 hash s' r := by
  obtain ⟨o, data, js⟩ := s
  obtain ⟨o', data', js'⟩ := s'
  have hs := hx.sheds h.sheds.accounts
  have hk : ∀ y ∈ blocksOf o'.levels, o'.parents.get? y.hash = o.parents.get? y.hash :=
    fun y hy => hs.parents y (mem_append_left _ hy)
  refine ⟨h.sheds.trans hs, ?_, fun level hlev y hy => ?_⟩
  · cases hx with
    | canonical => exact h.chained.congr hk
    | discarded hne hke hdi =>
      have hg := hdi.sheds _ h.sheds.accounts
      refine (hdi.chained _ h.sheds.accounts h.chained).1.congr fun y hy => ?_
      rw [hk y hy]
      exact (hg.parents y (mem_append_left _ hy)).symm
  rw [hk y (mem_blocksOf.mpr ⟨0, level, hlev, hy⟩)]
  cases hx with
  | canonical heq =>
    rcases h.rooted level hlev y hy with hr | ⟨z, hz, hr⟩
    · exact .inl hr
    · cases mem_cons.mp hz with
      | inl hz => exact .inl (by rw [hr, hz, heq])
      | inr hz => exact .inr ⟨z, hz, hr⟩
  | discarded hne hke hdi =>
    obtain ⟨level0, hlev0, hsub⟩ := (hdi.chained _ h.sheds.accounts h.chained).2 level hlev
    obtain ⟨hy0, hnot⟩ := hsub y hy
    rcases h.rooted level0 hlev0 y hy0 with hr | ⟨z, hz, hr⟩
    · exact .inl hr
    · cases mem_cons.mp hz with
      | inl hz => exact absurd (hz ▸ hr) hnot
      | inr hz => exact .inr ⟨z, hz, hr⟩

theorem Sound.first_unique (h : o.Sound) (hlev : o.levels[0]? = some level) :
    (level.blocks.map BlockOverlay.hash).Nodup := by
  cases hl : o.levels with
  | nil => simp [hl] at hlev
  | cons first a =>
    rw [hl] at hlev
    cases hlev
    have hu := h.accounts.unique
    rw [hl, blocksOf_cons, map_append] at hu
    exact hu.of_append_left

/-- The loop starts with the blocks of the first level. -/
theorem Sound.canonicalizing (h : o.Sound) (hl : o.levels = level :: a) (hash : H)
    (d : ChangeSet K V) :
    Canonicalizing o hash (o.forced hash a, d, []) level.blocks := by
  have hch := h.chained
  rw [hl] at hch
  obtain ⟨hfst, habv⟩ := chained_cons.mp hch
  refine ⟨.of_perm h.accounts ?_, habv, fun next hn y hy => .inr (hfst next hn y hy)⟩
  rw [hl]
  exact perm_append_comm

/-- A canonicalization with a block of the first level, or with no blocks in it. -/
theorem Sound.canonicalize (h : o.Sound) {c' : CommitSet H K V}
    {r : Except StateDbError Nat} (hsel : o.Selects hash)
    (hc : o.canonicalize hash co = some (r, o', c')) : o'.Sound ∧ o.Sheds o' := by
  rcases canonicalize_cases (fun _ => h.first_unique) hc with
    ⟨-, -, rfl, -⟩ | ⟨level, a, hl, ⟨hnot, -, rfl, -⟩ | ⟨-, o1, data, js, -, rfl, -, hlo⟩⟩
  · exact ⟨h, .refl h.accounts⟩
  · -- the level that is lost has no blocks, so there are none above it
    have hnil : level.blocks = [] := by
      refine (hsel level ?_).resolve_right hnot
      rw [hl]
      rfl
    have hch := h.chained
    rw [hl] at hch
    obtain ⟨hfst, habv⟩ := chained_cons.mp hch
    have hs : o.Sheds { o with levels := a } := by
      refine of_perm h.accounts ?_
      rw [hl, blocksOf_cons, hnil]
      exact .refl _
    refine ⟨⟨hs.accounts, habv, fun next l n hn _ y hy => ?_⟩, hs⟩
    obtain ⟨x, hx, -⟩ := hfst next hn y hy
    rw [hnil] at hx
    cases hx
  · have hend := hlo (Canonicalizing o hash) (fun _ _ _ _ => Canonicalizing.step)
      (h.canonicalizing hl hash co.data)
    have hs := hend.sheds
    rw [append_nil] at hs
    refine ⟨⟨hs.accounts, hend.chained, fun next l n hn hla y hy => ?_⟩, hs⟩
    cases hla
    rcases hend.rooted next hn y hy with hr | ⟨z, hz, -⟩
    · exact hr
    · cases hz

/-! ## The other calls -/

theorem Sound.revertOne (h : o.Sound) : o.revertOne.2.Sound ∧ o.Sheds o.revertOne.2 := by
  generalize hc : o.revertOne = r
  obtain ⟨r, o'⟩ := r
  rcases revertOne_cases hc with ⟨-, rfl⟩ | ⟨ls, level, hl, -, rfl⟩
  · exact ⟨h, .refl h.accounts⟩
  have hp : (blocksOf o.levels).Perm (level.blocks ++ blocksOf ls) := by
    rw [hl, blocksOf_append, blocksOf_cons, blocksOf_nil, append_nil]
    exact perm_append_comm
  have hs := (of_perm h.accounts hp).trans (.discardAll (h.accounts.perm hp))
  exact ⟨h.of_prefix ⟨[level], hl.symm⟩ hs rfl, hs⟩

theorem Sound.remove (h : o.Sound) {r : Option (CommitSet H K V)}
    (hca : o.remove hash = some (r, o')) : o'.Sound ∧ o.Sheds o' := by
  rcases remove_cases hca with
    ⟨-, rfl | rfl⟩ | ⟨i, level, level', x, j, hlev, hrem, hh, hc, -, rfl⟩
  · exact ⟨h, .refl h.accounts⟩
  · have hs : o.Sheds { o with levels := trim o.levels } := by
      unfold Sheds
      rw [blocksOf_trim]
      exact .refl h.accounts
    exact ⟨h.of_prefix (trim_isPrefix _) hs rfl, hs⟩
  obtain ⟨-, -, hp⟩ := remove_eq hrem
  have hb := blocksOf_cons_set hlev hp
  have hs := (of_perm h.accounts hb).trans (.discard (h.accounts.perm hb))
  have hch : Chained (o.toBooks.discard x).parents.get? (o.levels.set i level') := by
    refine h.chained.cons_set hlev hp hs.parents fun y hy => ?_
    rcases hc with hla | hn
    · rw [blocksAt, hla] at hy
      cases hy
    · exact fun hpar => hn (FinMap.mem_values.mpr ⟨y.hash, hh ▸ hpar⟩)
  -- first without the block, then without an empty level
  have hw : Sound { o with
      toBooks := o.toBooks.discard x
      levels := o.levels.set i level' } := by
    refine ⟨hs.accounts, hch, fun first last n hfst hso y hy => ?_⟩
    have hy : y ∈ blocksAt (o.levels.set i level') 0 := mem_blocksAt.mpr ⟨first, hfst, hy⟩
    obtain ⟨l, hl, hmem⟩ := mem_blocksAt.mp (blocksAt_cons_set hlev hp hy)
    rw [hs.parents y (blocksAt_subset hy)]
    exact h.rooted l last n hl hso y hmem
  have ht : StateDb.Sheds (o.toBooks.discard x) (blocksOf (o.levels.set i level'))
      (o.toBooks.discard x) (blocksOf (trim (o.levels.set i level'))) := by
    rw [blocksOf_trim]
    exact .refl hs.accounts
  exact ⟨hw.of_prefix (trim_isPrefix _) ht rfl, hs.trans ht⟩

theorem unpin_fields (hash : H) : (o.unpin hash).levels = o.levels ∧
    (o.unpin hash).lastCanonicalized = o.lastCanonicalized := by
  unfold unpin
  split
  · exact ⟨rfl, rfl⟩
  · split <;> exact ⟨rfl, rfl⟩

theorem Sound.unpin (h : o.Sound) (hash : H) : (o.unpin hash).Sound ∧ o.Sheds (o.unpin hash) := by
  have hs : o.Sheds (o.unpin hash) := by
    unfold Overlay.unpin
    split
    · exact .refl h.accounts
    · split
      · exact .unpinFrom h.accounts hash
      · exact .refl h.accounts
  obtain ⟨hl, hla⟩ := unpin_fields (o := o) hash
  exact ⟨h.of_books hl hs hla, hs⟩

theorem Sound.foldl_unpin (h : o.Sound) (xs : List H) :
    (xs.foldl Overlay.unpin o).Sound ∧ o.Sheds (xs.foldl Overlay.unpin o) := by
  induction xs generalizing o with
  | nil => exact ⟨h, .refl h.accounts⟩
  | cons hash xs ih =>
    obtain ⟨h1, hs⟩ := h.unpin hash
    obtain ⟨h2, hshed'⟩ := ih h1
    exact ⟨h2, hs.trans hshed'⟩

theorem Sound.sync (h : o.Sound) : o.sync.Sound ∧ o.Sheds o.sync := by
  have hst : Sound { o with pinnedCanonicalized := [] } := ⟨h.accounts, h.chained, h.rooted⟩
  obtain ⟨hend, hs⟩ := hst.foldl_unpin o.pinnedCanonicalized
  exact ⟨⟨hend.accounts, hend.chained, hend.rooted⟩, hs⟩

/-! ## All calls -/

/-- No block inserts a key twice. -/
def Distinct (o : Overlay H K V) : Prop :=
  (∀ x ∈ blocksOf o.levels, x.inserted.Nodup) ∧
    ∀ h e, o.pinnedInsertions.get? h = some e → e.1.Nodup

theorem Distinct.of_sheds (h : o.Distinct) (hs : o.Sheds o') : o'.Distinct := by
  refine ⟨fun x hx => h.1 x (hs.subset hx), fun k e he => ?_⟩
  rcases hs.aside k e he with ⟨e0, he0, heq⟩ | ⟨x, hx, -, heq⟩
  · exact heq ▸ h.2 k e0 he0
  · exact heq ▸ h.1 x hx

theorem Distinct.inserted (h : o.Distinct)
    (hins : Inserted o hash number ph cs asm ls i level co o')
    (hnd : (cs.inserted.map Prod.fst).Nodup) : o'.Distinct := by
  refine ⟨fun x hx => ?_, ?_⟩
  · cases mem_cons.mp (hins.blocksOf_perm.mem_iff.mp hx) with
    | inl heq => exact heq ▸ hnd
    | inr hx => exact h.1 x hx
  · rw [hins.result]
    exact h.2

theorem accepts_of_inserted (h : o.insert hash number ph cs = some (.ok co, o')) :
    o.Accepts hash number ph cs := by
  unfold Accepts
  rw [h]
  rfl

theorem Sound.call (h : o.Sound) (hdi : o.Distinct) {c : Call H K V} (hc : o.Orderly c)
    (hca : o.call c = some o') : o'.Sound ∧ o'.Distinct := by
  cases c with
  | insert hash number ph cs =>
    obtain ⟨⟨r, o1⟩, hi, rfl⟩ := map_eq_some_iff.mp hca
    rcases insert_cases hi with ⟨-, rfl⟩ | ⟨co, asm, ls, i, level, rfl, hins⟩
    · exact ⟨h, hdi⟩
    · obtain ⟨hnew, hpar⟩ := hc.1 (accepts_of_inserted hi)
      have hnd := (hc.2 (accepts_of_inserted hi)).1
      exact ⟨h.inserted hins hnew (hins.index_eq ▸ hpar), hdi.inserted hins hnd⟩
  | canonicalize hash =>
    obtain ⟨⟨r, o1, co⟩, hcan, rfl⟩ := map_eq_some_iff.mp hca
    exact (h.canonicalize hc hcan).imp_right hdi.of_sheds
  | revertOne =>
    cases hca
    exact h.revertOne.imp_right hdi.of_sheds
  | remove hash =>
    obtain ⟨⟨r, o1⟩, hrem, rfl⟩ := map_eq_some_iff.mp hca
    exact (h.remove hrem).imp_right hdi.of_sheds
  | pin hash =>
    cases hca
    exact ⟨⟨h.accounts, h.chained, h.rooted⟩, hdi⟩
  | unpin hash =>
    cases hca
    exact (h.unpin hash).imp_right hdi.of_sheds
  | sync =>
    cases hca
    exact h.sync.imp_right hdi.of_sheds

omit [DecidableEq H] in
/-- Without repeated keys the occurrences are the blocks. -/
theorem sum_count_eq_countP (lis : List (List K)) (h : ∀ l ∈ lis, l.Nodup) (k : K) :
    (lis.map (count k)).sum = lis.countP (k ∈ ·) := by
  induction lis with
  | nil => rfl
  | cons l lis ih =>
    have hr := ih fun l hl => h l (mem_cons_of_mem _ hl)
    rw [map_cons, sum_cons, hr, countP_cons, Nat.add_comm, (h l mem_cons_self).count]
    simp

theorem Sound.structured (h : o.Sound) (hdi : o.Distinct) : o.Structured := by
  refine ⟨h.chained, h.rooted, fun k => ?_⟩
  have hb : occurrences (blocksOf o.levels) k =
      (blocksOf o.levels).countP (fun x => k ∈ x.inserted) := by
    have hsum := sum_count_eq_countP ((blocksOf o.levels).map BlockOverlay.inserted)
      (by simpa using hdi.1) k
    rw [List.map_map, countP_map] at hsum
    exact hsum
  have hk : o.kept k = o.pinnedInsertions.values.countP (fun e => k ∈ e.1) := by
    have hsum := sum_count_eq_countP (o.pinnedInsertions.values.map Prod.fst) (by
      intro l hl
      obtain ⟨e, he, rfl⟩ := mem_map.mp hl
      obtain ⟨h', hh'⟩ := FinMap.mem_values.mp he
      exact hdi.2 h' e hh') k
    rw [List.map_map, countP_map] at hsum
    rw [← FinMap.total_values] at hsum
    exact hsum
  rw [h.accounts.counted k, hb, hk]

/-- The structure is there in every state of a run of orderly calls. -/
theorem structured_of_orderly {calls : List (Call H K V)}
    (horderly : Run.Each step (fun o c => ∀ s, o = some s → s.Orderly c) (some .empty) calls) :
    Run.Always step (fun o => ∀ s, o = some s → s.Structured) (some .empty) calls := by
  have hinv := Run.Each.always_some (I := fun o => Sound o ∧ Distinct o)
    (fun s _ _ h hG hc => h.1.call h.2 (hG s rfl) hc)
    ⟨sound_empty, by simp [Distinct, empty]⟩ horderly
  exact fun pre hpre s hs => (hinv pre hpre s hs).1.structured (hinv pre hpre s hs).2

/-- Two blocks on the last canonicalized one, and a pinned one above the second. The first becomes
canonical, so the others are kept aside. -/
def forkRun : List (Call Nat Nat Nat) :=
  [.insert 1 1 0 ⟨[(7, 70)], []⟩, .insert 2 1 0 ⟨[(7, 70), (8, 80)], []⟩,
    .insert 3 2 2 ⟨[(9, 90)], []⟩, .pin 3, .canonicalize 1, .sync]

theorem structured_forkRun : ∃ s, exec step (some empty) forkRun = some s ∧ s.Structured ∧
    s.pinnedInsertions.size = 2 ∧ s.lastCanonicalized = some (1, 1) := by
  obtain ⟨s, hs, hend⟩ : ∃ s, exec step (some empty) forkRun = some s ∧
      s.pinnedInsertions.size = 2 ∧ s.lastCanonicalized = some (1, 1) := by
    decide +kernel
  exact ⟨s, hs, (structured_of_orderly (by decide +kernel)).last s hs, hend⟩

/-- A block is inserted, and then a block is to become canonical that is not there. -/
def unknownRun : List (Call Nat Nat Nat) := [.insert 1 1 0 ⟨[(7, 70)], []⟩, .canonicalize 2]

/-- The call returns an error, but the first level is gone: its values are still counted, and its
block is still a known parent. -/
theorem not_structured_unknownRun : ∃ s, exec step (some empty) unknownRun = some s ∧
    s.levels = [] ∧ s.haveBlock 1 = true ∧ ¬ s.Structured := by
  obtain ⟨s, hs, hl, hblk, hc, hv⟩ : ∃ s, exec step (some empty) unknownRun = some s ∧
      s.levels.length = 0 ∧ s.haveBlock 1 = true ∧ counterOf s.values 7 = 1 ∧
        s.pinnedInsertions.values.length = 0 := by
    decide +kernel
  refine ⟨s, hs, eq_nil_of_length_eq_zero hl, hblk, fun h => ?_⟩
  have hcnt := h.counted 7
  rw [hc, eq_nil_of_length_eq_zero hl, eq_nil_of_length_eq_zero hv]
    at hcnt
  cases hcnt

end Overlay

end StateDb
