-- SUMMARY: The journal of the non-canonical overlay: every call keeps the records of its blocks.
import SubstrateIpfs.StateDb.Structure

/-!
# The journal

The database has the last canonicalized block and the journal records of the blocks of the overlay.
At the start the overlay is rebuilt from them: level after level, and in a level index after index,
until a level has no record.

The index of a block is the first one that is not used in its level.
-/

namespace StateDb

open List Function OverlayLevel

variable {H K V : Type}

/-! ## The database -/

/-- The metadata of the database. -/
structure MetaDb (H K V : Type) where
  lastCanonical : Option (H × Nat)
  journal : Nat × Nat → Option (JournalRecord H K V)

namespace MetaDb

def empty : MetaDb H K V := ⟨none, fun _ => none⟩

def put (db : MetaDb H K V) : MetaEntry H K V → MetaDb H K V
  | .lastCanonical hash number => { db with lastCanonical := some (hash, number) }
  | .journal key record => { db with journal := update db.journal key (some record) }

def delete (db : MetaDb H K V) (key : Nat × Nat) : MetaDb H K V :=
  { db with journal := update db.journal key none }

/-- Applies the changes of the metadata. -/
def commit (db : MetaDb H K V) (commit : CommitSet H K V) : MetaDb H K V :=
  commit.metaDeleted.foldl delete (commit.metaInserted.foldl put db)

theorem foldl_delete (db : MetaDb H K V) (ks : List (Nat × Nat)) :
    (ks.foldl delete db).lastCanonical = db.lastCanonical ∧
      ∀ key, (ks.foldl delete db).journal key = if key ∈ ks then none else db.journal key := by
  induction ks generalizing db with
  | nil => exact ⟨rfl, fun key => rfl⟩
  | cons k' ks ih =>
    obtain ⟨hl, hj⟩ := ih (db.delete k')
    refine ⟨hl, fun key => (hj key).trans ?_⟩
    by_cases hmem : key ∈ ks
    · rw [if_pos hmem, if_pos (mem_cons_of_mem _ hmem)]
    rw [if_neg hmem]
    show update db.journal k' none key = _
    by_cases heq : key = k'
    · rw [heq, update_self, if_pos mem_cons_self]
    · rw [update_of_ne heq, if_neg]
      exact fun hc => (mem_cons.mp hc).elim heq hmem

end MetaDb

/-! ## Rebuilding -/

section
variable [DecidableEq H] [DecidableEq K]

/-- The level, the parents and the values that are read so far. -/
abbrev ReadState (H K V : Type) := OverlayLevel H K × FinMap H H × FinMap K (Nat × V)

/-- Reads one index of a level. -/
def readIndex (db : MetaDb H K V) (block : Nat) (s : ReadState H K V) (index : Nat) :
    ReadState H K V :=
  match db.journal (block, index) with
  | none => s
  | some record =>
    (s.1.push ⟨record.hash, index, (block, index), record.inserted.map Prod.fst, record.deleted⟩,
      s.2.1.insert record.hash record.parentHash, insertValues s.2.2 record.inserted)

/-- Reads the levels from a block number on, up to the first that is empty. -/
def readJournal (db : MetaDb H K V) : Nat → Nat → List (OverlayLevel H K) → FinMap H H →
    FinMap K (Nat × V) → Option (List (OverlayLevel H K) × FinMap H H × FinMap K (Nat × V))
  | 0, _, _, _, _ => none
  | fuel + 1, block, levels, parents, values =>
    let (level, parents, values) :=
      (List.range maxBlocksPerLevel).foldl (readIndex db block) (.new, parents, values)
    if level.blocks.isEmpty then some (levels, parents, values)
    else readJournal db fuel (block + 1) (levels ++ [level]) parents values

/-- Creates a new instance from the database. `fuel` is more than the number of levels that are
read. -/
def Overlay.new (fuel : Nat) (db : MetaDb H K V) : Option (Overlay H K V) :=
  match db.lastCanonical with
  | none => some .empty
  | some (hash, block) => do
    let (levels, parents, values) ← readJournal db fuel (block + 1) [] .empty .empty
    some { (Overlay.empty : Overlay H K V) with
      lastCanonicalized := some (hash, block)
      levels := levels
      parents := parents
      values := values }

end

/-! ## The indices of a level -/

/-- The blocks of a level are journaled under their number and different indices, and the bitmask
has these indices. -/
structure Indexed (number : Nat) (level : OverlayLevel H K) : Prop where
  key : ∀ x ∈ level.blocks, x.journalKey = (number, x.journalIndex)
  small : ∀ x ∈ level.blocks, x.journalIndex < maxBlocksPerLevel
  distinct : (level.blocks.map BlockOverlay.journalIndex).Nodup
  mask : ∀ j, j < 64 →
    (level.usedIndicies.getLsbD j = true ↔ j ∈ level.blocks.map BlockOverlay.journalIndex)

namespace Indexed

variable {n i : Nat} {l l' : OverlayLevel H K} {x : BlockOverlay H K}

theorem new : Indexed n (.new : OverlayLevel H K) where
  key := fun _ hx => absurd hx not_mem_nil
  small := fun _ hx => absurd hx not_mem_nil
  distinct := nodup_nil
  mask := fun j _ => by simp [OverlayLevel.new]

theorem getLsbD_bit {i j : Nat} (hj : j < 64) : (1#64 <<< i).getLsbD j = decide (j = i) := by
  rw [BitVec.getLsbD_shiftLeft]
  by_cases heq : j = i
  · subst heq
    simp [hj]
  simp only [heq, decide_false, Bool.and_eq_false_iff]
  by_cases hlt : j < i
  · simp [hlt]
  · right
    simp
    omega

section
variable (h : Indexed n l)

include h

theorem push (hkey : x.journalKey = (n, x.journalIndex)) (hsm : x.journalIndex < maxBlocksPerLevel)
    (hnew : x.journalIndex ∉ l.blocks.map BlockOverlay.journalIndex) :
    Indexed n (l.push x) where
  key := fun y hy => (Overlay.mem_push.mp hy).elim (fun heq => heq ▸ hkey) (h.key y)
  small := fun y hy => (Overlay.mem_push.mp hy).elim (fun heq => heq ▸ hsm) (h.small y)
  distinct := by
    show ((l.blocks ++ [x]).map _).Nodup
    rw [map_append]
    exact nodup_append.mpr ⟨h.distinct, nodup_singleton _, fun a ha b hb heq =>
      hnew (mem_singleton.mp hb ▸ heq ▸ ha)⟩
  mask := fun j hj => by
    show (l.usedIndicies ||| 1#64 <<< x.journalIndex).getLsbD j = true ↔ j ∈ (l.blocks ++ [x]).map _
    rw [BitVec.getLsbD_or, getLsbD_bit hj, Bool.or_eq_true, h.mask j hj, map_append,
      mem_append, map_singleton, mem_singleton, decide_eq_true_iff]

theorem remove (hrem : l.remove i = some (x, l')) : Indexed n l' := by
  obtain ⟨-, -, hp⟩ := remove_eq hrem
  have hsub : ∀ y ∈ l'.blocks, y ∈ l.blocks := fun y hy => hp.mem_iff.mpr (mem_cons_of_mem _ hy)
  have hdi := (hp.map BlockOverlay.journalIndex).nodup_iff.mp h.distinct
  rw [map_cons, nodup_cons] at hdi
  refine ⟨fun y hy => h.key y (hsub y hy), fun y hy => h.small y (hsub y hy), hdi.2, fun j hj => ?_⟩
  have hm : l'.usedIndicies = l.usedIndicies &&& ~~~(1#64 <<< x.journalIndex) := by
    obtain ⟨y, -, heq⟩ := Option.map_eq_some_iff.mp hrem
    cases heq
    rfl
  rw [hm, BitVec.getLsbD_and, BitVec.getLsbD_not, getLsbD_bit hj, Bool.and_eq_true, h.mask j hj,
    (hp.map BlockOverlay.journalIndex).mem_iff, map_cons, mem_cons]
  simp only [hj, decide_true, Bool.true_and, Bool.not_eq_true', decide_eq_false_iff_not]
  constructor
  · rintro ⟨heq | hmem, hne⟩
    · exact absurd heq hne
    · exact hmem
  · intro hmem
    exact ⟨.inr hmem, fun heq => hdi.1 (heq ▸ hmem)⟩

/-- The index for the next block is free. -/
theorem available (hfew : l.blocks.length < maxBlocksPerLevel) :
    l.availableIndex < maxBlocksPerLevel ∧
      l.availableIndex ∉ l.blocks.map BlockOverlay.journalIndex := by
  -- there are fewer blocks than indices
  obtain ⟨free, hfr, hunu⟩ : ∃ j < maxBlocksPerLevel,
      j ∉ l.blocks.map BlockOverlay.journalIndex := by
    by_contra hall
    push Not at hall
    have hsub : (range maxBlocksPerLevel).Subperm (l.blocks.map BlockOverlay.journalIndex) :=
      subperm_of_subset nodup_range fun j hj => hall j (mem_range.mp hj)
    have hlen := hsub.length_le
    rw [length_range, length_map] at hlen
    omega
  have hbd : free < 64 := lt_trans hfr (by decide)
  unfold availableIndex trailingOnes
  cases hf : (range 64).find? fun i => !l.usedIndicies.getLsbD i with
  | none =>
    rw [find?_eq_none] at hf
    have hu := hf free (mem_range.mpr hbd)
    rw [Bool.not_eq_true', Bool.not_eq_false, h.mask free hbd] at hu
    exact absurd hu hunu
  | some j =>
    rw [find?_range_eq_some] at hf
    obtain ⟨hj, hmem, hl⟩ := hf
    have hj64 := mem_range.mp hmem
    rw [Bool.not_eq_true', ← Bool.not_eq_true, h.mask j hj64] at hj
    refine ⟨lt_of_le_of_lt (Nat.le_of_not_lt fun hlt => ?_) hfr, hj⟩
    have hu := hl free hlt
    rw [Bool.not_not, h.mask free hbd] at hu
    exact hunu hu

end

end Indexed

/-! ## The journal along the calls

When every commit set is applied, the journal has exactly one record for each block of the overlay:
an insertion writes one under a free index, and what is taken out of the levels is deleted from the
journal.
-/

open Option

variable [DecidableEq H] [DecidableEq K] {ps : H → Option H}
  {above : List (OverlayLevel H K)} {x : BlockOverlay H K} {o0 : Overlay H K V}

/-! ## The overlay with its database -/

/-- The overlay and its database. -/
structure Backed (H K V : Type) where
  overlay : Overlay H K V
  db : MetaDb H K V

namespace Backed

def empty : Backed H K V := ⟨.empty, .empty⟩

variable (s : Backed H K V)

/-- A call, with the commit set it returns applied to the database. `sync` is called after each
canonicalization. -/
def call : Call H K V → Option (Backed H K V)
  | .insert hash number parentHash changeset => do
    let (r, o) ← s.overlay.insert hash number parentHash changeset
    match r with
    | .ok commit => some ⟨o, s.db.commit commit⟩
    | .error _ => some ⟨o, s.db⟩
  | .canonicalize hash => do
    let (_, o, commit) ← s.overlay.canonicalize hash .empty
    some ⟨o.sync, s.db.commit commit⟩
  | .revertOne =>
    let (commit, o) := s.overlay.revertOne
    some ⟨o, (commit.map s.db.commit).getD s.db⟩
  | .remove hash => do
    let (commit, o) ← s.overlay.remove hash
    some ⟨o, (commit.map s.db.commit).getD s.db⟩
  | .pin hash => some { s with overlay := s.overlay.pin hash }
  | .unpin hash => some { s with overlay := s.overlay.unpin hash }
  | .sync => some { s with overlay := s.overlay.sync }

def step (s : Option (Backed H K V)) (c : Call H K V) : Option (Backed H K V) := s.bind (call · c)

/-- A key has one value, in the changeset and in the overlay. -/
def Agrees (changeset : ChangeSet K V) : Prop :=
  ∀ kv ∈ changeset.inserted,
    (∀ v ∈ s.overlay.get kv.1, v = kv.2) ∧ ∀ kv' ∈ changeset.inserted, kv'.1 = kv.1 → kv'.2 = kv.2

/-- What has to hold for a call of a run without pins. -/
def Durable : Call H K V → Prop
  | .insert hash number parentHash changeset =>
    s.overlay.Fits hash number parentHash changeset ∧
      (s.overlay.Accepts hash number parentHash changeset →
        s.Agrees changeset ∧ s.overlay.Countable changeset)
  | .canonicalize hash => s.overlay.Selects hash
  | .revertOne => True
  | .remove _ => True
  | .sync => True
  | .pin _ => False
  | .unpin _ => False

instance [DecidableEq V] (changeset : ChangeSet K V) : Decidable (s.Agrees changeset) := by
  unfold Agrees
  infer_instance

instance [DecidableEq V] : ∀ c, Decidable (s.Durable c)
  | .insert .. | .canonicalize _ | .revertOne | .remove _ | .sync | .pin _ | .unpin _ => by
    unfold Durable; infer_instance

end Backed

/-! ## The keys that `canonicalize` deletes -/

/-- The journal keys of the descendants of `hash`. -/
def journalsOf (parents : H → Option H) : List (OverlayLevel H K) → H → List (Nat × Nat)
  | [], _ => []
  | level :: above, hash => level.blocks.flatMap fun x =>
    if parents x.hash = some hash then x.journalKey :: journalsOf parents above x.hash else []

theorem flatten_of_mapM {A B : Type} {f : A → Option (List B)} {g : A → List B}
    (hfg : ∀ x ys, f x = some ys → ys = g x) {xs : List A} {ls : List (List B)}
    (h : xs.mapM f = some ls) : ls.flatten = xs.flatMap g := by
  induction xs generalizing ls with
  | nil =>
    cases h
    rfl
  | cons x xs ih =>
    rw [mapM_cons] at h
    obtain ⟨ys, hys, h⟩ := bind_eq_some_iff.mp h
    obtain ⟨rest, hrest, h⟩ := bind_eq_some_iff.mp h
    cases h
    rw [flatten_cons, flatMap_cons, ih hrest, hfg x ys hys]

omit [DecidableEq K] in
theorem discardJournals_eq {pas : FinMap H H} {ls : List (OverlayLevel H K)} {hash : H}
    {ks : List (Nat × Nat)} (h : discardJournals pas ls hash = some ks) :
    ks = journalsOf pas.get? ls hash := by
  induction ls generalizing hash ks with
  | nil =>
    cases h
    rfl
  | cons level above ih =>
    obtain ⟨lists, hl, h⟩ := bind_eq_some_iff.mp h
    cases h
    refine flatten_of_mapM (fun x ys hys => ?_) hl
    obtain ⟨par, hpar, hys⟩ := bind_eq_some_iff.mp hys
    rw [hpar]
    split at hys
    next heq =>
      obtain ⟨below, hbel, hys⟩ := bind_eq_some_iff.mp hys
      cases hys
      rw [if_pos (by rw [heq]), ih hbel]
    next hne =>
      cases hys
      rw [if_neg (by simpa using hne)]

omit [DecidableEq K] in
theorem journalsOf_congr {ps' : H → Option H} {ls : List (OverlayLevel H K)}
    (h : ∀ y ∈ blocksOf ls, ps' y.hash = ps y.hash) (hash : H) :
    journalsOf ps' ls hash = journalsOf ps ls hash := by
  induction ls generalizing hash with
  | nil => rfl
  | cons level above ih =>
    refine flatMap_congr fun x hx => ?_
    rw [h x (mem_append_left _ hx), ih fun y hy => h y (mem_append_right _ hy)]

section
variable {p : FinMap H Nat} {ls ls' : List (OverlayLevel H K)} {b b' : Books H K V}
  {hash : H} {n : Nat}

/-- The descendants of another block stay, and what is discarded has the keys that were
collected. -/
theorem Discards.journals (h : Discards p ls b hash n ls' b')
    (bs : List (BlockOverlay H K)) (ha : b.Accounts (blocksOf ls ++ bs)) :
    (∀ hash', hash' ≠ hash → (journalsOf b.parents.get? ls hash').Perm
      (journalsOf b'.parents.get? ls' hash')) ∧
    ∃ g, (blocksOf ls).Perm (g ++ blocksOf ls') ∧
      (journalsOf b.parents.get? ls hash).Perm (g.map BlockOverlay.journalKey) := by
  induction h generalizing bs with
  | @done ls b hash hn =>
    refine ⟨fun hash' _ => .refl _, [], .refl _, ?_⟩
    cases ls with
    | nil => exact .refl _
    | cons l above =>
      have hnil : journalsOf b.parents.get? (l :: above) hash = [] := by
        rw [journalsOf, flatMap_eq_nil_iff]
        exact fun x hx => if_neg (hn l rfl x hx)
      rw [hnil]
      exact .refl _
  | @child l l' rem r' ls' b b1 b' hash i m n x hpar hrem habv
      hrest iha ihr =>
    obtain ⟨-, -, hp⟩ := remove_eq hrem
    have hout := (remove_perm hp bs rem).1
    have hin := (remove_perm hp bs r').2
    have hs := habv.sheds _ (ha.perm hout)
    have ha' := hs.accounts.perm hin
    have hshed' := Sheds.settle ha' (withSelf p x.hash m)
    obtain ⟨hoth, g', hb, hk⟩ := iha _ (ha.perm hout)
    obtain ⟨hoth', gone2, hblks', hkeys'⟩ := ihr _ hshed'.accounts
    -- what is left of the level has the descendants it had
    have hrd : ∀ hash', (l'.blocks.flatMap fun y => if b.parents.get? y.hash = some hash' then
          y.journalKey :: journalsOf b.parents.get? rem y.hash else []).Perm
        (journalsOf (b1.settle x (withSelf p x.hash m)).parents.get? (l' :: r') hash') := by
      refine fun hash' => List.Perm.flatMap_left _ fun y hy => ?_
      rw [(hshed'.parents y (by simp [hy])).trans (hs.parents y (by simp [hy])),
        journalsOf_congr fun y hy => hshed'.parents y (by simp [hy])]
      split
      · exact (hoth y.hash (ha'.hash_ne (by simp [hy]))).cons _
      · exact .refl _
    refine ⟨fun hash' hne => .trans ?_ ((hrd hash').trans (hoth' hash' hne)),
      x :: (g' ++ gone2), ?_, ?_⟩
    · have hx : (if b.parents.get? x.hash = some hash' then
          x.journalKey :: journalsOf b.parents.get? rem x.hash else []) = [] := by
        rw [hpar, if_neg (by simpa using symm hne)]
      refine (hp.flatMap_right _).trans ?_
      rw [flatMap_cons, hx, nil_append]
    · -- the child, its descendants, and what the other rounds discard
      calc (blocksOf (l :: rem)).Perm ((x :: l'.blocks) ++ blocksOf rem) :=
            hp.append_right _
        Perm _ (x :: (l'.blocks ++ (g' ++ blocksOf r'))) := (hb.append_left _).cons x
        Perm _ (x :: (g' ++ blocksOf (l' :: r'))) := by
            refine .cons x ?_
            rw [← append_assoc, blocksOf_cons, ← append_assoc]
            exact perm_append_comm.append_right _
        Perm _ (x :: (g' ++ (gone2 ++ blocksOf ls'))) := (hblks'.append_left _).cons x
        Perm _ (x :: (g' ++ gone2) ++ blocksOf ls') := by
            rw [cons_append, append_assoc]
    · rw [map_cons, map_append]
      refine (hp.flatMap_right _).trans ?_
      rw [flatMap_cons, if_pos hpar]
      exact (hk.append ((hrd hash).trans hkeys')).cons _

end

/-! ## Levels that are indexed -/

/-- The levels are indexed, the first one under `number`. -/
def IndexedFrom (number : Nat) (levels : List (OverlayLevel H K)) : Prop :=
  ∀ i level, levels[i]? = some level → Indexed (number + i) level

section
omit [DecidableEq H] [DecidableEq K]
variable {n i : Nat} {lv level' : OverlayLevel H K} {ls ls' : List (OverlayLevel H K)}

theorem indexedFrom_cons : IndexedFrom n (lv :: ls) ↔ Indexed n lv ∧ IndexedFrom (n + 1) ls := by
  constructor
  · intro h
    refine ⟨h 0 lv rfl, fun i l hl => ?_⟩
    rw [Nat.add_assoc, Nat.add_comm 1 i]
    exact h (i + 1) l (by simpa using hl)
  rintro ⟨hfst, hr⟩ i l hl
  cases i with
  | zero =>
    cases hl
    exact hfst
  | succ i =>
    rw [Nat.add_comm i 1, ← Nat.add_assoc]
    exact hr i l (by simpa using hl)

theorem IndexedFrom.of_prefix (h : IndexedFrom n ls) (hpre : ls' <+: ls) : IndexedFrom n ls' := by
  obtain ⟨tail, rfl⟩ := hpre
  intro i l hl
  exact h i l (by rw [getElem?_append_left (List.getElem?_eq_some_iff.mp hl).1, hl])

theorem IndexedFrom.set (h : IndexedFrom n ls) (hlev : Indexed (n + i) lv) :
    IndexedFrom n (ls.set i lv) := by
  intro j l hl
  rw [getElem?_set] at hl
  split at hl
  next heq =>
    split at hl
    · cases hl
      exact heq ▸ hlev
    · cases hl
  · exact h j l hl

/-- There are no blocks above a level without blocks. -/
theorem Chained.nil_above (h : Chained ps (lv :: ls)) (hnil : lv.blocks = []) :
    blocksOf ls = [] := by
  induction ls generalizing lv with
  | nil => rfl
  | cons next ls ih =>
    obtain ⟨hfst, hr⟩ := chained_cons.mp h
    have hn : next.blocks = [] := by
      refine eq_nil_iff_forall_not_mem.mpr fun y hy => ?_
      obtain ⟨x, hx, -⟩ := hfst next rfl y hy
      rw [hnil] at hx
      cases hx
    rw [blocksOf_cons, hn, ih hr hn, append_nil]

/-- Different blocks have different keys. -/
theorem IndexedFrom.eq_of_key {y : BlockOverlay H K} (h : IndexedFrom n ls)
    (hx : x ∈ blocksOf ls) (hy : y ∈ blocksOf ls) (heq : x.journalKey = y.journalKey) :
    x = y := by
  obtain ⟨i, l, hl, hx⟩ := mem_blocksOf.mp hx
  obtain ⟨i', l', hl', hy⟩ := mem_blocksOf.mp hy
  rw [(h i l hl).key x hx, (h i' l' hl').key y hy, Prod.mk.injEq] at heq
  obtain rfl : i = i' := Nat.add_left_cancel heq.1
  cases hl.symm.trans hl'
  exact inj_on_of_nodup_map (h i l hl).distinct hx hy heq.2

end

section
variable {p : FinMap H Nat} {ls ls' : List (OverlayLevel H K)} {b b' : Books H K V} {hash : H}
  {n : Nat} (h : Discards p ls b hash n ls' b')

include h

theorem Discards.indexed {num : Nat} (hixd : IndexedFrom num ls) : IndexedFrom num ls' := by
  induction h generalizing num with
  | done => exact hixd
  | child _ hrem _ _ i ihr =>
    obtain ⟨hfst, hrmd⟩ := indexedFrom_cons.mp hixd
    exact ihr (indexedFrom_cons.mpr ⟨hfst.remove hrem, i hrmd⟩)

/-- Where nothing is pinned nothing is kept aside. -/
theorem Discards.of_unpinned (hp : ∀ y ∈ blocksOf ls, p.get? y.hash = none) :
    n = 0 ∧ b'.pinnedInsertions = b.pinnedInsertions := by
  induction h with
  | done => exact ⟨rfl, rfl⟩
  | @child level level' rem rem' ls' b b1 b' hash i m n x hpar hrem habv
      hr iha ihr =>
    obtain ⟨hx, -, hpe⟩ := remove_eq hrem
    obtain ⟨rfl, hasi⟩ := iha fun y hy => hp y (mem_append_right _ hy)
    have hs : withSelf p x.hash 0 = 0 := by
      rw [withSelf, hp x (mem_append_left _ (mem_of_getElem? hx))]
      rfl
    rw [hs] at hr ihr ⊢
    obtain ⟨rfl, ha'⟩ := ihr fun y hy => hp y (remove_subset hpe habv.subset hy)
    exact ⟨rfl, ha'.trans hasi⟩

end

/-! ## The invariant -/

/-- The record of a block: its values are those of the overlay. -/
structure Overlay.Records (o : Overlay H K V) (x : BlockOverlay H K) (r : JournalRecord H K V) :
    Prop where
  hash : r.hash = x.hash
  parent : o.parents.get? x.hash = some r.parentHash
  inserted : r.inserted.map Prod.fst = x.inserted
  deleted : r.deleted = x.deleted
  values : ∀ kv ∈ r.inserted, o.get kv.1 = some kv.2

/-- Nothing is pinned. -/
structure Overlay.Idle (o : Overlay H K V) : Prop where
  unpinned : ∀ h, o.pinned.get? h = none
  nothing_aside : ∀ h, o.pinnedInsertions.get? h = none
  synced : o.pinnedCanonicalized = []

/-- The database has the records of the blocks of the overlay, and no others from the first level
on. -/
structure Backed.Journaled (s : Backed H K V) : Prop where
  sound : s.overlay.Sound
  idle : s.overlay.Idle
  last : s.db.lastCanonical = s.overlay.lastCanonicalized
  indexed : IndexedFrom s.overlay.frontBlockNumber s.overlay.levels
  recorded : ∀ x ∈ blocksOf s.overlay.levels,
    ∃ r, s.db.journal x.journalKey = some r ∧ s.overlay.Records x r
  only : ∀ key r, s.db.journal key = some r → s.overlay.frontBlockNumber ≤ key.1 →
    ∃ x ∈ blocksOf s.overlay.levels, x.journalKey = key

namespace Backed

variable {s s' : Backed H K V} {b : Books H K V}

theorem journaled_empty : Journaled (empty : Backed H K V) where
  sound := Overlay.sound_empty
  idle := ⟨fun h => by simp [empty, Overlay.empty], fun h => by simp [empty, Overlay.empty], rfl⟩
  last := rfl
  indexed := fun i level h => by simp [empty, Overlay.empty] at h
  recorded := fun x hx => absurd hx not_mem_nil
  only := fun key r h => by cases h

/-- Blocks are gone, and their records. -/
theorem Journaled.shed (h : s.Journaled) (hsnd : s'.overlay.Sound) (hi : s'.overlay.Idle)
    (hs : s.overlay.Sheds s'.overlay) (hl : s'.db.lastCanonical = s'.overlay.lastCanonicalized)
    (hixd : IndexedFrom s'.overlay.frontBlockNumber s'.overlay.levels)
    (hfr : s.overlay.frontBlockNumber ≤ s'.overlay.frontBlockNumber) (g : List (BlockOverlay H K))
    (hb : (blocksOf s.overlay.levels).Perm (g ++ blocksOf s'.overlay.levels))
    (hj : ∀ key, s'.db.journal key =
      if key ∈ g.map BlockOverlay.journalKey then none else s.db.journal key) :
    s'.Journaled := by
  refine ⟨hsnd, hi, hl, hixd, fun x hx => ?_, fun key r hkey hle => ?_⟩
  · have hx0 := hs.subset hx
    obtain ⟨r, hr, hre⟩ := h.recorded x hx0
    have hnot : x.journalKey ∉ g.map BlockOverlay.journalKey := by
      intro hmem
      obtain ⟨y, hy, heq⟩ := mem_map.mp hmem
      -- the block that is gone would be this one
      have hsa := h.indexed.eq_of_key (hb.mem_iff.mpr (mem_append_left _ hy)) hx0 heq
      subst hsa
      exact (h.sound.accounts.perm hb).hash_ne_append hy hx rfl
    refine ⟨r, (hj _).trans ((if_neg hnot).trans hr), hre.hash,
      (hs.parents x hx).trans hre.parent, hre.inserted, hre.deleted,
      fun kv hkv => ?_⟩
    -- the key is still counted, and its value is the one it was
    have hcnt : 0 < counterOf s'.overlay.values kv.1 := by
      have hmem : kv.1 ∈ x.inserted := hre.inserted ▸ mem_map_of_mem hkv
      have hpos := count_pos_iff.mpr hmem
      have hle := count_le_occurrences hx kv.1
      rw [hs.accounts.counted]
      omega
    obtain ⟨⟨cnt, value⟩, hval⟩ := isSome_iff_exists.mp (isSome_of_counterOf hcnt)
    obtain ⟨cnt', hval'⟩ := hs.values _ _ _ hval
    have hget := hre.values kv hkv
    rw [Overlay.get, hval'] at hget
    rw [Overlay.get, hval]
    exact hget
  · rw [hj] at hkey
    split at hkey
    · cases hkey
    next hnot =>
      obtain ⟨x, hx, heq⟩ := h.only key r hkey (hfr.trans hle)
      cases mem_append.mp (hb.mem_iff.mp hx) with
      | inl hg => exact absurd (heq ▸ mem_map_of_mem hg) hnot
      | inr hx => exact ⟨x, hx, heq⟩

/-! ## Reverting -/

theorem foldl_discard_aside (b : Books H K V) (xs : List (BlockOverlay H K)) :
    (xs.foldl Books.discard b).pinnedInsertions = b.pinnedInsertions := by
  induction xs generalizing b with
  | nil => rfl
  | cons x xs ih => exact ih (b.discard x)

theorem Journaled.revertOne (h : s.Journaled) (hc : s.call .revertOne = some s') :
    s'.Journaled := by
  obtain ⟨hsnd, hs⟩ := h.sound.revertOne
  generalize hr : s.overlay.revertOne = r at hsnd hs
  obtain ⟨r, o⟩ := r
  unfold call at hc
  rw [hr] at hc
  cases hc
  rcases Overlay.revertOne_cases hr with ⟨rfl, rfl⟩ | ⟨levels, l, hl, rfl, rfl⟩
  · exact h
  obtain ⟨hla, hj⟩ := s.db.foldl_delete (l.blocks.map BlockOverlay.journalKey)
  refine h.shed hsnd ⟨h.idle.unpinned, fun z => ?_, h.idle.synced⟩ hs
    (hla.trans h.last) (h.indexed.of_prefix ⟨[l], hl.symm⟩) le_rfl
    l.blocks ?_ hj
  · show (l.blocks.foldl Books.discard s.overlay.toBooks).pinnedInsertions.get? z = none
    rw [foldl_discard_aside]
    exact h.idle.nothing_aside z
  · rw [hl, blocksOf_append, blocksOf_cons, blocksOf_nil, append_nil]
    exact perm_append_comm

theorem Journaled.remove (h : s.Journaled) {hash : H} (hc : s.call (.remove hash) = some s') :
    s'.Journaled := by
  obtain ⟨⟨r, o⟩, hrem, hc⟩ := bind_eq_some_iff.mp hc
  cases hc
  obtain ⟨hsnd, hs⟩ := h.sound.remove hrem
  rcases Overlay.remove_cases hrem with
    ⟨rfl, rfl | rfl⟩ | ⟨i, level, level', x, j, hlev, hout, hhash, -, rfl, rfl⟩
  · exact h
  · refine h.shed hsnd ⟨h.idle.unpinned, h.idle.nothing_aside, h.idle.synced⟩ hs h.last
      (h.indexed.of_prefix (Overlay.trim_isPrefix _)) le_rfl [] ?_ fun key => rfl
    rw [Overlay.blocksOf_trim]
    exact .refl _
  · obtain ⟨-, -, hp⟩ := remove_eq hout
    obtain ⟨hlast, hjour⟩ := s.db.foldl_delete [x.journalKey]
    have hixd := h.indexed.set ((h.indexed i level hlev).remove hout)
    refine h.shed hsnd ⟨h.idle.unpinned, h.idle.nothing_aside, h.idle.synced⟩ hs
      (hlast.trans h.last) (hixd.of_prefix (Overlay.trim_isPrefix _)) le_rfl
      [x] ?_ hjour
    rw [Overlay.blocksOf_trim]
    exact blocksOf_cons_set hlev hp

/-! ## Insertion -/

section
variable {hash : H} {n : Nat} {ph : H} {cs : ChangeSet K V}
  {asm : Option (H × Nat)} {ls : List (OverlayLevel H K)} {i : Nat}
  {lv : OverlayLevel H K} {c : CommitSet H K V} {o o' : Overlay H K V}

open Overlay

section
variable (h : Inserted o hash n ph cs asm ls i lv c o')

include h

theorem front_le_of_inserted : o.frontBlockNumber ≤ o'.frontBlockNumber := by
  cases hl : o.lastCanonicalized with
  | none =>
    rw [frontBlockNumber_none hl]
    exact Nat.zero_le _
  | some last =>
    have hn := assumed_eq_none (.inr (by simp [hl])) h.checked
    have hs : o'.lastCanonicalized = o.lastCanonicalized := by
      rw [h.result, hn]
      rfl
    rw [frontBlockNumber, frontBlockNumber, hs]

/-- The levels with the place for the block. -/
theorem indexed_of_inserted (hixd : IndexedFrom o.frontBlockNumber o.levels) :
    IndexedFrom o'.frontBlockNumber o'.levels := by
  have hr : IndexedFrom o'.frontBlockNumber ls := by
    by_cases hnil : o.levels = []
    · cases h.room with
      | old hne => exact absurd hnil hne
      | new =>
        rw [hnil]
        exact indexedFrom_cons.mpr ⟨.new, fun j l hl => by simp at hl⟩
    have hfr : o'.frontBlockNumber = o.frontBlockNumber := by
      rw [frontBlockNumber, frontBlockNumber, h.last_eq hnil]
    rw [hfr]
    cases h.room with
    | old => exact hixd
    | new =>
      intro j l hl
      rw [getElem?_append] at hl
      split at hl
      · exact hixd j l hl
      · have hmem := mem_of_getElem? hl
        rw [mem_singleton] at hmem
        exact hmem ▸ .new
  have hlev := hr i lv h.room.levels_eq.1
  obtain ⟨hsm, hf⟩ := hlev.available h.few
  have hkey : (newBlock lv hash n cs).journalKey =
      (o'.frontBlockNumber + i, lv.availableIndex) := by
    rw [← h.number_eq.1]
    rfl
  have hle : o'.levels = ls.set i (lv.push (newBlock lv hash n cs)) := by
    rw [h.result]
  rw [hle]
  exact hr.set (hlev.push hkey hsm hf)

theorem commit_of_inserted (db : MetaDb H K V) :
    (db.commit c).lastCanonical = asm.or db.lastCanonical ∧
      (db.commit c).journal =
        update db.journal (newBlock lv hash n cs).journalKey
          (some ⟨hash, ph, cs.inserted, cs.deleted⟩) := by
  rw [h.commit_eq]
  cases asm <;> exact ⟨rfl, rfl⟩

end

/-- The values of the changeset are in the overlay. -/
theorem get_of_inserted (db : MetaDb H K V) (h : Inserted o hash n ph cs asm ls i lv c o')
    (hagr : (⟨o, db⟩ : Backed H K V).Agrees cs) {kv : K × V}
    (hkv : kv ∈ cs.inserted) : o'.get kv.1 = some kv.2 := by
  have hv : o'.values = insertValues o.values cs.inserted := by rw [h.result]
  have hcnt : 0 < counterOf o'.values kv.1 := by
    have hpos := count_pos_iff.mpr (mem_map_of_mem (f := Prod.fst) hkv)
    rw [hv, counterOf_insertValues]
    omega
  obtain ⟨⟨cnt, v⟩, hval⟩ := isSome_iff_exists.mp (isSome_of_counterOf hcnt)
  have hs : v = kv.2 := by
    rw [hv] at hval
    rcases of_get?_insertValues hval with ⟨cnt', hold⟩ | hmem
    · refine (hagr kv hkv).1 v ?_
      rw [Overlay.get, hold]
      rfl
    · exact (hagr kv hkv).2 (kv.1, v) hmem rfl
  rw [Overlay.get, hval, ← hs]
  rfl

theorem Journaled.inserted (h : s.Journaled)
    (hins : Inserted s.overlay hash n ph cs asm ls i lv c o')
    (hnew : s.overlay.parents.get? hash = none)
    (hpar : s.overlay.ParentBelow ph i) (hagr : s.Agrees cs) :
    (⟨o', s.db.commit c⟩ : Backed H K V).Journaled := by
  obtain ⟨hl, hj⟩ := commit_of_inserted hins s.db
  have hsnd := h.sound.inserted hins hnew hpar
  have hixd := indexed_of_inserted hins h.indexed
  have hmem : ∀ {x}, x ∈ blocksOf o'.levels ↔
      x = newBlock lv hash n cs ∨ x ∈ blocksOf s.overlay.levels := by
    intro x
    rw [hins.blocksOf_perm.mem_iff, mem_cons]
  refine ⟨hsnd, ?_, ?_, hixd, fun x hx => ?_, fun key r hkey hle => ?_⟩
  · rw [hins.result]
    exact ⟨h.idle.unpinned, h.idle.nothing_aside, h.idle.synced⟩
  · rw [hl, hins.result, h.last]
  · dsimp only at hx ⊢
    rw [hj]
    cases hmem.mp hx with
    | inl heq =>
      subst heq
      exact ⟨_, update_self .., rfl, hins.parents_self, rfl, rfl,
        fun kv hkv => get_of_inserted s.db hins hagr hkv⟩
    | inr hold =>
      have hkn := h.sound.accounts.parent_isSome hold
      have hne : x.journalKey ≠ (newBlock lv hash n cs).journalKey := by
        intro heq
        have hs := hixd.eq_of_key hx (hmem.mpr (.inl rfl)) heq
        rw [hs] at hkn
        rw [show (newBlock lv hash n cs).hash = hash from rfl, hnew] at hkn
        cases hkn
      obtain ⟨r, hr, hre⟩ := h.recorded x hold
      refine ⟨r, (update_of_ne hne ..).trans hr, hre.hash,
        (hins.parents_eq hkn hnew).trans hre.parent, hre.inserted, hre.deleted,
        fun kv hkv => ?_⟩
      obtain ⟨⟨cnt, value⟩, hval, heq⟩ := map_eq_some_iff.mp (hre.values kv hkv)
      obtain ⟨cnt', hval'⟩ := get?_insertValues cs.inserted hval
      rw [Overlay.get, hins.result, hval', ← heq]
      rfl
  · dsimp only at hkey hle ⊢
    rw [hj] at hkey
    by_cases heq : key = (newBlock lv hash n cs).journalKey
    · exact ⟨_, hmem.mpr (.inl rfl), heq.symm⟩
    · rw [update_of_ne heq] at hkey
      obtain ⟨x, hx, hxk⟩ := h.only key r hkey ((front_le_of_inserted hins).trans hle)
      exact ⟨x, hmem.mpr (.inr hx), hxk⟩

end

/-! ## Canonicalization -/

/-- The overlay in the middle of `canonicalize`, with the blocks of the first level that are left:
the keys collected so far are those of the blocks that are gone, and only the block that becomes
canonical is pinned. -/
structure Deleting (o0 : Overlay H K V) (hash : H)
    (s : Canonicalization H K V) (rest : List (BlockOverlay H K)) :
    Prop where
  accounts : s.1.toBooks.Accounts (blocksOf s.1.levels ++ rest)
  gone : ∃ gone, (blocksOf o0.levels).Perm (gone ++ (blocksOf s.1.levels ++ rest)) ∧
    s.2.2.Perm (gone.map BlockOverlay.journalKey)
  indexed : IndexedFrom (o0.frontBlockNumber + 1) s.1.levels
  other : ∀ y ∈ blocksOf s.1.levels, y.hash ≠ hash
  pinned : ∀ z, s.1.pinned.get? z = if z = hash then some 1 else none
  aside : ∀ z e, s.1.pinnedInsertions.get? z = some e → z = hash ∧ e.2 = 1
  pending : s.1.pinnedCanonicalized = [hash]
  last : s.1.lastCanonicalized = o0.lastCanonicalized

theorem Deleting.step {hash : H} {s s' : Canonicalization H K V}
    {rest : List (BlockOverlay H K)} (h : Deleting o0 hash s (x :: rest))
    (hx : Overlay.Processes hash s x s') : Deleting o0 hash s' rest := by
  obtain ⟨o, data, js⟩ := s
  have ha := (hx.sheds h.accounts).accounts
  obtain ⟨gone, hb, hk⟩ := h.gone
  have hs : ∀ n, withSelf o.pinned x.hash n = if x.hash = hash then n + 1 else n := by
    intro n
    rw [withSelf, show o.pinned.get? x.hash = _ from h.pinned x.hash]
    split <;> rfl
  cases hx with
  | canonical heq =>
    refine ⟨ha, ⟨gone ++ [x], ?_, ?_⟩, h.indexed, h.other, h.pinned, fun z e he => ?_,
      h.pending, h.last⟩
    · refine hb.trans ?_
      rw [append_assoc]
      exact perm_middle.append_left _
    · rw [map_append]
      exact hk.append_right _
    · rw [hs, if_pos heq, Books.settle] at he
      obtain ⟨hz, rfl⟩ | ⟨-, he⟩ := FinMap.of_get?_insert he
      · exact ⟨hz.trans heq, rfl⟩
      · exact h.aside z e he
  | @discarded _ _ _ keys _ n levels b hne hc hdi =>
    have hp : ∀ y ∈ blocksOf o.levels, o.pinned.get? y.hash = none :=
      fun y hy => (h.pinned y.hash).trans (if_neg (h.other y hy))
    obtain ⟨rfl, hasi⟩ := hdi.of_unpinned hp
    obtain ⟨-, gone', hblks', hkeys'⟩ := hdi.journals _ h.accounts
    refine ⟨ha, ⟨gone ++ (gone' ++ [x]), ?_, ?_⟩, hdi.indexed h.indexed,
      fun y hy => h.other y (hdi.subset hy), h.pinned, fun z e he => ?_, h.pending, h.last⟩
    · refine hb.trans ?_
      rw [append_assoc]
      refine .append_left _ ?_
      rw [append_assoc]
      refine (hblks'.append_right _).trans ?_
      rw [append_assoc]
      exact perm_middle.append_left _
    · rw [map_append, map_append, append_assoc]
      rw [← discardJournals_eq hc] at hkeys'
      exact hk.append (hkeys'.append_right _)
    · rw [hs, if_neg hne] at he
      refine h.aside z e ?_
      rw [← hasi]
      exact he

theorem unpinFrom_of_none {hash : H} (h : b.pinnedInsertions.get? hash = none) :
    b.unpinFrom hash = b := by
  unfold Books.unpinFrom
  split
  · rfl
  next hs => cases h.symm.trans hs

/-- The block that was pinned by `canonicalize` is the only one kept aside. -/
theorem unpinFrom_last {hash : H}
    (h : ∀ z e, b.pinnedInsertions.get? z = some e → z = hash ∧ e.2 = 1) (z : H) :
    (b.unpinFrom hash).pinnedInsertions.get? z = none := by
  unfold Books.unpinFrom
  split
  next hn =>
    refine eq_none_iff_forall_ne_some.mpr fun e he => ?_
    rw [← (h z e he).1, he] at hn
    cases hn
  rename_i ins c hs
  obtain rfl : c = 1 := (h hash _ hs).2
  have hn : ∀ y, (b.release hash ins 1).pinnedInsertions.get? y = none := by
    refine fun y => eq_none_iff_forall_ne_some.mpr fun e he => ?_
    obtain ⟨hne, he⟩ := FinMap.of_get?_erase he
    exact hne (h y e he).1
  split
  · exact hn z
  next par _ =>
    rw [unpinFrom_of_none (hn par)]
    exact hn z

/-- The loop starts with the block pinned and nothing deleted. -/
theorem Journaled.deleting (h : s.Journaled) {hash : H} {l : OverlayLevel H K}
    (hl : s.overlay.levels = l :: above) (hmem : hash ∈ l.blocks.map BlockOverlay.hash)
    (d : ChangeSet K V) :
    Deleting s.overlay hash (s.overlay.forced hash above, d, []) l.blocks := by
  have hixd := h.indexed
  have ha := h.sound.accounts
  rw [hl] at hixd ha
  obtain ⟨top, htop, rfl⟩ := mem_map.mp hmem
  refine ⟨(h.sound.canonicalizing hl top.hash d).sheds.accounts, ⟨[], ?_, .refl _⟩,
    (indexedFrom_cons.mp hixd).2, fun y hy => (ha.hash_ne_append htop hy).symm, fun z => ?_,
    fun z e he => ?_, ?_, rfl⟩
  · rw [hl]
    exact perm_append_comm
  · show (s.overlay.pinned.insert top.hash _).get? z = _
    rw [FinMap.get?_insert, h.idle.unpinned top.hash, h.idle.unpinned z]
    rfl
  · cases (h.idle.nothing_aside z).symm.trans he
  · show s.overlay.pinnedCanonicalized ++ [top.hash] = _
    rw [h.idle.synced, nil_append]

/-- The end of the loop, with the last canonicalized block noted and the commit set on disk. -/
theorem Deleting.idle {o : Overlay H K V} {hash : H} {d : ChangeSet K V}
    {js : List (Nat × Nat)} (h : Deleting o0 hash (o, d, js) []) (l : Option (H × Nat)) :
    ({ o with lastCanonicalized := l } : Overlay H K V).sync.Idle := by
  have hs : ({ o with lastCanonicalized := l }).sync =
      { o with
        lastCanonicalized := l
        toBooks := o.toBooks.unpinFrom hash
        pinned := o.pinned.erase hash
        pinnedCanonicalized := [] } := by
    have hpin : o.pinned.get? hash = some 1 := (h.pinned hash).trans (if_pos rfl)
    unfold Overlay.sync
    rw [show o.pinnedCanonicalized = [hash] from h.pending]
    simp only [foldl_cons, Overlay.unpin, hpin]
    rfl
  rw [hs]
  refine ⟨fun z => ?_, unpinFrom_last h.aside, rfl⟩
  rw [FinMap.get?_erase]
  split
  · rfl
  next hne => exact (h.pinned z).trans (if_neg hne)

theorem sync_fields (o : Overlay H K V) :
    o.sync.levels = o.levels ∧ o.sync.lastCanonicalized = o.lastCanonicalized := by
  have hf : ∀ (xs : List H) (o : Overlay H K V), (xs.foldl Overlay.unpin o).levels =
      o.levels ∧ (xs.foldl Overlay.unpin o).lastCanonicalized = o.lastCanonicalized := by
    intro xs
    induction xs with
    | nil => exact fun o => ⟨rfl, rfl⟩
    | cons hash xs ih =>
      intro o
      obtain ⟨hl, hla⟩ := ih (o.unpin hash)
      obtain ⟨hlevs', hlast'⟩ := Overlay.unpin_fields (o := o) hash
      exact ⟨hl.trans hlevs', hla.trans hlast'⟩
  exact hf o.pinnedCanonicalized { o with pinnedCanonicalized := [] }

theorem sync_of_nil {o : Overlay H K V} (h : o.pinnedCanonicalized = []) : o.sync = o := by
  unfold Overlay.sync
  rw [h, foldl_nil, ← h]

theorem Journaled.canonicalize (h : s.Journaled) {hash : H} (hsel : s.overlay.Selects hash)
    (hc : s.call (.canonicalize hash) = some s') : s'.Journaled := by
  obtain ⟨⟨r, o, commit⟩, hcan, hc⟩ := bind_eq_some_iff.mp hc
  cases hc
  obtain ⟨hsnd, hs⟩ := h.sound.canonicalize hsel hcan
  rcases Overlay.canonicalize_cases (fun _ => h.sound.first_unique) hcan with
    ⟨-, -, rfl, rfl⟩ |
      ⟨level, above, hlevs, ⟨hnot, -, rfl, rfl⟩ | ⟨hmem, o1, data, js, -, rfl, rfl, hloop⟩⟩
  · rw [sync_of_nil h.idle.synced]
    exact h
  · -- there are no blocks at all
    have hnil : level.blocks = [] := by
      refine (hsel level ?_).resolve_right hnot
      rw [hlevs]
      rfl
    have hch := h.sound.chained
    have hixd := h.indexed
    rw [hlevs] at hch hixd
    have habv := hch.nil_above hnil
    have hsy : ({ s.overlay with levels := above }).sync =
      { s.overlay with levels := above } := sync_of_nil h.idle.synced
    rw [hsy]
    refine h.shed hsnd ⟨h.idle.unpinned, h.idle.nothing_aside, h.idle.synced⟩ hs h.last
      (fun i l hl => ?_) le_rfl [] ?_ fun key => rfl
    · -- a level without blocks has no number
      obtain ⟨-, hsm, hdi, hm⟩ := (indexedFrom_cons.mp hixd).2 i l hl
      refine ⟨fun x hx => ?_, hsm, hdi, hm⟩
      have hx' : x ∈ blocksOf above := mem_blocksOf.mpr ⟨i, l, hl, hx⟩
      rw [habv] at hx'
      cases hx'
    · rw [hlevs, blocksOf_cons, hnil]
  · have hend := hloop (Deleting s.overlay hash) (fun _ _ _ _ => Deleting.step)
      (h.deleting hlevs hmem _)
    obtain ⟨hsnd', hs'⟩ := hsnd.sync
    obtain ⟨hlevs', hlast'⟩ := sync_fields
      ({ o1 with lastCanonicalized := some (hash, o1.frontBlockNumber) })
    have hfr : o1.frontBlockNumber = s.overlay.frontBlockNumber := by
      rw [Overlay.frontBlockNumber, Overlay.frontBlockNumber, show _ = _ from hend.last]
    have hfr' := Overlay.frontBlockNumber_some hlast'
    obtain ⟨g, hb, hk⟩ := hend.gone
    obtain ⟨hlast, hjour⟩ := (s.db.put (.lastCanonical hash o1.frontBlockNumber)).foldl_delete js
    refine h.shed hsnd' (hend.idle _) (hs.trans hs') (hlast.trans hlast'.symm) ?_ ?_ g
      ?_ fun key => (hjour key).trans ?_
    · rw [hfr', hlevs', hfr]
      exact hend.indexed
    · rw [hfr', hfr]
      exact Nat.le_succ _
    · rw [hlevs']
      rw [append_nil] at hb
      exact hb
    · exact if_congr hk.mem_iff rfl rfl

/-! ## All calls -/

theorem Journaled.call (h : s.Journaled) {c : Call H K V} (hc : s.Durable c)
    (hca : s.call c = some s') : s'.Journaled := by
  cases c with
  | insert hash number parentHash changeset =>
    obtain ⟨⟨r, o⟩, hi, hca⟩ := bind_eq_some_iff.mp hca
    rcases Overlay.insert_cases hi with
      ⟨⟨e, rfl⟩, rfl⟩ | ⟨commit, asm, levels, i, level, rfl, hins⟩
    · cases hca
      exact h
    · cases hca
      have hacc := Overlay.accepts_of_inserted hi
      obtain ⟨hnew, hpar⟩ := hc.1 hacc
      exact h.inserted hins hnew (hins.index_eq ▸ hpar) (hc.2 hacc).1
  | canonicalize hash => exact h.canonicalize hc hca
  | revertOne => exact h.revertOne hca
  | remove hash => exact h.remove hca
  | pin | unpin => exact hc.elim
  | sync =>
    cases hca
    rw [sync_of_nil h.idle.synced]
    exact h

end Backed

end StateDb
