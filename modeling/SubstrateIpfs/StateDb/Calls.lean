-- SUMMARY: What each call of the non-canonical overlay can do, said once.
import SubstrateIpfs.StateDb.Accounts

/-!
# The calls of the overlay

One inversion for each call. A rejected insertion leaves the overlay as it is; a
canonicalization goes through the blocks of the first level one by one, and a rejected one
has already taken the first level out.
-/

namespace StateDb

open List Option

variable {H K V : Type}

/-! ## Lists of levels -/

section
variable {ls ls' : List (OverlayLevel H K)} {l l' : OverlayLevel H K}
  {x : BlockOverlay H K} {i : Nat} {ps ps' : H → Option H}

/-- A level that has one block more than before. -/
theorem blocksOf_set_cons (hi : ls[i]? = some l) (hb : l'.blocks.Perm (x :: l.blocks)) :
    (blocksOf (ls.set i l')).Perm (x :: blocksOf ls) := by
  induction ls generalizing i with
  | nil => simp at hi
  | cons first ls ih =>
    cases i with
    | zero =>
      cases hi
      exact hb.append_right _
    | succ i =>
      have hrec := ih (by simpa using hi)
      exact (hrec.append_left _).trans perm_middle

/-- A level that has one block less than before. -/
theorem blocksOf_cons_set (hi : ls[i]? = some l) (hb : l.blocks.Perm (x :: l'.blocks)) :
    (blocksOf ls).Perm (x :: blocksOf (ls.set i l')) := by
  have hset : (ls.set i l')[i]? = some l' := getElem?_set_self (List.getElem?_eq_some_iff.mp hi).1
  have hba := blocksOf_set_cons hset hb
  obtain ⟨hlt, rfl⟩ := List.getElem?_eq_some_iff.mp hi
  rwa [set_set, set_getElem_self] at hba

theorem Chained.of_prefix (h : Chained ps ls) (hpre : ls' <+: ls) : Chained ps ls' := by
  obtain ⟨tail, rfl⟩ := hpre
  intro i b l hbel hlev
  exact h i b l (getElem?_append_left (List.getElem?_eq_some_iff.mp hbel).1 ▸ hbel)
    (getElem?_append_left (List.getElem?_eq_some_iff.mp hlev).1 ▸ hlev)

/-- The blocks of a level, which may not be there. -/
def blocksAt (levels : List (OverlayLevel H K)) (i : Nat) : List (BlockOverlay H K) :=
  (levels[i]?.map OverlayLevel.blocks).getD []

theorem mem_blocksAt : x ∈ blocksAt ls i ↔ ∃ l, ls[i]? = some l ∧ x ∈ l.blocks := by
  unfold blocksAt
  cases ls[i]? <;> simp

theorem blocksAt_subset : blocksAt ls i ⊆ blocksOf ls :=
  fun _ hx => mem_blocksOf.mpr ⟨i, mem_blocksAt.mp hx⟩

theorem chained_iff : Chained ps ls ↔
    ∀ i, ∀ y ∈ blocksAt ls (i + 1), ∃ x ∈ blocksAt ls i, ps y.hash = some x.hash := by
  constructor
  · intro h i y hy
    obtain ⟨l, hlev, hy⟩ := mem_blocksAt.mp hy
    have hlt := Nat.lt_of_succ_lt (List.getElem?_eq_some_iff.mp hlev).1
    obtain ⟨x, hx, hpar⟩ := h i _ l (getElem?_eq_getElem hlt) hlev y hy
    exact ⟨x, mem_blocksAt.mpr ⟨_, getElem?_eq_getElem hlt, hx⟩, hpar⟩
  · intro h i below l hbel hlev y hy
    obtain ⟨x, hx, hpar⟩ := h i y (mem_blocksAt.mpr ⟨l, hlev, hy⟩)
    obtain ⟨_, hbel', hx⟩ := mem_blocksAt.mp hx
    cases hbel.symm.trans hbel'
    exact ⟨x, hx, hpar⟩

theorem blocksAt_set {j : Nat} (hi : ls[i]? = some l) :
    blocksAt (ls.set i l') j = if i = j then l'.blocks else blocksAt ls j := by
  unfold blocksAt
  rw [getElem?_set]
  split
  · rw [if_pos (List.getElem?_eq_some_iff.mp hi).1]
    rfl
  · rfl

/-- A level has one block less than before. -/
theorem blocksAt_cons_set {j : Nat} (hi : ls[i]? = some l) (hb : l.blocks.Perm (x :: l'.blocks)) :
    blocksAt (ls.set i l') j ⊆ blocksAt ls j := by
  rw [blocksAt_set hi]
  split
  next heq =>
    rw [← heq, blocksAt, hi]
    exact fun y hy => hb.mem_iff.mpr (mem_cons_of_mem _ hy)
  · exact fun _ hy => hy

/-- A block without children that is taken out. -/
theorem Chained.cons_set (h : Chained ps ls) (hi : ls[i]? = some l)
    (hb : l.blocks.Perm (x :: l'.blocks))
    (hagr : ∀ y ∈ blocksOf (ls.set i l'), ps' y.hash = ps y.hash)
    (hx : ∀ y ∈ blocksAt ls (i + 1), ps y.hash ≠ some x.hash) :
    Chained ps' (ls.set i l') := by
  refine congr (chained_iff.mpr fun j y hy => ?_) hagr
  have hy := blocksAt_cons_set hi hb hy
  obtain ⟨z, hz, hpar⟩ := chained_iff.mp h j y hy
  refine ⟨z, ?_, hpar⟩
  rw [blocksAt_set hi]
  split
  next heq =>
    subst heq
    rw [blocksAt, hi] at hz
    cases mem_cons.mp (hb.mem_iff.mp hz) with
    | inl heq => exact absurd (heq ▸ hpar) (hx y hy)
    | inr hz => exact hz
  · exact hz

end

variable [DecidableEq H] [DecidableEq K] {number : Nat} {hash : H}
  {s' s : Canonicalization H K V} {parentHash : H}
  {a : Option (H × Nat)} {changeset : ChangeSet K V} {commit : CommitSet H K V} {ix : Nat}
  {bs : List (BlockOverlay H K)} {r : Option (CommitSet H K V)}

namespace Overlay

variable {o o' : Overlay H K V} {levels : List (OverlayLevel H K)} {i : Nat}
  {level : OverlayLevel H K} {x : BlockOverlay H K}

/-! ## Insertion -/

/-- A place for a block: a level that is there, or a new one at the end. -/
inductive Room (o : Overlay H K V) (number : Nat) :
    List (OverlayLevel H K) → Nat → OverlayLevel H K → Prop
  | old {level : OverlayLevel H K} (hnonempty : o.levels ≠ [])
      (hlevel : o.levels[number - o.frontBlockNumber]? = some level) :
      Room o number o.levels (number - o.frontBlockNumber) level
  | new (h : o.levels = [] ∨ number = o.frontBlockNumber + o.levels.length) :
      Room o number (o.levels ++ [.new]) o.levels.length .new

omit [DecidableEq H] [DecidableEq K] in
theorem room_of_makeRoom (h : o.makeRoom number = (levels, i)) (hlev : levels[i]? = some level) :
    Room o number levels i level := by
  unfold makeRoom at h
  split at h
  next hnew =>
    cases h
    rw [getElem?_concat_length] at hlev
    cases hlev
    exact .new (hnew.imp_left isEmpty_iff.mp)
  next hold =>
    cases h
    exact .old (fun hnil => hold (.inl (isEmpty_iff.mpr hnil))) hlev

/-- The block that an insertion adds. -/
def newBlock (level : OverlayLevel H K) (hash : H) (number : Nat) (changeset : ChangeSet K V) :
    BlockOverlay H K :=
  ⟨hash, level.availableIndex, (number, level.availableIndex), changeset.inserted.map Prod.fst,
    changeset.deleted⟩

/-- What an accepted insertion does. -/
structure Inserted (o : Overlay H K V) (hash : H) (number : Nat) (parentHash : H)
    (changeset : ChangeSet K V) (assumed : Option (H × Nat)) (levels : List (OverlayLevel H K))
    (i : Nat) (level : OverlayLevel H K) (commit : CommitSet H K V) (o' : Overlay H K V) :
    Prop where
  checked : o.checkParent number parentHash = .ok assumed
  room : Room o number levels i level
  index_eq : (o.makeRoom number).2 = i
  few : level.blocks.length < maxBlocksPerLevel
  commit_eq : commit = { (CommitSet.empty : CommitSet H K V) with
    metaInserted := (assumed.toList.map fun (h, n) => .lastCanonical h n) ++
      [.journal (number, level.availableIndex)
        ⟨hash, parentHash, changeset.inserted, changeset.deleted⟩] }
  result : o' = { o with
    lastCanonicalized := assumed.or o.lastCanonicalized
    levels := levels.set i (level.push (newBlock level hash number changeset))
    parents := o.parents.insert hash parentHash
    values := insertValues o.values changeset.inserted }

omit [DecidableEq K] in
/-- A block is only taken to be canonical while there are no levels and no other is. -/
theorem assumed_eq_none (hnot : o.levels ≠ [] ∨ o.lastCanonicalized ≠ none)
    (h : o.checkParent number parentHash = .ok a) : a = none := by
  have hfst : ¬ (o.levels.isEmpty ∧ o.lastCanonicalized = none ∧ number > 0) := by
    rintro ⟨hemp, hn, -⟩
    exact hnot.elim (absurd (isEmpty_iff.mp hemp)) (absurd hn)
  unfold checkParent at h
  rw [if_neg hfst] at h
  split at h
  · exact (Except.ok.inj h).symm
  · repeat' split at h
    all_goals first | exact (Except.ok.inj h).symm | cases h

theorem insert_cases {r : Except StateDbError (CommitSet H K V)}
    (h : o.insert hash number parentHash changeset = some (r, o')) :
    ((∃ e, r = .error e) ∧ o' = o) ∨
      ∃ commit a levels i level, r = .ok commit ∧
        Inserted o hash number parentHash changeset a levels i level commit o' := by
  unfold insert at h
  split at h
  next e _ =>
    cases h
    exact .inl ⟨⟨e, rfl⟩, rfl⟩
  rename_i a hchk
  generalize hma : o.makeRoom number = ro at h
  obtain ⟨levels, i⟩ := ro
  dsimp only at h
  split at h
  · cases h
  rename_i level hlev
  have hr := room_of_makeRoom hma hlev
  -- a level that can reject a block was there before, so nothing has changed
  have hs : level.blocks ≠ [] →
      ({ o with
        levels := levels
        lastCanonicalized := a.or o.lastCanonicalized } : Overlay H K V) = o := by
    intro hne
    cases hr with
    | old hn =>
      rw [assumed_eq_none (.inl hn) hchk]
      rfl
    | new => exact absurd rfl hne
  split at h
  next hm =>
    cases h
    refine .inl ⟨⟨_, rfl⟩, hs ?_⟩
    rintro hnil
    rw [hnil, length_nil] at hm
    exact absurd hm (by decide)
  next hfew =>
    split at h
    next hexi =>
      cases h
      refine .inl ⟨⟨_, rfl⟩, hs ?_⟩
      rintro hnil
      rw [hnil] at hexi
      cases hexi
    · cases h
      exact .inr ⟨_, a, levels, i, level, rfl, hchk, hr, by rw [hma],
        Nat.lt_of_not_le hfew, rfl, rfl⟩

section
omit [DecidableEq H] [DecidableEq K]

theorem frontBlockNumber_some {l : H} {n : Nat} (h : o.lastCanonicalized = some (l, n)) :
    o.frontBlockNumber = n + 1 := by rw [frontBlockNumber, h]

theorem frontBlockNumber_none (h : o.lastCanonicalized = none) : o.frontBlockNumber = 0 := by
  rw [frontBlockNumber, h]

end

/-- The number of an inserted block is that of its level. -/
theorem Inserted.number_eq
    (h : Inserted o hash number parentHash changeset a levels i level commit o') :
    number = o'.frontBlockNumber + i ∧
      (i = 0 → ∀ l n, o'.lastCanonicalized = some (l, n) → l = parentHash) := by
  have hl : o'.lastCanonicalized = a.or o.lastCanonicalized := by rw [h.result]
  have hchk := h.checked
  unfold checkParent at hchk
  split at hchk
  next hfst =>
    -- the first block of all
    cases hchk
    obtain ⟨hemp, -, hpos⟩ := hfst
    rw [List.isEmpty_iff] at hemp
    have hi : i = 0 := by
      cases h.room with
      | old hne => exact absurd hemp hne
      | new => rw [hemp, length_nil]
    rw [frontBlockNumber_some hl]
    refine ⟨by omega, fun _ l n hs => ?_⟩
    cases hl.symm.trans hs
    rfl
  rename_i hnot
  split at hchk
  next hn =>
    -- no block is canonical yet, numbers start from zero
    cases hchk
    have hl : o'.lastCanonicalized = none := by rw [hl, hn]; rfl
    have hfr := frontBlockNumber_none hn
    rw [frontBlockNumber_none hl]
    refine ⟨?_, fun _ l n hs => by cases hl.symm.trans hs⟩
    cases h.room with
    | old => omega
    | new hnew =>
      cases hnew with
      | inl hnil =>
        have hz : ¬ number > 0 := fun hpos => hnot ⟨by simp [hnil], hn, hpos⟩
        rw [hnil, length_nil]
        omega
      | inr hnum => omega
  rename_i l n hs
  split at hchk
  · cases hchk
  rename_i hrng
  have hi : number = o.frontBlockNumber + i := by
    cases h.room with
    | old => omega
    | new hnew =>
      cases hnew with
      | inl hnil =>
        rw [hnil, length_nil] at hrng ⊢
        omega
      | inr hnum => exact hnum
  -- in both branches that are left nothing is assumed
  have hr : a = none ∧ (number = o.frontBlockNumber → l = parentHash) := by
    split at hchk
    · split at hchk
      next hpar =>
        cases hchk
        exact ⟨rfl, fun _ => hpar.1⟩
      · cases hchk
    next hne =>
      split at hchk
      · cases hchk
        exact ⟨rfl, fun heq => absurd heq hne⟩
      · cases hchk
  rw [hr.1, hs] at hl
  have hfr : o'.frontBlockNumber = o.frontBlockNumber := by
    rw [frontBlockNumber_some hl, frontBlockNumber_some hs]
  rw [hfr]
  refine ⟨hi, fun hz last' n' heq => ?_⟩
  cases hl.symm.trans heq
  exact hr.2 (by omega)

/-! ## Canonicalization -/

/-- What `canonicalize` does with one block of the first level. -/
inductive Processes (hash : H) :
    Canonicalization H K V → BlockOverlay H K → Canonicalization H K V → Prop
  | canonical {o : Overlay H K V} {data : ChangeSet K V} {journals : List (Nat × Nat)}
      {x : BlockOverlay H K} {inserted : List (K × V)} (hx : x.hash = hash)
      (hinserted : x.inserted.mapM (fun k => (o.values.get? k).map fun v => (k, v.2)) =
        some inserted) :
      Processes hash (o, data, journals) x
        ({ o with toBooks := o.toBooks.settle x (withSelf o.pinned x.hash 0) },
          ⟨data.inserted ++ inserted, data.deleted ++ x.deleted⟩, journals ++ [x.journalKey])
  | discarded {o : Overlay H K V} {data : ChangeSet K V} {journals keys : List (Nat × Nat)}
      {x : BlockOverlay H K} {n : Nat} {levels : List (OverlayLevel H K)} {b : Books H K V}
      (hx : x.hash ≠ hash) (hkeys : discardJournals o.parents o.levels x.hash = some keys)
      (hdiscards : Discards o.pinned o.levels o.toBooks x.hash n levels b) :
      Processes hash (o, data, journals) x
        ({ o with toBooks := b.settle x (withSelf o.pinned x.hash n), levels := levels }, data,
          journals ++ keys ++ [x.journalKey])

theorem processes_of_canonicalizeOne (hi : i = ix ↔ x.hash = hash)
    (h : canonicalizeOne ix s (x, i) = some s') : Processes hash s x s' := by
  unfold canonicalizeOne at h
  dsimp only at h
  split at h
  next heq =>
    obtain ⟨ins, hins, h⟩ := bind_eq_some_iff.mp h
    cases h
    exact .canonical (hi.mp heq) hins
  next hne =>
    obtain ⟨keys, hk, h⟩ := bind_eq_some_iff.mp h
    obtain ⟨⟨n, levels, b⟩, hdisc, h⟩ := bind_eq_some_iff.mp h
    cases h
    exact .discarded (mt hi.mpr hne) hk (discards_of_discardDescendants rfl hdisc)

/-- The loop of `canonicalize`: what each block keeps, with the blocks that are left. -/
theorem canonicalizeLoop {P : Canonicalization H K V → List (BlockOverlay H K) → Prop}
    (hst : ∀ s x re s', P s (x :: re) → Processes hash s x s' → P s' re) (off : Nat)
    (hidx : ∀ i x, bs[i]? = some x → (off + i = ix ↔ x.hash = hash)) (hs : P s bs)
    (h : (bs.zipIdx off).foldlM (canonicalizeOne ix) s = some s') : P s' [] := by
  induction bs generalizing s off with
  | nil =>
    cases h
    exact hs
  | cons x bs ih =>
    obtain ⟨t, hone, h⟩ := bind_eq_some_iff.mp h
    have hp := processes_of_canonicalizeOne (hidx 0 x rfl) hone
    refine ih _ (fun i y hy => ?_) (hst s x bs t hs hp) h
    have hn := hidx (i + 1) y (by simpa using hy)
    rwa [← Nat.add_assoc, Nat.add_right_comm] at hn

/-- The overlay that the loop of `canonicalize` starts with: the first level is out, the block is
pinned. -/
def forced (o : Overlay H K V) (hash : H) (above : List (OverlayLevel H K)) : Overlay H K V :=
  { ({ o with levels := above } : Overlay H K V).pin hash with
    pinnedCanonicalized := o.pinnedCanonicalized ++ [hash] }

omit [DecidableEq K] in
theorem findIdx?_hash (hu : (bs.map BlockOverlay.hash).Nodup)
    (h : bs.findIdx? (fun ov => ov.hash = hash) = some ix)
    (hx : bs[i]? = some x) : i = ix ↔ x.hash = hash := by
  obtain ⟨hlt, hidx, -⟩ := findIdx?_eq_some_iff_getElem.mp h
  have hidx : bs[ix].hash = hash := by simpa using hidx
  obtain ⟨hi, rfl⟩ := List.getElem?_eq_some_iff.mp hx
  constructor
  · rintro rfl
    exact hidx
  intro heq
  have hi' : i < (bs.map BlockOverlay.hash).length := by rwa [length_map]
  have hlt' : ix < (bs.map BlockOverlay.hash).length := by rwa [length_map]
  have hs : (bs.map BlockOverlay.hash)[i] = (bs.map BlockOverlay.hash)[ix] := by
    rw [getElem_map, getElem_map, heq, hidx]
  exact (getElem_inj hu).mp hs

/-- What `canonicalize` does: nothing, or nothing but take out the first level, or go through the
blocks of the first level. `P` is any property that the loop keeps. -/
theorem canonicalize_cases {c' : CommitSet H K V} {r : Except StateDbError Nat}
    (hu : ∀ level, o.levels[0]? = some level → (level.blocks.map BlockOverlay.hash).Nodup)
    (h : o.canonicalize hash commit = some (r, o', c')) :
    (o.levels = [] ∧ r = .error .invalidBlock ∧ o' = o ∧ c' = commit) ∨
      ∃ level ab, o.levels = level :: ab ∧
        ((hash ∉ level.blocks.map BlockOverlay.hash ∧ r = .error .invalidBlock ∧
            o' = { o with levels := ab } ∧ c' = commit) ∨
          hash ∈ level.blocks.map BlockOverlay.hash ∧ ∃ o1 d js,
            r = .ok o1.frontBlockNumber ∧
            o' = { o1 with lastCanonicalized := some (hash, o1.frontBlockNumber) } ∧
            c' = ⟨d, commit.metaInserted ++ [.lastCanonical hash o1.frontBlockNumber],
              commit.metaDeleted ++ js⟩ ∧
            ∀ P : Canonicalization H K V → List (BlockOverlay H K) → Prop,
              (∀ s x re s', P s (x :: re) → Processes hash s x s' → P s' re) →
              P (o.forced hash ab, commit.data, []) level.blocks →
              P (o1, d, js) []) := by
  unfold canonicalize at h
  split at h
  next hl =>
    cases h
    exact .inl ⟨hl, rfl, rfl, rfl⟩
  rename_i level ab hl
  refine .inr ⟨level, ab, hl, ?_⟩
  split at h
  next hn =>
    cases h
    refine .inl ⟨?_, rfl, rfl, rfl⟩
    simpa using hn
  next ix hidx =>
    obtain ⟨⟨o1, d, js⟩, hlo, h⟩ := bind_eq_some_iff.mp h
    cases h
    obtain ⟨hlt, hh, -⟩ := findIdx?_eq_some_iff_getElem.mp hidx
    have hh : level.blocks[ix].hash = hash := by simpa using hh
    refine .inr ⟨hh ▸ mem_map_of_mem (getElem_mem hlt), o1, d, js, rfl,
      rfl, rfl, fun P hs hst => ?_⟩
    refine canonicalizeLoop hs 0 (fun i x hx => ?_) hst hlo
    rw [Nat.zero_add]
    exact findIdx?_hash (hu level (by rw [hl]; rfl)) hidx hx

/-- A rejected insertion leaves the overlay as it is. A rejected canonicalization does if there is
no level; otherwise it has taken out the first one, with all of its blocks. -/
theorem unchanged_of_rejected_iff (o : Overlay H K V) :
    (∀ hash number parentHash changeset e o',
      o.insert hash number parentHash changeset = some (.error e, o') → o' = o) ∧
    ∀ hash commit, (∀ e o' commit',
        o.canonicalize hash commit = some (.error e, o', commit') → o' = o ∧ commit' = commit) ↔
      ∀ level ∈ o.levels.head?, hash ∈ level.blocks.map BlockOverlay.hash := by
  constructor
  · intro hash number parentHash changeset e o' h
    rcases insert_cases h with ⟨-, rfl⟩ | ⟨_, _, _, _, _, hok, -⟩
    · rfl
    · cases hok
  intro hash commit
  unfold canonicalize
  cases hl : o.levels with
  | nil =>
    refine ⟨fun _ level hlev => (by cases hlev), fun _ e o' commit' h => ?_⟩
    cases h
    exact ⟨rfl, rfl⟩
  | cons level ab =>
    have hf : (∀ l' ∈ (level :: ab).head?, hash ∈ l'.blocks.map BlockOverlay.hash) ↔
        level.blocks.findIdx? (fun ov => ov.hash = hash) ≠ none := by
      simp
    rw [hf]
    dsimp only
    split
    next hn =>
      refine ⟨fun h => ?_, absurd hn⟩
      have hs := congrArg (·.levels.length) (h _ _ _ rfl).1
      simp [hl] at hs
    next ix hsome =>
      refine ⟨fun _ => (by simp [hsome]), fun _ e o' commit' h => ?_⟩
      obtain ⟨_, -, h⟩ := bind_eq_some_iff.mp h
      cases h

/-- After an unknown block was rejected, the block of the first level is not found any more. -/
theorem not_unchanged_of_rejected : ∃ o o' : Overlay ℕ ℕ ℕ,
    (Overlay.empty.insert 1 1 0 ⟨[], []⟩).map Prod.snd = some o ∧
      o.canonicalize 2 .empty = some (.error .invalidBlock, o', .empty) ∧ o' ≠ o ∧
      (o.canonicalize 1 .empty).map Prod.fst = some (.ok 1) ∧
      (o'.canonicalize 1 .empty).map Prod.fst = some (.error .invalidBlock) :=
  ⟨_, _, rfl, rfl, fun h => (by cases congrArg (·.levels.length) h), rfl, rfl⟩

/-! ## Reverting -/

/-- What `revert_one` does: nothing, or drop the blocks of the last level. -/
theorem revertOne_cases (h : o.revertOne = (r, o')) :
    (r = none ∧ o' = o) ∨
      ∃ levels level, o.levels = levels ++ [level] ∧
        r = some { (CommitSet.empty : CommitSet H K V) with
          metaDeleted := level.blocks.map BlockOverlay.journalKey } ∧
        o' = { o with
          toBooks := level.blocks.foldl Books.discard o.toBooks
          levels := levels } := by
  unfold revertOne at h
  split at h
  · cases h
    exact .inl ⟨rfl, rfl⟩
  next level hlast =>
    cases h
    obtain ⟨levels, hl⟩ := getLast?_eq_some_iff.mp hlast
    refine .inr ⟨levels, level, hl, rfl, ?_⟩
    rw [hl, dropLast_concat]

section
omit [DecidableEq H] [DecidableEq K]

theorem trim_isPrefix (ls : List (OverlayLevel H K)) : trim ls <+: ls := by
  unfold trim
  split
  · exact dropLast_prefix ls
  · exact prefix_rfl

@[simp] theorem blocksOf_trim (ls : List (OverlayLevel H K)) :
    blocksOf (trim ls) = blocksOf ls := by
  unfold trim
  split
  next h =>
    obtain ⟨level, hl, hemp⟩ := (any_eq_true _ _).mp h
    have hb : level.blocks = [] := isEmpty_iff.mp hemp
    obtain ⟨l, rfl⟩ := getLast?_eq_some_iff.mp hl
    simp [hb]
  · rfl

end

omit [DecidableEq K] in
theorem locate_spec {j : Nat} (h : locate levels hash = some (i, j)) :
    ∃ level x, levels[i]? = some level ∧ level.blocks[j]? = some x ∧ x.hash = hash := by
  obtain ⟨⟨level, i'⟩, hmem, hfnd⟩ := exists_of_findSome?_eq_some h
  obtain ⟨j', hj, heq⟩ := map_eq_some_iff.mp hfnd
  cases heq
  obtain ⟨hlt, hh, -⟩ := findIdx?_eq_some_iff_getElem.mp hj
  have hlev := mem_zipIdx_iff_getElem?.mp (mem_reverse.mp hmem)
  exact ⟨level, level.blocks[j], hlev, getElem?_eq_getElem hlt, by simpa using hh⟩

/-- What `remove` does: nothing but drop an empty last level, or take out a block that is no
block's parent. -/
theorem remove_cases (h : o.remove hash = some (r, o')) :
    (r = none ∧ (o' = o ∨ o' = { o with levels := trim o.levels })) ∨
      ∃ i level l' x j, o.levels[i]? = some level ∧ level.remove j = some (x, l') ∧
        x.hash = hash ∧ (o.levels[i + 1]? = none ∨ hash ∉ o.parents.values) ∧
        r = some { (CommitSet.empty : CommitSet H K V) with metaDeleted := [x.journalKey] } ∧
        o' = { o with
          toBooks := o.toBooks.discard x
          levels := trim (o.levels.set i l') } := by
  unfold remove at h
  split at h
  · cases h
    exact .inl ⟨rfl, .inr rfl⟩
  rename_i i j hl
  obtain ⟨level0, x0, hlev0, hx0, hh⟩ := locate_spec hl
  split at h
  · cases h
    exact .inl ⟨rfl, .inl rfl⟩
  rename_i hchs
  obtain ⟨level, hlev, h⟩ := bind_eq_some_iff.mp h
  obtain ⟨⟨x, l'⟩, hrem, h⟩ := bind_eq_some_iff.mp h
  cases h
  cases hlev0.symm.trans hlev
  cases hx0.symm.trans (OverlayLevel.remove_eq hrem).1
  refine .inr ⟨i, level0, l', x0, j, hlev, hrem, hh, ?_, rfl, rfl⟩
  rw [not_and_or] at hchs
  refine hchs.imp_left fun hlast => getElem?_eq_none ?_
  omega

end Overlay

end StateDb
