-- SUMMARY: The overlay that is rebuilt from the database is the one that was there.
import SubstrateIpfs.StateDb.Durable

/-!
# Restarting

`NonCanonicalOverlay::new` reads the journal level after level. In a run without pins, when
every commit set is on disk, what it builds is the overlay that was there: the same blocks
under the same indices in every level, the same parents, and the same values with the same
counters.

A canonicalization that fails has dropped the first level, but the journal still has its
blocks, so they are back after a restart.
-/

namespace StateDb

open List Option Overlay Run Nat

variable {H K V : Type} {i : Nat} {o : Overlay H K V} {x : BlockOverlay H K}

/-! ## The same overlay -/

/-- A level of the overlay. Above the last one the levels are empty. -/
def Overlay.levelAt (o : Overlay H K V) (i : Nat) : OverlayLevel H K := o.levels[i]?.getD .new

theorem Overlay.levelAt_eq {l : OverlayLevel H K} (h : o.levels[i]? = some l) :
    o.levelAt i = l := by rw [levelAt, h, getD_some]

theorem Overlay.mem_levelAt (h : x ∈ (o.levelAt i).blocks) :
    ∃ l, o.levels[i]? = some l ∧ x ∈ l.blocks := by
  unfold levelAt at h
  cases hlev : o.levels[i]? with
  | none =>
    rw [hlev] at h
    cases h
  | some l =>
    rw [hlev] at h
    exact ⟨l, rfl, h⟩

variable [DecidableEq H] [DecidableEq K] {st : ReadState H K V} {b : List (BlockOverlay H K)}
  {r : JournalRecord H K V} {blocks : List (BlockOverlay H K)} {n : Nat}

/-- Two overlays with the same content, up to empty levels at the end. -/
structure Overlay.Same (o o' : Overlay H K V) : Prop where
  last : o'.lastCanonicalized = o.lastCanonicalized
  blocks : ∀ i, (o'.levelAt i).blocks.Perm (o.levelAt i).blocks
  used : ∀ i, (o'.levelAt i).usedIndicies = (o.levelAt i).usedIndicies
  parents : ∀ h, o'.parents.get? h = o.parents.get? h
  values : ∀ k, o'.values.get? k = o.values.get? k

namespace Backed

variable {s : Backed H K V}

theorem Journaled.indexed_levelAt (h : s.Journaled) (i : Nat) :
    Indexed (s.overlay.frontBlockNumber + i) (s.overlay.levelAt i) := by
  cases hlev : s.overlay.levels[i]? with
  | none =>
    rw [levelAt, hlev]
    exact .new
  | some l => exact levelAt_eq hlev ▸ h.indexed i l hlev

/-- A record is that of a block in the level it is read for. -/
theorem Journaled.block_of_record (h : s.Journaled) {ix : Nat}
    (hr : s.db.journal (s.overlay.frontBlockNumber + i, ix) = some r) :
    ∃ x ∈ (s.overlay.levelAt i).blocks, x.journalIndex = ix ∧
      x = ⟨r.hash, ix, (s.overlay.frontBlockNumber + i, ix), r.inserted.map Prod.fst,
        r.deleted⟩ ∧ s.overlay.Records x r := by
  obtain ⟨x, hx, hkey⟩ := h.only _ r hr (Nat.le_add_right ..)
  obtain ⟨r', hr', hrecs⟩ := h.recorded x hx
  rw [hkey, hr] at hr'
  cases hr'
  obtain ⟨j, l, hlev, hx⟩ := mem_blocksOf.mp hx
  have hkey' := (h.indexed j l hlev).key x hx
  rw [hkey, Prod.mk.injEq] at hkey'
  obtain rfl : i = j := Nat.add_left_cancel hkey'.1
  refine ⟨x, levelAt_eq hlev ▸ hx, hkey'.2.symm, ?_, hrecs⟩
  rw [hrecs.hash, hrecs.inserted, hrecs.deleted, ← hkey, hkey'.2]

/-! ## Reading -/

/-- The blocks read so far, with the parents and the values. -/
structure Rebuilding (s : Backed H K V) (blocks : List (BlockOverlay H K)) (parents : FinMap H H)
    (values : FinMap K (Nat × V)) : Prop where
  accounts : (⟨parents, values, .empty⟩ : Books H K V).Accounts blocks
  subset : blocks ⊆ blocksOf s.overlay.levels
  parents : ∀ x ∈ blocks, parents.get? x.hash = s.overlay.parents.get? x.hash
  values : ∀ k counter value, values.get? k = some (counter, value) → s.overlay.get k = some value

theorem Rebuilding.perm {bs' : List (BlockOverlay H K)} {ps : FinMap H H}
    {vs : FinMap K (Nat × V)} (h : Rebuilding s blocks ps vs)
    (hp : blocks.Perm bs') : Rebuilding s bs' ps vs :=
  ⟨h.accounts.perm hp, fun _ hx => h.subset (hp.mem_iff.mpr hx),
    fun x hx => h.parents x (hp.mem_iff.mpr hx), h.values⟩

theorem rebuilding_nil : Rebuilding s [] .empty .empty where
  accounts := sound_empty.accounts
  subset := nil_subset _
  parents := fun _ hx => absurd hx not_mem_nil
  values := fun k cnt value h => by simp at h

/-- One more block is read. -/
theorem Rebuilding.push {ps : FinMap H H} {vs : FinMap K (Nat × V)}
    (h : Rebuilding s blocks ps vs) (hj : s.Journaled)
    (hx : x ∈ blocksOf s.overlay.levels) (hnew : x ∉ blocks) (hr : s.overlay.Records x r) :
    Rebuilding s (x :: blocks) (ps.insert r.hash r.parentHash) (insertValues vs r.inserted) := by
  have hunk : ps.get? r.hash = none := by
    rw [hr.hash, ← not_isSome_iff_eq_none, h.accounts.known]
    rintro (hmem | hemp)
    · obtain ⟨y, hy, heq⟩ := mem_map.mp hmem
      exact hnew (hj.sound.accounts.eq_of_hash (h.subset hy) hx heq ▸ hy)
    · simp at hemp
  refine ⟨h.accounts.add _ _ _ hunk hr.hash.symm hr.inserted.symm,
    cons_subset.mpr ⟨hx, h.subset⟩, fun y hy => ?_, fun k cnt v hk => ?_⟩
  · cases mem_cons.mp hy with
    | inl heq =>
      rw [heq, ← hr.hash, FinMap.get?_insert_self, hr.hash, hr.parent]
    | inr hy =>
      refine (FinMap.get?_insert_of_ne ?_).trans (h.parents y hy)
      intro heq
      have hkn := h.accounts.parent_isSome hy
      rw [heq] at hkn
      cases hunk ▸ hkn
  · rcases of_get?_insertValues hk with ⟨c', hold⟩ | hmem
    · exact h.values k c' v hold
    · exact hr.values (k, v) hmem

/-- A level of which the indices below `n` are read, with the blocks of the levels `before`. -/
structure Reading (s : Backed H K V) (i n : Nat) (before : List (BlockOverlay H K))
    (st : ReadState H K V) : Prop where
  indexed : Indexed (s.overlay.frontBlockNumber + i) st.1
  mem : ∀ x, x ∈ st.1.blocks ↔ x ∈ (s.overlay.levelAt i).blocks ∧ x.journalIndex < n
  rebuilding : Rebuilding s (st.1.blocks ++ before) st.2.1 st.2.2

theorem Reading.step (h : Reading s i n b st) (hj : s.Journaled) (hn : n < maxBlocksPerLevel)
    (hbef : ∀ y ∈ b, y.journalKey.1 < s.overlay.frontBlockNumber + i) :
    Reading s i (n + 1) b (readIndex s.db (s.overlay.frontBlockNumber + i) st n) := by
  unfold readIndex
  split
  next hno =>
    refine ⟨h.indexed, fun x => ?_, h.rebuilding⟩
    rw [h.mem]
    refine and_congr_right fun hx => ⟨lt_succ_of_lt, fun hlt => ?_⟩
    refine lt_of_le_of_ne (le_of_lt_succ hlt) fun heq => ?_
    -- every block of a level has its record
    obtain ⟨l, hlev, hmem⟩ := mem_levelAt hx
    obtain ⟨r, hr, -⟩ := hj.recorded x (mem_blocksOf.mpr ⟨_, l, hlev, hmem⟩)
    rw [(hj.indexed_levelAt _).key x hx, heq, hno] at hr
    cases hr
  rename_i r hr
  obtain ⟨x, hx, hidx, heq, hre⟩ := hj.block_of_record hr
  rw [← heq]
  have hkey : x.journalKey = (s.overlay.frontBlockNumber + i, n) := by rw [heq]
  have hnew : x ∉ st.1.blocks := fun hmem => by
    have hlt := ((h.mem x).mp hmem).2
    omega
  refine ⟨h.indexed.push (by rw [hkey, hidx]) (hidx ▸ hn) ?_, fun y => ?_, ?_⟩
  · intro hmem
    obtain ⟨y, hy, hsame⟩ := mem_map.mp hmem
    have hlt := ((h.mem y).mp hy).2
    omega
  · rw [mem_push, h.mem]
    constructor
    · rintro (rfl | ⟨hy, hlt⟩)
      · exact ⟨hx, by omega⟩
      · exact ⟨hy, by omega⟩
    rintro ⟨hy, hlt⟩
    by_cases hl : y.journalIndex = n
    · -- an index is used once in a level
      exact .inl (inj_on_of_nodup_map (hj.indexed_levelAt i).distinct hy hx (hl.trans hidx.symm))
    · exact .inr ⟨hy, by omega⟩
  · obtain ⟨l, hlev, hmem⟩ := mem_levelAt hx
    have hnot : x ∉ st.1.blocks ++ b := by
      intro hmem
      cases mem_append.mp hmem with
      | inl hmem => exact hnew hmem
      | inr hmem =>
        have hlt := hbef x hmem
        rw [hkey] at hlt
        exact lt_irrefl _ hlt
    refine (h.rebuilding.push hj (mem_blocksOf.mpr ⟨i, l, hlev, hmem⟩) hnot hre).perm ?_
    show (x :: (st.1.blocks ++ b)).Perm (st.1.blocks ++ [x] ++ b)
    rw [append_assoc]
    exact perm_middle.symm

theorem Reading.foldl (h : Reading s i 0 b st) (hj : s.Journaled)
    (hbef : ∀ y ∈ b, y.journalKey.1 < s.overlay.frontBlockNumber + i) (hn : n ≤ maxBlocksPerLevel) :
    Reading s i n b ((range n).foldl (readIndex s.db (s.overlay.frontBlockNumber + i)) st) := by
  induction n with
  | zero => exact h
  | succ n ih =>
    rw [range_succ, foldl_append]
    exact (ih (le_of_succ_le hn)).step hj hn hbef

/-- All indices of a level are read. -/
theorem Reading.blocks_perm (h : Reading s i maxBlocksPerLevel b st) (hj : s.Journaled) :
    st.1.blocks.Perm (s.overlay.levelAt i).blocks := by
  have hlev := hj.indexed_levelAt i
  refine (perm_ext_iff_of_nodup h.indexed.distinct.of_map hlev.distinct.of_map).mpr fun x => ?_
  rw [h.mem, and_iff_left_of_imp (hlev.small x)]

/-- The first levels are read. -/
structure ReadLevels (s : Backed H K V) (levels : List (OverlayLevel H K)) (parents : FinMap H H)
    (values : FinMap K (Nat × V)) : Prop where
  indexed : IndexedFrom s.overlay.frontBlockNumber levels
  blocks : ∀ (i : Nat) (level : OverlayLevel H K), levels[i]? = some level →
    level.blocks.Perm (s.overlay.levelAt i).blocks
  rebuilding : Rebuilding s (blocksOf levels) parents values

theorem readLevels_nil : ReadLevels s [] .empty .empty :=
  ⟨fun i l h => by simp at h, fun i l h => by simp at h, rebuilding_nil⟩

section
variable {ls : List (OverlayLevel H K)} {ps : FinMap H H} {vs : FinMap K (Nat × V)}

section
variable (h : ReadLevels s ls ps vs)

include h

/-- The next level is read. -/
theorem ReadLevels.reading (hj : s.Journaled) :
    Reading s ls.length maxBlocksPerLevel (blocksOf ls)
      ((range maxBlocksPerLevel).foldl
        (readIndex s.db (s.overlay.frontBlockNumber + ls.length)) (.new, ps, vs)) := by
  have hst : Reading s ls.length 0 (blocksOf ls) (.new, ps, vs) :=
    ⟨.new, fun x => ⟨fun hx => absurd hx not_mem_nil, fun hx => absurd hx.2 (not_lt_zero _)⟩,
      h.rebuilding⟩
  refine hst.foldl hj (fun y hy => ?_) (le_refl _)
  obtain ⟨j, l, hlev, hy⟩ := mem_blocksOf.mp hy
  have hlt := (List.getElem?_eq_some_iff.mp hlev).1
  rw [(h.indexed j l hlev).key y hy]
  exact Nat.add_lt_add_left hlt _

theorem ReadLevels.concat (hj : s.Journaled)
    (hrdg : Reading s ls.length maxBlocksPerLevel (blocksOf ls) st) :
    ReadLevels s (ls ++ [st.1]) st.2.1 st.2.2 := by
  -- a level is one of those before, or the last
  have hcas : ∀ (i : Nat) l, (ls ++ [st.1])[i]? = some l →
      ls[i]? = some l ∨ (i = ls.length ∧ l = st.1) := by
    intro i l hlev
    rw [getElem?_append] at hlev
    split at hlev
    · exact .inl hlev
    rw [getElem?_singleton] at hlev
    split at hlev
    · cases hlev
      exact .inr ⟨by omega, rfl⟩
    · cases hlev
  refine ⟨fun i l hlev => ?_, fun i l hlev => ?_, ?_⟩
  · rcases hcas i l hlev with hold | ⟨rfl, rfl⟩
    · exact h.indexed i l hold
    · exact hrdg.indexed
  · rcases hcas i l hlev with hold | ⟨rfl, rfl⟩
    · exact h.blocks i l hold
    · exact hrdg.blocks_perm hj
  · refine hrdg.rebuilding.perm ?_
    rw [blocksOf_append, blocksOf_cons, blocksOf_nil, append_nil]
    exact perm_append_comm

/-- Reading stops at the first level without blocks. -/
theorem ReadLevels.readJournal (hj : s.Journaled)
    (hle : ls.length ≤ s.overlay.levels.length) (fuel : Nat)
    (hfuel : s.overlay.levels.length < ls.length + fuel) :
    ∃ ls' parents' values',
      readJournal s.db fuel (s.overlay.frontBlockNumber + ls.length) ls ps
        vs = some (ls', parents', values') ∧
      ReadLevels s ls' parents' values' ∧ (s.overlay.levelAt ls'.length).blocks = [] := by
  induction fuel generalizing ls ps vs with
  | zero => omega
  | succ fuel ih =>
    have hrdg := h.reading hj
    unfold readJournal
    generalize (range maxBlocksPerLevel).foldl
      (readIndex s.db (s.overlay.frontBlockNumber + ls.length)) (.new, ps, vs) = st
      at hrdg
    have hp := hrdg.blocks_perm hj
    dsimp only
    split
    next hemp =>
      refine ⟨ls, st.2.1, st.2.2, rfl, ?_, ?_⟩
      · have hreb := hrdg.rebuilding
        rw [isEmpty_iff.mp hemp] at hreb
        exact ⟨h.indexed, h.blocks, hreb⟩
      · rw [isEmpty_iff.mp hemp] at hp
        exact hp.symm.eq_nil
    next hne =>
      have hlt : ls.length < s.overlay.levels.length := by
        by_contra hge
        have hn : s.overlay.levels[ls.length]? = none := getElem?_eq_none (Nat.le_of_not_lt hge)
        rw [levelAt, hn] at hp
        exact hne (isEmpty_iff.mpr hp.eq_nil)
      have hlen : (ls ++ [st.1]).length = ls.length + 1 := length_append
      have hnext := ih (h.concat hj hrdg) (by omega) (by omega)
      rwa [hlen] at hnext

end

/-! ## The rebuilt overlay -/

/-- Above a level without blocks there are none. -/
theorem Journaled.levelAt_nil (h : s.Journaled) (hn : (s.overlay.levelAt n).blocks = [])
    (hle : n ≤ i) : (s.overlay.levelAt i).blocks = [] := by
  induction i, hle using le_induction with
  | base => exact hn
  | succ i _ ih =>
    refine eq_nil_iff_forall_not_mem.mpr fun y hy => ?_
    obtain ⟨l, hlev, hy⟩ := mem_levelAt hy
    have hlt := lt_of_succ_lt (List.getElem?_eq_some_iff.mp hlev).1
    have hbel := getElem?_eq_getElem hlt
    obtain ⟨x, hx, -⟩ := h.sound.chained i _ l hbel hlev y hy
    rw [← levelAt_eq hbel, ih] at hx
    cases hx

theorem ReadLevels.same (h : ReadLevels s ls ps vs) (hjo : s.Journaled)
    (hend : (s.overlay.levelAt ls.length).blocks = [])
    (hla : o.lastCanonicalized = s.overlay.lastCanonicalized) (hl : o.levels = ls)
    (hpa : o.parents = ps) (hv : o.values = vs) : s.overlay.Same o := by
  subst hl hpa hv
  have hlev : ∀ i, Indexed (s.overlay.frontBlockNumber + i) (o.levelAt i) ∧
      (o.levelAt i).blocks.Perm (s.overlay.levelAt i).blocks := by
    intro i
    cases hi : o.levels[i]? with
    | none =>
      rw [levelAt, hi, hjo.levelAt_nil hend (getElem?_eq_none_iff.mp hi)]
      exact ⟨.new, .refl _⟩
    | some l =>
      rw [levelAt_eq hi]
      exact ⟨h.indexed i l hi, h.blocks i l hi⟩
  have hmem : ∀ x, x ∈ blocksOf o.levels ↔ x ∈ blocksOf s.overlay.levels := by
    refine fun x => ⟨fun hx => h.rebuilding.subset hx, fun hx => ?_⟩
    obtain ⟨i, l, hi, hx⟩ := mem_blocksOf.mp hx
    rw [← levelAt_eq hi, ← (hlev i).2.mem_iff] at hx
    obtain ⟨l', hi', hx⟩ := mem_levelAt hx
    exact mem_blocksOf.mpr ⟨i, l', hi', hx⟩
  have ha := h.rebuilding.accounts
  have haccs' := hjo.sound.accounts
  have hp : (blocksOf o.levels).Perm (blocksOf s.overlay.levels) :=
    (perm_ext_iff_of_nodup ha.unique.of_map haccs'.unique.of_map).mpr hmem
  refine ⟨hla, fun i => (hlev i).2, fun i => ?_, fun z => ?_, fun k => ?_⟩
  · refine BitVec.eq_of_getLsbD_eq fun j hj => ?_
    rw [Bool.eq_iff_iff, (hlev i).1.mask j hj, (hjo.indexed_levelAt i).mask j hj,
      ((hlev i).2.map _).mem_iff]
  · by_cases hz : z ∈ (blocksOf o.levels).map BlockOverlay.hash
    · obtain ⟨x, hx, rfl⟩ := mem_map.mp hz
      exact h.rebuilding.parents x hx
    -- nothing is kept aside, so a hash that is no block's has no parent
    have hn : ¬ (o.parents.get? z).isSome := by
      rw [ha.known]
      simpa using hz
    have hnone' : ¬ (s.overlay.parents.get? z).isSome := by
      rw [haccs'.known, hjo.idle.nothing_aside, ← (hp.map _).mem_iff]
      simpa using hz
    rw [not_isSome_iff_eq_none.mp hn, not_isSome_iff_eq_none.mp hnone']
  · have hcnt : counterOf o.values k = counterOf s.overlay.values k := by
      have hke : s.overlay.kept k = 0 := FinMap.total_eq_zero fun z e he => by
        cases (hjo.idle.nothing_aside z).symm.trans he
      rw [ha.counted, haccs'.counted, occurrences_perm hp, hke]
      rfl
    cases hk : o.values.get? k with
    | none =>
      have hze : counterOf s.overlay.values k = 0 := by rw [← hcnt, counterOf, hk]; rfl
      cases hk' : s.overlay.values.get? k with
      | none => rfl
      | some v =>
        have hpos := haccs'.positive k v.1 v.2 hk'
        rw [counterOf, hk'] at hze
        exact absurd hze (ne_of_gt hpos)
    | some v =>
      obtain ⟨v', hk', heq⟩ := map_eq_some_iff.mp (h.rebuilding.values k v.1 v.2 hk)
      rw [counterOf, counterOf, hk, hk'] at hcnt
      rw [hk']
      exact congrArg some (Prod.ext hcnt heq.symm)

end

theorem Journaled.restart (h : s.Journaled)
    (hp : s.overlay.lastCanonicalized = none → blocksOf s.overlay.levels = []) {f : Nat}
    (hf : s.overlay.levels.length < f) :
    ∃ o, new f s.db = some o ∧ s.overlay.Same o := by
  unfold new
  rw [h.last]
  cases hl : s.overlay.lastCanonicalized with
  | none =>
    refine ⟨_, rfl, readLevels_nil.same h ?_ hl.symm rfl rfl rfl⟩
    refine eq_nil_iff_forall_not_mem.mpr fun x hx => ?_
    obtain ⟨l, hlev, hx⟩ := mem_levelAt hx
    have hmem : x ∈ blocksOf s.overlay.levels := mem_blocksOf.mpr ⟨_, l, hlev, hx⟩
    rw [hp hl] at hmem
    cases hmem
  | some last =>
    obtain ⟨levels, parents, values, hr, hle, hend⟩ :=
      readLevels_nil.readJournal h (zero_le _) f (by simpa using hf)
    rw [frontBlockNumber_some hl, length_nil] at hr
    simp only [hr]
    exact ⟨_, rfl, hle.same h hend hl.symm rfl rfl rfl⟩

/-- In a run without pins the overlay is rebuilt from the database. Before there is a canonical
block `new` reads nothing. -/
theorem same_of_restart {calls : List (Call H K V)}
    (hdurable : Run.Each step (fun o c => ∀ s, o = some s → s.Durable c) (some .empty) calls) :
    Run.Always step (fun o => ∀ s, o = some s →
      (s.overlay.lastCanonicalized = none → blocksOf s.overlay.levels = []) →
      ∀ fuel, s.overlay.levels.length < fuel →
        ∃ o', new fuel s.db = some o' ∧ s.overlay.Same o') (some .empty) calls := by
  have hinv := Run.Each.always_some
    (fun s _ _ h hG hc => h.call (hG s rfl) hc) journaled_empty hdurable
  exact fun pre hpre s hs hp fuel hf => (hinv pre hpre s hs).restart hp hf

/-- The index of a block that is removed is used again by the next one, and then a fork is
discarded. -/
def reuseRun : List (Call Nat Nat Nat) :=
  [.insert 1 1 0 ⟨[(7, 70)], []⟩, .insert 2 1 0 ⟨[(7, 70), (8, 80)], [5]⟩, .remove 1,
    .insert 4 1 0 ⟨[(9, 90)], []⟩, .insert 3 2 2 ⟨[(8, 80)], []⟩, .insert 5 2 4 ⟨[], [9]⟩,
    .canonicalize 2]

theorem same_reuseRun : ∃ s o, exec step (some empty) reuseRun = some s ∧
    new 3 s.db = some o ∧ s.overlay.Same o ∧ o.lastCanonicalized = some (2, 1) ∧
    (o.levelAt 0).blocks.map BlockOverlay.hash = [3] := by
  obtain ⟨s, hs, hl, hlen, hnew⟩ : ∃ s, exec step (some empty) reuseRun = some s ∧
      s.overlay.lastCanonicalized = some (2, 1) ∧ s.overlay.levels.length < 3 ∧
        ∀ o, new 3 s.db = some o → o.lastCanonicalized = some (2, 1) ∧
          (o.levelAt 0).blocks.map BlockOverlay.hash = [3] := by
    decide +kernel
  have hrun := (same_of_restart (by decide +kernel)).last s hs
  obtain ⟨o, ho, hsa⟩ := hrun (by simp [hl]) 3 hlen
  exact ⟨s, o, hs, ho, hsa, hnew o ho⟩

/-- A canonicalization that fails. -/
def lostRun : List (Call Nat Nat Nat) := [.insert 1 1 0 ⟨[(7, 70)], []⟩, .canonicalize 2]

/-- The call returns an error and the first level is gone, but its block is still in the journal
and is read again. -/
theorem not_same_lostRun : ∃ s o, exec step (some empty) lostRun = some s ∧
    s.overlay.lastCanonicalized = some (0, 0) ∧ new 3 s.db = some o ∧
    ¬ s.overlay.Same o := by
  obtain ⟨s, hs, hl, hlen, o, ho, hl'⟩ : ∃ s, exec step (some empty) lostRun = some s ∧
      s.overlay.lastCanonicalized = some (0, 0) ∧ (s.overlay.levelAt 0).blocks.length = 0 ∧
        ∃ o, new 3 s.db = some o ∧ (o.levelAt 0).blocks.length = 1 := by
    decide +kernel
  refine ⟨s, o, hs, hl, ho, fun hsa => ?_⟩
  have hp := (hsa.blocks 0).length_eq
  rw [hlen, hl'] at hp
  cases hp

end Backed

end StateDb
