-- SUMMARY: Pruning deletes what a block deleted and no later one inserted, and nothing live.
import SubstrateIpfs.StateDb.Pruning

/-!
# What pruning deletes

Beside the window goes a chronicle: the blocks that were noted and not pruned yet, each with the
keys that are live in its state. A block only deletes keys that are live.

The row of a block has the keys that the block deleted and that no later block inserted. Such a key
is not live in any state from the block on, so no key is in two rows.
-/

namespace StateDb.Pruning

open List Option DeathRowQueue RefWindow

variable {H K V : Type} [DecidableEq K] {row : DeathRow H K} {keys : List K} {number : Nat}
  {w : RefWindow H K}

/-! ## The chronicle -/

/-- The keys that are live after a block. -/
def JournalRecord.after (record : JournalRecord H K) (live : K → Bool) (k : K) : Bool :=
  (live k || decide (k ∈ record.inserted)) && !decide (k ∈ record.deleted)

/-- A key is deleted only if it is live. -/
def JournalRecord.Lawful (record : JournalRecord H K) (live : K → Bool) : Prop :=
  ∀ k ∈ record.deleted, live k = true ∨ k ∈ record.inserted

instance (record : JournalRecord H K) (live : K → Bool) : Decidable (record.Lawful live) :=
  inferInstanceAs (Decidable (∀ k ∈ record.deleted, live k = true ∨ k ∈ record.inserted))

/-- A block that was noted, with the keys that are live in its state. -/
structure Noted (H K : Type) where
  number : Nat
  record : JournalRecord H K
  live : K → Bool

/-- The window, the blocks in it, and the keys that are live in the last state. -/
structure Chronicle (H K : Type) where
  window : RefWindow H K
  blocks : List (Noted H K)
  live : K → Bool

inductive Call (H K V : Type) where
  | noteCanonical (hash : H) (number : Nat) (commit : CommitSet H K V)
  | pruneOne (commit : CommitSet H K V)

namespace Chronicle

variable (db : Db H K) (c : Chronicle H K)

/-- The block at the end of the chronicle. -/
def note (w : RefWindow H K) (number : Nat) (record : JournalRecord H K) : Chronicle H K :=
  ⟨w, c.blocks ++ [⟨number, record, record.after c.live⟩], record.after c.live⟩

/-- The record of a block in a window in memory. -/
def recordOf (hash : H) (commit : CommitSet H K V) : JournalRecord H K :=
  ⟨hash, commit.data.inserted.map Prod.fst, commit.data.deleted⟩

/-- A call, and the chronicle of it. -/
def call : Call H K V → Option (Chronicle H K)
  | .noteCanonical hash number commit => do
    let (r, w, _) ← c.window.noteCanonical hash number commit
    match r with
    | .ok _ => some (c.note w number (recordOf hash commit))
    | .error _ => some { c with window := w }
  | .pruneOne commit =>
    let (r, w, _) := c.window.pruneOne db commit
    match r with
    | .ok _ => some { c with window := w, blocks := c.blocks.tail }
    | .error _ => some { c with window := w }

def step (c : Option (Chronicle H K)) (e : Call H K V) : Option (Chronicle H K) :=
  c.bind (call db · e)

/-- A block that is accepted deletes live keys only. -/
def Lawful (c : Chronicle H K) : Call H K V → Prop
  | .noteCanonical hash number commit =>
    (c.window.baseFor number).isSome → (recordOf hash commit).Lawful c.live
  | .pruneOne _ => True

instance (e : Call H K V) : Decidable (c.Lawful e) := by
  cases e <;> unfold Lawful <;> infer_instance

/-- The journal is read into the window, with the chronicle of it. -/
def readJournal (db : Db H K) : Nat → Chronicle H K → Option (Chronicle H K)
  | 0, _ => none
  | fuel + 1, c =>
    let block := c.window.base + c.blocks.length
    match db.journal block with
    | none => some c
    | some record => do
      let queue ← c.window.queue.importBlock c.window.base block record
      readJournal db fuel (c.note ⟨queue, c.window.base⟩ block record)

/-- The chronicle before the journal is read. The state before the window has the keys `live`. -/
def start (live : K → Bool) : Chronicle H K :=
  ⟨⟨.mem [] .empty, (db.lastPruned.map (· + 1)).getD 0⟩, [], live⟩

def new (fuel : Nat) (db : Db H K) (live : K → Bool) : Option (Chronicle H K) :=
  readJournal db fuel (start db live)

/-- The blocks of the journal delete live keys only. -/
def LawfulJournal (db : Db H K) : Nat → Nat → (K → Bool) → Prop
  | 0, _, _ => True
  | fuel + 1, block, live => ∀ record, db.journal block = some record →
    record.Lawful live ∧ LawfulJournal db fuel (block + 1) (record.after live)

/-- The next block that is pruned is the first of the chronicle. It deletes exactly the keys that
it deleted and that no block after it inserted. None of them is live in a state that is not
pruned. -/
structure Exact (V : Type) (c : Chronicle H K) : Prop where
  next : (c.window.nextHash db).1 = c.blocks.head?.map fun b => b.record.hash
  empty : c.blocks = [] → ∀ commit : CommitSet H K V,
    c.window.pruneOne db commit = (.error .blockUnavailable, c.window, commit)
  pruned : ∀ b later, c.blocks = b :: later → ∀ commit : CommitSet H K V,
    ∃ w keys, c.window.pruneOne db commit = (.ok (), w,
        ⟨⟨commit.data.inserted, commit.data.deleted ++ keys⟩,
          commit.metaInserted ++ [.lastPruned b.number], commit.metaDeleted ++ [b.number]⟩) ∧
      (∀ k, k ∈ keys ↔ k ∈ b.record.deleted ∧ ∀ b' ∈ later, k ∉ b'.record.inserted) ∧
      ∀ k ∈ keys, ∀ b' ∈ c.blocks, b'.live k = false

end Chronicle

/-! ## Rows and blocks -/

/-- The rows are those of the blocks. -/
inductive Tracks (live : K → Bool) : Nat → List (Noted H K) → List (DeathRow H K) → Prop
  | nil {base : Nat} : Tracks live base [] []
  | cons {base : Nat} {b : Noted H K} {later : List (Noted H K)} {row : DeathRow H K}
      {rows : List (DeathRow H K)} (number : b.number = base) (hash : row.hash = b.record.hash)
      (deleted : ∀ k, k ∈ row.deleted ↔ k ∈ b.record.deleted ∧ ∀ b' ∈ later, k ∉ b'.record.inserted)
      (dead : ∀ k ∈ row.deleted, live k = false ∧ ∀ b' ∈ b :: later, b'.live k = false)
      (rest : Tracks live (base + 1) later rows) :
      Tracks live base (b :: later) (row :: rows)

/-- The index has the row of each key that is in one. -/
def Indexes (base : Nat) (rows : List (DeathRow H K)) (index : FinMap K Nat) : Prop :=
  ∀ k block, index.get? k = some block ↔
    ∃ i row, rows[i]? = some row ∧ k ∈ row.deleted ∧ block = base + i

/-- A row without some keys. -/
def DeathRow.without (row : DeathRow H K) (keys : List K) : DeathRow H K :=
  { row with deleted := row.deleted.filter (· ∉ keys) }

section
variable {l : K → Bool} {ba : Nat} {bs : List (Noted H K)} {rs : List (DeathRow H K)}
  {ix : FinMap K Nat} {r : JournalRecord H K} {k : K}

theorem DeathRow.mem_without : k ∈ (row.without keys).deleted ↔ k ∈ row.deleted ∧ k ∉ keys := by
  show k ∈ row.deleted.filter _ ↔ _
  rw [mem_filter, decide_eq_true_iff]

theorem DeathRow.remove_of_notMem (h : k ∉ row.deleted) : row.remove k = row := by
  have hfil : row.deleted.filter (· ≠ k) = row.deleted := by
    refine filter_eq_self.mpr fun k' hk' => ?_
    rw [decide_eq_true_iff]
    rintro rfl
    exact h hk'
  rw [remove, hfil]

theorem DeathRow.without_cons : row.without (k :: keys) = (row.remove k).without keys := by
  unfold without remove
  congr 1
  simp [Bool.and_comm]

section
omit [DecidableEq K]

theorem Tracks.length_eq (h : Tracks l ba bs rs) : rs.length = bs.length := by
  induction h with
  | nil => rfl
  | cons _ _ _ _ _ ih => rw [length_cons, length_cons, ih]

/-- A key in a row is not live. -/
theorem Tracks.dead_of_mem (h : Tracks l ba bs rs) (hrow : row ∈ rs)
    (hk : k ∈ row.deleted) : l k = false := by
  induction h with
  | nil => cases hrow
  | cons number hash deleted d rest ih =>
    cases mem_cons.mp hrow with
    | inl heq => exact (d k (heq ▸ hk)).1
    | inr hrow => exact ih hrow

theorem tracks_nil : Tracks l ba bs [] ↔ bs = [] := by
  constructor
  · intro h
    cases h
    rfl
  · rintro rfl
    exact .nil

end

/-- The rows with a new block. -/
theorem Tracks.note (h : Tracks l ba bs rs) (hnum : number = ba + bs.length) :
    Tracks (r.after l) ba (bs ++ [⟨number, r, r.after l⟩])
      (rs.map (·.without r.inserted) ++ [r.row]) := by
  induction h with
  | nil =>
    refine .cons hnum rfl (fun k => ?_) (fun k hk => ?_) .nil
    · show k ∈ r.deleted.dedup ↔ _
      simp
    · have hdel : k ∈ r.deleted := mem_dedup.mp hk
      have hde : r.after l k = false := by simp [JournalRecord.after, hdel]
      exact ⟨hde, fun b hb => mem_singleton.mp hb ▸ hde⟩
  | @cons ba b later row rs bn hash d de rest ih =>
    rw [cons_append]
    refine .cons bn hash (fun k => ?_) (fun k hk => ?_) (ih ?_)
    · rw [DeathRow.mem_without, d, and_assoc]
      rw [forall_mem_append, forall_mem_singleton]
    · obtain ⟨hrow, hnot⟩ := DeathRow.mem_without.mp hk
      obtain ⟨hlive, hstates⟩ := de k hrow
      have hde : r.after l k = false := by simp [JournalRecord.after, hlive, hnot]
      refine ⟨hde, fun b' hb' => ?_⟩
      rw [← cons_append, mem_append, mem_singleton] at hb'
      cases hb' with
      | inl hb' => exact hstates b' hb'
      | inr heq => exact heq ▸ hde
    · rw [hnum, length_cons]
      omega

/-! ## The index -/

section
variable (h : Indexes ba rs ix)

include h

/-- No key is in two rows. -/
theorem Indexes.unique {i j : Nat} {r' : DeathRow H K} (hi : rs[i]? = some row)
    (hk : k ∈ row.deleted) (hj : rs[j]? = some r') (hk' : k ∈ r'.deleted) : i = j := by
  have h1 := (h k (ba + i)).mpr ⟨i, row, hi, hk, rfl⟩
  have h2 := (h k (ba + j)).mpr ⟨j, r', hj, hk', rfl⟩
  have heq := some.inj (h1.symm.trans h2)
  omega

/-- One key that is inserted again: it is in no row after. -/
theorem Indexes.reinsert (k : K) :
    ∃ i', reinsert ba (rs, ix) k = some (rs.map (·.remove k), i') ∧
      Indexes ba (rs.map (·.remove k)) i' := by
  -- what is in a row after is another key that was in it before
  have hr : ∀ (k' : K) b,
      (∃ i row, (rs.map (·.remove k))[i]? = some row ∧ k' ∈ row.deleted ∧ b = ba + i) ↔
        k' ≠ k ∧ ix.get? k' = some b := by
    intro k' b
    rw [h k' b]
    constructor
    · rintro ⟨i, row, hrow, hk', rfl⟩
      rw [getElem?_map, map_eq_some_iff] at hrow
      obtain ⟨row, hrow, rfl⟩ := hrow
      obtain ⟨hk', hne⟩ := mem_filter.mp hk'
      exact ⟨of_decide_eq_true hne, i, row, hrow, hk', rfl⟩
    · rintro ⟨hne, i, row, hrow, hk', rfl⟩
      refine ⟨i, row.remove k, by rw [getElem?_map, hrow]; rfl, ?_, rfl⟩
      exact mem_filter.mpr ⟨hk', decide_eq_true hne⟩
  unfold Pruning.reinsert
  cases hidx : ix.get? k with
  | none =>
    have hs : rs.map (·.remove k) = rs := by
      refine (map_congr_left fun row hrow => ?_).trans (map_id rs)
      refine DeathRow.remove_of_notMem fun hk => ?_
      obtain ⟨i, hi⟩ := mem_iff_getElem?.mp hrow
      cases hidx.symm.trans ((h k (ba + i)).mpr ⟨i, row, hi, hk, rfl⟩)
    refine ⟨ix, by simp only [hidx, hs], fun k' b => ?_⟩
    rw [hr k' b]
    refine (and_iff_right_of_imp ?_).symm
    rintro hblk rfl
    cases hidx.symm.trans hblk
  | some b =>
    obtain ⟨i, row, hrow, hk, rfl⟩ := (h k b).mp hidx
    have hset : rs.set i (row.remove k) = rs.map (·.remove k) := by
      refine ext_getElem? fun j => ?_
      rw [getElem?_set, getElem?_map]
      split
      next heq =>
        subst heq
        rw [if_pos (List.getElem?_eq_some_iff.mp hrow).1, hrow]
        rfl
      next hne =>
        cases hrow' : rs[j]? with
        | none => rfl
        | some r' =>
          have hnot : k ∉ r'.deleted := fun hk' => hne (h.unique hrow hk hrow' hk')
          rw [map_some, DeathRow.remove_of_notMem hnot]
    refine ⟨ix.erase k, ?_, fun k' b => ?_⟩
    · have hle : ¬ ba + i < ba := not_lt.mpr (Nat.le_add_right ..)
      simp only [hidx, if_neg hle, Nat.add_sub_cancel_left, hrow, map_some, hset]
    · rw [hr k' b, FinMap.get?_erase]
      split
      next heq => simp [heq]
      next hne => rw [and_iff_right hne]

theorem Indexes.reinsertAll (ks : List K) :
    ∃ i', ks.foldlM (Pruning.reinsert ba) (rs, ix) =
        some (rs.map (·.without ks), i') ∧
      Indexes ba (rs.map (·.without ks)) i' := by
  induction ks generalizing rs ix with
  | nil =>
    have hs : rs.map (·.without []) = rs := by
      simp [DeathRow.without]
    rw [hs]
    exact ⟨ix, rfl, h⟩
  | cons k ks ih =>
    obtain ⟨index1, hone, h1⟩ := h.reinsert k
    obtain ⟨index2, hrest, h2⟩ := ih h1
    have hmap : (rs.map (·.remove k)).map (·.without ks) = rs.map (·.without (k :: ks)) := by
      rw [List.map_map]
      exact map_congr_left fun row _ => DeathRow.without_cons.symm
    rw [hmap] at hrest h2
    refine ⟨index2, ?_, h2⟩
    rw [foldlM_cons, hone]
    exact hrest

/-- A new row with keys that are in no other. -/
theorem Indexes.concat (row : DeathRow H K) (hke : ∀ k, k ∈ row.deleted ↔ k ∈ keys)
    (hnew : ∀ k ∈ keys, ∀ r' ∈ rs, k ∉ r'.deleted) :
    Indexes ba (rs ++ [row]) (keys.foldl (fun ix k => ix.insert k (ba + rs.length)) ix) := by
  intro k b
  rw [FinMap.get?_foldl_insert]
  constructor
  · intro hblk
    split at hblk
    next hk =>
      cases hblk
      exact ⟨rs.length, row, getElem?_concat_length, (hke k).mpr hk, rfl⟩
    · obtain ⟨i, r', hi, hk, heq⟩ := (h k b).mp hblk
      refine ⟨i, r', ?_, hk, heq⟩
      rw [getElem?_append_left (List.getElem?_eq_some_iff.mp hi).1, hi]
  · rintro ⟨i, r', hi, hk, rfl⟩
    rw [getElem?_append] at hi
    split at hi
    · have hnot : k ∉ keys := fun hmem => hnew k hmem r' (mem_of_getElem? hi) hk
      rw [if_neg hnot]
      exact (h k _).mpr ⟨i, r', hi, hk, rfl⟩
    rw [getElem?_singleton] at hi
    split at hi
    · cases hi
      rw [if_pos ((hke k).mp hk)]
      congr 1
      omega
    · cases hi

end

/-- The first row is gone. -/
theorem Indexes.tail (h : Indexes ba (row :: rs) ix) :
    Indexes (ba + 1) rs (row.deleted.foldl FinMap.erase ix) := by
  intro k b
  rw [FinMap.get?_foldl_erase]
  constructor
  · intro hblk
    split at hblk
    · cases hblk
    rename_i hnot
    obtain ⟨i, r', hi, hk, rfl⟩ := (h k b).mp hblk
    cases i with
    | zero =>
      cases hi
      exact absurd hk hnot
    | succ i => exact ⟨i, r', by simpa using hi, hk, by omega⟩
  · rintro ⟨i, r', hi, hk, rfl⟩
    have hi' : (row :: rs)[i + 1]? = some r' := by simpa using hi
    have hnot : k ∉ row.deleted := fun hfst => by
      cases h.unique (i := 0) rfl hfst hi' hk
    rw [if_neg hnot]
    exact (h k _).mpr ⟨i + 1, r', hi', hk, by omega⟩

end

/-! ## The invariant -/

namespace Chronicle

variable {db : Db H K} {c c' : Chronicle H K} {r : JournalRecord H K} {i : FinMap K Nat}
  {rs : List (DeathRow H K)} {ba : Nat}

/-- The window in memory is that of the chronicle. -/
inductive Faithful (c : Chronicle H K) : Prop
  | mk (rows : List (DeathRow H K)) (index : FinMap K Nat)
      (queue : c.window.queue = .mem rows index)
      (tracks : Tracks c.live c.window.base c.blocks rows)
      (indexes : Indexes c.window.base rows index)

/-- A block comes in at the end. -/
theorem faithful_note (htr : Tracks c.live ba c.blocks rs)
    (hidx : Indexes ba rs i) (hlaw : r.Lawful c.live) (hnum : number = ba + rs.length) :
    ∃ q, (mem rs i).importBlock ba number r = some q ∧ (c.note ⟨q, ba⟩ number r).Faithful := by
  obtain ⟨index', hr, hi'⟩ := hidx.reinsertAll r.inserted
  have hnew : ∀ k ∈ r.deleted, ∀ row ∈ rs.map (·.without r.inserted), k ∉ row.deleted := by
    intro k hk row' hr' hmem
    obtain ⟨row, hrow, rfl⟩ := mem_map.mp hr'
    obtain ⟨hmem, hnot⟩ := DeathRow.mem_without.mp hmem
    have hde := htr.dead_of_mem hrow hmem
    rcases hlaw k hk with hl | hins
    · cases hde.symm.trans hl
    · exact hnot hins
  have hcat := hi'.concat r.row (fun k => mem_dedup) hnew
  refine ⟨_, ?_, .mk _ _ rfl (htr.note (htr.length_eq ▸ hnum)) hcat⟩
  unfold importBlock
  simp only [hr]
  rfl

/-- The base of the window that a block is noted in. -/
theorem window_of_baseFor (hq : c.window.queue = .mem rs i)
    (htr : Tracks c.live c.window.base c.blocks rs)
    (hidx : Indexes c.window.base rs i) (h : c.window.baseFor number = some ba) :
    number = ba + rs.length ∧ Tracks c.live ba c.blocks rs ∧ Indexes ba rs i := by
  have hs : c.window.windowSize = rs.length := by
    unfold windowSize
    rw [hq]
    rfl
  unfold baseFor at h
  split at h
  next hfst =>
    cases h
    have hlen : rs.length = 0 := by
      rw [← hs]
      exact of_decide_eq_true hfst.2.1
    obtain rfl := eq_nil_of_length_eq_zero hlen
    refine ⟨rfl, tracks_nil.mpr (tracks_nil.mp htr), fun k b => ?_⟩
    rw [hidx k b]
    simp
  · split at h
    · cases h
    next heq =>
      cases h
      rw [hs] at heq
      exact ⟨(not_not.mp heq).symm, htr, hidx⟩

theorem pruneOne_mem (db : Db H K) (hq : w.queue = .mem (row :: rs) i) (co : CommitSet H K V) :
    w.pruneOne db co = (.ok (),
      ⟨.mem rs (row.deleted.foldl FinMap.erase i), w.base + 1⟩,
      ⟨⟨co.data.inserted, co.data.deleted ++ row.deleted⟩,
        co.metaInserted ++ [.lastPruned w.base], co.metaDeleted ++ [w.base]⟩) := by
  unfold pruneOne
  rw [hq]
  rfl

theorem pruneOne_nil (db : Db H K) (hq : w.queue = .mem [] i) (co : CommitSet H K V) :
    w.pruneOne db co = (.error .blockUnavailable, w, co) := by
  unfold pruneOne
  rw [hq, popFront, ← hq]

theorem Faithful.call (h : c.Faithful) (db : Db H K) {e : Call H K V} (he : c.Lawful e) :
    ∃ c', call db c e = some c' ∧ c'.Faithful := by
  have hfai := h
  obtain ⟨rs, i, hq, htr, hidx⟩ := h
  cases e with
  | noteCanonical hash number co =>
    unfold Chronicle.call noteCanonical
    cases hb : c.window.baseFor number with
    | none =>
      simp only [hb]
      exact ⟨c, rfl, hfai⟩
    | some ba =>
      have hlaw := he (by rw [hb]; rfl)
      obtain ⟨hnum, htr', hi'⟩ := window_of_baseFor hq htr hidx hb
      obtain ⟨queue, himp, hnext⟩ := faithful_note htr' hi' hlaw hnum
      unfold recordOf at himp
      simp only [hb, hq, isMem, if_true, himp]
      exact ⟨_, rfl, hnext⟩
  | pruneOne co =>
    unfold Chronicle.call
    cases rs with
    | nil =>
      simp only [pruneOne_nil db hq]
      exact ⟨c, rfl, hfai⟩
    | cons row rs =>
      simp only [pruneOne_mem db hq]
      refine ⟨_, rfl, .mk _ _ rfl ?_ hidx.tail⟩
      generalize c.blocks = blocks at htr
      cases htr with
      | cons number hash deleted dead re => exact re

theorem Faithful.exact (h : c.Faithful) : c.Exact db V := by
  obtain ⟨rs, i, hq, htr, -⟩ := h
  refine ⟨?_, fun hnil co => ?_, fun b later hb co => ?_⟩
  · unfold nextHash
    rw [hq]
    generalize c.blocks = blocks at htr
    cases htr with
    | nil => rfl
    | cons number hash d de re => exact congrArg some hash
  · rw [hnil] at htr
    cases htr
    exact pruneOne_nil db hq co
  · rw [hb] at htr ⊢
    cases htr with
    | cons number hash d de re =>
      have hpru := pruneOne_mem db hq co
      rw [← number] at hpru
      exact ⟨_, _, hpru, d, fun k hk => (de k hk).2⟩

/-! ## Runs -/

/-- The chronicle goes beside the window that is read. -/
theorem readJournal_window (db : Db H K) (f : Nat) (hb : c.window.base = ba) :
    (readJournal db f c).map window =
      (DeathRowQueue.readJournal db ba f (ba + c.blocks.length) c.window.queue).map
        fun q => ⟨q, ba⟩ := by
  induction f generalizing c with
  | zero => rfl
  | succ f ih =>
    unfold readJournal DeathRowQueue.readJournal
    simp only [hb]
    cases db.journal (ba + c.blocks.length) with
    | none => rw [map_some, map_some, ← hb]
    | some r =>
      dsimp only
      cases c.window.queue.importBlock ba (ba + c.blocks.length) r with
      | none => rfl
      | some q =>
        have hn := ih (c := c.note ⟨q, ba⟩ (ba + c.blocks.length) r) rfl
        have hlen : (c.note ⟨q, ba⟩ (ba + c.blocks.length) r).blocks.length =
          c.blocks.length + 1 := length_append
        rw [hlen] at hn
        exact hn

theorem new_window (f : Nat) (db : Db H K) (l : K → Bool) (ws : Nat) :
    (new f db l).map window = RefWindow.new f db ws true := by
  rw [new, readJournal_window db f rfl, map_eq_bind]
  rfl

theorem Faithful.readJournal (h : c.Faithful) {f : Nat}
    (hlaw : LawfulJournal db f (c.window.base + c.blocks.length) c.live)
    (hr : readJournal db f c = some c') : c'.Faithful := by
  induction f generalizing c with
  | zero => cases hr
  | succ f ih =>
    unfold readJournal at hr
    dsimp only at hr
    cases hj : db.journal (c.window.base + c.blocks.length) with
    | none =>
      rw [hj] at hr
      cases hr
      exact h
    | some r =>
      rw [hj] at hr
      obtain ⟨q, hq, hr⟩ := bind_eq_some_iff.mp hr
      obtain ⟨hrec, hrest⟩ := hlaw r hj
      obtain ⟨rs, i, hmem, htr, hidx⟩ := h
      obtain ⟨queue', himp, hnext⟩ := faithful_note htr hidx hrec (by rw [htr.length_eq])
      rw [hmem, himp] at hq
      cases hq
      refine ih hnext ?_ hr
      have hlen : (c.note ⟨q, c.window.base⟩ (c.window.base + c.blocks.length) r).blocks.length
        = c.blocks.length + 1 := length_append
      rw [hlen]
      exact hrest

/-- From a window that is read from any journal, in every run in which blocks only delete live keys:
no call panics, and the next block to be pruned deletes exactly the dead keys. -/
theorem exact_of_lawful {fuel : Nat} {live : K → Bool} {calls : List (Call H K V)}
    (hjournal : LawfulJournal db fuel (start db live).window.base live)
    (hnew : new fuel db live = some c)
    (hcalls : Run.Each (step db) (fun o e => ∀ c, o = some c → c.Lawful e) (some c) calls) :
    Run.Always (step db) (fun o => ∃ c, o = some c ∧ c.Exact db V) (some c) calls := by
  have hst : (start db live).Faithful := .mk [] .empty rfl .nil fun _ _ => by simp
  have hinv := Run.Each.always (I := fun o => ∃ c, o = some c ∧ c.Faithful)
    (by
      rintro o e ⟨c, rfl, h⟩ he
      obtain ⟨c', hc, h'⟩ := h.call db (he c rfl)
      exact ⟨c', hc, h'⟩)
    ⟨c, rfl, hst.readJournal hjournal hnew⟩ hcalls
  intro pre hpre
  obtain ⟨c', hc', h'⟩ := hinv pre hpre
  exact ⟨c', hc', h'.exact⟩

/-- A database with one block left to prune. -/
def oneBlockDb : Db Nat Nat where
  lastPruned := some 4
  lastCanonical := some 5
  journal := fun number => if number = 5 then some ⟨50, [], [1]⟩ else none

/-- The key that waits in the row of the first block is inserted and deleted again, and the row of
the last block is left. -/
def reviveRun : List (Call Nat Nat Nat) :=
  [.noteCanonical 51 6 ⟨⟨[(1, 10), (3, 30)], [2]⟩, [], []⟩, .noteCanonical 52 7 ⟨⟨[], [1]⟩, [], []⟩,
    .pruneOne ⟨⟨[], []⟩, [], []⟩, .pruneOne ⟨⟨[], []⟩, [], []⟩]

theorem exact_reviveRun : ∃ c0 c, new 2 oneBlockDb (· ≤ 2) = some c0 ∧
    Run.exec (step oneBlockDb) (some c0) reviveRun = some c ∧ c.Exact oneBlockDb Nat ∧
    c.blocks.map (fun b => (b.number, b.record.deleted)) = [(7, [1])] := by
  have hj : LawfulJournal oneBlockDb 2 (start oneBlockDb (· ≤ 2)).window.base (· ≤ 2) := by
    intro r hrec
    cases hrec
    exact ⟨by decide, fun r hn => by cases hn⟩
  obtain ⟨c0, hnew, hlaw, hend⟩ : ∃ c0, new 2 oneBlockDb (· ≤ 2) = some c0 ∧
      Run.Each (step oneBlockDb) (fun o e => ∀ c, o = some c → c.Lawful e) (some c0) reviveRun ∧
      ∀ c, Run.exec (step oneBlockDb) (some c0) reviveRun = some c →
        c.blocks.map (fun b => (b.number, b.record.deleted)) = [(7, [1])] := by
    decide +kernel
  obtain ⟨c, hc, hex⟩ := (exact_of_lawful hj hnew hlaw).last
  exact ⟨c0, c, hnew, hc, hex, hend c hc⟩

end Chronicle

end StateDb.Pruning
