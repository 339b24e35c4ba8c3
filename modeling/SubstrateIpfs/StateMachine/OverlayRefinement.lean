-- SUMMARY: The overlayed changes refine one plain state with saved copies.
import SubstrateIpfs.StateMachine.Overlay
import SubstrateIpfs.StateMachine.Refinement

/-!
# The overlayed changes refine snapshots

What all the change sets together are for: one state with the contents of the
top storage, of every child storage and of the offchain database, and copies of
it for the open transactions. Which child storages have a change set is kept
beside it, and so are the transaction index operations, of which no copy is
ever made.
-/

namespace StateMachine

open Option Function Snapshots OverlayedChanges OverlayedChangeSet

/-! ## The reference -/

/-- The pending changes of a storage. -/
abbrev StorageContents := StorageKey → Option (Option StorageValue)

/-- What the pending changes amount to, key by key. -/
structure Contents where
  top : StorageContents
  child : StorageKey → StorageContents
  offchain : StorageKey × StorageKey → Option OffchainOverlayedChange

structure OverlayReference where
  store : Snapshots Contents
  /-- The child storages that have a change set. -/
  present : Set StorageKey
  index : List IndexOperation
  entered : Option ℕ

/-- The operations that write, and do nothing else. -/
def OverlayOp.isWrite : OverlayOp → Bool
  | .startTransaction | .commitTransaction _ | .rollbackTransaction _ | .enterRuntime
  | .exitRuntime _ | .drainStorageChanges => false
  | _ => true

/-- What an operation adds to the transaction index. -/
def OverlayOp.indexOps : OverlayOp → List IndexOperation
  | .addTransactionIndex op => [op]
  | _ => []

/-- The child storage that an operation writes to. -/
def OverlayOp.child? : OverlayOp → Option StorageKey
  | .setChildStorage storageKey _ _ | .clearChildStorage storageKey
  | .clearChildPrefix storageKey _ => some storageKey
  | _ => none

/-- Change the contents of one child storage. -/
def Contents.updateChild (c : Contents) (storageKey : StorageKey)
    (f : StorageContents → StorageContents) :
    Contents :=
  { c with child := update c.child storageKey (f (c.child storageKey)) }

/-- What an operation writes. -/
def OverlayOp.apply : OverlayOp → Contents → Contents
  | .setStorage key val, c => { c with top := update c.top key (some val) }
  | .valueMutOrInsertWith key init write, c =>
    let value := ((c.top key).getD (some init)).getD []
    { c with top := update c.top key (some (some (write value))) }
  | .clearPrefix keyPrefix, c => { c with top := Reference.cleared keyPrefix.isPrefixOf c.top }
  | .setChildStorage storageKey key val, c =>
    c.updateChild storageKey fun map => update map key (some val)
  | .clearChildStorage storageKey, c => c.updateChild storageKey (Reference.cleared fun _ => true)
  | .clearChildPrefix storageKey keyPrefix, c =>
    c.updateChild storageKey (Reference.cleared keyPrefix.isPrefixOf)
  | .setOffchainStorage key value, c =>
    let change := OffchainOverlayedChange.ofValue value
    { c with offchain := update c.offchain (offchainStoragePrefix, key) (some change) }
  | _, c => c

variable {op : OverlayOp} {cs : OverlayedChangeSet StorageKey StorageValue}
  {storageKey : StorageKey}

namespace OverlayReference

def empty : OverlayReference where
  store := ⟨⟨fun _ => none, fun _ _ => none, fun _ => none⟩, []⟩
  present := ∅
  index := []
  entered := none

/-- There is a transaction that may be closed. -/
def canClose (r : OverlayReference) : Prop := r.entered.getD 0 < r.store.saved.length

instance (r : OverlayReference) : Decidable r.canClose := inferInstanceAs (Decidable (_ < _))

theorem canClose.map {r : OverlayReference} (h : r.canClose) {S : Type} (f : Contents → S) :
    r.entered.getD 0 < (r.store.map f).saved.length := by
  rw [length_saved_map]
  exact h

theorem canClose.lt {r : OverlayReference} {d : ℕ} (h : r.canClose)
    (hent : r.entered = some d) : d < r.store.saved.length := by
  rw [canClose, hent] at h
  exact h

/-- A child storage that has been written, now or in a saved copy. -/
def Written (store : Snapshots Contents) (storageKey : StorageKey) : Prop :=
  ¬ (store.map fun c => c.child storageKey).Constant fun _ => none

def write (r : OverlayReference) (op : OverlayOp) : OverlayReference where
  store := r.store.update op.apply
  present := r.present ∪ {storageKey | op.child? = some storageKey}
  index := r.index ++ op.indexOps
  entered := r.entered

/-- After a rollback only those child storages have a change set that have been
written. -/
def rollback (r : OverlayReference) : OverlayReference :=
  { r with store := r.store.rollback, present := {c | Written r.store.rollback c} }

/-- The state after an operation. An operation that returns an error does
nothing. -/
def step (r : OverlayReference) : OverlayOp → OverlayReference
  | .startTransaction => { r with store := r.store.start }
  | .commitTransaction _ => if r.canClose then { r with store := r.store.commit } else r
  | .rollbackTransaction _ => if r.canClose then r.rollback else r
  | .enterRuntime => { r with entered := some (r.entered.getD r.store.saved.length) }
  | .exitRuntime _ => { r with
      store := r.store.rollbackTo (r.entered.getD r.store.saved.length)
      entered := none }
  | .drainStorageChanges => empty
  | op => r.write op

variable {r : OverlayReference}

theorem step_rollback (h : r.canClose) (os : IterationOrders) :
    r.step (.rollbackTransaction os) = r.rollback :=
  if_pos h

/-- A part of the store that the operation does not write. -/
theorem map_write (r : OverlayReference) {S : Type} {f : Contents → S}
    (h : ∀ c, f (op.apply c) = f c) : (r.write op).store.map f = r.store.map f :=
  map_update_of_eq h r.store

theorem present_write (r : OverlayReference) (h : op.child? = none) :
    (r.write op).present = r.present := by
  simp [write, h]

theorem index_write (r : OverlayReference) (h : op.indexOps = []) :
    (r.write op).index = r.index := by
  simp [write, h]

theorem step_of_isWrite (r : OverlayReference) (h : op.isWrite) : r.step op = r.write op := by
  cases op with
  | startTransaction | commitTransaction | rollbackTransaction | enterRuntime | exitRuntime
  | drainStorageChanges => cases h
  | _ => rfl

end OverlayReference

/-! ## The relation -/

open OverlayedMap (Follows Cells SameMode)

/-- A child storage either has a change set, or has never been written. -/
inductive ChildStands (store : Snapshots StorageContents)
    (entered : Option ℕ) (present : Prop) :
    Option (OverlayedChangeSet StorageKey StorageValue) → Prop where
  | there {changeset : OverlayedChangeSet StorageKey StorageValue}
      (h : changeset.Follows store entered) (hpresent : present) :
      ChildStands store entered present (some changeset)
  | absent (h : store.Constant fun _ => none) (hpresent : ¬ present) :
      ChildStands store entered present none

/-- The overlay stands for a state of the reference. -/
structure Stands (s : OverlayedChanges) (r : OverlayReference) : Prop where
  top : s.top.Follows (r.store.map (·.top)) r.entered
  child : ∀ storageKey, ChildStands (r.store.map (·.child storageKey)) r.entered
    (storageKey ∈ r.present) (s.children.lookup storageKey)
  offchain : s.offchain.Follows (r.store.map (·.offchain)) r.entered
  index : s.transactionIndexOps = r.index
  entered_le : ∀ depth, r.entered = some depth → depth ≤ r.store.saved.length

theorem stands_empty : Stands OverlayedChanges.default OverlayReference.empty where
  top := OverlayedMap.follows_empty
  child storageKey := .absent ⟨rfl, by simp [OverlayReference.empty, map]⟩
    (Set.notMem_empty storageKey)
  offchain := OverlayedMap.follows_empty
  index := rfl
  entered_le depth h := by cases h

namespace Stands

variable {s : OverlayedChanges} {r : OverlayReference}

/-- The change set that a write to a child storage works on. -/
theorem childOrSpawn (h : Stands s r) (k : StorageKey) :
    (s.childOrSpawn k).Follows (r.store.map (·.child k)) r.entered := by
  have hch := h.child k
  unfold OverlayedChanges.childOrSpawn
  generalize s.children.lookup k = changeset at hch
  cases hch with
  | there hfol => exact hfol
  | absent hcon => exact h.top.spawnChild hcon (by simp)

/-- Reading the index of the current extrinsic does not fail. -/
theorem extrinsicIndex (h : Stands s r) : ∃ index, s.extrinsicIndex = some index := by
  unfold OverlayedChanges.extrinsicIndex
  cases s.collectExtrinsics with
  | false => exact ⟨none, rfl⟩
  | true =>
    have hs : ∃ value, s.storage extrinsicIndexKey = some value := by
      unfold storage
      cases hget : s.top.get extrinsicIndexKey with
      | none => exact ⟨none, rfl⟩
      | some e =>
        obtain ⟨value, rest, hv, -⟩ := h.top.cells.head_values hget
        exact ⟨some value, by simp [e.valueRef_eq, hv]⟩
    obtain ⟨value, hval⟩ := hs
    simp [hval]

/-! ### Writes -/

/-- A write to the top storage. -/
theorem write_top (h : Stands s r) {top : OverlayedChangeSet StorageKey StorageValue}
    (htop : top.Follows ((r.store.update op.apply).map (·.top)) r.entered)
    (happ : ∀ c, (op.apply c).child = c.child ∧ (op.apply c).offchain = c.offchain)
    (hch : op.child? = none) (hidx : op.indexOps = []) :
    Stands { s with top := top } (r.write op) where
  top := htop
  child storageKey := by
    rw [r.present_write hch, r.map_write fun c => by rw [(happ c).1]]
    exact h.child storageKey
  offchain := by
    rw [r.map_write fun c => (happ c).2]
    exact h.offchain
  index := h.index.trans (r.index_write hidx).symm
  entered_le := h.entered_le

/-- A write to a child storage, which has a change set afterwards. -/
theorem write_child (h : Stands s r) {chg : OverlayedChangeSet StorageKey StorageValue}
    {f : StorageContents → StorageContents}
    (hset : chg.Follows ((r.store.map (·.child storageKey)).update f) r.entered)
    (happ : ∀ c, op.apply c = c.updateChild storageKey f) (hch : op.child? = some storageKey)
    (hidx : op.indexOps = []) :
    Stands { s with children := s.children.insert storageKey chg } (r.write op) where
  top := by
    rw [r.map_write fun c => by rw [happ]; rfl]
    exact h.top
  child storageKey' := by
    by_cases heq : storageKey' = storageKey
    · subst heq
      have hmap : (r.store.update op.apply).map (·.child storageKey') =
          (r.store.map (·.child storageKey')).update f :=
        map_update (fun c => by simp [happ, Contents.updateChild]) r.store
      rw [AList.lookup_insert]
      exact .there (hmap ▸ hset) (by simp [OverlayReference.write, hch])
    · rw [r.map_write fun c => by simp [happ, Contents.updateChild, heq]]
      simpa [OverlayReference.write, hch, heq] using h.child storageKey'
  offchain := by
    rw [r.map_write fun c => by rw [happ]; rfl]
    exact h.offchain
  index := h.index.trans (r.index_write hidx).symm
  entered_le := h.entered_le

/-- Clearing by a predicate on keys clears these keys in the contents. -/
theorem follows_clearWhere {st : Snapshots StorageContents}
    {en : Option ℕ} (h : cs.Follows st en) (ss : StorageKey → Bool) (ext : Option UInt32) :
    ∃ c cs', clearWhere cs (fun key _ => ss key) ext =
        some (c, cs') ∧ cs'.Follows (st.update (Reference.cleared ss)) en := by
  obtain ⟨c, cs', hclr, hcel, hm⟩ := cells_clearWhere h.cells (fun key _ => ss key) ext
  refine ⟨c, cs', hclr, h.of_store ?_ hm⟩
  -- a key that is selected but not there has nothing to clear
  have hc : Reference.cleared (fun key => (cs.get key).any fun _ => ss key)
      st.current = Reference.cleared ss st.current := by
    funext key
    unfold Reference.cleared
    cases hget : cs.get key with
    | none =>
      have hcur : st.current key = none := h.cells.current_of_lookup_none hget
      simp [hcur]
    | some e => simp only [hget, any_some]
  rw [Snapshots.update, hc] at hcel
  exact hcel

theorem write (h : Stands s r) {op : OverlayOp} (hwr : op.isWrite) :
    ∃ s', s.step op = some (false, s') ∧ Stands s' (r.write op) := by
  obtain ⟨ext, hext⟩ := h.extrinsicIndex
  cases op with
  | startTransaction | commitTransaction | rollbackTransaction | enterRuntime | exitRuntime
  | drainStorageChanges => cases hwr
  | setCollectExtrinsics collectExtrinsics =>
    refine ⟨_, rfl, h.top, ?_, h.offchain, ?_, h.entered_le⟩
    · rw [r.present_write rfl]
      exact h.child
    · rw [r.index_write rfl]
      exact h.index
  | setStorage key val =>
    obtain ⟨top, hset, hcel, hm⟩ := h.top.cells.set key val ext
    refine ⟨{ s with top := top }, ?_, ?_⟩
    · simp [OverlayedChanges.step, setStorage, hext, hset]
    · exact h.write_top (h.top.of_store hcel hm) (fun c => ⟨rfl, rfl⟩) rfl rfl
  | valueMutOrInsertWith key i write =>
    obtain ⟨top, hmod, hcel, hm⟩ := cells_modify h.top.cells key i
      ext fun v => some (write (v.getD []))
    refine ⟨{ s with top := top }, ?_, ?_⟩
    · simp [OverlayedChanges.step, valueMutOrInsertWith, hext, hmod]
    · exact h.write_top (h.top.of_store hcel hm) (fun c => ⟨rfl, rfl⟩) rfl rfl
  | clearPrefix kp =>
    obtain ⟨cnt, top, hclr, htop⟩ := follows_clearWhere h.top kp.isPrefixOf ext
    refine ⟨{ s with top := top }, ?_, ?_⟩
    · simp [OverlayedChanges.step, clearPrefix, hext, hclr]
    · exact h.write_top htop (fun c => ⟨rfl, rfl⟩) rfl rfl
  | setChildStorage storageKey key val =>
    have hch := h.childOrSpawn storageKey
    obtain ⟨chg, hset, hcel, hm⟩ := hch.cells.set key val ext
    refine ⟨{ s with children := s.children.insert storageKey chg }, ?_, ?_⟩
    · simp [OverlayedChanges.step, setChildStorage, hext, hset]
    · exact h.write_child (hch.of_store hcel hm) (fun c => rfl) rfl rfl
  | clearChildStorage storageKey =>
    obtain ⟨cnt, chg, hclr, hcs⟩ :=
      follows_clearWhere (h.childOrSpawn storageKey) (fun _ => true) ext
    refine ⟨{ s with children := s.children.insert storageKey chg }, ?_, ?_⟩
    · simp [OverlayedChanges.step, clearChildStorage, clearChildWhere, hext, hclr]
    · exact h.write_child hcs (fun c => rfl) rfl rfl
  | clearChildPrefix storageKey kp =>
    obtain ⟨cnt, chg, hclr, hcs⟩ := follows_clearWhere (h.childOrSpawn storageKey) kp.isPrefixOf ext
    refine ⟨{ s with children := s.children.insert storageKey chg }, ?_, ?_⟩
    · simp [OverlayedChanges.step, clearChildPrefix, clearChildWhere, hext, hclr]
    · exact h.write_child hcs (fun c => rfl) rfl rfl
  | setOffchainStorage key v =>
    obtain ⟨o, hset, hcel, hm⟩ := h.offchain.cells.set (offchainStoragePrefix, key)
      (.ofValue v) none
    refine ⟨{ s with offchain := o }, ?_, h.top, ?_, ?_, ?_, h.entered_le⟩
    · simp [OverlayedChanges.step, setOffchainStorage, hset]
    · rw [r.present_write rfl]
      exact h.child
    · exact h.offchain.of_store hcel hm
    · rw [r.index_write rfl]
      exact h.index
  | addTransactionIndex op =>
    refine ⟨_, rfl, h.top, ?_, h.offchain, ?_, h.entered_le⟩
    · rw [r.present_write rfl]
      exact h.child
    · simp [OverlayReference.write, OverlayOp.indexOps, addTransactionIndex, h.index]

/-! ### Transactions -/

/-- A loop over the child change sets keeps them in step, if its body does and if
what has never been written stays so. -/
theorem traverse_children (h : Stands s r)
    {f : StorageKey → OverlayedChangeSet StorageKey StorageValue →
      Option (Option (OverlayedChangeSet StorageKey StorageValue))}
    (st : Snapshots Contents) (ent : Option ℕ) (p : Set StorageKey)
    (hthr : ∀ storageKey cs, cs.Follows (r.store.map (·.child storageKey)) r.entered →
      storageKey ∈ r.present → ∃ res, f storageKey cs = some res ∧
        ChildStands (st.map (·.child storageKey)) ent (storageKey ∈ p) res)
    (ha : ∀ storageKey, (r.store.map (·.child storageKey)).Constant (fun _ => none) →
      storageKey ∉ r.present →
        ChildStands (st.map (·.child storageKey)) ent (storageKey ∈ p) none) :
    ∃ chs, Assoc.traverse f s.children = some chs ∧ ∀ storageKey,
      ChildStands (st.map (·.child storageKey)) ent (storageKey ∈ p) (chs.lookup storageKey) := by
  refine Assoc.traverse_spec ?_ ?_
  · intro storageKey cs hlkp
    have hch := h.child storageKey
    rw [hlkp] at hch
    cases hch with
    | there hfol hp => exact hthr storageKey cs hfol hp
  · intro storageKey hlkp
    have hch := h.child storageKey
    rw [hlkp] at hch
    cases hch with
    | absent hcon hp => exact ha storageKey hcon hp

theorem startTransaction (h : Stands s r) :
    ∃ s', s.startTransaction = some s' ∧ Stands s' { r with store := r.store.start } := by
  obtain ⟨chs, ht, hchs⟩ := h.traverse_children r.store.start r.entered r.present
    (fun storageKey cs hfol hp =>
      ⟨_, rfl, .there (hfol.of_store hfol.cells.start ⟨rfl, rfl⟩) hp⟩)
    (fun storageKey hcon hp => .absent hcon.start hp)
  unfold OverlayedChanges.startTransaction
  rw [ht]
  refine ⟨_, rfl, ?_, hchs, ?_, h.index, ?_⟩
  · exact h.top.of_store h.top.cells.start ⟨rfl, rfl⟩
  · exact h.offchain.of_store h.offchain.cells.start ⟨rfl, rfl⟩
  · intro d hent
    exact (h.entered_le d hent).trans (Nat.le_succ _)

/-- Nothing is closed in any of the change sets if nothing may be closed. -/
theorem close_error (h : Stands s r) (hcan : ¬ r.canClose) (os : IterationOrders) :
    s.commitTransaction os = some (.error {}) ∧ s.rollbackTransaction os = some (.error {}) := by
  have hcld : (r.store.map (·.top)).saved.length ≤ r.entered.getD 0 := by
    rw [length_saved_map]
    exact Nat.le_of_not_lt hcan
  have htop := h.top.close_error hcld os.top
  refine ⟨?_, ?_⟩
  · simp [commitTransaction, OverlayedMap.commitTransaction, htop]
  · simp [rollbackTransaction, OverlayedMap.rollbackTransaction, htop]

theorem commitTransaction (h : Stands s r) (hcan : r.canClose) (os : IterationOrders) :
    ∃ s', s.commitTransaction os = some (.ok s') ∧
      Stands s' { r with store := r.store.commit } := by
  obtain ⟨top, htop, ht'⟩ := h.top.commitTransaction (hcan.map _) os.top
  obtain ⟨offchain, hoff, hoff'⟩ := h.offchain.commitTransaction (hcan.map _) os.offchain
  obtain ⟨ks, ht, hchs⟩ := h.traverse_children r.store.commit r.entered r.present
    (f := fun key chg => do
      let chg ← expect (← chg.commitTransaction (os.child key))
      return some chg)
    (fun storageKey cs hfol hp => by
      obtain ⟨cs', hcom, hcs'⟩ := hfol.commitTransaction (hcan.map _) (os.child storageKey)
      refine ⟨some cs', ?_, .there (by simpa using hcs') hp⟩
      simp [hcom, expect])
    (fun storageKey hcon hp => .absent (by simpa using hcon.commit) hp)
  refine ⟨{ s with top := top, children := ks, offchain := offchain }, ?_, ?_⟩
  · simp only [OverlayedChanges.commitTransaction, htop, hoff] at ht ⊢
    rw [ht]
    rfl
  · refine ⟨by simpa using ht', hchs, by simpa using hoff', h.index, ?_⟩
    intro depth hent
    simpa [commit] using Nat.le_sub_one_of_lt (hcan.lt hent)

/-- A child change set is dropped by a rollback exactly if it is empty, that is,
if the child storage has not been written in what remains. -/
theorem rollback_child (h : cs.Follows (r.store.map (·.child storageKey)) r.entered)
    (hcan : r.canClose) (os : IterationOrders) :
    ∃ res, (do
        let changeset ← expect (← cs.rollbackTransaction (os.child storageKey))
        return if changeset.isEmpty then none else some changeset) = some res ∧
      ChildStands (r.store.rollback.map (·.child storageKey)) r.entered
        (OverlayReference.Written r.store.rollback storageKey) res := by
  obtain ⟨cs', hr, hcs'⟩ := h.rollbackTransaction (hcan.map _) (os.child storageKey)
  rw [← map_rollback] at hcs'
  simp only [hr]
  refine ⟨_, rfl, ?_⟩
  have hem := hcs'.cells.isEmpty_iff
  cases hemp : cs'.isEmpty with
  | true =>
    have hcon := hem.mp hemp
    exact .absent hcon (not_not_intro hcon)
  | false => exact .there hcs' (fun hcon => by simp [hem.mpr hcon] at hemp)

theorem rollbackTransaction (h : Stands s r) (hcan : r.canClose) (os : IterationOrders) :
    ∃ s', s.rollbackTransaction os = some (.ok s') ∧ Stands s' r.rollback := by
  obtain ⟨top, htop, ht'⟩ := h.top.rollbackTransaction (hcan.map _) os.top
  obtain ⟨offchain, hoff, hoff'⟩ := h.offchain.rollbackTransaction (hcan.map _) os.offchain
  obtain ⟨ks, ht, hchs⟩ := h.traverse_children r.store.rollback r.entered
    {c | OverlayReference.Written r.store.rollback c}
    (fun storageKey cs hfol _ => rollback_child hfol hcan os)
    (fun storageKey hcon _ => by
      have hr := hcon.rollback
      rw [← map_rollback] at hr
      exact .absent hr (not_not_intro hr))
  refine ⟨{ s with top := top, children := ks, offchain := offchain }, ?_, ?_⟩
  · simp only [OverlayedChanges.rollbackTransaction, htop, hoff] at ht ⊢
    rw [ht]
    rfl
  · refine ⟨?_, hchs, ?_, h.index, ?_⟩
    · simpa [OverlayReference.rollback] using ht'
    · simpa [OverlayReference.rollback] using hoff'
    · intro depth hent
      simpa [OverlayReference.rollback, length_rollback] using Nat.le_sub_one_of_lt (hcan.lt hent)

theorem enterRuntime (h : Stands s r) (hent : r.entered = none) :
    ∃ s', s.enterRuntime = some (.ok s') ∧
      Stands s' { r with entered := some r.store.saved.length } := by
  obtain ⟨top, htop, ht'⟩ := (hent ▸ h.top).enterRuntime
  obtain ⟨offchain, hoff, hoff'⟩ := (hent ▸ h.offchain).enterRuntime
  obtain ⟨ks, ht, hchs⟩ := h.traverse_children r.store
    (some r.store.saved.length) r.present
    (f := fun _ chg => do
      let chg ← expect chg.enterRuntime
      return some chg)
    (fun storageKey cs hfol hp => by
      obtain ⟨cs', hen, hcs'⟩ := (hent ▸ hfol).enterRuntime
      refine ⟨some cs', ?_, .there (by simpa using hcs') hp⟩
      simp [hen, expect])
    (fun storageKey hcon hp => .absent hcon hp)
  refine ⟨{ s with top := top, children := ks, offchain := offchain }, ?_, ?_⟩
  · simp only [OverlayedChanges.enterRuntime, htop, hoff] at ht ⊢
    rw [ht]
    rfl
  · refine ⟨by simpa using ht', hchs, by simpa using hoff', h.index, ?_⟩
    rintro depth ⟨⟩
    exact le_rfl

theorem exitRuntime {d : ℕ} (h : Stands s r) (hent : r.entered = some d)
    (os : ℕ → IterationOrders) :
    ∃ s', s.exitRuntime os = some (.ok s') ∧
      Stands s' { r with store := r.store.rollbackTo d, entered := none } := by
  obtain ⟨top, htop, ht'⟩ := (hent ▸ h.top).exitRuntime fun ro => (os ro).top
  obtain ⟨offchain, hoff, hoff'⟩ := (hent ▸ h.offchain).exitRuntime fun ro => (os ro).offchain
  obtain ⟨ks, ht, hchs⟩ := h.traverse_children
    (r.store.rollbackTo d) none r.present
    (f := fun key chg => do
      let chg ← expect (← chg.exitRuntime fun ro => (os ro).child key)
      return some chg)
    (fun storageKey cs hfol hp => by
      obtain ⟨cs', hex, hcs'⟩ := (hent ▸ hfol).exitRuntime fun ro => (os ro).child storageKey
      refine ⟨some cs', ?_, .there (by simpa using hcs') hp⟩
      simp [hex, expect])
    (fun storageKey hcon hp =>
      .absent (by simpa using hcon.rollbackTo d) hp)
  refine ⟨{ s with top := top, children := ks, offchain := offchain }, ?_, ?_⟩
  · simp only [OverlayedChanges.exitRuntime, htop, hoff] at ht ⊢
    rw [ht]
    rfl
  · refine ⟨by simpa using ht', hchs, by simpa using hoff', h.index, ?_⟩
    rintro d ⟨⟩

end Stands

/-! ### Draining -/

/-- What is drained for a child storage: its contents, if it has a change set.
Otherwise it has none. -/
inductive ChildDrained (map : StorageContents) (present : Prop) :
    Option (Finmap fun _ : StorageKey => Option StorageValue) → Prop where
  | there {changes : Finmap fun _ : StorageKey => Option StorageValue}
      (h : ∀ key, changes.lookup key = map key) (hpresent : present) :
      ChildDrained map present (some changes)
  | absent (h : ∀ key, map key = none) (hpresent : ¬ present) : ChildDrained map present none

/-- What is drained is what the reference has. -/
structure Drained (r : OverlayReference) (changes : StorageChanges) : Prop where
  main : ∀ key, changes.mainStorageChanges.lookup key = r.store.current.top key
  child : ∀ storageKey, ChildDrained (r.store.current.child storageKey) (storageKey ∈ r.present)
    (changes.childStorageChanges.lookup storageKey)
  offchain : ∀ key, changes.offchainStorageChanges.lookup key = r.store.current.offchain key
  index : changes.transactionIndexChanges = r.index

theorem ChildDrained.unique {map : StorageContents} {p : Prop}
    {r r' : Option (Finmap fun _ => Option StorageValue)}
    (h : ChildDrained map p r) (h' : ChildDrained map p r') :
    r = r' := by
  cases h with
  | there hmap hp =>
    cases h' with
    | there hm' => exact congrArg some (Finmap.ext_lookup fun k => (hmap k).trans (hm' k).symm)
    | absent _ hp' => exact absurd hp hp'
  | absent _ hp =>
    cases h' with
    | there _ hp' => exact absurd hp' hp
    | absent => rfl

/-- The reference determines what is drained. -/
theorem Drained.unique {r : OverlayReference} {chs cs' : StorageChanges}
    (h : Drained r chs) (h' : Drained r cs') : chs = cs' := by
  obtain ⟨m, c, o, i⟩ := chs
  obtain ⟨main', child', offchain', index'⟩ := cs'
  have hm : m = main' := Finmap.ext_lookup fun key => (h.main key).trans (h'.main key).symm
  have hch : c = child' := Finmap.ext_lookup fun key => (h.child key).unique (h'.child key)
  have hoff : o = offchain' :=
    Finmap.ext_lookup fun key => (h.offchain key).trans (h'.offchain key).symm
  have hidx : i = index' := h.index.trans h'.index.symm
  rw [hm, hch, hoff, hidx]

namespace Stands

variable {s : OverlayedChanges} {r : OverlayReference}

theorem drainStorageChanges (h : Stands s r) (hdep : r.store.saved = []) :
    ∃ chgs s', s.drainStorageChanges = some (chgs, s') ∧ Drained r chgs ∧
      Stands s' OverlayReference.empty := by
  have hsav : ∀ {S : Type} (f : Contents → S), (r.store.map f).saved = [] := by
    simp [map, hdep]
  obtain ⟨m, hm, hm'⟩ := h.top.cells.drainCommited (hsav _)
  obtain ⟨off, hoff, hoff'⟩ := h.offchain.cells.traverse_intoValue
  obtain ⟨chs, ht, hchs⟩ := Assoc.traverse_spec
    (f := fun _ chg => do
      let chgs ← OverlayedMap.drainCommited chg
      return some chgs.toFinmap)
    (P := fun storageKey res =>
      ChildDrained (r.store.current.child storageKey) (storageKey ∈ r.present) res)
    (fun storageKey cs hlkp => by
      have hch := h.child storageKey
      rw [hlkp] at hch
      cases hch with
      | there hfol hp =>
        obtain ⟨chgs, hdr, hc⟩ := hfol.cells.drainCommited (hsav _)
        exact ⟨some chgs.toFinmap, by simp [hdr], .there hc hp⟩)
    (fun storageKey hlkp => by
      have hch := h.child storageKey
      rw [hlkp] at hch
      cases hch with
      | absent hcon hp => exact .absent (congrFun hcon.1) hp)
  have hdr : s.drainStorageChanges = some (
      { mainStorageChanges := m.toFinmap
        childStorageChanges := chs.toFinmap
        offchainStorageChanges := off.toFinmap
        transactionIndexChanges := s.transactionIndexOps },
      { OverlayedChanges.default with collectExtrinsics := s.collectExtrinsics }) := by
    simp only [OverlayedChanges.drainStorageChanges, hm, hoff] at ht ⊢
    rw [ht]
    rfl
  refine ⟨_, _, hdr, ⟨hm', hchs, hoff', h.index⟩, ?_⟩
  exact ⟨stands_empty.top, stands_empty.child, stands_empty.offchain, rfl, stands_empty.entered_le⟩

theorem drainStorageChanges_open (h : Stands s r) (hdep : r.store.saved ≠ []) :
    s.drainStorageChanges = none := by
  have hm : OverlayedMap.drainCommited s.top = none :=
    h.top.cells.drainCommited_open (by simpa [map] using hdep)
  rw [OverlayedChanges.drainStorageChanges, hm]
  rfl

/-! ### Steps -/

/-- Every operation does what it does in the reference. Only draining can fail, if
a transaction is open. -/
theorem step (h : Stands s r) (hop : op = .drainStorageChanges → r.store.saved = []) :
    ∃ error s', s.step op = some (error, s') ∧ Stands s' (r.step op) := by
  by_cases hwr : op.isWrite
  · obtain ⟨s', hs, hs'⟩ := h.write hwr
    exact ⟨false, s', hs, r.step_of_isWrite hwr ▸ hs'⟩
  cases op with
  | startTransaction =>
    obtain ⟨s', hst, hs'⟩ := h.startTransaction
    simp only [OverlayedChanges.step, hst]
    exact ⟨false, s', rfl, hs'⟩
  | commitTransaction os =>
    by_cases hcan : r.canClose
    · obtain ⟨s', hcom, hs'⟩ := h.commitTransaction hcan os
      rw [OverlayReference.step, if_pos hcan, OverlayedChanges.step, hcom]
      exact ⟨false, s', rfl, hs'⟩
    · rw [OverlayReference.step, if_neg hcan, OverlayedChanges.step, (h.close_error hcan os).1]
      exact ⟨true, s, rfl, h⟩
  | rollbackTransaction os =>
    by_cases hcan : r.canClose
    · obtain ⟨s', hr, hs'⟩ := h.rollbackTransaction hcan os
      rw [OverlayReference.step_rollback hcan, OverlayedChanges.step, hr]
      exact ⟨false, s', rfl, hs'⟩
    · rw [OverlayReference.step, if_neg hcan, OverlayedChanges.step, (h.close_error hcan os).2]
      exact ⟨true, s, rfl, h⟩
  | enterRuntime =>
    unfold OverlayedChanges.step OverlayReference.step
    cases hent : r.entered with
    | none =>
      obtain ⟨s', hen, hs'⟩ := h.enterRuntime hent
      simp only [hen]
      exact ⟨false, s', rfl, hs'⟩
    | some d =>
      have htop : s.top.enterRuntime = .error {} := (hent ▸ h.top).enterRuntime_error
      simp only [OverlayedChanges.enterRuntime, htop]
      obtain ⟨st, p, i, ent⟩ := r
      subst hent
      exact ⟨true, s, rfl, h⟩
  | exitRuntime os =>
    unfold OverlayedChanges.step OverlayReference.step
    cases hent : r.entered with
    | none =>
      have htop : (s.top.exitRuntime fun ro => (os ro).top) = some (.error {}) :=
        (hent ▸ h.top).exitRuntime_error _
      simp only [OverlayedChanges.exitRuntime, htop]
      obtain ⟨st, p, i, ent⟩ := r
      subst hent
      rw [getD_none, rollbackTo_of_le le_rfl]
      exact ⟨true, s, rfl, h⟩
    | some d =>
      obtain ⟨s', hex, hs'⟩ := h.exitRuntime hent os
      simp only [hex]
      exact ⟨false, s', rfl, hs'⟩
  | drainStorageChanges =>
    obtain ⟨chgs, s', hdr, -, hs'⟩ := h.drainStorageChanges (hop rfl)
    rw [OverlayedChanges.step, hdr]
    exact ⟨false, s', rfl, hs'⟩
  | _ => exact absurd rfl hwr

end Stands

end StateMachine

/-! ## Lockstep

The overlay closes a transaction in the top change set first, and expects all
other change sets to agree. They do in every reachable state: each of them stands
for a part of one reference, and whether a transaction may be closed depends on
the depth and the mode only, which the parts share.
-/

namespace StateMachine

namespace OverlayedMap

variable {K V K' V' : Type} [DecidableEq K] [DecidableEq K']

variable (self : OverlayedMap K V)

/-- Closing a transaction succeeds. -/
def Accepts (rollback : Bool) : Prop :=
  ∀ order, ∃ self', closeTransaction order rollback self = some (.ok self')

/-- Closing a transaction returns an error. -/
def Refuses (rollback : Bool) : Prop :=
  ∀ order, closeTransaction order rollback self = some (.error {})

/-- Two change sets are at the same depth and in the same mode, and their
transactions can be closed together. -/
structure InStep (other : OverlayedMap K' V') : Prop where
  transactionDepth : self.transactionDepth = other.transactionDepth
  executionMode : self.executionMode = other.executionMode
  closes : ∀ rollback, self.Accepts rollback ∧ other.Accepts rollback ∨
    self.Refuses rollback ∧ other.Refuses rollback

/-- Two maps that stand for states with equally many copies are in step. -/
theorem Follows.inStep {s : OverlayedMap K V} {s' : OverlayedMap K' V'}
    {st : Snapshots (K → Option V)} {st' : Snapshots (K' → Option V')} {ent : Option ℕ}
    (h : s.Follows st ent) (h' : s'.Follows st' ent)
    (hlen : st.saved.length = st'.saved.length) : s.InStep s' where
  transactionDepth := h.cells.depth.trans (hlen.trans h'.cells.depth.symm)
  executionMode := h.executionMode.trans h'.executionMode.symm
  closes rollback := by
    rcases lt_or_ge (ent.getD 0) st.saved.length with hcan | hcan
    · refine .inl ⟨fun o => ?_, fun o => ?_⟩
      · obtain ⟨t, hcl, -⟩ := h.close_ok hcan o rollback
        exact ⟨t, hcl⟩
      · obtain ⟨t, hcl, -⟩ := h'.close_ok (hlen ▸ hcan) o rollback
        exact ⟨t, hcl⟩
    · exact .inr ⟨fun o => h.close_error hcan o rollback,
        fun o => h'.close_error (hlen ▸ hcan) o rollback⟩

end OverlayedMap

namespace OverlayedChanges

/-- Changes are only drained when no transaction is open. -/
def Permits (self : OverlayedChanges) (op : OverlayOp) : Prop :=
  op = .drainStorageChanges → self.transactionDepth = 0

/-- The states that operations lead to, starting without changes. -/
inductive Reachable : OverlayedChanges → Prop where
  | default : Reachable default
  | step {s s' : OverlayedChanges} {error : Bool} (h : Reachable s) (op : OverlayOp)
      (hpermits : s.Permits op) (hstep : s.step op = some (error, s')) : Reachable s'

end OverlayedChanges

variable {s : OverlayedChanges} {r : OverlayReference}

theorem Stands.saved_of_permits (h : Stands s r) {op : OverlayOp} (hp : s.Permits op) :
    op = .drainStorageChanges → r.store.saved = [] := by
  intro hop
  have hdep : s.top.dirtyKeys.length = r.store.saved.length := by
    simpa using h.top.cells.depth
  exact List.length_eq_zero_iff.mp (hdep ▸ hp hop)

/-- Every reachable state stands for a state of the reference. -/
theorem OverlayedChanges.Reachable.stands (h : s.Reachable) : ∃ r, Stands s r := by
  induction h with
  | default => exact ⟨_, stands_empty⟩
  | step _ op hp hs ih =>
    obtain ⟨r, hr⟩ := ih
    obtain ⟨error, s', hstep', hr'⟩ := hr.step (hr.saved_of_permits hp)
    obtain ⟨rfl, rfl⟩ := Prod.mk.inj (Option.some.inj (hs.symm.trans hstep'))
    exact ⟨_, hr'⟩

/-- In every reachable state all child change sets and the offchain change set are
in step with the top change set, and no operation panics. -/
theorem change_sets_in_lockstep (h : s.Reachable) :
    (∀ storageKey changeset, s.children.lookup storageKey = some changeset →
        changeset.InStep s.top) ∧
      s.offchain.InStep s.top ∧
      ∀ op, s.Permits op → ∃ error s', s.step op = some (error, s') := by
  obtain ⟨r, hr⟩ := h.stands
  refine ⟨?_, ?_, ?_⟩
  · intro storageKey changeset hl
    have hch := hr.child storageKey
    rw [hl] at hch
    cases hch with
    | there hf => exact hf.inStep hr.top (by simp)
  · exact hr.offchain.inStep hr.top (by simp)
  · intro op hp
    obtain ⟨error, s', hs, -⟩ := hr.step (hr.saved_of_permits hp)
    exact ⟨error, s', hs⟩

/-- A child change set that is created in a transaction of the runtime, inside a
transaction of the client. -/
theorem change_sets_in_lockstep_child_in_runtime :
    ∃ s : OverlayedChanges, s.transactionDepth = 2 ∧ s.top.executionMode = .runtime ∧
      ∃ changeset, s.children.lookup [1] = some changeset ∧ changeset.InStep s.top := by
  have h1 := OverlayedChanges.Reachable.default.step .startTransaction nofun rfl
  have h2 := h1.step .enterRuntime nofun rfl
  have h3 := h2.step .startTransaction nofun rfl
  have h4 := h3.step (.setChildStorage [1] [2] (some [3])) nofun rfl
  exact ⟨_, rfl, rfl, _, rfl, (change_sets_in_lockstep h4).1 [1] _ rfl⟩

end StateMachine
