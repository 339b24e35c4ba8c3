-- SUMMARY: The overlay of storage changes refines a plain map with a stack of copies.
import SubstrateIpfs.StateMachine.Cells

/-!
# The overlay refines snapshots

What the overlay is for: a map from keys to values, with nested transactions and
a protection of the client's transactions from the runtime. `Reference` says
this with copies of the whole map, and every run of the overlay is a run of it.
-/

namespace StateMachine

open List Option Function OverlayedMap OverlayedEntry OverlayedChangeSet

variable {K W : Type} {predicate : K → OverlayedEntry (Option W) → Bool}

/-! ## The reference -/

/-- A plain map with saved copies. In the runtime, the depth at which it was
entered is remembered. -/
structure Reference (K W : Type) where
  store : Snapshots (K → Option (Option W))
  entered : Option ℕ

/-- The operations of the reference. It is told which keys to clear. -/
inductive ReferenceOp (K W : Type) where
  | set (key : K) (value : Option W)
  | modify (key : K) (init : W) (write : Option W → Option W)
  | clear (selected : K → Bool)
  | startTransaction
  | commitTransaction
  | rollbackTransaction
  | enterRuntime
  | exitRuntime

namespace Reference

def empty (K W : Type) : Reference K W := ⟨⟨fun _ => none, []⟩, none⟩

/-- There is a transaction that may be closed. -/
def canClose (r : Reference K W) : Bool := r.entered.getD 0 < r.store.saved.length

/-- Delete what is there under the selected keys. -/
def cleared (selected : K → Bool) (map : K → Option (Option W)) (key : K) : Option (Option W) :=
  if selected key then (map key).map fun _ => none else map key

variable [DecidableEq K]

def write (r : Reference K W) (key : K) (value : Option W) : Reference K W :=
  { r with store := r.store.update fun map => update map key (some value) }

/-- The state after an operation, and whether it returned an error. -/
def step (r : Reference K W) : ReferenceOp K W → Bool × Reference K W
  | .set key value => (false, r.write key value)
  | .modify key init write =>
    (false, r.write key (write ((r.store.current key).getD (some init))))
  | .clear selected => (false, { r with store := r.store.update (cleared selected) })
  | .startTransaction => (false, { r with store := r.store.start })
  | .commitTransaction =>
    if r.canClose then (false, { r with store := r.store.commit }) else (true, r)
  | .rollbackTransaction =>
    if r.canClose then (false, { r with store := r.store.rollback }) else (true, r)
  | .enterRuntime =>
    match r.entered with
    | some _ => (true, r)
    | none => (false, { r with entered := some r.store.saved.length })
  | .exitRuntime =>
    match r.entered with
    | some depth => (false, { store := r.store.rollbackTo depth, entered := none })
    | none => (true, r)

end Reference

/-! ## The operations of the overlay -/

/-- The operations of the overlay. Closing a transaction goes through a set of
keys in some order. -/
inductive Op (K W : Type) where
  | set (key : K) (value : Option W) (atExtrinsic : Option UInt32)
  | modify (key : K) (init : W) (atExtrinsic : Option UInt32) (write : Option W → Option W)
  | clearWhere (predicate : K → OverlayedEntry (Option W) → Bool) (atExtrinsic : Option UInt32)
  | startTransaction
  | commitTransaction (order : IterationOrder K)
  | rollbackTransaction (order : IterationOrder K)
  | enterRuntime
  | exitRuntime (order : ℕ → IterationOrder K)

namespace OverlayedChangeSet

/-- The state after a fallible operation, and whether it returned an error. -/
def settle {E : Type} (self : OverlayedChangeSet K W) :
    Except E (OverlayedChangeSet K W) → Bool × OverlayedChangeSet K W
  | .ok self => (false, self)
  | .error _ => (true, self)

variable [DecidableEq K]

def step (self : OverlayedChangeSet K W) : Op K W → Option (Bool × OverlayedChangeSet K W)
  | .set key value atExtrinsic => (self.set key value atExtrinsic).map (false, ·)
  | .modify key init atExtrinsic write => (self.modify key init atExtrinsic write).map (false, ·)
  | .clearWhere predicate atExtrinsic =>
    (self.clearWhere predicate atExtrinsic).map fun result => (false, result.2)
  | .startTransaction => some (false, self.startTransaction)
  | .commitTransaction order => (self.commitTransaction order).map self.settle
  | .rollbackTransaction order => (self.rollbackTransaction order).map self.settle
  | .enterRuntime => some (self.settle self.enterRuntime)
  | .exitRuntime order => (self.exitRuntime order).map self.settle

/-- The value of a key as the current transaction sees it. -/
def visible (self : OverlayedChangeSet K W) (key : K) : Option (Option (Option W)) :=
  match self.get key with
  | none => some none
  | some entry => entry.valueRef.map some

end OverlayedChangeSet

/-- What the reference is asked to do. A predicate may look at all versions of a
value, which the reference does not have. -/
def Op.reference [DecidableEq K] (self : OverlayedChangeSet K W) : Op K W → ReferenceOp K W
  | .set key value _ => .set key value
  | .modify key init _ write => .modify key init write
  | .clearWhere predicate _ => .clear fun key => (self.get key).any (predicate key)
  | .startTransaction => .startTransaction
  | .commitTransaction _ => .commitTransaction
  | .rollbackTransaction _ => .rollbackTransaction
  | .enterRuntime => .enterRuntime
  | .exitRuntime _ => .exitRuntime

/-! ## Modifying and clearing -/

namespace OverlayedChangeSet

open OverlayedMap (Cells SameMode)

variable [DecidableEq K] {s : OverlayedChangeSet K W} {store : Snapshots (K → Option (Option W))}

omit [DecidableEq K] in
/-- The newest version is the one to be modified, if need be in a new version. -/
theorem entryToModify_eq (e : OverlayedEntry (Option W)) (fw : Bool) (init : W)
    (ext : Option UInt32) :
    ∃ e', entryToModify e fw init ext = some e' ∧
      e'.values = e.values.head?.getD (some init) ::
        if fw then e.values else e.values.tail := by
  have hset := e.set_eq (e.values.head?.getD (some init)) fw ext
  cases htxs : e.transactions with
  | nil =>
    have hv : e.values = [] := by rw [values, htxs, map_nil]
    simpa [entryToModify, cloneIntoNewTx, htxs, hv] using hset
  | cons tx txs =>
    have hv : e.values = tx.value :: txs.map (·.value) := by
      rw [values, htxs, map_cons]
    cases fw with
    | true => simpa [entryToModify, cloneIntoNewTx, htxs, hv] using hset
    | false =>
      refine ⟨e, ?_, ?_⟩
      · simp [entryToModify, cloneIntoNewTx, htxs]
      · simp [hv]

theorem cells_modify (h : Cells s store) (key : K) (init : W) (ext : Option UInt32)
    (write : Option W → Option W) :
    ∃ s', s.modify key init ext write = some s' ∧
      Cells s' (store.update fun map =>
        update map key (some (write ((store.current key).getD (some init))))) ∧
      SameMode s s' := by
  obtain ⟨e, hent, hv⟩ :=
    entryToModify_eq (s.entryOrDefault key) (insertDirty s.dirtyKeys key).1 init ext
  obtain ⟨e', hmut, hv'⟩ := valueMut_eq hv write
  simp only [modify, hent, hmut, bind_eq_bind, bind_some]
  refine ⟨_, rfl, h.write rfl rfl ?_, rfl, rfl⟩
  rw [hv', write_flags, ← h.visible key]
  rfl

omit [DecidableEq K] in
theorem cleared_cleared (a se : K → Bool) (map : K → Option (Option W)) :
    Reference.cleared se (Reference.cleared a map) =
      Reference.cleared (fun key => a key || se key) map := by
  funext key
  cases hfst : a key with
  | true => simp [Reference.cleared, hfst, comp_def]
  | false => simp [Reference.cleared, hfst]

/-- A key that is selected is cleared. -/
theorem clearKey_selected (h : Cells s store) (ext : Option UInt32) (count : UInt32)
    {key : K} (hsel : (s.get key).any (predicate key)) :
    ∃ count' s', clearKey predicate ext (count, s) key = some (count', s') ∧
      Cells s' (store.update fun map => update map key (some none)) ∧
      (store.current key).isSome ∧ (∀ key', key' ≠ key → s'.get key' = s.get key') ∧
      SameMode s s' := by
  obtain ⟨e, hl, hp⟩ := (any_eq_true _ _).mp hsel
  replace hl : s.changes.lookup key = some e := hl
  obtain ⟨value, rest, hva⟩ := exists_cons_of_ne_nil (h.present key e hl)
  obtain ⟨e', hset, hvals'⟩ := e.set_eq none (insertDirty s.dirtyKeys key).1 ext
  have hv : s.versions key = e.values := versions_of_lookup hl
  simp only [clearKey, hl, hp, e.valueRef_eq, hva, hset]
  refine ⟨_, _, rfl, h.write rfl rfl ?_, ?_, fun key' hne => AList.lookup_insert_ne hne, rfl, rfl⟩
  · rw [hvals', write_flags, hv]
  · rw [← h.visible, hv, hva]
    rfl

theorem clearKey_not_selected (ext : Option UInt32) (c : UInt32) {key : K}
    (hsel : ¬ (s.get key).any (predicate key)) :
    clearKey predicate ext (c, s) key = some (c, s) := by
  cases hl : s.changes.lookup key with
  | none => simp [clearKey, hl]
  | some e =>
    have hp : predicate key e = false := by
      simpa [OverlayedMap.get, hl] using hsel
    simp [clearKey, hl, hp]

/-- One key is cleared, if it is there and is selected. -/
theorem cells_clearKey (h : Cells s store) (predicate : K → OverlayedEntry (Option W) → Bool)
    (ext : Option UInt32) (count : UInt32) (key : K) :
    ∃ count' s', clearKey predicate ext (count, s) key = some (count', s') ∧
      Cells s' (store.update (Reference.cleared fun key' =>
        decide (key' = key) && (s.get key').any (predicate key'))) ∧
      (∀ key', key' ≠ key → s'.get key' = s.get key') ∧ SameMode s s' := by
  by_cases hsel : (s.get key).any (predicate key)
  · obtain ⟨count', s', hclr, hcel, hthr, hoth, hs⟩ := clearKey_selected h ext count hsel
    have hc : Reference.cleared (fun key' =>
        decide (key' = key) && (s.get key').any (predicate key')) store.current =
          update store.current key (some none) := by
      obtain ⟨value, hvis⟩ := isSome_iff_exists.mp hthr
      funext key'
      by_cases heq : key' = key
      · subst heq
        simp [Reference.cleared, hsel, hvis]
      · simp [Reference.cleared, heq]
    refine ⟨count', s', hclr, ?_, hoth, hs⟩
    rw [Snapshots.update, hc]
    exact hcel
  · have hn : ∀ key', (decide (key' = key) && (s.get key').any (predicate key')) = false := by
      intro key'
      by_cases heq : key' = key
      · subst heq
        simp [hsel]
      · simp [heq]
    refine ⟨count, s, clearKey_not_selected ext count hsel, ?_, fun _ _ => rfl, rfl, rfl⟩
    have hs : Reference.cleared (fun key' => decide (key' = key) &&
        (s.get key').any (predicate key')) store.current = store.current := by
      funext key'
      simp [Reference.cleared, hn key']
    rw [Snapshots.update, hs]
    exact h

/-- Keys that are different from each other are cleared one by one. -/
theorem cells_foldlM_clearKey (h : Cells s store)
    (p : K → OverlayedEntry (Option W) → Bool) (ext : Option UInt32)
    (c : UInt32) {ks : List K} (hnd : ks.Nodup) :
    ∃ c' s', ks.foldlM (clearKey p ext) (c, s) = some (c', s') ∧
      Cells s' (store.update (Reference.cleared fun k' =>
        decide (k' ∈ ks) && (s.get k').any (p k'))) ∧ SameMode s s' := by
  induction ks generalizing s store c with
  | nil =>
    refine ⟨c, s, rfl, ?_, rfl, rfl⟩
    exact h
  | cons key ks ih =>
    obtain ⟨hnew, hnd'⟩ := nodup_cons.mp hnd
    obtain ⟨count1, t, hclr, h1, hget, hmode⟩ := cells_clearKey h p ext c key
    obtain ⟨count2, u, hr, h2, hm'⟩ := ih h1 count1 hnd'
    refine ⟨count2, u, ?_, ?_, hmode.trans hm'⟩
    · rw [foldlM_cons, hclr]
      exact hr
    have hsel : (fun k' => (decide (k' = key) && (s.get k').any (p k')) ||
          (decide (k' ∈ ks) && (t.get k').any (p k'))) =
        fun k' => decide (k' ∈ key :: ks) && (s.get k').any (p k') := by
      funext k'
      by_cases heq : k' = key
      · subst heq
        simp [hnew]
      · simp [heq, hget k' heq]
    rw [← hsel, Snapshots.update, ← cleared_cleared]
    exact h2

theorem cells_clearWhere (h : Cells s store) (p : K → OverlayedEntry (Option W) → Bool)
    (ext : Option UInt32) :
    ∃ c s', s.clearWhere p ext = some (c, s') ∧
      Cells s' (store.update (Reference.cleared fun key => (s.get key).any (p key))) ∧
      SameMode s s' := by
  obtain ⟨c, s', hclr, h', hm⟩ := cells_foldlM_clearKey h p ext 0 s.changes.keys_nodup
  have hsel : (fun key => decide (key ∈ s.changes.keys) && (s.get key).any (p key)) =
      fun key => (s.get key).any (p key) := by
    funext key
    cases hget : s.get key with
    | none => simp
    | some e =>
      have hmem : key ∈ s.changes := AList.lookup_isSome.mp (by rw [← OverlayedMap.get, hget]; rfl)
      simp [AList.mem_keys.mp hmem]
  rw [hsel] at h'
  exact ⟨c, s', hclr, h', hm⟩

/-! ## The refinement -/

/-- The overlay stands for the reference. -/
structure Refines (s : OverlayedChangeSet K W) (r : Reference K W) : Prop where
  cells : Cells s r.store
  executionMode : s.executionMode = if r.entered.isSome then .runtime else .client
  numClientTransactions : ∀ depth, r.entered = some depth → s.numClientTransactions = depth

variable {r : Reference K W}

theorem Refines.follows (h : Refines s r) : Follows s r.store r.entered :=
  ⟨h.cells, h.executionMode, h.numClientTransactions⟩

theorem Refines.of_follows (h : Follows s r.store r.entered) : Refines s r :=
  ⟨h.cells, h.executionMode, h.numClientTransactions⟩

theorem refines_empty : Refines (empty K (Option W)) (Reference.empty K W) :=
  .of_follows follows_empty

/-- An operation that only works on the store. -/
theorem Refines.of_store (h : Refines s r) {s' : OverlayedChangeSet K W}
    {st : Snapshots (K → Option (Option W))} (hcel : Cells s' st) (hm : SameMode s s') :
    Refines s' { r with store := st } :=
  .of_follows (h.follows.of_store hcel hm)

/-- What the reader sees is what the reference has. -/
theorem Refines.visible (h : Refines s r) (key : K) :
    s.visible key = some (r.store.current key) := by
  have hvis := h.cells.visible key
  unfold OverlayedChangeSet.visible
  cases hget : s.get key with
  | none =>
    have hv : s.versions key = [] := versions_of_lookup_none hget
    simpa [hv] using hvis
  | some e =>
    have hl : s.changes.lookup key = some e := hget
    obtain ⟨value, rest, hva⟩ := exists_cons_of_ne_nil (h.cells.present key e hl)
    have hv : s.versions key = e.values := versions_of_lookup hl
    rw [hv] at hvis
    simp [e.valueRef_eq, hva, ← hvis]

/-- A transaction is closed if the reference has one that may be closed. -/
theorem Refines.close (h : Refines s r) (o : IterationOrder K) (b : Bool) :
    let res := if r.canClose then
      (false, { r with store := closed b r.store }) else (true, r)
    ∃ s', (s.closeTransaction o b).map s.settle = some (res.1, s') ∧ Refines s' res.2 := by
  by_cases hcan : r.canClose
  · have ho : r.entered.getD 0 < r.store.saved.length := by
      simpa [Reference.canClose] using hcan
    obtain ⟨s', hcl, h'⟩ := h.follows.close_ok ho o b
    rw [if_pos hcan, hcl]
    exact ⟨s', rfl, .of_follows h'⟩
  · have ho : r.store.saved.length ≤ r.entered.getD 0 := by
      simpa [Reference.canClose] using hcan
    rw [if_neg hcan, h.follows.close_error ho o b]
    exact ⟨s, rfl, h⟩

/-- Every operation goes through, returns an error exactly when that of the
reference does, and keeps the two together. -/
theorem Refines.step (h : Refines s r) (op : Op K W) :
    ∃ s', s.step op = some ((r.step (op.reference s)).1, s') ∧
      Refines s' (r.step (op.reference s)).2 := by
  cases op with
  | set key v ext =>
    obtain ⟨s', hset, hcel, hs⟩ := h.cells.set key v ext
    refine ⟨s', ?_, h.of_store hcel hs⟩
    simp only [OverlayedChangeSet.step, hset]
    rfl
  | modify key i ext write =>
    obtain ⟨s', hmod, hcel, hs⟩ := cells_modify h.cells key i ext write
    refine ⟨s', ?_, h.of_store hcel hs⟩
    simp only [OverlayedChangeSet.step, hmod]
    rfl
  | clearWhere predicate ext =>
    obtain ⟨count, s', hclr, hcel, hs⟩ := cells_clearWhere h.cells predicate ext
    refine ⟨s', ?_, h.of_store hcel hs⟩
    simp only [OverlayedChangeSet.step, hclr]
    rfl
  | startTransaction => exact ⟨_, rfl, h.of_store h.cells.start ⟨rfl, rfl⟩⟩
  | commitTransaction o => exact h.close o false
  | rollbackTransaction o => exact h.close o true
  | enterRuntime =>
    have hf := h.follows
    simp only [OverlayedChangeSet.step, Op.reference, Reference.step]
    cases hent : r.entered with
    | some d =>
      rw [hent] at hf
      rw [hf.enterRuntime_error]
      exact ⟨s, rfl, h⟩
    | none =>
      obtain ⟨s', hen, h'⟩ := (hent ▸ hf).enterRuntime
      rw [hen]
      exact ⟨s', rfl, .of_follows h'⟩
  | exitRuntime o =>
    have hf := h.follows
    simp only [OverlayedChangeSet.step, Reference.step]
    cases hent : r.entered with
    | some d =>
      obtain ⟨s', hex, h'⟩ := (hent ▸ hf).exitRuntime o
      rw [hex]
      exact ⟨s', rfl, .of_follows h'⟩
    | none =>
      rw [hent] at hf
      rw [hf.exitRuntime_error o]
      exact ⟨s, rfl, h⟩

/-- Run the operations on both, side by side, and note for each of them whether
it returned an error, in the overlay and in the reference. -/
def runBoth : List (Op K W) → OverlayedChangeSet K W → Reference K W →
    Option (List (Bool × Bool) × OverlayedChangeSet K W × Reference K W)
  | [], self, r => some ([], self, r)
  | op :: ops, self, r => do
    let (failed, self') ← self.step op
    let (failedReference, r') := r.step (op.reference self)
    let (outcomes, final) ← runBoth ops self' r'
    return ((failed, failedReference) :: outcomes, final)

theorem Refines.runBoth (h : Refines s r) (ops : List (Op K W)) :
    ∃ os s' r', runBoth ops s r = some (os, s', r') ∧
      os.length = ops.length ∧ (∀ o ∈ os, o.1 = o.2) ∧ Refines s' r' := by
  induction ops generalizing s r with
  | nil => exact ⟨[], s, r, rfl, rfl, by simp, h⟩
  | cons op ops ih =>
    obtain ⟨t, hs, h1⟩ := h.step op
    obtain ⟨os, s', r', hrun, hlen, hsa, h'⟩ := ih h1
    let f := (r.step (op.reference s)).1
    refine ⟨(f, f) :: os, s', r', ?_, congrArg (· + 1) hlen, ?_, h'⟩
    · simp only [runBoth, hs, bind_eq_bind, bind_some, hrun]
      rfl
    · intro o ho
      rcases mem_cons.mp ho with rfl | ho
      · rfl
      · exact hsa o ho

end OverlayedChangeSet

/-- Whatever is done to an empty overlay, no operation fails, each one returns an
error exactly when that of the reference does, and every key has the value it has
in the reference. -/
theorem overlay_refines_snapshots [DecidableEq K] (ops : List (Op K W)) :
    ∃ outcomes s r, OverlayedChangeSet.runBoth ops (OverlayedMap.empty K (Option W))
        (Reference.empty K W) = some (outcomes, s, r) ∧
      outcomes.length = ops.length ∧ (∀ o ∈ outcomes, o.1 = o.2) ∧
      ∀ key, s.visible key = some (r.store.current key) := by
  obtain ⟨outcomes, s, r, hrun, hlen, hs, h⟩ :=
    refines_empty.runBoth ops
  exact ⟨outcomes, s, r, hrun, hlen, hs, h.visible⟩

end StateMachine
