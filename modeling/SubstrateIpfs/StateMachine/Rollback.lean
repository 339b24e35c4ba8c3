-- SUMMARY: What a rollback of the overlay restores, and that a commit changes nothing.
import SubstrateIpfs.StateMachine.OverlayRefinement

/-!
# Rolling back the overlay

A transaction that is rolled back is compared with one in which nothing was done.
What is drained from the overlay later tells the two apart exactly if an operation
was added to the transaction index: of these the overlay keeps one list, which no
rollback cuts.
-/

namespace StateMachine

open List OverlayedChanges Snapshots OverlayOp OverlayReference Option

/-! ## Balanced operations -/

/-- Closing a transaction, either way. -/
def OverlayOp.isClose : OverlayOp → Bool
  | .commitTransaction _ | .rollbackTransaction _ => true
  | _ => false

def OverlayOp.isDrain : OverlayOp → Bool
  | .drainStorageChanges => true
  | _ => false

/-- Writes, and nested transactions that are closed again. -/
inductive Balanced : List OverlayOp → Prop where
  | nil : Balanced []
  | write {op : OverlayOp} {ops : List OverlayOp} (hop : op.isWrite) (h : Balanced ops) :
      Balanced (op :: ops)
  | nested {close : OverlayOp} {body ops : List OverlayOp} (hclose : close.isClose)
      (hbody : Balanced body) (h : Balanced ops) :
      Balanced (.startTransaction :: (body ++ close :: ops))

theorem OverlayOp.eq_drain {op : OverlayOp} (h : op.isDrain) : op = .drainStorageChanges := by
  cases op with
  | drainStorageChanges => rfl
  | _ => cases h

variable {ops body : List OverlayOp}

theorem Balanced.not_drain (h : Balanced ops) : ∀ op ∈ ops, op.isDrain = false := by
  induction h with
  | nil => exact forall_mem_nil _
  | @write op _ hop _ ih =>
    refine forall_mem_cons.mpr ⟨?_, ih⟩
    cases op with
    | drainStorageChanges => cases hop
    | _ => rfl
  | @nested c _ _ hcl _ _ i ih =>
    refine forall_mem_cons.mpr ⟨rfl, forall_mem_append.mpr ⟨i, ?_⟩⟩
    refine forall_mem_cons.mpr ⟨?_, ih⟩
    cases c with
    | drainStorageChanges => cases hcl
    | _ => rfl

/-! ## Runs of the reference -/

namespace OverlayReference

def run (r : OverlayReference) (ops : List OverlayOp) : OverlayReference := ops.foldl step r

/-- The depth at which the runtime was entered has not been left since. -/
def Entered (r : OverlayReference) : Prop := r.entered.getD 0 ≤ r.store.saved.length

variable {r : OverlayReference}

/-- A transaction that may be closed is gone then, and nothing is added to the
transaction index. -/
theorem step_close {c : OverlayOp} (hcl : c.isClose) (hcan : r.canClose) :
    (r.step c).store.saved = r.store.saved.tail ∧ (r.step c).entered = r.entered ∧
      (r.step c).index = r.index := by
  cases c with
  | commitTransaction os =>
    rw [step, if_pos hcan]
    exact ⟨rfl, rfl, rfl⟩
  | rollbackTransaction os =>
    rw [step_rollback hcan]
    obtain ⟨⟨cur, s⟩, present, index, ent⟩ := r
    cases s with
    | nil | cons => exact ⟨rfl, rfl, rfl⟩
  | _ => cases hcl

/-- Balanced operations leave the saved copies alone, and what they make of the contents does not
depend on these. To the transaction index they add what they add to it, whether it is rolled back or
not. -/
theorem exists_run_balanced (hops : Balanced ops) : ∃ f : Contents → Contents,
    ∀ r : OverlayReference, r.Entered → (r.run ops).store = ⟨f r.store.current, r.store.saved⟩ ∧
      (r.run ops).entered = r.entered ∧
      (r.run ops).index = r.index ++ ops.flatMap (·.indexOps) := by
  induction hops with
  | nil => exact ⟨id, fun r _ => ⟨rfl, rfl, (append_nil _).symm⟩⟩
  | @write op ops hop _ ih =>
    obtain ⟨f, hf⟩ := ih
    refine ⟨f ∘ op.apply, fun r h => ?_⟩
    have hrun : r.run (op :: ops) = (r.write op).run ops := by
      rw [run, foldl_cons, step_of_isWrite r hop]
      rfl
    obtain ⟨hst, hent, hidx⟩ := hf (r.write op) h
    rw [hrun]
    refine ⟨hst, hent, ?_⟩
    rw [hidx, flatMap_cons, ← append_assoc]
    rfl
  | @nested c body ops hcl _ _ i ih =>
    obtain ⟨f, hf⟩ := i
    obtain ⟨g, hg⟩ := ih
    -- a rollback brings the contents back, whatever the body has done
    refine ⟨g ∘ if c matches .commitTransaction _ then f else id, fun r h => ?_⟩
    -- the copy saved at the start is on top again when the transaction is closed
    obtain ⟨hs', he', hi'⟩ := hf { r with store := r.store.start } (h.trans (Nat.le_succ _))
    have hrun : r.run (.startTransaction :: (body ++ c :: ops)) =
        ((run { r with store := r.store.start } body).step c).run ops := by
      rw [run, foldl_cons, foldl_append]
      rfl
    rw [hrun]
    generalize run { r with store := r.store.start } body = r1 at *
    have hcan : r1.canClose := by
      rw [canClose, he', hs']
      exact Nat.lt_succ_of_le h
    obtain ⟨hsav2, hent2, hidx2⟩ := step_close hcl hcan
    have hsav : (r1.step c).store.saved = r.store.saved := by
      rw [hsav2, hs']
      rfl
    have h2 : (r1.step c).Entered := by
      rw [Entered, hsav, hent2, he']
      exact h
    obtain ⟨hst3, hent3, hidx3⟩ := hg _ h2
    have hs : startTransaction.indexOps = [] := rfl
    rw [hst3, hsav, hidx3, hidx2, hi']
    refine ⟨?_, hent3.trans (hent2.trans he'), ?_⟩
    · cases c with
      | commitTransaction os =>
        rw [step, if_pos hcan, commit, hs']
        rfl
      | rollbackTransaction os =>
        rw [step_rollback hcan, rollback, Snapshots.rollback, hs']
        rfl
      | _ => cases hcl
    · have hc : c.indexOps = [] := by
        cases c with
        | addTransactionIndex => cases hcl
        | _ => rfl
      simp [hc, hs]

theorem run_balanced (hops : Balanced ops) (h : r.Entered) :
    (r.run ops).store.saved = r.store.saved ∧ (r.run ops).entered = r.entered ∧
      (r.run ops).index = r.index ++ ops.flatMap (·.indexOps) := by
  obtain ⟨f, hf⟩ := exists_run_balanced hops
  obtain ⟨hst, hrest⟩ := hf r h
  exact ⟨by rw [hst], hrest⟩

/-- The state after a transaction that is rolled back. Only the transaction index
depends on what was done in it. -/
def rolledBack (r : OverlayReference) (index : List IndexOperation) : OverlayReference :=
  { r with present := {c | Written r.store c}, index := r.index ++ index }

theorem run_rolledBack (hb : Balanced body) (h : r.Entered) (os : IterationOrders) :
    r.run (.startTransaction :: (body ++ [.rollbackTransaction os])) =
      r.rolledBack (body.flatMap (·.indexOps)) := by
  have hst : Entered { r with store := r.store.start } := h.trans (Nat.le_succ _)
  obtain ⟨hsav, hent, hidx⟩ := run_balanced hb hst
  have hrun : r.run (.startTransaction :: (body ++ [.rollbackTransaction os])) =
      (run { r with store := r.store.start } body).step (.rollbackTransaction os) := by
    rw [run, foldl_cons, foldl_append]
    rfl
  rw [hrun]
  generalize run { r with store := r.store.start } body = r1 at *
  have hcan : r1.canClose := by
    rw [canClose, hent, hsav]
    exact Nat.lt_succ_of_le h
  rw [step_rollback hcan]
  obtain ⟨⟨cur, saved⟩, present, index, ent⟩ := r1
  subst hsav hent hidx
  rfl

/-- The state from which changes are drained after some operations. Draining with
open transactions fails. -/
def beforeDrain (r : OverlayReference) : List OverlayOp → Option OverlayReference
  | [] => if r.store.saved.isEmpty then some r else none
  | op :: ops => if op.isDrain && !r.store.saved.isEmpty then none else (r.step op).beforeDrain ops

theorem beforeDrain_append (h : ∀ op ∈ ops, op.isDrain = false) (l : List OverlayOp) :
    r.beforeDrain (ops ++ l) = (r.run ops).beforeDrain l := by
  induction ops generalizing r with
  | nil => rfl
  | cons op ops ih =>
    obtain ⟨hop, hops⟩ := forall_mem_cons.mp h
    rw [cons_append, beforeDrain, hop, ih hops]
    rfl

/-- What follows a transaction that is rolled back. -/
theorem beforeDrain_rolledBack (hb : Balanced body) (h : r.Entered) (os : IterationOrders)
    (l : List OverlayOp) :
    r.beforeDrain (.startTransaction :: (body ++ .rollbackTransaction os :: l)) =
      (r.rolledBack (body.flatMap (·.indexOps))).beforeDrain l := by
  have hl : OverlayOp.startTransaction :: (body ++ .rollbackTransaction os :: l) =
      .startTransaction :: (body ++ [.rollbackTransaction os]) ++ l := by simp
  have hdr : ∀ op ∈ .startTransaction :: (body ++ [.rollbackTransaction os]), isDrain op = false :=
    (Balanced.nested rfl hb .nil).not_drain
  rw [hl, beforeDrain_append hdr, run_rolledBack hb h]

/-- States that agree on everything but the child storages that have a change set. -/
structure Agree (r r' : OverlayReference) : Prop where
  store : r.store = r'.store
  index : r.index = r'.index
  entered : r.entered = r'.entered

theorem Agree.step {r' : OverlayReference} (h : Agree r r') (op : OverlayOp) :
    Agree (r.step op) (r'.step op) := by
  have hcl : r.canClose ↔ r'.canClose := by rw [canClose, canClose, h.store, h.entered]
  cases op with
  | startTransaction => exact ⟨congrArg start h.store, h.index, h.entered⟩
  | commitTransaction os =>
    simp only [OverlayReference.step, hcl]
    split_ifs
    · exact ⟨congrArg commit h.store, h.index, h.entered⟩
    · exact h
  | rollbackTransaction os =>
    simp only [OverlayReference.step, hcl]
    split_ifs
    · exact ⟨congrArg Snapshots.rollback h.store, h.index, h.entered⟩
    · exact h
  | enterRuntime =>
    refine ⟨h.store, h.index, ?_⟩
    simp only [OverlayReference.step, h.store, h.entered]
  | exitRuntime os =>
    refine ⟨?_, h.index, rfl⟩
    simp only [OverlayReference.step, h.store, h.entered]
  | drainStorageChanges => exact ⟨rfl, rfl, rfl⟩
  | _ => exact ⟨congrArg (update · _) h.store, congrArg (· ++ _) h.index, h.entered⟩

theorem Agree.beforeDrain {r' : OverlayReference} (h : Agree r r') (ops : List OverlayOp) :
    Rel Agree (r.beforeDrain ops) (r'.beforeDrain ops) := by
  induction ops generalizing r r' with
  | nil =>
    simp only [beforeDrain, ← h.store]
    split
    · exact .some h
    · exact .none
  | cons op ops ih =>
    simp only [beforeDrain, ← h.store]
    split
    · exact .none
    · exact ih (h.step op)

/-- Leaving the runtime and rolling back whatever is open makes draining possible. -/
def unwind (orders : IterationOrders) (depth : ℕ) : List OverlayOp :=
  .exitRuntime (fun _ => orders) :: List.replicate depth (.rollbackTransaction orders)

theorem beforeDrain_rollbacks (os : IterationOrders) {d : ℕ} (hent : r.entered = none)
    (hdep : r.store.saved.length = d) :
    ∃ r', r.beforeDrain (replicate d (.rollbackTransaction os)) = some r' ∧ r'.index = r.index := by
  induction d generalizing r with
  | zero =>
    have hsav : r.store.saved.isEmpty := isEmpty_iff_length_eq_zero.mpr hdep
    exact ⟨r, if_pos hsav, rfl⟩
  | succ d ih =>
    have hcan : r.canClose := by
      rw [canClose, hent, hdep]
      exact Nat.succ_pos d
    have hdep' : r.rollback.store.saved.length = d := by
      rw [rollback, length_rollback, hdep, Nat.add_sub_cancel]
    obtain ⟨r', hdr, hidx⟩ := ih (r := r.rollback) hent hdep'
    refine ⟨r', ?_, hidx⟩
    rw [replicate_succ, beforeDrain, step_rollback hcan]
    exact hdr

theorem beforeDrain_unwind (os : IterationOrders) (h : r.Entered) :
    ∃ r', r.beforeDrain (unwind os (r.entered.getD r.store.saved.length)) = some r' ∧
      r'.index = r.index := by
  have hle : r.entered.getD r.store.saved.length ≤ r.store.saved.length := by
    cases hent : r.entered with
    | none => exact le_rfl
    | some depth =>
      rw [Entered, hent] at h
      exact h
  have hdep : (r.step (.exitRuntime fun _ => os)).store.saved.length =
      r.entered.getD r.store.saved.length :=
    length_rollbackTo hle
  exact beforeDrain_rollbacks os rfl hdep

end OverlayReference

/-! ## What is drained later -/

/-- The changes that are drained after some operations. -/
def OverlayedChanges.drainAfter (self : OverlayedChanges) (ops : List OverlayOp) :
    Option StorageChanges := do
  let (changes, _) ← (← self.run ops).drainStorageChanges
  return changes

/-- The same changes, where a child storage without changes may be missing. -/
structure StorageChanges.SameData (changes changes' : StorageChanges) : Prop where
  main : changes.mainStorageChanges = changes'.mainStorageChanges
  child : ∀ storageKey key,
    (changes.childStorageChanges.lookup storageKey).bind (·.lookup key) =
      (changes'.childStorageChanges.lookup storageKey).bind (·.lookup key)
  offchain : changes.offchainStorageChanges = changes'.offchainStorageChanges
  index : changes.transactionIndexChanges = changes'.transactionIndexChanges

variable {s : OverlayedChanges} {r r' : OverlayReference}

theorem OverlayedChanges.drainAfter_cons {s' : OverlayedChanges} {op : OverlayOp} {error : Bool}
    (h : s.step op = some (error, s')) (ops : List OverlayOp) :
    s.drainAfter (op :: ops) = s'.drainAfter ops := by
  simp [drainAfter, run, h]

theorem Stands.drainAfter (h : Stands s r) (ops : List OverlayOp) :
    Rel Drained (r.beforeDrain ops) (s.drainAfter ops) := by
  induction ops generalizing s r with
  | nil =>
    cases hsav : r.store.saved with
    | nil =>
      obtain ⟨chgs, s', hdr, hdrd, -⟩ := h.drainStorageChanges hsav
      simpa [beforeDrain, drainAfter, OverlayedChanges.run, hsav, hdr] using hdrd
    | cons copy saved =>
      have hdr := h.drainStorageChanges_open (by simp [hsav])
      simp [beforeDrain, drainAfter, OverlayedChanges.run, hsav, hdr]
  | cons op ops ih =>
    rw [beforeDrain]
    split
    next hstk =>
      -- draining with open transactions
      obtain ⟨hdr, ho⟩ := (Bool.and_eq_true _ _).mp hstk
      have hn : s.drainStorageChanges = none := h.drainStorageChanges_open (by simpa using ho)
      obtain rfl := eq_drain hdr
      simp [drainAfter, OverlayedChanges.run, OverlayedChanges.step, hn]
    next hstk =>
      have hop : op = .drainStorageChanges → r.store.saved = [] := by
        rintro rfl
        simpa [isDrain] using hstk
      obtain ⟨error, s', hs, hs'⟩ := h.step hop
      rw [drainAfter_cons hs]
      exact ih hs'

/-- The drained values of a child storage are its contents, listed or not. -/
theorem ChildDrained.bind_lookup {map : StorageContents} {p : Prop}
    {res : Option (Finmap fun _ => Option StorageValue)}
    (h : ChildDrained map p res) (key : StorageKey) :
    res.bind (·.lookup key) = map key := by
  cases h with
  | there hmap => exact hmap key
  | absent hmap => exact (hmap key).symm

/-- States of the reference that agree have the same data. -/
theorem Drained.sameData {cs cs' : StorageChanges} (h : Drained r cs)
    (h' : Drained r' cs') (hagr : r.Agree r') : cs.SameData cs' where
  main := Finmap.ext_lookup fun key => by rw [h.main, h'.main, hagr.store]
  child storageKey key := by
    rw [(h.child storageKey).bind_lookup, (h'.child storageKey).bind_lookup, hagr.store]
  offchain := Finmap.ext_lookup fun key => by rw [h.offchain, h'.offchain, hagr.store]
  index := by rw [h.index, h'.index, hagr.index]

section
variable {x x' : Option OverlayReference} {y y' : Option StorageChanges}

theorem Drained.eq_of_rel (h : Rel Drained x y) (h' : Rel Drained x y') : y = y' := by
  cases h with
  | none =>
    cases h' with
    | none => rfl
  | some h =>
    cases h' with
    | some h' => rw [h.unique h']

theorem Drained.sameData_of_rel (h : Rel Drained x y) (h' : Rel Drained x' y')
    (hagr : Rel Agree x x') :
    Rel StorageChanges.SameData y y' := by
  cases hagr with
  | none =>
    cases h with
    | none =>
      cases h' with
      | none => exact .none
  | some hagr =>
    cases h with
    | some h =>
      cases h' with
      | some h' => exact .some (h.sameData h' hagr)

end

/-! ## Rolling back -/

/-- Whatever is drained after the operations have been rolled back is what would
have been drained without them. If the transaction itself had not been there, a
child storage without changes could be listed that is missing now. -/
def OverlayedChanges.Restores (self : OverlayedChanges) (body : List OverlayOp) : Prop :=
  ∀ orders later,
    self.drainAfter (.startTransaction :: (body ++ .rollbackTransaction orders :: later)) =
        self.drainAfter (.startTransaction :: .rollbackTransaction orders :: later) ∧
      Option.Rel StorageChanges.SameData
        (self.drainAfter (.startTransaction :: (body ++ .rollbackTransaction orders :: later)))
        (self.drainAfter later)

/-- Some order, to have one. -/
noncomputable def IterationOrder.toList (K : Type) : IterationOrder K where
  keys := Finset.toList
  nodup_keys := Finset.nodup_toList
  mem_keys _ _ := Finset.mem_toList

noncomputable def IterationOrders.toList : IterationOrders where
  top := .toList _
  child _ := .toList _
  offchain := .toList _

theorem Stands.entered (h : Stands s r) : r.Entered := by
  unfold Entered
  cases hent : r.entered with
  | none => exact Nat.zero_le _
  | some d => exact h.entered_le d hent

/-- Without operations on the transaction index everything is restored. -/
theorem Stands.restores (h : Stands s r) (hb : Balanced body)
    (hidx : body.flatMap (·.indexOps) = []) : s.Restores body := by
  intro os l
  have hdrd := h.drainAfter (.startTransaction :: (body ++ .rollbackTransaction os :: l))
  have hemp := h.drainAfter (.startTransaction :: ([] ++ .rollbackTransaction os :: l))
  rw [beforeDrain_rolledBack hb h.entered, hidx] at hdrd
  rw [beforeDrain_rolledBack .nil h.entered] at hemp
  have hagr : (r.rolledBack []).Agree r := ⟨rfl, append_nil _, rfl⟩
  exact ⟨Drained.eq_of_rel hdrd hemp,
    Drained.sameData_of_rel hdrd (h.drainAfter l) (hagr.beforeDrain l)⟩

/-- If nothing else is done than to leave the runtime and to close all
transactions, what was added to the transaction index is drained. -/
theorem Stands.drainAfter_unwind (h : Stands s r) (hb : Balanced body) (os : IterationOrders) :
    ∃ chgs, s.drainAfter (.startTransaction :: (body ++ .rollbackTransaction os ::
        unwind os (r.entered.getD r.store.saved.length))) = some chgs ∧
      chgs.transactionIndexChanges = r.index ++ body.flatMap (·.indexOps) := by
  have hdrd := h.drainAfter (.startTransaction :: (body ++ .rollbackTransaction os ::
    unwind os (r.entered.getD r.store.saved.length)))
  have hent : (r.rolledBack (body.flatMap (·.indexOps))).Entered := h.entered
  obtain ⟨r', hdr, hidx⟩ : ∃ r', (r.rolledBack (body.flatMap (·.indexOps))).beforeDrain
      (unwind os (r.entered.getD r.store.saved.length)) = some r' ∧
        r'.index = r.index ++ body.flatMap (·.indexOps) :=
    beforeDrain_unwind os hent
  rw [beforeDrain_rolledBack hb h.entered, hdr] at hdrd
  generalize s.drainAfter _ = result at hdrd ⊢
  cases hdrd with
  | some hc => exact ⟨_, rfl, hc.index.trans hidx⟩

theorem indexOps_eq_nil_iff :
    ops.flatMap (·.indexOps) = [] ↔ ∀ op, .addTransactionIndex op ∉ ops := by
  rw [flatMap_eq_nil_iff]
  refine ⟨fun h op hmem => ?_, fun h op hmem => ?_⟩
  · cases h _ hmem
  · cases op with
    | addTransactionIndex op => exact absurd hmem (h op)
    | _ => rfl

/-- A transaction that is rolled back leaves no trace exactly if nothing was added
to the transaction index in it. -/
theorem rollback_restores_iff (h : s.Reachable) {body : List OverlayOp} (hbody : Balanced body) :
    s.Restores body ↔ ∀ op, .addTransactionIndex op ∉ body := by
  obtain ⟨r, hr⟩ := h.stands
  rw [← indexOps_eq_nil_iff]
  refine ⟨fun hre => ?_, hr.restores hbody⟩
  obtain ⟨changes, hdr, hc⟩ := hr.drainAfter_unwind hbody .toList
  obtain ⟨changes', hdr', hchgs'⟩ := hr.drainAfter_unwind .nil .toList
  obtain ⟨heq, -⟩ := hre .toList (unwind .toList (r.entered.getD r.store.saved.length))
  obtain rfl : changes = changes' := some.inj (hdr.symm.trans (heq.trans hdr'))
  simpa [hc] using hchgs'

/-- Writes to a key, to a child storage in a nested transaction and to the offchain
database are undone. -/
theorem rollback_restores_writes :
    OverlayedChanges.default.Restores
      [.setStorage [1] (some [2]), .startTransaction, .setChildStorage [3] [4] (some [5]),
        .commitTransaction .toList, .setOffchainStorage [6] (some [7])] := by
  have hn : Balanced (.startTransaction :: ([.setChildStorage [3] [4] (some [5])] ++
      .commitTransaction .toList :: [.setOffchainStorage [6] (some [7])])) :=
    .nested rfl (.write rfl .nil) (.write rfl .nil)
  refine (rollback_restores_iff .default (.write rfl hn)).mpr ?_
  simp

/-- One open transaction, in which nothing has been written. -/
def OverlayedChanges.opened (index : List IndexOperation) : OverlayedChanges where
  top := OverlayedMap.startTransaction (.empty _ _)
  children := ∅
  offchain := OverlayedMap.startTransaction (.empty _ _)
  transactionIndexOps := index
  collectExtrinsics := false

theorem OverlayedChanges.step_rollback_opened (i : List IndexOperation) :
    (opened i).step (.rollbackTransaction .toList) =
      some (false, { default with transactionIndexOps := i }) := by
  simp only [step, rollbackTransaction, opened, OverlayedMap.rollbackTransaction,
    OverlayedMap.closeTransaction, IterationOrders.toList, IterationOrder.toList,
    OverlayedMap.startTransaction, Finset.toList_empty]
  rfl

/-- An operation that is added to the transaction index is not taken back. -/
theorem rollback_keeps_transaction_index :
    ¬ OverlayedChanges.default.Restores [.addTransactionIndex (.renew 0 [])] := by
  intro h
  obtain ⟨heq, -⟩ := h .toList []
  have hst : default.step .startTransaction = some (false, .opened []) := rfl
  have hadd : (opened []).step (.addTransactionIndex (.renew 0 [])) =
      some (false, .opened [.renew 0 []]) := rfl
  have hk : (OverlayedChanges.default.drainAfter [.startTransaction,
      .addTransactionIndex (.renew 0 []), .rollbackTransaction .toList]).map
        (·.transactionIndexChanges) = some [.renew 0 []] := by
    rw [drainAfter_cons hst, drainAfter_cons hadd, drainAfter_cons (step_rollback_opened _)]
    rfl
  have hn : (OverlayedChanges.default.drainAfter [.startTransaction,
      .rollbackTransaction .toList]).map (·.transactionIndexChanges) = some [] := by
    rw [drainAfter_cons hst, drainAfter_cons (step_rollback_opened _)]
    rfl
  rw [singleton_append] at heq
  rw [heq, hn] at hk
  cases hk

/-! ## Committing -/

/-- A transaction that is committed might as well not have been opened: the same is drained. -/
theorem commit_transparent (h : s.Reachable) {body : List OverlayOp} (hbody : Balanced body)
    (orders : IterationOrders) (later : List OverlayOp) :
    Rel StorageChanges.SameData
      (s.drainAfter (.startTransaction :: (body ++ .commitTransaction orders :: later)))
      (s.drainAfter (body ++ later)) := by
  obtain ⟨r, hr⟩ := h.stands
  have hn : Balanced (.startTransaction :: (body ++ [.commitTransaction orders])) :=
    .nested rfl hbody .nil
  obtain ⟨f, hf⟩ := exists_run_balanced hbody
  obtain ⟨hst, hent, hidx⟩ := hf r hr.entered
  obtain ⟨hsav, hent', hidx'⟩ := run_balanced hn hr.entered
  have hagr : Agree (r.run (.startTransaction :: (body ++ [.commitTransaction orders])))
      (r.run body) := by
    refine ⟨?_, by rw [hidx', hidx]; simp [indexOps], hent'.trans hent.symm⟩
    have hcur := (hf { r with store := r.store.start } (hr.entered.trans (Nat.le_succ _))).1
    rw [hst]
    refine congrArg₂ Snapshots.mk ?_ hsav
    rw [OverlayReference.run, foldl_cons, foldl_append, foldl_cons, foldl_nil]
    refine Eq.trans ?_ (congrArg current hcur)
    rw [OverlayReference.step.eq_2]
    split
    · rfl
    · rfl
  have hrel := hagr.beforeDrain later
  rw [← beforeDrain_append hn.not_drain, ← beforeDrain_append hbody.not_drain] at hrel
  simpa using Drained.sameData_of_rel (hr.drainAfter _) (hr.drainAfter _) hrel

/-- Two writes around a transaction that is committed, too, and one write after all of it. -/
theorem commit_transparent_nested :
    Rel StorageChanges.SameData
      (default.drainAfter [.startTransaction, .setStorage [1] (some [2]), .startTransaction,
        .setStorage [1] none, .commitTransaction .toList, .setStorage [3] (some [4]),
        .commitTransaction .toList, .setStorage [1] (some [5])])
      (default.drainAfter [.setStorage [1] (some [2]), .startTransaction, .setStorage [1] none,
        .commitTransaction .toList, .setStorage [3] (some [4]), .setStorage [1] (some [5])]) := by
  have hinn : Balanced [.setStorage [1] none] := .write rfl .nil
  have hout : Balanced [.setStorage [1] (some [2]), .startTransaction, .setStorage [1] none,
      .commitTransaction .toList, .setStorage [3] (some [4])] :=
    .write rfl (.nested rfl hinn (.write rfl .nil))
  exact commit_transparent .default hout .toList [.setStorage [1] (some [5])]

end StateMachine
