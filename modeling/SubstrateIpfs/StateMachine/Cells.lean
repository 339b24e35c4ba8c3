-- SUMMARY: The overlay of storage changes taken apart into cells, each with its versions and flags.
import SubstrateIpfs.Base.Transactions
import SubstrateIpfs.StateMachine.Changeset

/-!
# The overlay as cells

For each key, the versions of its value and the flags that say which open
transactions have written it stand for the values saved in copies of the whole
map. This is the coupling that every operation of the map keeps.
-/

namespace StateMachine

open List Option Snapshots AList Versions OverlayedMap OverlayedEntry

/-! ## Entries as versions -/

variable {K V : Type}

/-- The versions of a value. -/
def OverlayedEntry.values (self : OverlayedEntry V) : List V := self.transactions.map (·.value)

namespace OverlayedEntry

variable {e : OverlayedEntry V} {v : V} {r : List V}

theorem valueRef_eq (e : OverlayedEntry V) : e.valueRef = e.values.head? := by
  simp [valueRef, values]

theorem intoValue_eq (e : OverlayedEntry V) : e.intoValue = e.values.head? := e.valueRef_eq

section
variable (h : e.values = v :: r)

include h

theorem valueMut_eq (write : V → V) :
    ∃ e', e.valueMut write = some e' ∧ e'.values = write v :: r := by
  obtain ⟨tx, txs, htxs, rfl, rfl⟩ := map_eq_cons_iff.mp h
  simp only [valueMut, htxs]
  exact ⟨_, rfl, rfl⟩

theorem popTransaction_eq :
    ∃ tx e', e.popTransaction = some (tx, e') ∧ tx.value = v ∧ e'.values = r := by
  obtain ⟨tx, txs, htxs, rfl, rfl⟩ := map_eq_cons_iff.mp h
  simp only [popTransaction, htxs]
  exact ⟨_, _, rfl, rfl, rfl⟩

theorem transactionExtrinsicsMut_eq (write : Extrinsics → Extrinsics) :
    ∃ e', e.transactionExtrinsicsMut write = some e' ∧ e'.values = v :: r := by
  obtain ⟨tx, txs, htxs, rfl, rfl⟩ := map_eq_cons_iff.mp h
  simp only [transactionExtrinsicsMut, htxs]
  exact ⟨_, rfl, rfl⟩

end

/-- A first write adds a version, another one replaces it. -/
theorem setValue_eq (e : OverlayedEntry V) (val : V) (fw : Bool) :
    ∃ e', e.setValue val fw = some e' ∧
      e'.values = val :: if fw then e.values else e.values.tail := by
  cases fw with
  | true => exact ⟨_, rfl, rfl⟩
  | false =>
    cases hv : e.values with
    | nil =>
      have hemp : e.transactions = [] := map_eq_nil_iff.mp hv
      exact ⟨⟨[⟨val, []⟩]⟩, by simp [setValue, hemp], rfl⟩
    | cons old r =>
      obtain ⟨tx, txs, htxs, -, -⟩ := map_eq_cons_iff.mp hv
      obtain ⟨e', hmut, hvals'⟩ := valueMut_eq hv fun _ => val
      exact ⟨e', by simpa [setValue, htxs] using hmut, hvals'⟩

theorem set_eq (e : OverlayedEntry V) (val : V) (fw : Bool) (ext : Option UInt32) :
    ∃ e', e.set val fw ext = some e' ∧
      e'.values = val :: if fw then e.values else e.values.tail := by
  obtain ⟨e1, hwr, hv⟩ := e.setValue_eq val fw
  unfold set
  rw [hwr]
  cases ext with
  | none => exact ⟨e1, rfl, hv⟩
  | some ex => exact transactionExtrinsicsMut_eq hv (·.insert ex)

end OverlayedEntry

/-! ## The map as cells -/

variable [DecidableEq K] {cs : AList fun _ : K => OverlayedEntry V} {s' : OverlayedMap K V}
  {b : Bool} {dks : List (Finset K)} {st' : Snapshots (K → Option V)}

/-- Which transactions have written the key. -/
def flags (dirtyKeys : List (Finset K)) (key : K) : List Bool :=
  dirtyKeys.map fun dk => decide (key ∈ dk)

theorem flags_insertDirty (dis : List (Finset K)) (key k' : K) :
    flags (insertDirty dis key).2 k' =
      if k' = key then mark (flags dis k') else flags dis k' := by
  cases dis with
  | nil => simp [insertDirty, flags, mark]
  | cons dk dis =>
    by_cases heq : k' = key
    · simp [insertDirty, flags, mark, heq]
    · simp [insertDirty, flags, heq]

theorem length_insertDirty (dis : List (Finset K)) (key : K) :
    (insertDirty dis key).2.length = dis.length := by
  cases dis with
  | nil | cons => rfl

/-- Whether a write is the first one in its transaction decides about a new version. -/
theorem write_flags (dis : List (Finset K)) (key : K) (vs : List V) (v : V) :
    write (flags dis key) vs v = v :: if (insertDirty dis key).1 then vs else vs.tail := by
  cases dis with
  | nil => rfl
  | cons dk dis =>
    by_cases hmem : key ∈ dk
    · simp [flags, insertDirty, hmem, write]
    · simp [flags, insertDirty, hmem, write]

namespace OverlayedMap

/-- The versions of the value of a key. -/
def versions (self : OverlayedMap K V) (key : K) : List V := (self.entryOrDefault key).values

variable {e : OverlayedEntry V} {s : OverlayedMap K V} {key : K}

theorem versions_of_lookup (h : s.changes.lookup key = some e) : s.versions key = e.values := by
  simp [versions, entryOrDefault, h]

theorem versions_of_lookup_none (h : s.changes.lookup key = none) : s.versions key = [] := by
  simp [versions, entryOrDefault, h, values]

/-- Every entry has a version. -/
def Present (changes : AList fun _ : K => OverlayedEntry V) : Prop :=
  ∀ key e, changes.lookup key = some e → e.values ≠ []

theorem Present.insert (h : Present cs) (key : K) (he : e.values ≠ []) :
    Present (cs.insert key e) := by
  intro k' e' hl
  by_cases heq : k' = key
  · subst heq
    obtain rfl : e = e' := by simpa using hl
    exact he
  · exact h k' e' (by rwa [lookup_insert_ne heq] at hl)

theorem Present.erase (h : Present cs) (key : K) : Present (cs.erase key) := by
  intro k' e' hl
  by_cases heq : k' = key
  · subst heq
    simp at hl
  · exact h k' e' (by rwa [lookup_erase_ne heq] at hl)

/-- The map stands for a state with saved copies. -/
structure Cells (s : OverlayedMap K V) (store : Snapshots (K → Option V)) : Prop where
  present : Present s.changes
  coupled : ∀ key,
    Versions.Coupled (flags s.dirtyKeys key) (s.versions key) (store.saved.map (· key))
  visible : ∀ key, (s.versions key).head? = store.current key
  depth : s.dirtyKeys.length = store.saved.length

theorem versions_insert (hc : s'.changes = s.changes.insert key e) (k' : K) :
    s'.versions k' = if k' = key then e.values else s.versions k' := by
  unfold versions entryOrDefault
  rw [hc]
  by_cases heq : k' = key
  · subst heq
    simp
  · simp [heq]

theorem versions_erase (hc : s'.changes = s.changes.erase key) (k' : K) :
    s'.versions k' = if k' = key then [] else s.versions k' := by
  unfold versions entryOrDefault
  rw [hc]
  by_cases heq : k' = key
  · subst heq
    simp [values]
  · simp [heq]

/-- An entry that is written in the open transaction. -/
theorem Cells.write {s s' : OverlayedMap K V} {st : Snapshots (K → Option V)} (h : s.Cells st)
    {key : K} {v : V} {e : OverlayedEntry V} (hc : s'.changes = s.changes.insert key e)
    (hdty : s'.dirtyKeys = (insertDirty s.dirtyKeys key).2)
    (hv : e.values = write (flags s.dirtyKeys key) (s.versions key) v) :
    s'.Cells (st.update fun map => Function.update map key (some v)) := by
  have hve := versions_insert hc
  refine ⟨?_, ?_, ?_, ?_⟩
  · rw [hc]
    refine h.present.insert key ?_
    rw [hv, write_flags]
    exact cons_ne_nil _ _
  · intro k'
    rw [hve, hdty, flags_insertDirty]
    by_cases heq : k' = key
    · subst heq
      simp only [hv]
      exact (h.coupled k').write v
    · simp only [heq]
      exact h.coupled k'
  · intro k'
    rw [hve]
    by_cases heq : k' = key
    · subst heq
      simp [hv, update]
    · simp [heq, update, h.visible k']
  · rw [hdty, length_insertDirty]
    exact h.depth

/-- The mode, and which transactions are the client's. -/
def SameMode (s s' : OverlayedMap K V) : Prop :=
  s'.executionMode = s.executionMode ∧ s'.numClientTransactions = s.numClientTransactions

omit [DecidableEq K] in
theorem SameMode.trans {t u v : OverlayedMap K V} (h : SameMode t u) (h' : SameMode u v) :
    SameMode t v :=
  ⟨h'.1.trans h.1, h'.2.trans h.2⟩

theorem Cells.set {st : Snapshots (K → Option V)} (h : s.Cells st)
    (key : K) (v : V) (ext : Option UInt32) :
    ∃ s', s.set key v ext = some s' ∧
      s'.Cells (st.update fun map => Function.update map key (some v)) ∧ SameMode s s' := by
  obtain ⟨e, hset, hv⟩ := (s.entryOrDefault key).set_eq v (insertDirty s.dirtyKeys key).1 ext
  simp only [OverlayedMap.set, hset]
  refine ⟨_, rfl, h.write rfl rfl ?_, rfl, rfl⟩
  rw [hv, write_flags]
  rfl

/-! ### Closing a transaction

The keys of the transaction are closed one after the other. `Closing` is the
state in between: the keys that remain still have the flag of the transaction. -/

/-- The store after the innermost transaction has been closed. -/
def closed (rollback : Bool) (store : Snapshots (K → Option V)) : Snapshots (K → Option V) :=
  if rollback then store.rollback else store.commit

structure Closing (rollback : Bool) (remaining : List K) (s : OverlayedMap K V)
    (copy current : K → Option V) (saved : List (K → Option V)) : Prop where
  present : Present s.changes
  coupled : ∀ key,
    Versions.Coupled
      (if key ∈ remaining then true :: flags s.dirtyKeys key else flags s.dirtyKeys key)
      (s.versions key)
      (if key ∈ remaining then copy key :: saved.map (· key) else saved.map (· key))
  visible : ∀ key, (s.versions key).head? =
    if key ∈ remaining then current key else if rollback then copy key else current key
  depth : s.dirtyKeys.length = saved.length

variable {s : OverlayedMap K V} {key : K} {r : List K} {co c : K → Option V}
  {sa : List (K → Option V)} {re : List V}

section
variable (h : Closing b (key :: r) s co c sa)

include h

/-- The key that is closed next has an entry with a version. -/
theorem Closing.entry :
    ∃ e v re, s.changes.lookup key = some e ∧ e.values = v :: re ∧
      s.versions key = v :: re ∧
      Coupled (true :: flags s.dirtyKeys key) (v :: re) (co key :: sa.map (· key)) := by
  have hc := h.coupled key
  simp only [mem_cons] at hc
  obtain ⟨v, re, hv⟩ := exists_cons_of_ne_nil hc.ne_nil
  rw [hv] at hc
  cases hl : s.changes.lookup key with
  | none =>
    rw [versions_of_lookup_none hl] at hv
    cases hv
  | some e =>
    have hva : e.values = v :: re := (versions_of_lookup hl).symm.trans hv
    exact ⟨e, v, re, rfl, hva, hv, hc⟩

/-- One key is done: it has lost the flag, and the others are as before. -/
theorem Closing.next (hnew : key ∉ r) (hp : Present s'.changes)
    (hv : ∀ k', s'.versions k' = if k' = key then re else s.versions k')
    (hfl : ∀ k', k' ≠ key → flags s'.dirtyKeys k' = flags s.dirtyKeys k')
    (hlen : s'.dirtyKeys.length = s.dirtyKeys.length)
    (hc : Coupled (flags s'.dirtyKeys key) re (sa.map (· key)))
    (hvis : re.head? = if b then co key else c key) :
    Closing b r s' co c sa := by
  refine ⟨hp, ?_, ?_, hlen.trans h.depth⟩
  · intro k'
    rw [hv]
    by_cases heq : k' = key
    · subst heq
      simpa [hnew] using hc
    · simpa [heq, hfl k' heq] using h.coupled k'
  · intro k'
    rw [hv]
    by_cases heq : k' = key
    · subst heq
      simpa [hnew] using hvis
    · simpa [heq] using h.visible k'

end

theorem Closing.closeKey_rollback (h : Closing true (key :: r) s co c sa) (hnew : key ∉ r) :
    ∃ s', closeKey true s key = some s' ∧ Closing true r s' co c sa ∧
      SameMode s s' := by
  obtain ⟨e, value, re, hl, hv, -, hc⟩ := h.entry
  obtain ⟨tx, e', hpop, -, hrest⟩ := popTransaction_eq hv
  obtain ⟨hc', hvis⟩ := hc.rollback
  simp only [closeKey, hl, hpop, bind_eq_bind, bind_some]
  cases hemp : e'.transactions with
  | nil =>
    obtain rfl : re = [] := by rw [← hrest, values, hemp, map_nil]
    exact ⟨_, rfl, h.next hnew (h.present.erase key) (versions_erase rfl) (fun _ _ => rfl) rfl
      hc' hvis, rfl, rfl⟩
  | cons tx' transactions =>
    have hne : e'.values ≠ [] := by simp [values, hemp]
    subst hrest
    exact ⟨_, rfl, h.next hnew (h.present.insert key hne) (versions_insert rfl) (fun _ _ => rfl) rfl
      hc' hvis, rfl, rfl⟩

/-- Merging with the version below, if there is one in the transaction around. -/
theorem insertParent_eq {v : V} {sav : List (Option V)} (hv : e.values = v :: re)
    (hc : Coupled (flags dks key) re sav) :
    (insertParent dks key e).2 = (insertDirty dks key).2 ∧
      write (flags dks key) re v = v :: (if (insertParent dks key e).1 then re.tail else re) ∧
      ((insertParent dks key e).1 → re ≠ []) := by
  cases dks with
  | nil =>
    have hlen : e.transactions.length = re.length + 1 := by
      simpa [values] using congrArg length hv
    cases re with
    | nil | cons => simp [insertParent, insertDirty, flags, write, hlen]
  | cons dk dks =>
    by_cases hmem : key ∈ dk
    · have hne : re ≠ [] := by
        simp only [flags, map_cons, hmem] at hc
        exact hc.ne_nil
      simp [insertParent, insertDirty, flags, write, hmem, hne]
    · simp [insertParent, insertDirty, flags, write, hmem]

theorem Closing.closeKey_commit (h : Closing false (key :: r) s co c sa) (hnew : key ∉ r) :
    ∃ s', closeKey false s key = some s' ∧ Closing false r s' co c sa ∧
      SameMode s s' := by
  obtain ⟨e, value, re, hl, hva, hv, hc⟩ := h.entry
  have hcom := hc.commit
  obtain ⟨hdty, hwr, hne⟩ := insertParent_eq hva hc.rollback.1
  have hvis : some value = c key := by
    simpa [hv] using h.visible key
  have hfl : ∀ k', k' ≠ key →
      flags (insertParent s.dirtyKeys key e).2 k' = flags s.dirtyKeys k' := by
    intro k' hne'
    rw [hdty, flags_insertDirty, if_neg hne']
  have hm : flags (insertParent s.dirtyKeys key e).2 key = mark (flags s.dirtyKeys key) := by
    rw [hdty, flags_insertDirty, if_pos rfl]
  have hlen : (insertParent s.dirtyKeys key e).2.length = s.dirtyKeys.length := by
    rw [hdty, length_insertDirty]
  rw [hwr, ← hm] at hcom
  simp only [closeKey, hl, bind_eq_bind, bind_some]
  cases hp : (insertParent s.dirtyKeys key e).1 with
  | false =>
    rw [hp] at hcom
    refine ⟨_, rfl, h.next hnew h.present ?_ hfl hlen hcom hvis, rfl, rfl⟩
    intro k'
    by_cases heq : k' = key
    · subst heq
      rw [if_pos rfl]
      exact hv
    · rw [if_neg heq]
      rfl
  | true =>
    rw [hp] at hcom
    obtain ⟨old, re, rfl⟩ := exists_cons_of_ne_nil (hne hp)
    obtain ⟨tx, e', hpop, rfl, hvals'⟩ := popTransaction_eq hva
    obtain ⟨e2, hmut, hvals2⟩ := valueMut_eq hvals' fun _ => tx.value
    obtain ⟨e3, hextend, hvals3⟩ := transactionExtrinsicsMut_eq hvals2 (·.extend tx.extrinsics)
    simp only [hpop, hmut, hextend, bind_some]
    simp only [if_true, tail_cons, ← hvals3] at hcom
    refine ⟨_, rfl, h.next hnew (h.present.insert key (by simp [hvals3])) (versions_insert rfl)
      hfl hlen hcom (by simpa [hvals3] using hvis), rfl, rfl⟩

theorem Closing.closeKey (h : Closing b (key :: r) s co c sa) (hnew : key ∉ r) :
    ∃ s', closeKey b s key = some s' ∧ Closing b r s' co c sa ∧ SameMode s s' := by
  cases b with
  | true => exact h.closeKey_rollback hnew
  | false => exact h.closeKey_commit hnew

/-- All keys of the transaction, in any order. -/
theorem Closing.foldlM {ks : List K} (h : Closing b ks s co c sa) (hnd : ks.Nodup) :
    ∃ s', ks.foldlM (OverlayedMap.closeKey b) s = some s' ∧
      Closing b [] s' co c sa ∧ SameMode s s' := by
  induction ks generalizing s with
  | nil => exact ⟨s, rfl, h, rfl, rfl⟩
  | cons key ks ih =>
    obtain ⟨hnew, hnd'⟩ := nodup_cons.mp hnd
    obtain ⟨t, hcl, h1, hmode⟩ := h.closeKey hnew
    obtain ⟨u, hr, h2, hm'⟩ := ih h1 hnd'
    refine ⟨u, ?_, h2, hmode.trans hm'⟩
    rw [foldlM_cons, hcl]
    exact hr

/-- The set of the innermost transaction is taken away, its keys are still to be closed. -/
theorem Cells.closing {dk : Finset K} (h : s.Cells ⟨c, co :: sa⟩)
    (hdty : s.dirtyKeys = dk :: dks) (order : IterationOrder K) (rb : Bool) :
    Closing rb (order.keys dk) { s with dirtyKeys := dks } co c sa := by
  have hc : ∀ key, Coupled (decide (key ∈ dk) :: flags dks key) (s.versions key)
      (co key :: sa.map (· key)) := by
    intro key
    simpa [hdty, flags] using h.coupled key
  have hv : ∀ key, versions { s with dirtyKeys := dks } key = s.versions key := fun _ => rfl
  refine ⟨h.present, ?_, ?_, ?_⟩
  · intro key
    specialize hc key
    simp only [order.mem_keys, hv]
    by_cases hmem : key ∈ dk
    · simpa [hmem] using hc
    · simp only [hmem] at hc
      simpa [hmem] using hc.close_clean.1
  · intro key
    specialize hc key
    have hvis : (s.versions key).head? = c key := h.visible key
    simp only [order.mem_keys, hv]
    by_cases hmem : key ∈ dk
    · simpa [hmem] using hvis
    simp only [hmem] at hc
    have hco := hc.close_clean.2
    cases rb with
    | true => simpa [hmem] using hco
    | false => simpa using hvis
  · simpa [hdty] using h.depth

/-- All keys have been closed. -/
theorem Closing.done {rb : Bool} (h : Closing rb [] s co c sa) :
    s.Cells (closed rb ⟨c, co :: sa⟩) := by
  have hcld : closed rb ⟨c, co :: sa⟩ = ⟨if rb then co else c, sa⟩ := by
    cases rb with
    | true => rfl
    | false => rfl
  rw [hcld]
  refine ⟨h.present, ?_, ?_, h.depth⟩
  · intro key
    simpa using h.coupled key
  · intro key
    have hvis := h.visible key
    cases rb with
    | true | false => simpa using hvis

section
variable {st : Snapshots (K → Option V)} (h : s.Cells st)

include h

/-- Closing a transaction closes that of the store. -/
theorem Cells.close (o : IterationOrder K) (rb : Bool)
    (hcli : s.executionMode = .client ∨ s.numClientTransactions < s.dirtyKeys.length)
    (ho : 0 < st.saved.length) :
    ∃ s', s.closeTransaction o rb = some (.ok s') ∧ s'.Cells (closed rb st) ∧
      SameMode s s' := by
  obtain ⟨c, sa⟩ := st
  obtain ⟨co, sa, rfl⟩ := exists_cons_of_length_pos ho
  obtain ⟨dk, dks, hdty⟩ := exists_cons_of_length_pos (h.depth ▸ ho)
  obtain ⟨s', hfold, hdone, hmode⟩ := (h.closing hdty o rb).foldlM (o.nodup_keys dk)
  refine ⟨s', ?_, hdone.done, hmode⟩
  have hall : ¬ (s.executionMode = .runtime ∧ !s.hasOpenRuntimeTransactions) := by
    rintro ⟨hrt, hn⟩
    rcases hcli with hcli | hcli
    · rw [hcli] at hrt
      cases hrt
    · simp [hasOpenRuntimeTransactions, transactionDepth, hcli] at hn
  unfold closeTransaction
  simp only [hall, hdty, hfold]
  rfl

/-- All transactions beyond those of the client are rolled back, one by one. -/
theorem Cells.rollbackOpen (hcli : s.executionMode = .client) (order : ℕ → IterationOrder K)
    {rounds : ℕ} (hrds : s.dirtyKeys.length ≤ rounds) :
    ∃ s', rollbackOpen order rounds s = some s' ∧
      s'.Cells (st.rollbackTo s.numClientTransactions) ∧ SameMode s s' := by
  induction rounds generalizing s st with
  | zero =>
    have hn : s.dirtyKeys.length = 0 := by omega
    refine ⟨s, ?_, ?_, rfl, rfl⟩
    · simp [rollbackOpen, hasOpenRuntimeTransactions, transactionDepth, hn]
    · rw [rollbackTo_of_le (by rw [← h.depth]; omega)]
      exact h
  | succ rounds ih =>
    by_cases ho : s.numClientTransactions < s.dirtyKeys.length
    · have hsav : s.numClientTransactions < st.saved.length := h.depth ▸ ho
      obtain ⟨t, hcl, h1, hm⟩ := h.close (order rounds) true (.inl hcli) (by omega)
      have hlen : t.dirtyKeys.length ≤ rounds := by
        have := h1.depth
        have := h.depth
        have := st.length_rollback
        simp only [closed, if_true] at *
        omega
      obtain ⟨u, hr, h2, hm'⟩ := ih h1 (hm.1.trans hcli) hlen
      refine ⟨u, ?_, ?_, hm.trans hm'⟩
      · simp only [rollbackOpen, hasOpenRuntimeTransactions, transactionDepth, ho,
          rollbackTransaction, hcl]
        exact hr
      · rw [rollbackTo_of_lt hsav, ← hm.2]
        exact h2
    · refine ⟨s, ?_, ?_, rfl, rfl⟩
      · simp [rollbackOpen, hasOpenRuntimeTransactions, transactionDepth, ho]
      · rw [rollbackTo_of_le (by rw [← h.depth]; omega)]
        exact h

theorem Cells.start : s.startTransaction.Cells st.start := by
  refine ⟨h.present, ?_, h.visible, congrArg (· + 1) h.depth⟩
  intro key
  have hcln := (h.coupled key).clean
  rw [h.visible key] at hcln
  exact hcln

end

/-! ### Modes

In the runtime, the depth at which it was entered is remembered. -/

/-- The map stands for a state with saved copies, outside the runtime or in the
runtime entered at a depth. -/
structure Follows (s : OverlayedMap K V) (store : Snapshots (K → Option V)) (entered : Option ℕ) :
    Prop where
  cells : s.Cells store
  executionMode : s.executionMode = if entered.isSome then .runtime else .client
  numClientTransactions : ∀ depth, entered = some depth → s.numClientTransactions = depth

variable {st : Snapshots (K → Option V)} {en : Option ℕ}

section
variable (h : s.Follows st en)

include h

/-- An operation that only works on the store. -/
theorem Follows.of_store (hcel : s'.Cells st') (hm : SameMode s s') : s'.Follows st' en :=
  ⟨hcel, hm.1.trans h.executionMode, fun d hent => hm.2.trans (h.numClientTransactions d hent)⟩

/-- A transaction is closed if there is one that may be closed. -/
theorem Follows.close_ok (hcan : en.getD 0 < st.saved.length) (o : IterationOrder K) (rb : Bool) :
    ∃ s', s.closeTransaction o rb = some (.ok s') ∧ s'.Follows (closed rb st) en := by
  have hall : s.executionMode = .client ∨ s.numClientTransactions < s.dirtyKeys.length := by
    cases hent : en with
    | none => exact .inl (by simpa [hent] using h.executionMode)
    | some d =>
      rw [hent] at hcan
      rw [h.numClientTransactions d hent, h.cells.depth]
      exact .inr hcan
  obtain ⟨s', hcl, hcel, hs⟩ := h.cells.close o rb hall (by omega)
  exact ⟨s', hcl, h.of_store hcel hs⟩

theorem Follows.close_error (hcan : st.saved.length ≤ en.getD 0) (o : IterationOrder K)
    (rb : Bool) : s.closeTransaction o rb = some (.error {}) := by
  have hm := h.executionMode
  have hdep := h.cells.depth
  cases hent : en with
  | none =>
    rw [hent, getD_none] at hcan
    have hn : s.dirtyKeys = [] := length_eq_zero_iff.mp (by omega)
    simp [closeTransaction, hn]
  | some d =>
    have hcli := h.numClientTransactions d hent
    have hp : s.dirtyKeys.length ≤ d := by simpa [hent, ← hdep] using hcan
    simp [closeTransaction, hm, hent, hasOpenRuntimeTransactions, transactionDepth, hcli, hp]

theorem Follows.commitTransaction (hcan : en.getD 0 < st.saved.length) (o : IterationOrder K) :
    ∃ s', s.commitTransaction o = some (.ok s') ∧ s'.Follows st.commit en :=
  h.close_ok hcan o false

theorem Follows.rollbackTransaction (hcan : en.getD 0 < st.saved.length) (o : IterationOrder K) :
    ∃ s', s.rollbackTransaction o = some (.ok s') ∧ s'.Follows st.rollback en :=
  h.close_ok hcan o true

end

theorem Follows.enterRuntime (h : s.Follows st none) :
    ∃ s', s.enterRuntime = .ok s' ∧ s'.Follows st (some st.saved.length) := by
  have hcli : s.executionMode = .client := h.executionMode
  refine ⟨{ s with executionMode := .runtime, numClientTransactions := s.transactionDepth },
    by rw [OverlayedMap.enterRuntime, hcli],
    ⟨h.cells.present, h.cells.coupled, h.cells.visible, h.cells.depth⟩, rfl, ?_⟩
  rintro depth ⟨⟩
  exact h.cells.depth

theorem Follows.exitRuntime {depth : ℕ} (h : s.Follows st (some depth))
    (order : ℕ → IterationOrder K) :
    ∃ s', s.exitRuntime order = some (.ok s') ∧ s'.Follows (st.rollbackTo depth) none := by
  have hm : s.executionMode = .runtime := h.executionMode
  have hcel : Cells { s with executionMode := .client } st :=
    ⟨h.cells.present, h.cells.coupled, h.cells.visible, h.cells.depth⟩
  obtain ⟨s', hr, hc', hs⟩ := hcel.rollbackOpen rfl order le_rfl
  refine ⟨s', ?_, ?_⟩
  · unfold OverlayedMap.exitRuntime
    rw [hm, transactionDepth]
    simp only [hr]
    rfl
  · rw [← h.numClientTransactions depth rfl]
    refine ⟨hc', hs.1, ?_⟩
    intro depth' hn
    cases hn

theorem Follows.enterRuntime_error {d : ℕ} (h : s.Follows st (some d)) :
    s.enterRuntime = .error {} := by
  have hm : s.executionMode = .runtime := h.executionMode
  rw [OverlayedMap.enterRuntime, hm]

theorem Follows.exitRuntime_error (h : s.Follows st none) (o : ℕ → IterationOrder K) :
    s.exitRuntime o = some (.error {}) := by
  have hm : s.executionMode = .client := h.executionMode
  rw [OverlayedMap.exitRuntime, hm]

/-! ### Empty maps -/

private theorem eq_none_of_isEmpty (h : s.isEmpty) (key : K) : s.changes.lookup key = none := by
  have hen : s.changes.entries = [] := isEmpty_iff.mp h
  rw [AList.lookup, hen]
  rfl

/-- A map without changes stands for a state that has never changed. -/
theorem Cells.isEmpty_iff (h : s.Cells st) : s.isEmpty ↔ st.Constant fun _ => none := by
  constructor
  · intro hemp
    have hv : ∀ key, s.versions key = [] :=
      fun key => versions_of_lookup_none (eq_none_of_isEmpty hemp key)
    refine ⟨?_, ?_⟩
    · funext key
      rw [← h.visible key, hv key, head?_nil]
    intro co hmem
    funext key
    have hc := h.coupled key
    rw [hv key] at hc
    exact hc.eq_none (co key) (mem_map_of_mem hmem)
  · intro hcon
    have hl : ∀ key, s.changes.lookup key = none := by
      intro key
      cases hl : s.changes.lookup key with
      | none => rfl
      | some e =>
        have hvis := h.visible key
        rw [versions_of_lookup hl, hcon.1] at hvis
        exact absurd (head?_eq_none_iff.mp hvis) (h.present key e hl)
    unfold isEmpty
    cases hen : s.changes.entries with
    | nil => rfl
    | cons ent ents =>
      have hmem : ent.2 ∈ s.changes.lookup ent.1 :=
        mem_lookup_iff.mpr (by rw [hen]; exact mem_cons_self)
      rw [hl] at hmem
      cases hmem

/-- A new map stands for a state that has never changed, at the same depth. -/
theorem Follows.spawnChild (h : s.Follows st en) (hcon : st'.Constant fun _ => none)
    (hdep : st'.saved.length = st.saved.length) : s.spawnChild.Follows st' en := by
  have hlen : s.spawnChild.dirtyKeys = replicate st'.saved.length ∅ := by
    rw [hdep, ← h.cells.depth]
    rfl
  refine ⟨⟨?_, ?_, ?_, ?_⟩, h.executionMode, h.numClientTransactions⟩
  · intro key e hl
    cases hl
  · intro key
    have hsav : st'.saved.map (· key) = replicate st'.saved.length none := by
      refine eq_replicate_iff.mpr ⟨length_map _, ?_⟩
      simp only [List.mem_map]
      rintro _ ⟨co, hmem, rfl⟩
      rw [hcon.2 co hmem]
    rw [hlen, hsav, flags, map_replicate]
    exact coupled_nil _
  · intro key
    rw [hcon.1]
    rfl
  · rw [hlen, length_replicate]

theorem follows_empty : (empty K V).Follows ⟨fun _ => none, []⟩ none := by
  refine ⟨⟨?_, ?_, ?_, rfl⟩, rfl, ?_⟩
  · intro key e hl
    cases hl
  · intro key
    exact .base (Nat.zero_le 1)
  · intro key
    rfl
  · intro depth hent
    cases hent

/-! ### Draining -/

section
variable (h : s.Cells st)

include h

/-- Every entry has a newest version, which is the value that is seen. -/
theorem Cells.head_values (hl : s.changes.lookup key = some e) :
    ∃ v re, e.values = v :: re ∧ st.current key = some v := by
  obtain ⟨v, re, hv⟩ := exists_cons_of_ne_nil (h.present key e hl)
  refine ⟨v, re, hv, ?_⟩
  rw [← h.visible, versions_of_lookup hl, hv, head?_cons]

theorem Cells.current_of_lookup_none (hl : s.changes.lookup key = none) :
    st.current key = none := by
  rw [← h.visible, versions_of_lookup_none hl, head?_nil]

theorem Cells.drainCommited (hdep : st.saved = []) :
    ∃ t, s.drainCommited = some t ∧ ∀ key, t.lookup key = st.current key := by
  have hz : s.transactionDepth = 0 := by rw [transactionDepth, h.depth, hdep, length_nil]
  simp only [OverlayedMap.drainCommited, hz]
  refine Assoc.traverse_spec (P := fun key res => res = st.current key) ?_ ?_
  · intro key e hl
    obtain ⟨value, re, hv, hcur⟩ := h.head_values hl
    obtain ⟨tx, e', hpop, htx, -⟩ := popTransaction_eq hv
    exact ⟨some tx.value, by rw [hpop]; rfl, by rw [hcur, htx]⟩
  · intro key hl
    exact (h.current_of_lookup_none hl).symm

/-- Draining fails while a transaction is open. -/
theorem Cells.drainCommited_open (hdep : st.saved ≠ []) : s.drainCommited = none := by
  have hpos : s.transactionDepth ≠ 0 := by
    rw [transactionDepth, h.depth]
    exact fun hz => hdep (length_eq_zero_iff.mp hz)
  simp [OverlayedMap.drainCommited, hpos]

/-- The newest versions, whatever transactions are open. -/
theorem Cells.traverse_intoValue :
    ∃ t, Assoc.traverse (fun _ ent => ent.intoValue.map some) s.changes = some t ∧
      ∀ key, t.lookup key = st.current key := by
  refine Assoc.traverse_spec (P := fun key res => res = st.current key) ?_ ?_
  · intro key e hl
    obtain ⟨v, re, hv, hcur⟩ := h.head_values hl
    have hval : e.intoValue = some v := by
      rw [e.intoValue_eq, hv, head?_cons]
    exact ⟨some v, by rw [hval]; rfl, hcur.symm⟩
  · intro key hl
    exact (h.current_of_lookup_none hl).symm

end

end OverlayedMap

end StateMachine
