-- SUMMARY: Each tag has one ready provider, and the ready queue loses no transaction.
import SubstrateIpfs.TransactionPool.Ready

/-!
# The index of the ready queue

`Indexed` says that ready transactions are found under their hash and that
`providedTags` gives for each tag the transaction that provides it. During a
replacement the tags that are about to get a new provider may still be given to a
transaction that is gone: `IndexedUpTo` allows for such tags.

What an operation takes from the queue it returns: this is stated as a permutation
of transactions.
-/

namespace TransactionPool.ReadyTransactions

open List Option FinMap Worklist

variable {H T : Type} [DecidableEq H] [DecidableEq T] {tx : Transaction H T}

/-- The transaction under a hash. -/
def txAt (r : ReadyTransactions H T) (h : H) : Option (Transaction H T) :=
  (r.ready.get? h).map (·.transaction.transaction)

omit [DecidableEq T] in
theorem txAt_eq_some {r : ReadyTransactions H T} {h : H} :
    r.txAt h = some tx ↔ ∃ x, r.ready.get? h = some x ∧ x.transaction.transaction = tx := by
  simp [txAt]

omit [DecidableEq T] in
theorem mem_transactions {r : ReadyTransactions H T} :
    tx ∈ r.transactions ↔ ∃ h, r.txAt h = some tx := by
  simp only [transactions, List.mem_map, mem_values, txAt_eq_some]
  constructor
  · rintro ⟨x, ⟨h, hx⟩, rfl⟩
    exact ⟨h, x, hx, rfl⟩
  · rintro ⟨h, x, hx, rfl⟩
    exact ⟨x, ⟨h, hx⟩, rfl⟩

/-- The index agrees with the transactions, except for tags in `stale`. -/
structure IndexedUpTo (stale : List T) (r : ReadyTransactions H T) : Prop where
  keyed : ∀ {h tx}, r.txAt h = some tx → tx.hash = h
  provider : ∀ {h tx t}, r.txAt h = some tx → t ∈ tx.provides → r.providedTags.get? t = some h
  provided : ∀ {t h}, r.providedTags.get? t = some h →
    t ∈ stale ∨ ∃ tx, r.txAt h = some tx ∧ t ∈ tx.provides

/-- The index agrees with the transactions. -/
abbrev Indexed (r : ReadyTransactions H T) : Prop := IndexedUpTo [] r

variable {r r' : ReadyTransactions H T} {st : List T} {k hash : H} {f : Option (List T)}
  {x : ReadyTx H T} {s s' : Removal H T} {provided : FinMap T H}
  {uns : List H} {o : HashOrder H T} {res : Except (Error H) (List (Transaction H T))}
  {xs re : List H} {ts m : List T} {w : WaitingTransaction H T} {tag : T}

theorem Indexed.upTo (h : r.Indexed) (sta : List T) : IndexedUpTo sta r :=
  ⟨h.keyed, h.provider, fun hk => .inr ((h.provided hk).resolve_left not_mem_nil)⟩

theorem Indexed.providedTags_iff (h : r.Indexed) {t : T} :
    r.providedTags.get? t = some k ↔ ∃ x, r.ready.get? k = some x ∧ t ∈ x.provides := by
  constructor
  · intro hp
    obtain ⟨tx, htx, ht⟩ := (h.provided hp).resolve_left not_mem_nil
    obtain ⟨x, hx, rfl⟩ := txAt_eq_some.mp htx
    exact ⟨x, hx, ht⟩
  · rintro ⟨x, hx, ht⟩
    exact h.provider (txAt_eq_some.mpr ⟨x, hx, rfl⟩) ht

theorem indexed_default : (default : ReadyTransactions H T).Indexed where
  keyed h := by cases h
  provider h := by cases h
  provided h := by cases h

/-- A transaction leaves, and the tags it provided, stale ones apart, have no provider any more. -/
theorem IndexedUpTo.withdraw (h : IndexedUpTo st r) (htx : r.txAt hash = some tx)
    (hat : ∀ h, r'.txAt h = if h = hash then none else r.txAt h) (hp : ∀ t, r'.providedTags.get? t =
      if t ∈ tx.provides ∧ t ∉ st then none else r.providedTags.get? t) :
    IndexedUpTo st r' := by
  refine ⟨fun {k tx'} hk => ?_, fun {k tx' t} hk ht => ?_, fun {t k} hk => ?_⟩
  · rw [hat] at hk
    split at hk
    · cases hk
    · exact h.keyed hk
  · rw [hat] at hk
    split at hk
    · cases hk
    next hne =>
      rw [hp, if_neg, h.provider hk ht]
      rintro ⟨ht', -⟩
      exact hne (some.inj ((h.provider hk ht).symm.trans (h.provider htx ht')))
  · rw [hp] at hk
    split at hk
    · cases hk
    rename_i hst
    rcases h.provided hk with hs | ⟨tx', htx', ht⟩
    · exact .inl hs
    by_cases hkh : k = hash
    · subst hkh
      cases htx.symm.trans htx'
      exact .inl (not_not.mp fun hs => hst ⟨ht, hs⟩)
    · exact .inr ⟨tx', by rw [hat, if_neg hkh, htx'], ht⟩

omit [DecidableEq T] in
/-- A queue that gives all transactions but one. -/
theorem transactions_perm_cons (htx : r.txAt hash = some tx)
    (hat : ∀ h, r'.txAt h = if h = hash then none else r.txAt h) :
    (tx :: r'.transactions).Perm r.transactions := by
  obtain ⟨x, hx, rfl⟩ := txAt_eq_some.mp htx
  have hv := (values_erase hx).map (·.transaction.transaction)
  have hs : (r'.ready.values.map (·.transaction.transaction)).Perm
      ((r.ready.erase hash).values.map (·.transaction.transaction)) := by
    refine values_map_perm fun k => (hat k).trans ?_
    rw [get?_erase]
    split <;> rfl
  exact (hs.cons _).trans hv.symm

/-! ## Removing subtrees -/

omit [DecidableEq T] in
theorem map_update {B : Type} {re : FinMap H (ReadyTx H T)} {f : ReadyTx H T → ReadyTx H T}
    {g : ReadyTx H T → B} (hg : ∀ x, g (f x) = g x) (h : H) :
    ((re.update k f).get? h).map g = (re.get? h).map g := by
  rw [get?_update]
  split
  next heq =>
    rw [heq, Option.map_map]
    exact congrArg (Option.map · _) (funext hg)
  · rfl

theorem map_transaction_removeFromUnlocks (p : FinMap T H) (tags : List T)
    (re : FinMap H (ReadyTx H T)) (h : H) :
    ((tags.foldl (removeFromUnlocks p) re).get? h).map (·.transaction) =
      (re.get? h).map (·.transaction) := by
  induction tags generalizing re with
  | nil => rfl
  | cons tag tags ih =>
    rw [foldl_cons, ih]
    unfold removeFromUnlocks
    split
    · rfl
    · refine map_update (fun x => ?_) h
      rfl

theorem removeItem_subset {A : Type} [DecidableEq A] (l : List A) (a : A) : removeItem l a ⊆ l := by
  unfold removeItem
  split
  · exact List.Subset.refl l
  next h => exact fun b hb => (Vec.swapRemoveFirst_eq_some h).2.mem_iff.mpr (mem_cons_of_mem _ hb)

theorem unlocks_removeFromUnlocks {ready : FinMap H (ReadyTx H T)}
    (h : (ts.foldl (removeFromUnlocks provided) ready).get? k = some x) :
    ∃ y, ready.get? k = some y ∧ x.unlocks ⊆ y.unlocks := by
  induction ts generalizing ready with
  | nil => exact ⟨x, h, List.Subset.refl _⟩
  | cons tag ts ih =>
    obtain ⟨y, hy, hsub⟩ := ih h
    unfold removeFromUnlocks at hy
    split at hy
    · exact ⟨y, hy, hsub⟩
    rw [get?_update] at hy
    split at hy
    next heq =>
      obtain ⟨z, hz, rfl⟩ := map_eq_some_iff.mp hy
      exact ⟨z, heq ▸ hz, List.Subset.trans hsub (removeItem_subset _ _)⟩
    · exact ⟨y, hy, hsub⟩

theorem txAt_removeTx (h : H) :
    (r.removeTx f hash x).txAt h = if h = hash then none else r.txAt h := by
  have hr := map_transaction_removeFromUnlocks
    ((invalidated f x).foldl erase r.providedTags) x.requires (r.ready.erase hash) h
  have htxs := congrArg (Option.map (·.transaction)) hr
  rw [Option.map_map, Option.map_map, get?_erase] at htxs
  refine htxs.trans ?_
  split <;> rfl

omit [DecidableEq H] in
theorem mem_invalidated {t : T} : t ∈ invalidated f x ↔ t ∈ x.provides ∧ t ∉ f.getD [] := by
  cases f <;> simp [invalidated]

theorem IndexedUpTo.removeTx (h : IndexedUpTo (f.getD []) r) (hx : r.ready.get? hash = some x) :
    IndexedUpTo (f.getD []) (r.removeTx f hash x) := by
  refine h.withdraw (txAt_eq_some.mpr ⟨x, hx, rfl⟩) txAt_removeTx fun t => ?_
  refine get?_foldl_erase.trans ?_
  simp only [mem_invalidated]
  rfl

theorem removeVisit_eq_skip : removeVisit f s k = some none ↔ s.1.ready.get? k = none := by
  unfold removeVisit
  split
  next hget => simp [hget]
  next x hget => simp [hget]

theorem removeVisit_eq_some {mo : List H} (h : removeVisit f s k = some (some (s', mo))) :
    ∃ x, s.1.ready.get? k = some x ∧
      s' = (s.1.removeTx f k x, s.2 ++ [x.transaction.transaction]) ∧
      mo = if (invalidated f x).isEmpty then [] else x.unlocks.reverse := by
  unfold removeVisit at h
  split at h
  · cases h
  next x hget =>
    cases h
    exact ⟨x, hget, rfl, rfl⟩

theorem removeVisit_ne_none : removeVisit f s k ≠ none := by
  unfold removeVisit
  split <;> exact some_ne_none _

/-- Whoever unlocks one of these hashes is one of them. -/
def Closed (r : ReadyTransactions H T) (B : H → Prop) : Prop :=
  ∀ k x k', r.ready.get? k = some x → k' ∈ x.unlocks → B k' → B k

/-- The removal of the roots `hashes` from `r`, with the stack that is left. There are fewer links,
the tags of the filter stay, and so does a closed set that has no root. -/
structure Removing (filter : Option (List T)) (r : ReadyTransactions H T) (hashes : List H)
    (s : Removal H T) (stack : List H) : Prop where
  indexed : IndexedUpTo (filter.getD []) s.1
  perm : (s.1.transactions ++ s.2).Perm r.transactions
  sub : ∀ k tx, s.1.txAt k = some tx → r.txAt k = some tx
  roots : ∀ k ∈ hashes, k ∈ stack ∨ s.1.txAt k = none
  links : ∀ k x, s.1.ready.get? k = some x → ∃ y, r.ready.get? k = some y ∧ x.unlocks ⊆ y.unlocks
  tags : ∀ t h, s.1.providedTags.get? t = some h → r.providedTags.get? t = some h
  filtered : ∀ t ∈ filter.getD [], s.1.providedTags.get? t = r.providedTags.get? t
  aside : ∀ B, r.Closed B → (∀ k ∈ hashes, ¬ B k) →
    (∀ k ∈ stack, ¬ B k) ∧ ∀ k, B k → s.1.txAt k = r.txAt k

theorem Removing.start {fi : Option (List T)} (h : IndexedUpTo (fi.getD []) r)
    (hashes : List H) : Removing fi r hashes (r, []) hashes.reverse where
  indexed := h
  perm := by simp
  sub _ _ h := h
  roots _ hk := .inl (mem_reverse.mpr hk)
  links _ x hx := ⟨x, hx, List.Subset.refl _⟩
  tags _ _ h := h
  filtered _ _ := rfl
  aside _ _ hks := ⟨fun k hk => hks k (mem_reverse.mp hk), fun _ _ => rfl⟩

theorem Removing.skip (h : Removing f r xs s (k :: re))
    (hvis : removeVisit f s k = some none) : Removing f r xs s re := by
  refine { h with
    roots := fun k' hk' => ?_
    aside := fun B hB hks => (h.aside B hB hks).imp_left fun hst => (forall_mem_cons.mp hst).2 }
  rcases h.roots k' hk' with hmem | hn
  · rcases mem_cons.mp hmem with rfl | hmem
    · exact .inr (by simp [txAt, removeVisit_eq_skip.mp hvis])
    · exact .inl hmem
  · exact .inr hn

theorem Removing.visit {mo : List H} (h : Removing f r xs s (k :: re))
    (hvis : removeVisit f s k = some (some (s', mo))) :
    Removing f r xs s' (mo ++ re) := by
  obtain ⟨x, hget, rfl, rfl⟩ := removeVisit_eq_some hvis
  have htx : s.1.txAt k = some x.transaction.transaction := txAt_eq_some.mpr ⟨x, hget, rfl⟩
  have htag : ∀ t, (s.1.removeTx f k x).providedTags.get? t =
      if t ∈ invalidated f x then none else s.1.providedTags.get? t := fun t => get?_foldl_erase
  refine ⟨h.indexed.removeTx hget, ?_, fun k' tx hk' => ?_, fun k' hk' => ?_, fun k' y hy => ?_,
    fun t h' ht => ?_, fun t ht => ?_, fun B hB hks => ?_⟩
  · have hc : (x.transaction.transaction ::
        (s.1.removeTx f k x).transactions).Perm s.1.transactions :=
      transactions_perm_cons htx txAt_removeTx
    refine .trans ?_ ((hc.append_right s.2).trans h.perm)
    rw [← append_assoc]
    exact perm_append_singleton _ _
  · rw [txAt_removeTx] at hk'
    split at hk'
    · cases hk'
    · exact h.sub k' tx hk'
  · rw [txAt_removeTx]
    rcases h.roots k' hk' with hmem | hn
    · rcases mem_cons.mp hmem with rfl | hmem
      · simp
      · exact .inl (mem_append_right _ hmem)
    · exact .inr (by simp [hn])
  · obtain ⟨z, hz, hsub⟩ := unlocks_removeFromUnlocks hy
    obtain ⟨y', hy', hsub'⟩ := h.links k' z (of_get?_erase hz).2
    exact ⟨y', hy', List.Subset.trans hsub hsub'⟩
  · rw [htag] at ht
    split at ht
    · cases ht
    · exact h.tags t h' ht
  · rw [htag, if_neg fun hm => (mem_invalidated.mp hm).2 ht, h.filtered t ht]
  · obtain ⟨hst, hstay⟩ := h.aside B hB hks
    have hk := hst k mem_cons_self
    refine ⟨fun k' hk' => ?_, fun k' hk' => ?_⟩
    · rcases mem_append.mp hk' with hk' | hk'
      · split at hk'
        · cases hk'
        obtain ⟨y, hy, hsub⟩ := h.links k x hget
        exact fun hb => hk (hB k y k' hy (hsub (mem_reverse.mp hk')) hb)
      · exact hst k' (mem_cons_of_mem _ hk')
    · rw [txAt_removeTx, if_neg, hstay k' hk']
      rintro rfl
      exact hk hk'

/-- The removal of subtrees never panics. It removes the roots, and returns what it removes. -/
theorem removeSubtreeWithTagFilter_spec (h : IndexedUpTo (f.getD []) r) (hashes : List H) :
    ∃ r' rem, r.removeSubtreeWithTagFilter hashes f = some (r', rem) ∧
      Removing f r hashes (r', rem) [] := by
  obtain ⟨s, hs, hdo⟩ := run_total (w := removeLoop f)
    (I := Removing f r hashes) (fun _ _ _ hI => hI.skip) (fun _ _ _ _ _ hI => hI.visit)
    (fun _ _ _ _ => removeVisit_ne_none) (.start h hashes)
  exact ⟨s.1, s.2, hs, hdo⟩

theorem Indexed.removeSubtree (h : r.Indexed) (hashes : List H) :
    ∃ r' rem, r.removeSubtree hashes = some (r', rem) ∧ r'.Indexed ∧
      (r'.transactions ++ rem).Perm r.transactions ∧ ∀ k ∈ hashes, r'.txAt k = none := by
  have hn : IndexedUpTo (none.getD []) r := h
  obtain ⟨r', rem, hrun, hdo⟩ := removeSubtreeWithTagFilter_spec hn hashes
  exact ⟨r', rem, hrun, hdo.indexed, hdo.perm, fun k hk =>
    (hdo.roots k hk).resolve_left not_mem_nil⟩

/-- Removing a transaction that is not ready changes nothing. -/
theorem removeSubtree_of_none (h : r.ready.get? hash = none) :
    r.removeSubtree [hash] = some (r, []) := by
  refine run_of_next ?_
  simp [Worklist.next, removeLoop, removeVisit, h]

/-! ## Import -/

theorem map_transaction_addLink {ls ls' : Links H T}
    (h : ts.foldlM (addLink provided hash) ls = some ls') (k : H) :
    (ls'.ready.get? k).map (·.transaction) = (ls.ready.get? k).map (·.transaction) := by
  refine foldlM_const
    (m := fun ls => (ls.ready.get? k).map (·.transaction)) (fun ls tag ls' h => ?_) h
  unfold addLink at h
  split at h
  · cases h
    rfl
  split at h
  · cases h
  · cases h
    refine map_update (fun x => ?_) k
    rfl

theorem txAt_insertTx (h : r.insertTx tx uns = some r') (k : H) :
    r'.txAt k = if k = tx.hash then some tx else r.txAt k := by
  unfold insertTx at h
  dsimp only at h
  split at h
  · cases h
  rename_i links hlk
  cases h
  simp only [txAt, get?_insert]
  split
  · rfl
  · have hs := congrArg (Option.map (·.transaction)) (map_transaction_addLink hlk k)
    rwa [Option.map_map, Option.map_map] at hs

theorem providedTags_insertTx (h : r.insertTx tx uns = some r') (t : T) :
    r'.providedTags.get? t = if t ∈ tx.provides then some tx.hash else r.providedTags.get? t := by
  unfold insertTx at h
  dsimp only at h
  split at h
  · cases h
  · cases h
    exact get?_foldl_insert

/-- A transaction takes over the stale tags. -/
theorem IndexedUpTo.insertTx (h : IndexedUpTo tx.provides r) (hnew : r.txAt tx.hash = none)
    (hf : ∀ k tx', r.txAt k = some tx' → ∀ t ∈ tx'.provides, t ∉ tx.provides)
    (hins : r.insertTx tx uns = some r') : r'.Indexed := by
  refine ⟨fun {k tx'} hk => ?_, fun {k tx' t} hk ht => ?_, fun {t k} hk => .inr ?_⟩
  · rw [txAt_insertTx hins] at hk
    split at hk
    next heq => cases hk; exact heq.symm
    · exact h.keyed hk
  · rw [txAt_insertTx hins] at hk
    rw [providedTags_insertTx hins]
    split at hk
    next heq => cases hk; rw [if_pos ht, heq]
    · rw [if_neg (hf k tx' hk t ht), h.provider hk ht]
  · rw [providedTags_insertTx hins] at hk
    split at hk
    next ht =>
      cases hk
      exact ⟨tx, by rw [txAt_insertTx hins, if_pos rfl], ht⟩
    next ht =>
      obtain ⟨tx', htx', ht'⟩ := (h.provided hk).resolve_left ht
      refine ⟨tx', ?_, ht'⟩
      rw [txAt_insertTx hins, if_neg, htx']
      rintro rfl
      cases hnew.symm.trans htx'

theorem transactions_insertTx (hnew : r.txAt tx.hash = none)
    (hins : r.insertTx tx uns = some r') : r'.transactions.Perm (tx :: r.transactions) := by
  have htx : r'.txAt tx.hash = some tx := by rw [txAt_insertTx hins, if_pos rfl]
  refine (transactions_perm_cons htx fun k => ?_).symm
  · rw [txAt_insertTx hins]
    split
    next heq => rw [heq, hnew]
    · rfl

theorem mem_replaceHashes :
    k ∈ r.replaceHashes o tx ↔ ∃ t ∈ tx.provides, r.providedTags.get? t = some k := by
  rw [replaceHashes, (o.perm _ _).mem_iff, mem_dedup, mem_filterMap]

/-- The priority of the transactions whose tags a transaction provides, taken together. -/
def oldPriority (r : ReadyTransactions H T) (order : HashOrder H T) (tx : Transaction H T) :
    UInt64 :=
  ((r.replaceHashes order tx).filterMap r.ready.get?).foldl
    (fun total tx => saturatingAdd total tx.transaction.transaction.priority) 0

/-- Others provide its tags, and its priority does not exceed theirs. -/
def TooLow (r : ReadyTransactions H T) (order : HashOrder H T) (tx : Transaction H T) : Prop :=
  r.replaceHashes order tx ≠ [] ∧ tx.priority ≤ r.oldPriority order tx

instance (r : ReadyTransactions H T) (order : HashOrder H T) (tx : Transaction H T) :
    Decidable (r.TooLow order tx) := inferInstanceAs (Decidable (_ ∧ _))

/-- What the check for replaced transactions does; it never panics. -/
theorem Indexed.replacePrevious (h : r.Indexed) (ord : HashOrder H T) (tx : Transaction H T) :
    (r.TooLow ord tx ∧
      ∃ old, r.replacePrevious ord tx = some (.error (.tooLowPriority old tx.priority))) ∨
      ¬ r.TooLow ord tx ∧ ∃ r' repl, r.replacePrevious ord tx = some (.ok (r', repl,
          ((r.replaceHashes ord tx).filterMap r.ready.get?).flatMap (·.unlocks))) ∧
        Removing (some tx.provides) r (r.replaceHashes ord tx) (r', repl) [] := by
  have hup : IndexedUpTo ((some tx.provides).getD []) r := h.upTo _
  unfold ReadyTransactions.replacePrevious
  dsimp only
  split
  next hemp =>
    have hnil := isEmpty_iff.mp hemp
    rw [hnil]
    exact .inr ⟨fun hlow => hlow.1 hnil, r, [], rfl, .start hup []⟩
  next hne =>
    split
    next hle => exact .inl ⟨⟨fun hnil => hne (isEmpty_iff.mpr hnil), hle⟩, _, rfl⟩
    next hle =>
      obtain ⟨r', rem, hrun, hdo⟩ := removeSubtreeWithTagFilter_spec hup (r.replaceHashes ord tx)
      rw [hrun]
      exact .inr ⟨fun hlow => hle hlow.2, r', rem, rfl, hdo⟩

/-- Once those are removed that provide its tags, nothing else does. -/
theorem Removing.free (h : r.Indexed)
    (hdo : Removing (some tx.provides) r (r.replaceHashes o tx) s []) {tx' : Transaction H T}
    {t : T} (hk : s.1.txAt k = some tx') (ht : t ∈ tx'.provides) : t ∉ tx.provides := by
  intro ht'
  have hroot := hdo.roots k (mem_replaceHashes.mpr ⟨t, ht', h.provider (hdo.sub k tx' hk) ht⟩)
  cases (hroot.resolve_left not_mem_nil).symm.trans hk

/-- What an import into the ready queue can do. -/
theorem importTx_eq_some (h : r.importTx o w = some (res, r')) :
    w.isReady = true ∧ r.txAt w.transaction.hash = none ∧
      ((∃ e, { r with insertionId := r.insertionId + 1 }.replacePrevious o w.transaction =
          some (.error e) ∧ res = .error e ∧ r' = { r with insertionId := r.insertionId + 1 }) ∨
        ∃ r1 repl uns,
          { r with insertionId := r.insertionId + 1 }.replacePrevious o w.transaction =
            some (.ok (r1, repl, uns)) ∧
          res = .ok repl ∧ r1.insertTx w.transaction uns = some r') := by
  unfold importTx contains at h
  dsimp only at h
  split at h
  · cases h
  rename_i hrdy
  split at h
  · cases h
  rename_i hnew
  refine ⟨by simpa using hrdy, by simpa [txAt] using hnew, ?_⟩
  split at h
  · cases h
  next e he =>
    cases h
    exact .inl ⟨e, he, rfl, rfl⟩
  next r1 repl uns hrepl =>
    obtain ⟨r2, hr, heq⟩ := map_eq_some_iff.mp h
    cases heq
    exact .inr ⟨r1, repl, uns, hrepl, rfl, hr⟩

/-- An import fails for want of priority and changes nothing, or the queue holds the transaction
instead of those it replaced. -/
theorem Indexed.importTx (h : r.Indexed) (himp : r.importTx o w = some (res, r')) :
    r'.Indexed ∧ ((r.TooLow o w.transaction ∧
        (∃ old, res = .error (.tooLowPriority old w.transaction.priority)) ∧
        r' = { r with insertionId := r.insertionId + 1 }) ∨
      ¬ r.TooLow o w.transaction ∧ ∃ repl r1, res = .ok repl ∧
        Removing (some w.transaction.provides) { r with insertionId := r.insertionId + 1 }
          (r.replaceHashes o w.transaction) (r1, repl) [] ∧
        r1.insertTx w.transaction (((r.replaceHashes o w.transaction).filterMap
          r.ready.get?).flatMap (·.unlocks)) = some r' ∧
        (r'.transactions ++ repl).Perm (w.transaction :: r.transactions)) := by
  have h' : { r with insertionId := r.insertionId + 1 }.Indexed := ⟨h.keyed, h.provider, h.provided⟩
  obtain ⟨-, hnew, ⟨e, he, rfl, rfl⟩ | ⟨r1, repl, uns, hr, rfl, hins⟩⟩ :=
    importTx_eq_some himp
  · obtain ⟨hlow, old, hold⟩ | ⟨-, _, _, hok, -⟩ := h'.replacePrevious o w.transaction
    · cases he.symm.trans hold
      exact ⟨h', .inl ⟨hlow, ⟨old, rfl⟩, rfl⟩⟩
    · cases he.symm.trans hok
  · obtain ⟨-, old, hold⟩ | ⟨hlow, r2, _, hok, hdo⟩ := h'.replacePrevious o w.transaction
    · cases hr.symm.trans hold
    cases hr.symm.trans hok
    have hnew' : r1.txAt w.transaction.hash = none := by
      refine eq_none_iff_forall_ne_some.mpr fun tx htx => ?_
      cases hnew.symm.trans (hdo.sub _ _ htx)
    refine ⟨hdo.indexed.insertTx hnew' (fun k tx' hk t ht => hdo.free h' hk ht) hins,
      .inr ⟨hlow, repl, r1, rfl, hdo, hins, ?_⟩⟩
    exact ((transactions_insertTx hnew' hins).append_right _).trans (hdo.perm.cons _)

/-! ## Pruning -/

theorem map_transaction_findPrevious (tags : List T) (acc : FinMap H (ReadyTx H T) × List T)
    (k : H) :
    ((tags.foldl (findPrevious provided hash) acc).1.get? k).map (·.transaction) =
      (acc.1.get? k).map (·.transaction) := by
  induction tags generalizing acc with
  | nil => rfl
  | cons tag tags ih =>
    rw [foldl_cons, ih]
    unfold findPrevious
    split
    · rfl
    split
    · rfl
    next tx' hget =>
      rw [get?_insert]
      split
      next heq => rw [heq, hget]; rfl
      · rfl

omit [DecidableEq T] in
theorem map_transaction_unlock (hashes : List H) (acc : FinMap H (ReadyTx H T) × Refs H T) (k : H) :
    ((hashes.foldl unlock acc).1.get? k).map (·.transaction) =
      (acc.1.get? k).map (·.transaction) := by
  induction hashes generalizing acc with
  | nil => rfl
  | cons hash hashes ih =>
    rw [foldl_cons, ih]
    unfold unlock
    split
    · rfl
    next tx hget =>
      rw [get?_insert]
      split
      next heq => rw [heq, hget]; rfl
      · rfl

theorem get?_foldlM_dropProvided {ct : T} {p' : FinMap T H}
    (h : ts.foldlM (dropProvided ct hash) provided = some p') (t : T) :
    p'.get? t = if t ∈ ts then none else provided.get? t := by
  induction ts generalizing provided with
  | nil => cases h; simp
  | cons tag ts ih =>
    obtain ⟨provided1, h1, h⟩ := bind_eq_some_iff.mp h
    unfold dropProvided at h1
    split at h1
    · cases h1
      rw [ih h, get?_erase]
      by_cases ht : t = tag <;> simp [ht]
    · cases h1

/-- Pruning a transaction takes it and its tags out of the queue. -/
theorem pruneTx_eq_some (h : r.pruneTx tag hash x = some (r', m)) :
    (∀ k, r'.txAt k = if k = hash then none else r.txAt k) ∧
      ∀ t, r'.providedTags.get? t =
        if t ∈ x.provides then none else if t = tag then none else r.providedTags.get? t := by
  obtain ⟨provided, hp, heq⟩ := map_eq_some_iff.mp h
  cases heq
  refine ⟨fun k => ?_, fun t => ?_⟩
  · have hs := map_transaction_unlock x.unlocks
      ((x.requires.foldl (findPrevious (r.providedTags.erase tag) x.hash)
        (r.ready.erase hash, [])).1, r.best.remove x.transaction) k
    rw [map_transaction_findPrevious] at hs
    have htxs := congrArg (Option.map (·.transaction)) hs
    rw [Option.map_map, Option.map_map, get?_erase] at htxs
    refine htxs.trans ?_
    split <;> rfl
  · rw [get?_foldlM_dropProvided hp, get?_erase]

theorem Indexed.pruneTx (h : r.Indexed) (hx : r.ready.get? hash = some x) (htag : tag ∈ x.provides)
    (hpru : r.pruneTx tag hash x = some (r', m)) :
    r'.Indexed ∧ (x.transaction.transaction :: r'.transactions).Perm r.transactions := by
  obtain ⟨hat, hp⟩ := pruneTx_eq_some hpru
  have htx : r.txAt hash = some x.transaction.transaction := txAt_eq_some.mpr ⟨x, hx, rfl⟩
  refine ⟨h.withdraw htx hat fun t => ?_, transactions_perm_cons htx hat⟩
  rw [hp]
  by_cases ht : t = tag
  · subst ht
    have htag' : t ∈ x.transaction.transaction.provides := htag
    simp [htag']
  · simp [ht, ReadyTx.provides]

theorem pruneVisit_eq_some (hs : s.1.Indexed) (h : pruneVisit s tag = some (some (s', m))) :
    ∃ hash x r m', s.1.providedTags.get? tag = some hash ∧ s.1.ready.get? hash = some x ∧
      tag ∈ x.provides ∧ s.1.pruneTx tag hash x = some (r, m') ∧
      s' = (r, s.2 ++ [x.transaction.transaction]) ∧ m = m'.reverse := by
  unfold pruneVisit at h
  split at h
  · cases h
  rename_i hash hp
  obtain ⟨tx, htx, htag⟩ := (hs.provided hp).resolve_left not_mem_nil
  obtain ⟨x, hx, rfl⟩ := txAt_eq_some.mp htx
  rw [hx] at h
  obtain ⟨⟨r, m'⟩, hr, heq⟩ := map_eq_some_iff.mp h
  cases heq
  exact ⟨hash, x, r, m', hp, hx, htag, hr, rfl, rfl⟩

/-- Pruning returns what it takes from the queue. -/
theorem Indexed.pruneTags (h : r.Indexed) {rem : List (Transaction H T)}
    (hpru : r.pruneTags tag = some (r', rem)) :
    r'.Indexed ∧ (r'.transactions ++ rem).Perm r.transactions := by
  refine run_inv (w := pruneLoop)
    (I := fun s _ => s.1.Indexed ∧ (s.1.transactions ++ s.2).Perm r.transactions)
    (fun s k re hI _ => hI) (fun s t re s' m hI hvis => ?_) ⟨h, by simp⟩ hpru
  obtain ⟨hash, x, r1, more', -, hx, htag, hr, rfl, -⟩ := pruneVisit_eq_some hI.1 hvis
  obtain ⟨hidx, hperm⟩ := hI.1.pruneTx hx htag hr
  refine ⟨hidx, .trans ?_ ((hperm.append_right s.2).trans hI.2)⟩
  rw [← append_assoc]
  exact perm_append_singleton _ _

end TransactionPool.ReadyTransactions
