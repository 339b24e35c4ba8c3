-- SUMMARY: An import loses no transaction, unless it fails or panics after it has unlocked others.
import SubstrateIpfs.TransactionPool.Conservation

/-!
# Promotion

Whether an import loses transactions can be told from the pool and the transaction.
The transaction may be too weak for those whose tags it provides, it may require a tag that
it takes over, or one of those it unlocks may push out a transaction that it rests on.
-/

namespace TransactionPool

open List Option Run FinMap Worklist

variable {H T : Type} [DecidableEq H] [DecidableEq T] {k : H} {x : ReadyTx H T} {ts : List T}
  {tx : Transaction H T} {w : WaitingTransaction H T} {o : HashOrder H T}

namespace ReadyTransactions

/-- It requires a tag that it takes over from a ready transaction. -/
def RequiresOwn (r : ReadyTransactions H T) (tx : Transaction H T) : Prop :=
  ∃ t ∈ tx.requires, t ∈ tx.provides ∧ ∃ h, r.providedTags.get? t = some h

variable {r r' : ReadyTransactions H T} {B : H → Prop} {uns : List H} {f : Option (List T)}
  {repl : List (Transaction H T)} {re : FinMap H (ReadyTx H T)} {provided : FinMap T H}

/-! ## Priorities -/

theorem le_saturatingAdd (a b : UInt64) : a ≤ saturatingAdd a b ∧ b ≤ saturatingAdd a b := by
  simp only [saturatingAdd, UInt64.le_iff_toNat_le]
  have ha := a.toNat_lt
  have hb := b.toNat_lt
  split
  next h =>
    rw [UInt64.toNat_add, Nat.mod_eq_of_lt h]
    omega
  · have hmax : (0xFFFFFFFFFFFFFFFF : UInt64).toNat = 2 ^ 64 - 1 := rfl
    rw [hmax]
    omega

/-- No transaction that is replaced has more than the priority of all together. -/
theorem le_oldPriority (hk : k ∈ r.replaceHashes o tx) (hx : r.ready.get? k = some x) :
    x.transaction.transaction.priority ≤ r.oldPriority o tx := by
  have hsum : ∀ (l : List (ReadyTx H T)) (a : UInt64),
      let total := l.foldl (fun a x => saturatingAdd a x.transaction.transaction.priority) a
      a ≤ total ∧ ∀ x ∈ l, x.transaction.transaction.priority ≤ total := by
    intro l
    induction l with
    | nil => exact fun a => ⟨UInt64.le_refl a, fun _ hx => by cases hx⟩
    | cons y l ih =>
      intro a
      have hy := le_saturatingAdd a y.transaction.transaction.priority
      obtain ⟨hle, hall⟩ := ih (saturatingAdd a y.transaction.transaction.priority)
      refine ⟨UInt64.le_trans hy.1 hle, fun x hx => ?_⟩
      rcases mem_cons.mp hx with rfl | hx
      · exact UInt64.le_trans hy.2 hle
      · exact hall x hx
  exact (hsum _ 0).2 x (mem_filterMap.mpr ⟨k, hk, hx⟩)

/-! ## What an import leaves -/

theorem addLink_eq_some {ls ls' : Links H T} {t : T} {hash : H}
    (h : addLink provided hash ls t = some ls') (k : H) :
    ((ls'.ready.get? k).isSome ↔ (ls.ready.get? k).isSome) ∧
      ∀ x, ls'.ready.get? k = some x → ∃ y, ls.ready.get? k = some y ∧
        ∀ k' ∈ x.unlocks, k' ∈ y.unlocks ∨ k' = hash ∧ provided.get? t = some k := by
  unfold addLink at h
  split at h
  · cases h
    exact ⟨.rfl, fun x hx => ⟨x, hx, fun _ hk => .inl hk⟩⟩
  next other hp =>
    split at h
    · cases h
    cases h
    simp only [get?_update]
    split
    next heq =>
      subst heq
      refine ⟨by simp, fun x hx => ?_⟩
      obtain ⟨y, hy, rfl⟩ := map_eq_some_iff.mp hx
      refine ⟨y, hy, fun k' hk' => ?_⟩
      rcases mem_append.mp hk' with hk' | hk'
      · exact .inl hk'
      · exact .inr ⟨mem_singleton.mp hk', hp⟩
    · exact ⟨.rfl, fun x hx => ⟨x, hx, fun _ hk => .inl hk⟩⟩

/-- Linking a transaction panics exactly on a required tag whose provider is gone. -/
theorem foldlM_addLink_isSome {hash : H} {ls : Links H T} :
    (ts.foldlM (addLink provided hash) ls).isSome ↔
      ∀ t ∈ ts, ∀ k, provided.get? t = some k → (ls.ready.get? k).isSome := by
  induction ts generalizing ls with
  | nil => simp
  | cons t ts ih =>
    rw [foldlM_cons, forall_mem_cons]
    cases h : addLink provided hash ls t with
    | none =>
      refine iff_of_false (by simp) fun hall => ?_
      unfold addLink at h
      split at h
      · cases h
      next k hp =>
        split at h
        next hn => simpa [hn] using hall.1 k hp
        · cases h
    | some ls' =>
      have hok : ∀ k, provided.get? t = some k → (ls.ready.get? k).isSome := by
        intro k hk
        simp only [addLink, hk] at h
        split at h
        · cases h
        next hs => simp [hs]
      refine ih.trans ((forall₂_congr fun t' _ => forall₂_congr fun k _ => ?_).trans
        (and_iff_right hok).symm)
      exact (addLink_eq_some h k).1

/-- Where the links of a queue with a new transaction come from. -/
theorem mem_unlocks_insertTx (h : r.insertTx tx uns = some r') (hx : r'.ready.get? k = some x)
    {k' : H} (hk' : k' ∈ x.unlocks) : k = tx.hash ∧ k' ∈ uns ∨
      (∃ y, r.ready.get? k = some y ∧ k' ∈ y.unlocks) ∨
      k' = tx.hash ∧ ∃ t ∈ tx.requires, r.providedTags.get? t = some k := by
  unfold insertTx at h
  dsimp only at h
  split at h
  · cases h
  next links hl =>
    cases h
    rw [get?_insert] at hx
    split at hx
    next heq =>
      cases hx
      exact .inl ⟨heq, hk'⟩
    · -- along the required tags: a link is old, or from the provider of a tag
      have hlinks := foldlM_inv_of_eq_some (P := fun rest ls => rest ⊆ tx.requires ∧
        ∀ x, ls.ready.get? k = some x → k' ∈ x.unlocks →
          (∃ y, r.ready.get? k = some y ∧ k' ∈ y.unlocks) ∨
            k' = tx.hash ∧ ∃ t ∈ tx.requires, r.providedTags.get? t = some k)
        (fun t rest ls ls' hP hadd => ⟨fun a ha => hP.1 (mem_cons_of_mem _ ha), fun x hx hk => ?_⟩)
        ⟨List.Subset.refl _, fun x hx hk => .inl ⟨x, hx, hk⟩⟩ hl
      · exact .inr (hlinks.2 x hx hk')
      obtain ⟨y, hy, hall⟩ := (addLink_eq_some hadd k).2 x hx
      rcases hall k' hk with hold | ⟨rfl, ht⟩
      · exact hP.2 y hy hold
      · exact .inr ⟨rfl, t, hP.1 mem_cons_self, ht⟩

theorem insertTx_eq_none_iff : r.insertTx tx uns = none ↔
    ∃ t ∈ tx.requires, ∃ k, r.providedTags.get? t = some k ∧ r.txAt k = none := by
  have hlinks : (tx.requires.foldlM (addLink r.providedTags tx.hash) ⟨r.ready, true, 0⟩).isSome ↔
      ∀ t ∈ tx.requires, ∀ k, r.providedTags.get? t = some k → (r.ready.get? k).isSome :=
    foldlM_addLink_isSome
  unfold insertTx
  dsimp only
  split
  next hn =>
    rw [hn] at hlinks
    simpa [txAt] using hlinks
  next hs =>
    rw [hs] at hlinks
    refine iff_of_false (some_ne_none _) ?_
    rintro ⟨t, ht, k, hk, hn⟩
    have := hlinks.mp rfl t ht k hk
    simp_all [txAt]

/-- An import panics exactly if the transaction is strong enough and requires a tag that it takes
over. -/
theorem importTx_eq_none_iff (h : r.Indexed) (hrdy : w.isReady = true)
    (hnew : r.txAt w.transaction.hash = none) :
    r.importTx o w = none ↔ ¬ r.TooLow o w.transaction ∧ r.RequiresOwn w.transaction := by
  have hc : r.contains w.transaction.hash = false := by
    simpa [ReadyTransactions.contains, txAt] using hnew
  have h' : { r with insertionId := r.insertionId + 1 }.Indexed := ⟨h.keyed, h.provider, h.provided⟩
  unfold importTx
  rw [if_neg (by simp [hrdy]), if_neg (by simp [hc])]
  dsimp only
  obtain ⟨hlow, old, he⟩ | ⟨hlow, r1, repl, he, hdo⟩ := h'.replacePrevious o w.transaction <;>
    rw [he]
  · exact iff_of_false (some_ne_none _) fun hboth => hboth.1 hlow
  refine map_eq_none_iff.trans (insertTx_eq_none_iff.trans (Iff.trans ⟨?_, ?_⟩
    (and_iff_right (show ¬ r.TooLow o w.transaction from hlow)).symm))
  · rintro ⟨t, ht, k, hk, hn⟩
    refine ⟨t, ht, (hdo.indexed.provided hk).resolve_right ?_, k, hdo.tags t k hk⟩
    rintro ⟨y, hy, -⟩
    cases hn.symm.trans hy
  · rintro ⟨t, ht, hpr, k, hk⟩
    refine ⟨t, ht, k, (hdo.filtered t hpr).trans hk, ?_⟩
    exact (hdo.roots k (mem_replaceHashes.mpr ⟨t, hpr, hk⟩)).resolve_left not_mem_nil

/-- An import leaves alone a closed set that no replaced transaction belongs to. -/
theorem importTx_stays (h : r.Indexed) (hB : r.Closed B)
    (himp : r.importTx o w = some (.ok repl, r'))
    (hks : ∀ k ∈ r.replaceHashes o w.transaction, ¬ B k) (hk : B k) (hne : k ≠ w.transaction.hash) :
    r'.txAt k = r.txAt k := by
  obtain ⟨-, ⟨-, ⟨_, he⟩, -⟩ | ⟨-, _, r1, -, hdo, hins, -⟩⟩ := h.importTx himp
  · cases he
  rw [txAt_insertTx hins, if_neg hne]
  exact (hdo.aside B hB hks).2 k hk

/-- A closed set stays closed, with the transaction or without it. -/
theorem Closed.importTx (h : r.Indexed) (hB : r.Closed B)
    (himp : r.importTx o w = some (.ok repl, r'))
    (hout : ¬ B w.transaction.hash → ∀ k ∈ r.replaceHashes o w.transaction, ¬ B k)
    (hin : B w.transaction.hash → ∀ t ∈ w.transaction.requires, ∀ k,
      r.providedTags.get? t = some k → B k) : r'.Closed B := by
  obtain ⟨-, ⟨-, ⟨_, he⟩, -⟩ | ⟨-, _, r1, -, hdo, hins, -⟩⟩ := h.importTx himp
  · cases he
  intro k x k' hx hk' hb
  rcases mem_unlocks_insertTx hins hx hk' with ⟨rfl, hun⟩ | ⟨y, hy, hk'⟩ | ⟨rfl, t, ht, hk⟩
  · by_contra hn
    obtain ⟨z, hz, hk'⟩ := mem_flatMap.mp hun
    obtain ⟨k0, hk0, hz⟩ := mem_filterMap.mp hz
    exact hout hn k0 hk0 (hB k0 z k' hz hk' hb)
  · obtain ⟨z, hz, hsub⟩ := hdo.links k y hy
    exact hB k z k' hz (hsub hk') hb
  · exact hin hb t ht k (hdo.tags t k hk)

end ReadyTransactions

namespace BasePool

open ReadyTransactions

variable {p p' : BasePool H T} {c c' : Importing H T × List (WaitingTransaction H T)} {now : Nat}

/-! ## What a transaction unlocks and what it rests on -/

/-- The tags that a transaction provides, together with those it unlocks. -/
inductive Offered (p : BasePool H T) (tx : Transaction H T) : T → Prop
  | own {t : T} (ht : t ∈ tx.provides) : Offered p tx t
  | waiting {t : T} {h : H} {w : WaitingTransaction H T} (hw : p.future.waiting.get? h = some w)
      (hm : ∀ t ∈ w.missingTags, Offered p tx t) (ht : t ∈ w.transaction.provides) :
      Offered p tx t

/-- The waiting transaction misses only such tags. -/
def Pulled (p : BasePool H T) (tx u : Transaction H T) : Prop :=
  ∃ h w, p.future.waiting.get? h = some w ∧ (∀ t ∈ w.missingTags, p.Offered tx t) ∧
    w.transaction = u

/-- The hash is the transaction's own, or that of a ready transaction which leads to it. -/
inductive Beneath (p : BasePool H T) (tx : Transaction H T) : H → Prop
  | self : Beneath p tx tx.hash
  | provider {t : T} {k : H} (ht : t ∈ tx.requires) (hk : p.ready.providedTags.get? t = some k) :
      Beneath p tx k
  | unlocks {k k' : H} {x : ReadyTx H T} (hx : p.ready.ready.get? k = some x)
      (hk' : k' ∈ x.unlocks) (h : Beneath p tx k') : Beneath p tx k

/-- What a transaction unlocks takes over no tag that it requires itself, and is too weak to push
out what the transaction rests on. -/
def Harmless (p : BasePool H T) (tx : Transaction H T) : Prop :=
  ∀ u, p.Pulled tx u → (∀ t ∈ u.requires, t ∉ u.provides) ∧
    ∀ y ∈ tx :: p.held, p.Beneath tx y.hash → (∃ t ∈ u.provides, t ∈ y.provides) →
      u.priority ≤ y.priority

omit [DecidableEq T] in
theorem Pulled.mem_future {u : Transaction H T} (h : p.Pulled tx u) :
    u ∈ p.future.transactions := by
  obtain ⟨k, w, hw, -, rfl⟩ := h
  exact FutureTransactions.mem_transactions.mpr ⟨k, w, hw, rfl⟩

omit [DecidableEq T] in
theorem Pulled.offered {u : Transaction H T} (h : p.Pulled tx u) :
    ∀ t ∈ u.provides, p.Offered tx t := by
  obtain ⟨k, w, hw, hm, rfl⟩ := h
  exact fun t ht => .waiting hw hm ht

omit [DecidableEq T] in
/-- If nothing is unlocked at once, nothing is unlocked. -/
theorem not_pulled (h : ¬ p.Unlocks tx) (u : Transaction H T) : ¬ p.Pulled tx u := by
  have hoff : ∀ t, p.Offered tx t → t ∈ tx.provides := by
    intro t ht
    induction ht with
    | own ht => exact ht
    | waiting hw _ _ ih => exact absurd ⟨_, _, hw, ih⟩ h
  rintro ⟨k, w, hw, hm, -⟩
  exact h ⟨k, w, hw, fun t ht => hoff t (hm t ht)⟩

theorem Beneath.ready (hp : p.Sound) (h : p.Beneath tx k) :
    k = tx.hash ∨ ∃ x, p.ready.ready.get? k = some x := by
  cases h with
  | self => exact .inl rfl
  | provider ht hk =>
    obtain ⟨x, hx, -⟩ := hp.ready.providedTags_iff.mp hk
    exact .inr ⟨x, hx⟩
  | unlocks hx => exact .inr ⟨_, hx⟩

theorem closed_beneath : p.ready.Closed (p.Beneath tx) := fun _ _ _ hx hk' h => .unlocks hx hk' h

/-! ## Along an import -/

/-- The waiting transactions that are not unlocked keep waiting, for a tag that nobody offers. -/
def Left (p : BasePool H T) (tx : Transaction H T) (f : FutureTransactions H T) : Prop :=
  ∀ h w t, p.future.waiting.get? h = some w → t ∈ w.missingTags → ¬ p.Offered tx t →
    ∃ w', f.waiting.get? h = some w' ∧ w'.transaction = w.transaction ∧ t ∈ w'.missingTags

omit [DecidableEq H] in
/-- A tag that is not satisfied is still missed. -/
theorem satisfiedAll_of_notMem {t : T} (hmem : t ∈ w.missingTags) (ht : t ∉ ts) :
    ∃ w', FutureTransactions.satisfiedAll ts (some w) = some w' ∧
      w'.transaction = w.transaction ∧ t ∈ w'.missingTags := by
  induction ts generalizing w with
  | nil => exact ⟨w, rfl, rfl, hmem⟩
  | cons tag ts ih =>
    obtain ⟨hne, ht⟩ := not_or.mp (mem_cons.not.mp ht)
    have hmem' : t ∈ (w.satisfyTag tag).missingTags := by
      simp [WaitingTransaction.satisfyTag, hmem, hne]
    obtain ⟨w', hw', htx, hin⟩ := ih hmem' ht
    refine ⟨w', Eq.trans ?_ hw', htx, hin⟩
    have hs : FutureTransactions.satisfied tag (some w) = some (w.satisfyTag tag) :=
      FutureTransactions.satisfied_eq_some.mpr
        ⟨w, rfl, isEmpty_eq_false_iff_exists_mem.mpr ⟨t, hmem'⟩, rfl⟩
    exact congrArg (FutureTransactions.satisfiedAll ts) hs

theorem Left.satisfyTags {f f' : FutureTransactions H T} {unl : List (WaitingTransaction H T)}
    (h : p.Left tx f) (hf : f.Sound) (hts : ∀ t ∈ ts, p.Offered tx t)
    (hs : f.satisfyTags o ts = some (f', unl)) :
    p.Left tx f' ∧ (f'.transactions ++ unl.map (·.transaction)).Perm f.transactions ∧
      ∀ w ∈ unl, w.isReady = true := by
  obtain ⟨f1, unl1, hs1, -, hget, hperm, hrdy⟩ := FutureTransactions.satisfyTags_spec o hf ts
  cases hs.symm.trans hs1
  refine ⟨fun k w t hw hm ht => ?_, hperm, hrdy⟩
  obtain ⟨w1, hw1, htx, hm1⟩ := h k w t hw hm ht
  obtain ⟨w', hw', htx', hm'⟩ := satisfiedAll_of_notMem hm1 fun hmem => ht (hts t hmem)
  exact ⟨w', by rw [hget, hw1, hw'], htx'.trans htx, hm'⟩

/-- The import after its first round: the transaction is ready and stays so. -/
structure Climbing (p : BasePool H T) (tx : Transaction H T)
    (c : Importing H T × List (WaitingTransaction H T)) : Prop where
  promoting : Promoting p tx c
  later : c.1.first = false
  stays : c.1.pool.ready.txAt tx.hash = some tx
  closed : c.1.pool.ready.Closed (p.Beneath tx)
  left : p.Left tx c.1.pool.future
  waits : c.1.pool.future.transactions ++ c.2.map (·.transaction) ⊆ p.future.transactions
  ready : ∀ w ∈ c.2, w.isReady = true

/-- What a round does to the future queue and the stack. -/
theorem Climbing.satisfyTags {s : Importing H T} {rest unl : List (WaitingTransaction H T)}
    {f : FutureTransactions H T} (h : Climbing p tx (s, w :: rest)) (hts : ∀ t ∈ ts, p.Offered tx t)
    (hsat : s.pool.future.satisfyTags o ts = some (f, unl)) : p.Left tx f ∧
      f.transactions ++ (unl.reverse ++ rest).map (·.transaction) ⊆ p.future.transactions ∧
      ∀ w ∈ unl.reverse ++ rest, w.isReady = true := by
  obtain ⟨hl, hperm, hrdy⟩ := h.left.satisfyTags h.promoting.sound.future hts hsat
  refine ⟨hl, fun u hu => h.waits ?_, fun v hv => ?_⟩
  · have hold := hperm.mem_iff (a := u)
    simp only [mem_append, map_append, map_reverse, mem_reverse, map_cons, mem_cons] at hu hold ⊢
    tauto
  · rcases mem_append.mp hv with hv | hv
    · exact hrdy v (mem_reverse.mp hv)
    · exact h.ready v (mem_cons_of_mem _ hv)

/-- After the first round the transaction is ready. -/
theorem Climbing.start (hp : p.Sound) (hw : w.transaction = tx)
    (hrd : Round o (startImport p, [w]) c) : Climbing p tx c := by
  subst hw
  have hpro := (Promoting.start hp w).round hrd
  cases hrd with
  | imported hsat himp =>
    have hleft : p.Left w.transaction p.future := fun _ w _ hw hm _ => ⟨w, hw, rfl, hm⟩
    obtain ⟨hl, hperm, hrdy⟩ := hleft.satisfyTags hp.future (fun _ ht => .own ht) hsat
    obtain ⟨-, ⟨-, ⟨_, he⟩, -⟩ | ⟨-, _, _, -, -, hins, -⟩⟩ := hp.ready.importTx himp
    · cases he
    refine ⟨hpro, rfl, by rw [txAt_insertTx hins, if_pos rfl], ?_, hl, fun u hu => ?_,
      fun v hv => ?_⟩
    · exact closed_beneath.importTx hp.ready himp (fun hn => absurd .self hn)
        fun _ t ht k hk => .provider ht hk
    · refine hperm.subset ?_
      simpa using hu
    · exact hrdy v (by simpa using hv)
  | failed hsat himp hfst => cases hfst

section Promotion

variable (hp : p.Sound) (hd : p.Distinct) (hnew : p.isImported tx.hash = false)

include hp hd hnew

/-- No hash is in two places, or on the stack twice. -/
theorem Promoting.nodup (h : Promoting p tx c) : (c.1.pool.ready.transactions.map (·.hash) ++
    (c.1.pool.future.transactions ++ c.2.map (·.transaction) ++ c.1.removed).map
      (·.hash)).Nodup := by
  obtain ⟨failed, -, hperm⟩ := h.perm
  have hnd := (hperm.map (·.hash)).nodup_iff.mpr (hp.nodup_cons hd hnew)
  refine hnd.sublist ?_
  simp only [held, map_append, append_assoc]
  exact (Sublist.refl _).append ((Sublist.refl _).append
    ((Sublist.refl _).append (sublist_append_right _ _)))

/-- What is on the stack was waiting, and was unlocked. -/
theorem Climbing.pulled (h : Climbing p tx c) (hw : w ∈ c.2) : p.Pulled tx w.transaction := by
  have hmem := mem_map_of_mem (f := (·.transaction)) hw
  obtain ⟨w0, hw0, htx⟩ := hp.future.mem_transactions.mp (h.waits (mem_append_right _ hmem))
  refine ⟨_, w0, hw0, fun t ht => ?_, htx⟩
  by_contra hno
  obtain ⟨w', hw', htx', -⟩ := h.left _ w0 t hw0 ht hno
  have hin := FutureTransactions.mem_transactions.mpr ⟨_, w', hw', htx'.trans htx⟩
  have hnd := (h.promoting.nodup hp hd hnew).of_append_right
  rw [map_append, map_append] at hnd
  exact disjoint_of_nodup_append hnd.of_append_left (mem_map_of_mem hin) (mem_map_of_mem hmem)

theorem Pulled.not_beneath {u : Transaction H T} (h : p.Pulled tx u) : ¬ p.Beneath tx u.hash := by
  intro hb
  rcases hb.ready hp with heq | ⟨x, hx⟩
  · have himp := hp.isImported_of_mem (mem_append_right _ h.mem_future)
    rw [heq, hnew] at himp
    cases himp
  · obtain ⟨w, hw, -⟩ := hp.future.mem_transactions.mp h.mem_future
    cases (hd.not_ready_of_waiting hp hw).symm.trans hx

/-- The transaction is ready, so it was not removed. -/
theorem Climbing.not_removed (h : Climbing p tx c) :
    ¬ (c.1.removed.any fun x => x.hash = tx.hash) = true := by
  rw [List.any_eq_true]
  rintro ⟨y, hy, heq⟩
  refine disjoint_of_nodup_append (h.promoting.nodup hp hd hnew)
    (mem_map_of_mem (mem_transactions.mpr ⟨_, h.stays⟩)) ?_
  rw [← of_decide_eq_true heq]
  exact mem_map_of_mem (mem_append_right _ hy)

variable (hh : p.Harmless tx)

include hh

/-- A transaction that was unlocked replaces nothing that the imported one rests on. -/
theorem Climbing.not_beneath (h : Climbing p tx c) (hw : w ∈ c.2)
    (hlow : ¬ c.1.pool.ready.TooLow o w.transaction)
    (hk : k ∈ c.1.pool.ready.replaceHashes o w.transaction) : ¬ p.Beneath tx k := by
  intro hb
  have hidx := h.promoting.sound.ready
  obtain ⟨t, ht, hkt⟩ := mem_replaceHashes.mp hk
  obtain ⟨x, hx, htx⟩ := hidx.providedTags_iff.mp hkt
  have hat : c.1.pool.ready.txAt k = some x.transaction.transaction := txAt_eq_some.mpr ⟨x, hx, rfl⟩
  obtain ⟨failed, -, hperm⟩ := h.promoting.perm
  have hmem : x.transaction.transaction ∈ tx :: p.held :=
    hperm.subset (by simp [held, mem_transactions.mpr ⟨k, hat⟩])
  have hle := (hh _ (h.pulled hp hd hnew hw)).2 _ hmem (by rwa [hidx.keyed hat]) ⟨t, ht, htx⟩
  exact hlow ⟨ne_nil_of_mem hk, UInt64.le_trans hle (le_oldPriority hk hx)⟩

/-- A later round does not panic. -/
theorem Climbing.importTx_ne_none (h : Climbing p tx c) (hw : w ∈ c.2) :
    c.1.pool.ready.importTx o w ≠ none := by
  have hidx := h.promoting.sound.ready
  have hfree : c.1.pool.ready.txAt w.transaction.hash = none := by
    refine eq_none_iff_forall_ne_some.mpr fun y hy => ?_
    refine disjoint_of_nodup_append (h.promoting.nodup hp hd hnew)
      (mem_map_of_mem (mem_transactions.mpr ⟨_, hy⟩)) ?_
    rw [hidx.keyed hy]
    exact mem_map_of_mem (mem_append_left _ (mem_append_right _ (mem_map_of_mem hw)))
  intro hn
  obtain ⟨-, t, ht, ht', -⟩ := (importTx_eq_none_iff hidx (h.ready w hw) hfree).mp hn
  exact (hh _ (h.pulled hp hd hnew hw)).1 t ht ht'

/-- A later round leaves the transaction ready. -/
theorem Climbing.round (h : Climbing p tx c) (hrd : Round o c c') : Climbing p tx c' := by
  have hpro := h.promoting.round hrd
  have hidx := h.promoting.sound.ready
  cases hrd with
  | imported hsat himp =>
    have hpull := h.pulled hp hd hnew mem_cons_self
    have hnb := hpull.not_beneath hp hd hnew
    obtain ⟨-, ⟨-, ⟨_, he⟩, -⟩ | ⟨hlow, -⟩⟩ := hidx.importTx himp
    · cases he
    have hks := fun k => h.not_beneath (k := k) hp hd hnew hh mem_cons_self hlow
    obtain ⟨hl, hw, hr⟩ := h.satisfyTags hpull.offered hsat
    refine ⟨hpro, rfl, ?_, ?_, hl, hw, hr⟩
    · refine (importTx_stays hidx h.closed himp hks .self fun heq => ?_).trans h.stays
      exact hnb (heq ▸ .self)
    · exact h.closed.importTx hidx himp (fun _ => hks) fun hb => absurd hb hnb
  | failed hsat himp hfst =>
    obtain ⟨-, ⟨-, -, rfl⟩ | ⟨-, _, _, he, -⟩⟩ := hidx.importTx himp
    · obtain ⟨hl, hw, hr⟩ := h.satisfyTags (h.pulled hp hd hnew mem_cons_self).offered hsat
      exact ⟨hpro, rfl, h.stays, h.closed, hl, hw, hr⟩
    · cases he

/-- The later rounds come to an end. -/
theorem Climbing.importLoop {s : Importing H T} {st : List (WaitingTransaction H T)}
    (h : Climbing p tx (s, st)) :
    ∃ s', importLoop o s st = some (.ok s') ∧ Climbing p tx (s', []) := by
  fun_induction BasePool.importLoop o s st with
  | case1 s => exact ⟨s, rfl, h⟩
  | case2 s w rest hsat =>
    obtain ⟨f, unl, hs, -⟩ :=
      FutureTransactions.satisfyTags_spec o h.promoting.sound.future w.transaction.provides
    cases hsat.symm.trans hs
  | case3 s w rest f unl hsat hs himp =>
    exact absurd himp (h.importTx_ne_none hp hd hnew hh mem_cons_self)
  | case4 s w rest f unl hsat hs hash repl r himp ih =>
    exact ih (h.round hp hd hnew hh (.imported hsat himp))
  | case5 s w rest f unl hsat hs e r himp hfst => cases h.later.symm.trans hfst
  | case6 s w rest f unl hsat hs hash e r himp hfst ih =>
    exact ih (h.round hp hd hnew hh (.failed hsat himp h.later))

end Promotion

/-- The first round of an import. -/
theorem importLoop_first {f : FutureTransactions H T} {unl : List (WaitingTransaction H T)}
    (hsat : p.future.satisfyTags o w.transaction.provides = some (f, unl)) :
    importLoop o (startImport p) [w] = match p.ready.importTx o w with
      | none => none
      | some (.ok repl, r) =>
        importLoop o ⟨{ p with future := f, ready := r }, [], [], repl, false⟩ (unl.reverse ++ [])
      | some (.error e, r) => some (.error (e, { p with future := f, ready := r })) := by
  rw [importLoop]
  split
  next hn => cases hn.symm.trans hsat
  next hs =>
    cases hs.symm.trans hsat
    rfl

/-! ## Conservation, told before the import -/

/-- The transaction is new, and misses no tag. -/
def Enters (p : BasePool H T) (now : Nat) (tx : Transaction H T) : Prop :=
  p.isImported tx.hash = false ∧
    (WaitingTransaction.new tx p.ready.providedTags p.recentlyPruned now).isReady = true

/-- If the transaction is too weak it unlocks nothing, otherwise it takes over no tag that it
requires. -/
def Fits (p : BasePool H T) (order : HashOrder H T) (tx : Transaction H T) : Prop :=
  (p.ready.TooLow order tx → ¬ p.Unlocks tx) ∧
    (¬ p.ready.TooLow order tx → ¬ p.ready.RequiresOwn tx)

/-- A transaction that has to wait, or is known, is conserved. -/
theorem conserves_of_not_enters (hp : p.Sound) (hd : p.Distinct) (h : ¬ p.Enters now tx) :
    Conserves p tx (p.importTx o now tx) := by
  unfold BasePool.importTx
  split
  · exact ⟨fun _ => .rfl, fun _ => .rfl⟩
  next hnew =>
  have hnew : p.isImported tx.hash = false := by simpa using hnew
  dsimp only
  split
  next hrdy =>
    split
    · exact ⟨fun _ => .rfl, fun _ => .rfl⟩
    cases hf : p.future.importTx (.new tx p.ready.providedTags p.recentlyPruned now) with
    | none =>
      have hfree : p.future.contains tx.hash = false := (Bool.or_eq_false_iff.mp hnew).1
      have htx : (WaitingTransaction.new tx p.ready.providedTags p.recentlyPruned now).transaction =
        tx := rfl
      simp [FutureTransactions.importTx, hrdy, htx, hfree] at hf
    | some f =>
      have hheld : ({ p with future := f } : BasePool H T).held.Perm (tx :: p.held) := by
        rw [held, FutureTransactions.transactions_importTx hf]
        exact perm_middle
      have hd' : ({ p with future := f } : BasePool H T).Distinct :=
        .of_subperm hheld.subperm (hp.nodup_cons hd hnew)
      exact fun t ht => .inl (hd'.xor_of_mem (hheld.mem_iff.mpr ht))
  next hrdy => exact absurd ⟨hnew, by simpa using hrdy⟩ h

theorem importToReady_conserves (hp : p.Sound) (hd : p.Distinct)
    (hnew : p.isImported w.transaction.hash = false) (hrdy : w.isReady = true) :
    (Conserves p w.transaction (p.importToReady o w) → p.Fits o w.transaction) ∧
      (p.Fits o w.transaction → (¬ p.ready.TooLow o w.transaction → p.Harmless w.transaction) →
        Conserves p w.transaction (p.importToReady o w)) := by
  have hc : p.ready.contains w.transaction.hash = false := (Bool.or_eq_false_iff.mp hnew).2
  have hnone := importTx_eq_none_iff (o := o) hp.ready hrdy
    (by simpa [ReadyTransactions.contains, txAt] using hc)
  obtain ⟨f, unl, hsat, -⟩ := FutureTransactions.satisfyTags_spec o hp.future w.transaction.provides
  have hfst := importLoop_first hsat
  cases himp : p.ready.importTx o w with
  | none =>
    obtain ⟨hlow, hown⟩ := hnone.mp himp
    have hpan : p.importToReady o w = none := by
      rw [importToReady, hfst, himp]
    rw [hpan]
    exact ⟨False.elim, fun hfit _ => absurd hown (hfit.2 hlow)⟩
  | some r =>
    obtain ⟨_ | repl, r⟩ := r
    · rename_i e
      obtain ⟨-, ⟨hlow, -⟩ | ⟨-, _, _, he, -⟩⟩ := hp.ready.importTx himp
      · have herr : p.importToReady o w = some (.error e, { p with future := f, ready := r }) := by
          rw [importToReady, hfst, himp]
        have hiff := (importToReady_eq_some herr).conserves_iff_of_error hp hd hnew
        rw [herr, hiff]
        exact ⟨fun hun => ⟨fun _ => hun, fun hno => absurd hlow hno⟩, fun hfit _ => hfit.1 hlow⟩
      · cases he
    · obtain ⟨-, ⟨-, ⟨_, he⟩, -⟩ | ⟨hlow, -⟩⟩ := hp.ready.importTx himp
      · cases he
      have hno : ¬ p.ready.RequiresOwn w.transaction := by
        intro hown
        cases himp.symm.trans (hnone.mpr ⟨hlow, hown⟩)
      refine ⟨fun _ => ⟨fun hl => absurd hl hlow, fun _ => hno⟩, fun _ hh => ?_⟩
      have hstart := Climbing.start hp rfl (.imported hsat himp)
      obtain ⟨s, hs, hc⟩ := hstart.importLoop (o := o) hp hd hnew (hh hlow)
      have hok : p.importToReady o w =
          some (.ok (.ready w.transaction.hash s.promoted s.failed s.removed), s.pool) := by
        have hs : importLoop o ⟨{ p with future := f, ready := r }, [], [], repl, false⟩
          (unl.reverse ++ []) = some (.ok s) := hs
        rw [importToReady, hfst, himp]
        dsimp only
        rw [hs]
        exact if_neg (hc.not_removed hp hd hnew)
      rw [hok]
      exact (importToReady_eq_some hok).conserves_of_ok hp hd hnew

/-- Another transaction waits for tag 2, which provides tag 1 as well. -/
def promotingRun : List (Call Nat Nat) :=
  providerAndWaiter ++ [.importTx .given 2 ⟨1, 4, 1, 64, [2], [1]⟩]

end BasePool

end TransactionPool
