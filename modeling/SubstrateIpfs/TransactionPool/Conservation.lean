-- SUMMARY: An import that goes through accounts for every transaction; calls keep the indices.
import SubstrateIpfs.TransactionPool.Calls
import SubstrateIpfs.TransactionPool.Index

/-!
# Conservation

Along an import the transactions of the pool, those on the stack, those that were
refused and those that were replaced are the ones the import started with. An import
that goes through accounts for all of them. One that fails returns an error only:
what the transaction had unlocked is dropped with the stack.
-/

namespace TransactionPool

open List Option Run FinMap ReadyTransactions List.Subperm

variable {H T : Type} {w : WaitingTransaction H T} {b : List (Transaction H T)}
  {res : Except (Error H) (Imported H T)} {x : ReadyTx H T} {hash : H} {ts : List T}
  {t : Transaction H T} {c' c : BasePool.Importing H T × List (WaitingTransaction H T)}

/-- The hashes that an import lists as failed. -/
def Imported.failed : Imported H T → List H
  | .ready _ _ failed _ => failed
  | .future _ => []

/-- The transactions that an import lists as removed. -/
def Imported.removed : Imported H T → List (Transaction H T)
  | .ready _ _ _ removed => removed
  | .future _ => []

namespace BasePool

variable [DecidableEq H] [DecidableEq T]

/-- The transactions of both queues. -/
def held (p : BasePool H T) : List (Transaction H T) :=
  p.ready.transactions ++ p.future.transactions

/-- Both queues agree with their indices. -/
structure Sound (p : BasePool H T) : Prop where
  ready : p.ready.Indexed
  future : p.future.Sound

/-- No hash occurs twice. -/
def Distinct (p : BasePool H T) : Prop := (p.held.map (·.hash)).Nodup

variable {p p' : BasePool H T} {tx : Transaction H T} {o : HashOrder H T} {now : Nat}

theorem sound_new (f : Bool) : (new f : BasePool H T).Sound :=
  ⟨indexed_default, FutureTransactions.sound_default⟩

section
omit [DecidableEq H] [DecidableEq T]

theorem distinct_new (f : Bool) : (new f : BasePool H T).Distinct := nodup_nil

/-- A pool that holds no more than there was has no hash twice either. -/
theorem Distinct.of_subperm (h : p.held.Subperm b) (hbef : (b.map (·.hash)).Nodup) :
    p.Distinct := by
  obtain ⟨l, hp, hsub⟩ := h
  exact (hp.map _).nodup_iff.mp (hbef.sublist (hsub.map _))

end

/-! ## Along an import -/

/-- What an import of `tx` into `p` has done so far: with the stack it holds the transactions it
started with. -/
structure Promoting (p : BasePool H T) (tx : Transaction H T)
    (c : Importing H T × List (WaitingTransaction H T)) : Prop where
  sound : c.1.pool.Sound
  perm : ∃ failed : List (Transaction H T), failed.map (·.hash) = c.1.failed ∧
    (c.1.pool.held ++ c.2.map (·.transaction) ++ failed ++ c.1.removed).Perm (tx :: p.held)

theorem Promoting.start (hp : p.Sound) (w : WaitingTransaction H T) :
    Promoting p w.transaction (startImport p, [w]) :=
  ⟨hp, [], rfl, by simp⟩

theorem Promoting.round (h : Promoting p tx c) (hrd : Round o c c') : Promoting p tx c' := by
  obtain ⟨failed, hfld, hp⟩ := h.perm
  cases hrd with
  | @imported s w rest future unl repl ready hsat himp =>
    obtain ⟨hsnd, hwa⟩ := h.sound.future.satisfyTags hsat
    obtain ⟨hidx, ⟨-, ⟨_, hres⟩, -⟩ | ⟨-, _, _, hres, -, -, hrdy⟩⟩ := h.sound.ready.importTx himp
    · cases hres
    cases hres
    refine ⟨⟨hidx, hsnd⟩, failed, hfld, perm_iff_count.mpr fun t => ?_⟩
    have hw := hwa.count_eq t
    have hr := hrdy.count_eq t
    have hall := hp.count_eq t
    simp only [held, count_append, count_cons, map_append, map_reverse,
      count_reverse, map_cons] at hw hr hall ⊢
    omega
  | @failed s w rest future unl e ready hsat himp hfst =>
    obtain ⟨hsnd, hwa⟩ := h.sound.future.satisfyTags hsat
    obtain ⟨hidx, ⟨-, -, rfl⟩ | ⟨-, _, _, hres, -⟩⟩ := h.sound.ready.importTx himp
    · have hrdy : ∀ n,
          ({ s.pool.ready with insertionId := n } : ReadyTransactions H T).transactions =
            s.pool.ready.transactions := fun _ => rfl
      refine ⟨⟨hidx, hsnd⟩, failed ++ [w.transaction], by simp [hfld],
        perm_iff_count.mpr fun t => ?_⟩
      have hw := hwa.count_eq t
      have hall := hp.count_eq t
      simp only [held, hrdy, count_append, count_cons, map_append,
        map_reverse, count_reverse, map_cons, count_nil] at hw hall ⊢
      omega
    · cases hres

theorem Promoting.rounds (h : Promoting p tx c) (hrds : Rounds o c c') : Promoting p tx c' :=
  invariant_of_reflTransGen (fun _ _ hc hrd => hc.round hrd) h hrds

theorem Promoting.future_subset (h : Promoting p tx c) (hrds : Rounds o c c') :
    c'.1.pool.future.transactions ⊆ c.1.pool.future.transactions := by
  have hrd : ∀ c1 c2, Promoting p tx c1 → Round o c1 c2 →
      c2.1.pool.future.transactions ⊆ c1.1.pool.future.transactions := by
    intro c1 c2 h1 hrd t ht
    cases hrd with
    | imported hsat himp | failed hsat himp hfst =>
      exact (h1.sound.future.satisfyTags hsat).2.subset (mem_append_left _ ht)
  have hb : Promoting p tx c' ∧ c'.1.pool.future.transactions ⊆ c.1.pool.future.transactions := by
    refine invariant_of_reflTransGen (I := fun c' => Promoting p tx c' ∧
      c'.1.pool.future.transactions ⊆ c.1.pool.future.transactions) ?_ ⟨h, List.Subset.refl _⟩ hrds
    exact fun c1 c2 hc hr => ⟨hc.1.round hr, List.Subset.trans (hrd c1 c2 hc.1 hr) hc.2⟩
  exact hb.2

/-! ## What each call keeps -/

theorem Sound.toReady (hp : p.Sound) (h : ToReady o p w res p') :
    p'.Sound ∧ p'.held.Subperm (w.transaction :: p.held) := by
  cases h with
  | refused hsat himp =>
    obtain ⟨hfut, hw⟩ := hp.future.satisfyTags hsat
    obtain ⟨hrdy, ⟨-, -, rfl⟩ | ⟨-, _, _, hres, -⟩⟩ := hp.ready.importTx himp
    · refine ⟨⟨hrdy, hfut⟩, cons_right _ ?_⟩
      exact (subperm_append_left _).mpr (trans (sublist_append_left _ _).subperm hw.subperm)
    · cases hres
  | cycle hrds hcyc hrem =>
    have hdo := (Promoting.start hp w).rounds hrds
    obtain ⟨f, -, hpe⟩ := hdo.perm
    obtain ⟨r, rem, hr, hrdy, hgone, -⟩ := hdo.sound.ready.removeSubtree _
    cases hrem.symm.trans hr
    refine ⟨⟨hrdy, hdo.sound.future⟩, subperm_ext_iff.mpr fun t _ => ?_⟩
    have h1 := hgone.count_eq t
    have h2 := hpe.count_eq t
    simp only [held, count_append] at h1 h2 ⊢
    omega
  | imported hrds =>
    have hdo := (Promoting.start hp w).rounds hrds
    obtain ⟨f, -, hpe⟩ := hdo.perm
    refine ⟨hdo.sound, subperm_ext_iff.mpr fun t _ => ?_⟩
    have h := hpe.count_eq t
    simp only [count_append] at h
    omega

theorem Sound.removeSubtree {xs : List H} {rem : List (Transaction H T)} (hp : p.Sound)
    (h : p.removeSubtree xs = some (rem, p')) :
    p'.Sound ∧ (p'.held ++ rem).Perm p.held := by
  obtain ⟨⟨r, gone⟩, hr, heq⟩ := map_eq_some_iff.mp h
  cases heq
  obtain ⟨r', gone', hr', hrdy, hg, -⟩ := hp.ready.removeSubtree xs
  cases hr.symm.trans hr'
  obtain ⟨hfut, hw⟩ := FutureTransactions.remove_spec hp.future xs
  refine ⟨⟨hrdy, hfut⟩, perm_iff_count.mpr fun t => ?_⟩
  have h1 := hg.count_eq t
  have h2 := hw.count_eq t
  simp only [held, count_append] at h1 h2 ⊢
  omega

theorem Sound.enforceLimits {r f : Limit} {rem : List (Transaction H T)} (hp : p.Sound)
    (h : p.enforceLimits o r f = some (rem, p')) :
    p'.Sound ∧ p'.held.Subperm p.held := by
  have hev : ∀ {exc : BasePool H T → Bool} {wo : BasePool H T → Option H},
      ∀ q p2, q.Sound ∧ q.held.Subperm p.held → Evict exc wo q p2 →
      p2.Sound ∧ p2.held.Subperm p.held := by
    rintro exc wo q p2 ⟨h1, hsub⟩ ⟨-, -, hrem⟩
    obtain ⟨h2, hpe⟩ := h1.removeSubtree hrem
    exact ⟨h2, ((sublist_append_left _ _).subperm.trans hpe.subperm).trans hsub⟩
  obtain ⟨q, hrdy, hfut⟩ := enforceLimits_eq_some h
  exact invariant_of_reflTransGen hev (invariant_of_reflTransGen hev ⟨hp, .refl _⟩ hrdy) hfut

/-! A round of the limits removes the worst transaction, so the rounds come to an end. -/

theorem exists_of_foldl_pick {A B : Type} {pi : Option B → A → Option B} {g : A → B}
    (hp : ∀ {acc a b}, pi acc a = some b → acc = some b ∨ g a = b) {l : List A} {b : B}
    {acc : Option B} (h : l.foldl pi acc = some b) : acc = some b ∨ ∃ a ∈ l, g a = b := by
  induction l generalizing acc with
  | nil => exact .inl h
  | cons a l ih =>
    obtain hacc | ⟨a', ha', heq⟩ := ih h
    · exact (hp hacc).imp_right fun heq => ⟨a, mem_cons_self, heq⟩
    · exact .inr ⟨a', mem_cons_of_mem _ ha', heq⟩

section
omit [DecidableEq H] [DecidableEq T]

/-- Where nothing is the worst there is nothing. -/
theorem eq_nil_of_walk {A B : Type} {k : Walk H T} {f : Option B → A → Option B} {l : List A}
    (hf : ∀ acc a, f acc a ≠ none) (h : (o.walk k l).foldl f none = none) : l = [] := by
  have hp := o.perm k l
  obtain hn | ⟨l', a, hl⟩ := eq_nil_or_concat' (o.walk k l)
  · rw [hn] at hp
    exact hp.nil_eq.symm
  · rw [hl, foldl_append] at h
    exact absurd h (hf _ a)

theorem worseReady_eq_some {wo : Option (TransactionRef H T)} {t : TransactionRef H T}
    (h : worseReady wo x = some t) : wo = some t ∨ x.transaction = t := by
  unfold worseReady at h
  split at h
  · exact .inr (some.inj h)
  split at h
  · exact .inl h
  · split at h
    · exact .inr (some.inj h)
    · exact .inl h
  · exact .inr (some.inj h)

theorem worseFuture_eq_some {wo : Option (WaitingTransaction H T)} {t : WaitingTransaction H T}
    (h : worseFuture wo w = some t) : wo = some t ∨ w = t := by
  unfold worseFuture at h
  split at h
  · exact .inr (some.inj h)
  · split at h
    · exact .inr (some.inj h)
    · exact .inl h

end

theorem Sound.ready_of_worstReady (hp : p.Sound) (h : p.worstReady o = some hash) :
    ∃ x, p.ready.ready.get? hash = some x := by
  obtain ⟨t, ht, rfl⟩ := map_eq_some_iff.mp h
  obtain hn | ⟨x, hx, rfl⟩ := exists_of_foldl_pick worseReady_eq_some ht
  · cases hn
  · obtain ⟨k, hk⟩ := mem_values.mp ((o.perm _ _).mem_iff.mp hx)
    rw [hp.ready.keyed (txAt_eq_some.mpr ⟨x, hk, rfl⟩)]
    exact ⟨x, hk⟩

theorem Sound.waiting_of_worstFuture (hp : p.Sound) (h : p.worstFuture o = some hash) :
    ∃ w, p.future.waiting.get? hash = some w := by
  obtain ⟨t, ht, rfl⟩ := map_eq_some_iff.mp h
  obtain hn | ⟨w, hw, rfl⟩ := exists_of_foldl_pick (g := id) worseFuture_eq_some ht
  · cases hn
  · obtain ⟨k, hk⟩ := mem_values.mp ((o.perm _ _).mem_iff.mp hw)
    rw [id, hp.future.keyed hk]
    exact ⟨w, hk⟩

/-- Removing a transaction of the ready queue makes that queue shorter. -/
theorem Sound.removeSubtree_ready_lt (hp : p.Sound) (hx : p.ready.ready.get? hash = some x) :
    ∃ rem p', p.removeSubtree [hash] = some (rem, p') ∧ p'.ready.len < p.ready.len := by
  obtain ⟨r, rem, hr, hidx, hpe, hg⟩ := hp.ready.removeSubtree [hash]
  refine ⟨_, _, by rw [BasePool.removeSubtree, hr]; rfl, ?_⟩
  have htx : x.transaction.transaction ∈ p.ready.transactions :=
    mem_transactions.mpr ⟨hash, txAt_eq_some.mpr ⟨x, hx, rfl⟩⟩
  have hne : rem ≠ [] := by
    rintro rfl
    rw [append_nil] at hpe
    obtain ⟨k, hk⟩ := mem_transactions.mp (hpe.mem_iff.mpr htx)
    have hkey := hidx.keyed hk
    rw [hp.ready.keyed (txAt_eq_some.mpr ⟨x, hx, rfl⟩)] at hkey
    rw [← hkey, hg hash mem_cons_self] at hk
    cases hk
  have hlen := hpe.length_eq
  have hpos := length_pos_iff.mpr hne
  simp only [transactions, length_append, length_map, length_values] at hlen
  simp only [len]
  omega

/-- Removing a transaction of the future queue makes that queue shorter. -/
theorem Sound.removeSubtree_future_lt (hp : p.Sound) (hw : p.future.waiting.get? hash = some w) :
    ∃ rem p', p.removeSubtree [hash] = some (rem, p') ∧ p'.future.len < p.future.len := by
  obtain ⟨r, rem, hr, -⟩ := hp.ready.removeSubtree [hash]
  refine ⟨_, _, by rw [BasePool.removeSubtree, hr]; rfl, ?_⟩
  simp only [FutureTransactions.remove, foldl_cons,
    FutureTransactions.removeHash, hw, FutureTransactions.len]
  exact size_erase_lt hw

/-- The rounds end if each of them makes the queue shorter, and then it is within its limit. -/
theorem enforceLoop_spec {e : BasePool H T → Bool} {w : BasePool H T → Option H}
    {n : BasePool H T → Nat} {I : BasePool H T → Prop} (hs : ∀ p hash, I p → w p = some hash →
      ∃ rem p', p.removeSubtree [hash] = some (rem, p') ∧ n p' < n p ∧ I p')
    (hno : ∀ p, w p = none → e p = false) (hp : I p) (rem : List (Transaction H T)) :
    ∃ more p', enforceLoop e w n p rem = some (more, p') ∧ I p' ∧ e p' = false := by
  fun_induction enforceLoop e w n p rem with
  | case1 p rem _ hw => exact ⟨rem, p, rfl, hp, hno p hw⟩
  | case2 p _ _ hash hw hrem =>
    obtain ⟨_, _, h, -⟩ := hs p hash hp hw
    cases hrem.symm.trans h
  | case3 p _ _ hash hw _ _ hrem _ ih =>
    obtain ⟨_, _, h, -, hI⟩ := hs p hash hp hw
    cases hrem.symm.trans h
    exact ih hI
  | case4 p _ _ hash hw _ _ hrem hle =>
    obtain ⟨_, _, h, hlt, -⟩ := hs p hash hp hw
    cases hrem.symm.trans h
    exact absurd hlt hle
  | case5 p rem he => exact ⟨rem, p, rfl, hp, eq_false_of_ne_true he⟩

/-! Pruning. -/

theorem Sound.pruneTag {tag : T} {s s' : Pruning H T} (h : pruneTag o s tag = some s')
    (hs : s.pool.Sound) (hsub : (s.pool.held ++ s.toImport.map (·.transaction)).Subperm b) :
    s'.pool.Sound ∧ (s'.pool.held ++ s'.toImport.map (·.transaction)).Subperm b := by
  unfold BasePool.pruneTag at h
  split at h
  · cases h
  rename_i future unl hsat
  obtain ⟨r, hr, rfl⟩ := map_eq_some_iff.mp h
  obtain ⟨hfut, hwait⟩ := hs.future.satisfyTags hsat
  obtain ⟨hrdy, hg⟩ := hs.ready.pruneTags hr
  refine ⟨⟨hrdy, hfut⟩, trans (subperm_ext_iff.mpr fun t _ => ?_) hsub⟩
  have h1 := hg.count_eq t
  have h2 := hwait.count_eq t
  simp only [held, count_append, map_append] at h1 h2 ⊢
  omega

section
variable (hp : p.Sound)

include hp

theorem Sound.pruneTags {st : PruneStatus H T} (h : p.pruneTags o ts = some (st, p')) :
    p'.Sound ∧ p'.held.Subperm p.held := by
  obtain ⟨s, hs, himp⟩ := pruneTags_eq_some h
  have hprd : s.pool.Sound ∧ (s.pool.held ++ s.toImport.map (·.transaction)).Subperm p.held := by
    refine foldlM_inv_of_eq_some
      (fun tag _ u v hP hst => pruneTag hst hP.1 hP.2) ⟨⟨hp.ready, hp.future⟩, ?_⟩ hs
    rw [map_nil, append_nil]
    exact .refl _
  have hdo := invariant_of_reflTransGen
    (I := fun c =>
      c.1.Sound ∧ (c.1.held ++ c.2.map (·.transaction)).Subperm p.held) ?_ hprd himp
  · rwa [map_nil, append_nil] at hdo
  rintro _ _ ⟨hsnd, hsub⟩ ⟨hrdy⟩
  obtain ⟨hsnd', hs'⟩ := hsnd.toReady hrdy
  refine ⟨hsnd', trans ?_ hsub⟩
  refine ((subperm_append_right _).mpr hs').trans ?_
  exact perm_middle.symm.subperm

theorem Sound.isImported_of_mem (h : t ∈ p.held) : p.isImported t.hash = true := by
  rcases mem_append.mp h with h | h
  · obtain ⟨k, hk⟩ := mem_transactions.mp h
    obtain ⟨x, hx, -⟩ := txAt_eq_some.mp hk
    rw [hp.ready.keyed hk]
    simp [isImported, ReadyTransactions.contains, hx]
  · obtain ⟨w, hw, -⟩ := hp.future.mem_transactions.mp h
    simp [isImported, FutureTransactions.contains, hw]

/-- A transaction that is not in the pool has a hash of its own. -/
theorem Sound.nodup_cons (hd : p.Distinct) (hnew : p.isImported tx.hash = false) :
    ((tx :: p.held).map (·.hash)).Nodup := by
  refine List.nodup_cons.mpr ⟨fun hmem => ?_, hd⟩
  obtain ⟨t, ht, heq⟩ := mem_map.mp hmem
  have himp := hp.isImported_of_mem ht
  rw [heq, hnew] at himp
  cases himp

theorem Sound.importTx (h : p.importTx o now tx = some (res, p')) :
    p'.Sound ∧ (p'.held.Subperm p.held ∨
      p.isImported tx.hash = false ∧ p'.held.Subperm (tx :: p.held)) := by
  cases importTx_eq_some h with
  | known | rejected => exact ⟨hp, .inl (.refl _)⟩
  | waits hnew himp =>
    refine ⟨⟨hp.ready, hp.future.importTx himp⟩, .inr ⟨hnew, ?_⟩⟩
    rw [held, FutureTransactions.transactions_importTx himp]
    exact perm_middle.subperm
  | toReady hnew hrdy =>
    obtain ⟨hp', hsub⟩ := hp.toReady hrdy
    exact ⟨hp', .inr ⟨hnew, hsub⟩⟩

theorem Distinct.not_ready_of_waiting (hd : p.Distinct) (hw : p.future.waiting.get? hash = some w) :
    p.ready.ready.get? hash = none := by
  refine eq_none_iff_forall_ne_some.mpr fun x hx => ?_
  have hnd : (p.ready.transactions.map (·.hash) ++ p.future.transactions.map (·.hash)).Nodup := by
    rw [← map_append]
    exact hd
  have htx := txAt_eq_some.mpr ⟨x, hx, rfl⟩
  have hrdy : hash ∈ p.ready.transactions.map (·.hash) := by
    rw [← hp.ready.keyed htx]
    exact mem_map_of_mem (mem_transactions.mpr ⟨hash, htx⟩)
  have hwa : hash ∈ p.future.transactions.map (·.hash) := by
    rw [← hp.future.keyed hw]
    exact mem_map_of_mem (FutureTransactions.mem_transactions.mpr ⟨hash, w, hw, rfl⟩)
  exact disjoint_of_nodup_append hnd hrdy hwa

/-- Every call keeps the indices and no hash occurs twice. -/
theorem Sound.call {c : Call H T} (hd : p.Distinct) (h : p.call c = some p') :
    p'.Sound ∧ p'.Distinct := by
  cases c with
  | importTx o now tx =>
    obtain ⟨⟨res, q⟩, hr, rfl⟩ := map_eq_some_iff.mp h
    obtain ⟨hp', hsub | ⟨hnew, hsub⟩⟩ := hp.importTx hr
    · exact ⟨hp', .of_subperm hsub hd⟩
    · exact ⟨hp', .of_subperm hsub (hp.nodup_cons hd hnew)⟩
  | removeSubtree hashes =>
    obtain ⟨⟨rem, q⟩, hr, rfl⟩ := map_eq_some_iff.mp h
    obtain ⟨hp', hperm⟩ := hp.removeSubtree hr
    exact ⟨hp', .of_subperm ((sublist_append_left _ _).subperm.trans hperm.subperm) hd⟩
  | pruneTags o ts =>
    obtain ⟨⟨status, q⟩, hr, rfl⟩ := map_eq_some_iff.mp h
    obtain ⟨hp', hsub⟩ := hp.pruneTags hr
    exact ⟨hp', .of_subperm hsub hd⟩
  | enforceLimits o ready future =>
    obtain ⟨⟨rem, q⟩, hr, rfl⟩ := map_eq_some_iff.mp h
    obtain ⟨hp', hsub⟩ := hp.enforceLimits hr
    exact ⟨hp', .of_subperm hsub hd⟩
  | clearFuture =>
    cases h
    refine ⟨⟨hp.ready, FutureTransactions.sound_default⟩, .of_subperm ?_ hd⟩
    exact (subperm_append_left _).mpr (nil_subperm)
  | setRejectFutureTransactions flag =>
    cases h
    exact ⟨⟨hp.ready, hp.future⟩, hd⟩

end

theorem Reachable.sound (h : Reachable p) : p.Sound ∧ p.Distinct := by
  obtain ⟨f, cs, hrun⟩ := h
  have hs : ∀ (o : Option (BasePool H T)) c,
      (∀ p, o = some p → p.Sound ∧ p.Distinct) → True →
      ∀ p, step o c = some p → p.Sound ∧ p.Distinct := by
    rintro o c hI - p' hp'
    obtain ⟨p, rfl, hc⟩ := bind_eq_some_iff.mp hp'
    exact (hI p rfl).1.call (hI p rfl).2 hc
  have hnew : ∀ p : BasePool H T, some (new f) = some p → p.Sound ∧ p.Distinct := by
    intro p hp
    cases hp
    exact ⟨sound_new f, distinct_new f⟩
  have halw : Always step (fun o => ∀ p, o = some p → p.Sound ∧ p.Distinct) (some (new f)) cs :=
    Run.Each.always hs hnew fun _ _ _ => trivial
  exact halw.last p hrun

/-! ## Conservation by an import -/

/-- What an import should do. An error leaves the transactions of both queues as they were.
Otherwise every transaction, the imported one included, is in exactly one of the queues, or listed
as failed or removed. -/
def Conserves (p : BasePool H T) (tx : Transaction H T) :
    Option (Except (Error H) (Imported H T) × BasePool H T) → Prop
  | none => False
  | some (.error _, p') =>
    (∀ t, t ∈ p'.ready.transactions ↔ t ∈ p.ready.transactions) ∧
      ∀ t, t ∈ p'.future.transactions ↔ t ∈ p.future.transactions
  | some (.ok imported, p') => ∀ t ∈ tx :: p.held,
      Xor (t ∈ p'.ready.transactions) (t ∈ p'.future.transactions) ∨
        t.hash ∈ imported.failed ∨ t ∈ imported.removed

/-- A waiting transaction misses no other tags than those that `tx` provides. -/
def Unlocks (p : BasePool H T) (tx : Transaction H T) : Prop :=
  ∃ h w, p.future.waiting.get? h = some w ∧ ∀ t ∈ w.missingTags, t ∈ tx.provides

omit [DecidableEq H] [DecidableEq T] in
theorem Distinct.xor_of_mem (h : p.Distinct) (ht : t ∈ p.held) :
    Xor (t ∈ p.ready.transactions) (t ∈ p.future.transactions) := by
  have hnd : p.held.Nodup := .of_map _ h
  have hdi := disjoint_of_nodup_append hnd
  rcases mem_append.mp ht with ht | ht
  · exact .inl ⟨ht, hdi ht⟩
  · exact .inr ⟨ht, fun ht' => hdi ht' ht⟩

/-- The first round of an import that fails in the end: it has unlocked transactions, which are not
in the future queue any more, or it has changed nothing. -/
theorem ToReady.of_error {e : Error H} (hp : p.Sound)
    (hnew : p.isImported w.transaction.hash = false) (h : ToReady o p w (.error e) p') :
    ∃ f unl,
      p.future.satisfyTags o w.transaction.provides = some (f, unl) ∧
      p'.future.transactions ⊆ f.transactions ∧
      (unl = [] → p'.ready.transactions = p.ready.transactions ∧ p'.future = f) := by
  cases h with
  | @refused f unl _ r hsat himp =>
    obtain ⟨-, ⟨-, -, rfl⟩ | ⟨-, _, _, hres, -⟩⟩ := hp.ready.importTx himp
    · exact ⟨f, unl, hsat, List.Subset.refl _, fun _ => ⟨rfl, rfl⟩⟩
    · cases hres
  | cycle hrds hcyc hrem =>
    obtain hend | ⟨c, hfst, hr⟩ := hrds.cases_head
    · cases hend
    cases hfst with
    | @imported _ _ _ f unl repl r hsat himp =>
      have hst := (Promoting.start hp w).round (.imported hsat himp)
      refine ⟨f, unl, hsat, hst.future_subset hr, ?_⟩
      -- with nothing unlocked there is one round only, and it replaces ready transactions
      rintro rfl
      obtain hend | ⟨_, hrd, -⟩ := hr.cases_head
      · cases hend
        obtain ⟨t, ht, heq⟩ := hcyc
        obtain ⟨-, ⟨-, ⟨_, hres⟩, -⟩ | ⟨-, _, _, hres, hdo, -⟩⟩ := hp.ready.importTx himp
        · cases hres
        · cases hres
          have hold : t ∈ p.ready.transactions := hdo.perm.subset (mem_append_right _ ht)
          have hi := hp.isImported_of_mem (mem_append_left _ hold)
          rw [heq, hnew] at hi
          cases hi
      · cases hrd
    | failed hsat himp hfst => cases hfst

/-- Transactions that were unlocked are missing from the future queue afterwards. -/
theorem Distinct.not_mem_of_unlocked (hp : p.Sound) (hd : p.Distinct)
    {f : FutureTransactions H T} {unl : List (WaitingTransaction H T)}
    (h : p.future.satisfyTags o ts = some (f, unl)) (hw : w ∈ unl) :
    w.transaction ∈ p.future.transactions ∧ w.transaction ∉ f.transactions := by
  have hpe := (hp.future.satisfyTags h).2
  have hmem : w.transaction ∈ unl.map (·.transaction) := mem_map_of_mem hw
  have hnd : (f.transactions ++ unl.map (·.transaction)).Nodup :=
    hpe.nodup_iff.mpr (List.Nodup.of_append_right (.of_map _ hd))
  exact ⟨hpe.subset (mem_append_right _ hmem), fun hs =>
    disjoint_of_nodup_append hnd hs hmem⟩

/-- An import that gets as far as the ready queue and fails conserves the transactions exactly if
it has unlocked none. -/
theorem ToReady.conserves_iff_of_error {e : Error H} (hp : p.Sound) (hd : p.Distinct)
    (hnew : p.isImported w.transaction.hash = false) (h : ToReady o p w (.error e) p') :
    Conserves p w.transaction (some (.error e, p')) ↔ ¬ p.Unlocks w.transaction := by
  obtain ⟨future, unl, hsat, hsub, hn⟩ := h.of_error hp hnew
  rw [Unlocks, ← hp.future.unlocked_ne_nil_iff hsat, not_not]
  constructor
  · rintro ⟨-, hfut⟩
    refine eq_nil_iff_forall_not_mem.mpr fun u hu => ?_
    obtain ⟨hbef, haft⟩ := hd.not_mem_of_unlocked hp hsat hu
    exact haft (hsub ((hfut _).mpr hbef))
  · intro hnil
    obtain ⟨hrdy, hfut⟩ := hn hnil
    have hpe := (hp.future.satisfyTags hsat).2
    rw [hnil, map_nil, append_nil] at hpe
    refine ⟨fun t => by rw [hrdy], fun t => ?_⟩
    rw [hfut]
    exact hpe.mem_iff

/-- An import that goes through conserves the transactions. -/
theorem ToReady.conserves_of_ok {imported : Imported H T} (hp : p.Sound) (hd : p.Distinct)
    (hnew : p.isImported w.transaction.hash = false) (h : ToReady o p w (.ok imported) p') :
    Conserves p w.transaction (some (.ok imported, p')) := by
  have hd' : p'.Distinct := .of_subperm (hp.toReady h).2 (hp.nodup_cons hd hnew)
  cases h with
  | imported hrds =>
    obtain ⟨failed, hfld, hpe⟩ := ((Promoting.start hp w).rounds hrds).perm
    intro t ht
    have hmem := hpe.mem_iff.mpr ht
    simp only [map_nil, append_nil, mem_append] at hmem
    rcases hmem with (hh | hmem) | hmem
    · exact .inl (hd'.xor_of_mem hh)
    · exact .inr (.inl (hfld ▸ mem_map_of_mem hmem))
    · exact .inr (.inr hmem)

/-- A provider of tag 1, and a transaction that waits for tag 2. -/
def providerAndWaiter : List (Call Nat Nat) :=
  [.importTx .given 0 ⟨1, 1, 5, 64, [], [1]⟩, .importTx .given 1 ⟨1, 2, 5, 64, [2], []⟩]

end BasePool

end TransactionPool
