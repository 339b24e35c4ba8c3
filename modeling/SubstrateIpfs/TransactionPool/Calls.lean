-- SUMMARY: What the calls of the pool can do: rounds of an import, outcomes, runs of calls.
import SubstrateIpfs.Base.Run
import SubstrateIpfs.TransactionPool.BasePool

/-!
# Calls of the pool

An import goes through rounds: each takes one transaction from the stack, puts the transactions it
unlocks on the stack, and imports it into the ready queue. `Round` is one such round.

A run is a sequence of calls. A call that panics ends it.
-/

namespace TransactionPool.BasePool

variable {H T : Type} [DecidableEq H] [DecidableEq T] {order : HashOrder H T} {p' p : BasePool H T}
  {res : Except (Error H) (Imported H T)} {w : WaitingTransaction H T}
  {removed : List (Transaction H T)}

/-! ## Rounds of an import -/

/-- One round of the import loop, from a state and a stack to the next ones. -/
inductive Round (order : HashOrder H T) :
    Importing H T × List (WaitingTransaction H T) →
    Importing H T × List (WaitingTransaction H T) → Prop
  /-- The transaction is ready now. -/
  | imported {s : Importing H T} {w : WaitingTransaction H T} {rest : List (WaitingTransaction H T)}
      {future : FutureTransactions H T} {unlocked : List (WaitingTransaction H T)}
      {replaced : List (Transaction H T)} {ready : ReadyTransactions H T}
      (hsatisfy : s.pool.future.satisfyTags order w.transaction.provides = some (future, unlocked))
      (himport : s.pool.ready.importTx order w = some (.ok replaced, ready)) :
      Round order (s, w :: rest)
        ({ pool := { s.pool with future := future, ready := ready }
           promoted := if s.first then s.promoted else s.promoted ++ [w.transaction.hash]
           failed := s.failed
           removed := s.removed ++ replaced
           first := false }, unlocked.reverse ++ rest)
  /-- A transaction from the future queue is refused. -/
  | failed {s : Importing H T} {w : WaitingTransaction H T} {rest : List (WaitingTransaction H T)}
      {future : FutureTransactions H T} {unlocked : List (WaitingTransaction H T)}
      {e : Error H} {ready : ReadyTransactions H T}
      (hsatisfy : s.pool.future.satisfyTags order w.transaction.provides = some (future, unlocked))
      (himport : s.pool.ready.importTx order w = some (.error e, ready))
      (hfirst : s.first = false) :
      Round order (s, w :: rest)
        ({ s with
           pool := { s.pool with future := future, ready := ready }
           failed := s.failed ++ [w.transaction.hash]
           first := false }, unlocked.reverse ++ rest)

/-- A state and a stack that an import goes through. -/
abbrev Rounds (order : HashOrder H T) := Relation.ReflTransGen (Round order)

/-- An import that goes through has gone through all its rounds; only the first transaction can
make it fail. -/
theorem importLoop_eq_some {s : Importing H T} {st : List (WaitingTransaction H T)}
    {res : Except (Error H × BasePool H T) (Importing H T)} (h : importLoop order s st = some res) :
    (∃ s', res = .ok s' ∧ Rounds order (s, st) (s', [])) ∨
      ∃ w re f unl e r, st = w :: re ∧ s.first = true ∧
        s.pool.future.satisfyTags order w.transaction.provides = some (f, unl) ∧
        s.pool.ready.importTx order w = some (.error e, r) ∧
        res = .error (e, { s.pool with future := f, ready := r }) := by
  fun_induction importLoop order s st with
  | case1 s =>
    cases h
    exact .inl ⟨s, rfl, .refl⟩
  | case2 | case3 => cases h
  | case4 s w re f unl hsat hs hash repl r himp ih =>
    obtain ⟨s', rfl, hrds⟩ | ⟨_, _, _, _, _, _, _, hfst, _⟩ := ih h
    · exact .inl ⟨s', rfl, .head (.imported hsat himp) hrds⟩
    · cases hfst
  | case5 s w re f unl hsat hs e r himp hfst =>
    cases h
    exact .inr ⟨w, re, f, unl, e, r, rfl, hfst, hsat, himp, rfl⟩
  | case6 s w re f unl hsat hs hash e r himp hfst ih =>
    obtain ⟨s', rfl, hrds⟩ | ⟨_, _, _, _, _, _, _, hf', _⟩ := ih h
    · exact .inl ⟨s', rfl, .head (.failed hsat himp (by simpa using hfst)) hrds⟩
    · cases hf'

/-- The state in which the import of a transaction starts. -/
abbrev startImport (p : BasePool H T) : Importing H T := ⟨p, [], [], [], true⟩

/-- What an import into the ready queue can do: fail at once, find a cycle, or go through. -/
inductive ToReady (order : HashOrder H T) (p : BasePool H T) (w : WaitingTransaction H T) :
    Except (Error H) (Imported H T) → BasePool H T → Prop
  | refused {future : FutureTransactions H T} {unlocked : List (WaitingTransaction H T)}
      {e : Error H} {ready : ReadyTransactions H T}
      (hsatisfy : p.future.satisfyTags order w.transaction.provides = some (future, unlocked))
      (himport : p.ready.importTx order w = some (.error e, ready)) :
      ToReady order p w (.error e) { p with future := future, ready := ready }
  | cycle {s : Importing H T} {ready : ReadyTransactions H T} {removed : List (Transaction H T)}
      (hrounds : Rounds order (startImport p, [w]) (s, []))
      (hcycle : ∃ tx ∈ s.removed, tx.hash = w.transaction.hash)
      (hremove : s.pool.ready.removeSubtree s.promoted = some (ready, removed)) :
      ToReady order p w (.error .cycleDetected) { s.pool with ready := ready }
  | imported {s : Importing H T} (hrounds : Rounds order (startImport p, [w]) (s, [])) :
      ToReady order p w (.ok (.ready w.transaction.hash s.promoted s.failed s.removed)) s.pool

theorem importToReady_eq_some (h : p.importToReady order w = some (res, p')) :
    ToReady order p w res p' := by
  unfold importToReady at h
  dsimp only at h
  split at h
  · cases h
  next e pool hloop =>
    cases h
    obtain ⟨_, heq, -⟩ | ⟨w', _, future, unl, e', r, hstk, -, hsat, himp, heq⟩ :=
      importLoop_eq_some hloop
    · cases heq
    · cases hstk
      cases heq
      exact .refused hsat himp
  next s hloop =>
    obtain ⟨s', heq, hrds⟩ | ⟨_, _, _, _, _, _, _, _, _, _, heq⟩ := importLoop_eq_some hloop
    · cases heq
      split at h
      next hcyc =>
        obtain ⟨⟨r, removed⟩, hrem, heq⟩ := Option.map_eq_some_iff.mp h
        cases heq
        exact .cycle hrds (by simpa using hcyc) hrem
      · cases h
        exact .imported hrds
    · cases heq

/-! ## Outcomes of an import -/

/-- What an import can do: refuse a transaction that is known or has to wait, let it wait, or take
it to the ready queue. -/
inductive Outcome (order : HashOrder H T) (now : Nat) (p : BasePool H T) (tx : Transaction H T) :
    Except (Error H) (Imported H T) → BasePool H T → Prop
  | known (hknown : p.isImported tx.hash = true) :
      Outcome order now p tx (.error (.alreadyImported tx.hash)) p
  | rejected : Outcome order now p tx (.error .rejectedFutureTransaction) p
  | waits {future : FutureTransactions H T} (hnew : p.isImported tx.hash = false)
      (himport : p.future.importTx (.new tx p.ready.providedTags p.recentlyPruned now) =
        some future) :
      Outcome order now p tx (.ok (.future tx.hash)) { p with future := future }
  | toReady {res : Except (Error H) (Imported H T)} {p' : BasePool H T}
      (hnew : p.isImported tx.hash = false)
      (h : ToReady order p (.new tx p.ready.providedTags p.recentlyPruned now) res p') :
      Outcome order now p tx res p'

theorem importTx_eq_some {now : Nat} {tx : Transaction H T}
    (h : p.importTx order now tx = some (res, p')) : Outcome order now p tx res p' := by
  unfold importTx at h
  dsimp only at h
  split at h
  next hkn =>
    cases h
    exact .known hkn
  rename_i hnew
  have hnew : p.isImported tx.hash = false := by simpa using hnew
  split at h
  · split at h
    · cases h
      exact .rejected
    · obtain ⟨future, hfut, heq⟩ := Option.map_eq_some_iff.mp h
      cases heq
      exact .waits hnew hfut
  · exact .toReady hnew (importToReady_eq_some h)

/-! ## Rounds of the limits -/

/-- One round in which the worst transaction of a queue goes. -/
inductive Evict (exceeded : BasePool H T → Bool) (worst : BasePool H T → Option H) :
    BasePool H T → BasePool H T → Prop
  | mk {p p' : BasePool H T} {hash : H} {removed : List (Transaction H T)}
      (hexceeded : exceeded p = true) (hworst : worst p = some hash)
      (hremove : p.removeSubtree [hash] = some (removed, p')) : Evict exceeded worst p p'

theorem enforceLoop_eq_some {exc : BasePool H T → Bool} {wo : BasePool H T → Option H}
    {s : BasePool H T → Nat} {r' : List (Transaction H T)}
    (h : enforceLoop exc wo s p removed = some (r', p')) :
    Relation.ReflTransGen (Evict exc wo) p p' := by
  fun_induction enforceLoop exc wo s p removed with
  | case1 p removed hexc hwst => cases h; exact .refl
  | case2 p removed hexc hash hwst hrem => cases h
  | case3 p removed hexc hash hwst m q hrem hs ih =>
    exact .head ⟨hexc, hwst, hrem⟩ (ih h)
  | case4 p removed hexc hash hwst m q hrem hs => cases h
  | case5 p removed hexc => cases h; exact .refl

theorem enforceLimits_eq_some {r f : Limit} (h : p.enforceLimits order r f = some (removed, p')) :
    ∃ q, Relation.ReflTransGen (Evict (fun p => r.isExceeded p.ready.len p.ready.bytes)
        fun p => p.worstReady order) p q ∧
      Relation.ReflTransGen (Evict (fun p => f.isExceeded p.future.len p.future.bytes)
        fun p => p.worstFuture order) q p' := by
  unfold enforceLimits at h
  split at h
  · cases h
  next removed' q hrdy => exact ⟨q, enforceLoop_eq_some hrdy, enforceLoop_eq_some h⟩

/-! ## The imports of a pruning -/

/-- The import of the first of the transactions that pruning has unlocked. -/
inductive Promote (order : HashOrder H T) :
    BasePool H T × List (WaitingTransaction H T) →
    BasePool H T × List (WaitingTransaction H T) → Prop
  | mk {p p' : BasePool H T} {w : WaitingTransaction H T} {rest : List (WaitingTransaction H T)}
      {res : Except (Error H) (Imported H T)} (h : ToReady order p w res p') :
      Promote order (p, w :: rest) (p', rest)

theorem importPruned_eq_some {acc a' : BasePool H T × List (Imported H T) × List H}
    (h : importPruned order acc w = some a') : ∃ res, ToReady order acc.1 w res a'.1 := by
  unfold importPruned at h
  split at h
  · cases h
  next res pool himp =>
    cases h
    exact ⟨_, importToReady_eq_some himp⟩
  next e pool himp =>
    cases h
    exact ⟨_, importToReady_eq_some himp⟩

theorem pruneTags_eq_some {ts : List T} {st : PruneStatus H T}
    (h : p.pruneTags order ts = some (st, p')) :
    ∃ s, ts.foldlM (pruneTag order) ⟨p.rememberPruned ts, [], []⟩ = some s ∧
      Relation.ReflTransGen (Promote order) (s.pool, s.toImport) (p', []) := by
  unfold pruneTags at h
  split at h
  · cases h
  rename_i s hs
  obtain ⟨r, hr, heq⟩ := Option.map_eq_some_iff.mp h
  cases heq
  refine ⟨s, hs, List.foldlM_inv_of_eq_some
    (P := fun re acc => Relation.ReflTransGen (Promote order) (s.pool, s.toImport) (acc.1, re))
    (fun w re acc acc' hP hst => ?_) .refl hr⟩
  obtain ⟨res, hres⟩ := importPruned_eq_some hst
  exact hP.tail ⟨hres⟩

/-! ## Runs of calls -/

/-- The calls of the pool. The flag changes while a closure runs with futures enabled. -/
inductive Call (H T : Type) where
  | importTx (order : HashOrder H T) (now : Nat) (tx : Transaction H T)
  | removeSubtree (hashes : List H)
  | pruneTags (order : HashOrder H T) (tags : List T)
  | enforceLimits (order : HashOrder H T) (ready future : Limit)
  | clearFuture
  | setRejectFutureTransactions (flag : Bool)

/-- The pool after a call. -/
def call (p : BasePool H T) : Call H T → Option (BasePool H T)
  | .importTx order now tx => (p.importTx order now tx).map (·.2)
  | .removeSubtree hashes => (p.removeSubtree hashes).map (·.2)
  | .pruneTags order tags => (p.pruneTags order tags).map (·.2)
  | .enforceLimits order ready future => (p.enforceLimits order ready future).map (·.2)
  | .clearFuture => some p.clearFuture.2
  | .setRejectFutureTransactions flag => some { p with rejectFutureTransactions := flag }

/-- The pool after a call, if none has panicked so far. -/
def step (p : Option (BasePool H T)) (c : Call H T) : Option (BasePool H T) := p.bind (·.call c)

/-- The pools that calls lead to. -/
def Reachable (p : BasePool H T) : Prop :=
  ∃ flag calls, Run.exec step (some (new flag)) calls = some p

end TransactionPool.BasePool
