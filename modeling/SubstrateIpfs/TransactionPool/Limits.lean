-- SUMMARY: Enforcing the limits of the pool ends, with both queues within them.
import SubstrateIpfs.TransactionPool.Conservation

/-!
# The limits of the pool

Each round of enforcing a limit removes the worst transaction of a queue with its subtree, so the
queue gets shorter. What waits in the future queue is not ready, and its removal leaves the ready
queue alone.
-/

namespace TransactionPool.BasePool

open Option ReadyTransactions

variable {H T : Type} [DecidableEq H] [DecidableEq T] {p p' : BasePool H T} {o : HashOrder H T}
  {rem : List (Transaction H T)}

theorem removeSubtree_ready {xs : List H} (h : p.removeSubtree xs = some (rem, p')) :
    ∃ g, p.ready.removeSubtree xs = some (p'.ready, g) := by
  obtain ⟨⟨r, g⟩, hr, heq⟩ := map_eq_some_iff.mp h
  cases heq
  exact ⟨g, hr⟩

theorem sound_removeSubtree {xs : List H} (hp : p.Sound ∧ p.Distinct)
    (h : p.removeSubtree xs = some (rem, p')) : p'.Sound ∧ p'.Distinct :=
  hp.1.call hp.2 (c := .removeSubtree xs) (by rw [call, h]; rfl)

/-- The rounds for the future queue do not touch the ready queue. -/
theorem Evict.ready_eq {exc : BasePool H T → Bool} (hp : p.Sound) (hd : p.Distinct)
    (h : Evict exc (fun p => p.worstFuture o) p p') : p'.ready = p.ready := by
  obtain ⟨-, hwst, hrem⟩ := h
  obtain ⟨w, hw⟩ := hp.waiting_of_worstFuture hwst
  obtain ⟨gone, hg⟩ := removeSubtree_ready hrem
  have hn := removeSubtree_of_none (hd.not_ready_of_waiting hp hw)
  exact (Prod.mk.inj (some.inj (hg.symm.trans hn))).1

/-- On every pool that calls lead to, enforcing the limits ends. Then both queues are within them,
and nothing is new. -/
theorem enforceLimits_within (hp : Reachable p) (order : HashOrder H T) (ready future : Limit) :
    ∃ removed q, p.enforceLimits order ready future = some (removed, q) ∧
      ready.isExceeded q.ready.len q.ready.bytes = false ∧
      future.isExceeded q.future.len q.future.bytes = false ∧ q.held.Subperm p.held := by
  have hrdy : ∃ rem q, enforceLoop (fun p => ready.isExceeded p.ready.len p.ready.bytes)
      (fun p => p.worstReady order) (fun p => p.ready.len) p [] = some (rem, q) ∧
        (q.Sound ∧ q.Distinct) ∧ ready.isExceeded q.ready.len q.ready.bytes = false := by
    refine enforceLoop_spec (fun p hash hp hw => ?_) (fun p hw => ?_) hp.sound []
    · obtain ⟨x, hx⟩ := hp.1.ready_of_worstReady hw
      obtain ⟨rem, p', h, hlt⟩ := hp.1.removeSubtree_ready_lt hx
      exact ⟨rem, p', h, hlt, sound_removeSubtree hp h⟩
    · have hv := eq_nil_of_walk (fun _ _ => by fun_cases worseReady <;> simp)
        (map_eq_none_iff.mp hw)
      simp [Limit.isExceeded, len, bytes, ← FinMap.length_values, hv]
  obtain ⟨rem, q, hrun, hq, hr⟩ := hrdy
  have hfut : ∃ more q', enforceLoop (fun p => future.isExceeded p.future.len p.future.bytes)
      (fun p => p.worstFuture order) (fun p => p.future.len) q rem = some (more, q') ∧
        ((q'.Sound ∧ q'.Distinct) ∧ q'.ready = q.ready) ∧
          future.isExceeded q'.future.len q'.future.bytes = false := by
    refine enforceLoop_spec (fun p hash hp hw => ?_) (fun p hw => ?_) ⟨hq, rfl⟩ rem
    · obtain ⟨x, hx⟩ := hp.1.1.waiting_of_worstFuture hw
      obtain ⟨rem, p', h, hlt⟩ := hp.1.1.removeSubtree_future_lt hx
      have he : Evict (fun _ => true) (fun p => p.worstFuture order) p p' := ⟨rfl, hw, h⟩
      exact ⟨rem, p', h, hlt, sound_removeSubtree hp.1 h,
        (he.ready_eq hp.1.1 hp.1.2).trans hp.2⟩
    · have hv := eq_nil_of_walk (fun _ _ => by fun_cases worseFuture <;> simp)
        (map_eq_none_iff.mp hw)
      simp [Limit.isExceeded, FutureTransactions.len, FutureTransactions.bytes,
        ← FinMap.length_values, hv]
  obtain ⟨more, q', hrun', ⟨-, hs⟩, hf⟩ := hfut
  have h : p.enforceLimits order ready future = some (more, q') := by
    rw [enforceLimits, hrun]
    exact hrun'
  exact ⟨more, q', h, hs ▸ hr, hf, (hp.sound.1.enforceLimits h).2⟩

theorem enforceLimits_within_nothing : ∃ p removed q,
    Run.exec step (some (new false)) providerAndWaiter = some p ∧
      p.enforceLimits .given ⟨0, 0⟩ ⟨0, 0⟩ = some (removed, q) ∧
      Limit.isExceeded ⟨0, 0⟩ q.ready.len q.ready.bytes = false := by
  obtain ⟨p, hp, -⟩ : ∃ p, Run.exec step (some (new false)) providerAndWaiter = some p ∧ True := by
    decide +kernel
  obtain ⟨removed, q, h, hr, -⟩ := enforceLimits_within ⟨false, _, hp⟩ .given ⟨0, 0⟩ ⟨0, 0⟩
  exact ⟨p, removed, q, hp, h, hr⟩

end TransactionPool.BasePool
