-- SUMMARY: The search for a common ancestor: its probes, what it finds, the common number.
import SubstrateIpfs.Base.Fallible
import SubstrateIpfs.Base.Run

/-!
# Searching for a common ancestor

The probes go back from the tip in steps that double until a block matches. Then the last one
that did not match is an upper bound, and a binary search finds the highest match. While it runs
our chain may grow, and a match then moves the common number to our best queued block.
-/

namespace Sync

open Fallible List

/-! ## The next probe -/

/-- Which algorithm is used to find an ancestor, with its parameters. -/
inductive AncestorSearchState where
  | exponentialBackoff (nextDistanceToTip : ℕ)
  | binarySearch (left right : ℕ)

/-- The next state and number, if the search goes on. It is a panic if an assertion fails or
a number exceeds the largest block number. -/
def handleAncestorSearchState (max : ℕ) (state : AncestorSearchState) (currBlockNum : ℕ)
    (blockHashMatch : Bool) : Option (Option (AncestorSearchState × ℕ)) :=
  match state with
  | .exponentialBackoff nextDistanceToTip =>
    if blockHashMatch ∧ nextDistanceToTip = 1 then some none
    else if blockHashMatch then do
      let left := currBlockNum
      let right ← checkedAdd max left (nextDistanceToTip / 2)
      let middle ← checkedAdd max left ((← checkedSub right left) / 2)
      return some (.binarySearch left right, middle)
    else do
      let nextBlockNum := (checkedSub currBlockNum nextDistanceToTip).getD 0
      let nextDistanceToTip ← checkedAdd max nextDistanceToTip nextDistanceToTip
      return some (.exponentialBackoff nextDistanceToTip, nextBlockNum)
  | .binarySearch left right =>
    if currBlockNum ≤ left then some none
    else do
      let left' := if blockHashMatch then currBlockNum else left
      let right := if blockHashMatch then right else currBlockNum
      guard (left' ≤ right)
      let middle ← checkedAdd max left' ((← checkedSub right left') / 2)
      return if middle = currBlockNum then none else some (.binarySearch left' right, middle)

/-- The numbers that are asked for, if the chains agree up to `common` and the search ends within
some steps. -/
def search (max common : ℕ) : ℕ → AncestorSearchState → ℕ → Option (List ℕ)
  | 0, _, _ => none
  | steps + 1, state, current => do
    match ← handleAncestorSearchState max state current (current ≤ common) with
    | none => return [current]
    | some (state, next) => return current :: (← search max common steps state next)

/-! ## What is found -/

section
variable {max common a left r d c : ℕ}

/-- From a state the search ends, without a number above `start`. The highest common number has
been asked for, or is what is known. -/
def Finds (max common start known : ℕ) (state : AncestorSearchState) (current : ℕ) : Prop :=
  ∃ steps asked, search max common steps state current = some asked ∧ (∀ n ∈ asked, n ≤ start) ∧
    (common = known ∨ common ∈ asked)

variable {k k' n : ℕ} {s s' : AncestorSearchState}

theorem Finds.last (hend : handleAncestorSearchState max s c (c ≤ common) = some none)
    (hle : c ≤ a) (hk : common = k ∨ common = c) :
    Finds max common a k s c := by
  refine ⟨1, [c], ?_, by simpa using hle, by simpa using hk⟩
  rw [search, hend]
  rfl

theorem Finds.next (hg : handleAncestorSearchState max s c (c ≤ common) =
      some (some (s', n))) (hle : c ≤ a) (hk : k' = k ∨ k' = c) (h : Finds max common a k' s' n) :
    Finds max common a k s c := by
  obtain ⟨ss, ask, ha, hb, hf⟩ := h
  refine ⟨ss + 1, c :: ask, ?_, forall_mem_cons.mpr ⟨hle, hb⟩, ?_⟩
  · rw [search, hg]
    simp [ha]
  · rw [mem_cons]
    rcases hk with rfl | rfl
    · exact hf.imp_right .inr
    · exact .inr hf

/-- Between a match and a mismatch. -/
theorem finds_binarySearch (hl : left ≤ common) (hr : common < r) (hst : r ≤ a) (hmax : a ≤ max) :
    Finds max common a left (.binarySearch left r) (left + (r - left) / 2) := by
  induction hgap : r - left using Nat.strong_induction_on generalizing left r with
  | _ gap ih =>
    subst hgap
    by_cases hlast : r = left + 1
    · refine .last ?_ (by omega) (by omega)
      simp only [handleAncestorSearchState]
      rw [if_pos (by omega)]
    generalize hmid : left + (r - left) / 2 = mid
    by_cases hm : mid ≤ common
    · have hs : handleAncestorSearchState max (.binarySearch left r) mid (mid ≤ common) =
          some (if mid + (r - mid) / 2 = mid then none
            else some (.binarySearch mid r, mid + (r - mid) / 2)) := by
        have hsub : checkedSub r mid = some _ := if_pos (by omega)
        have hadd : checkedAdd max mid ((r - mid) / 2) = some _ := if_pos (by omega)
        simp [handleAncestorSearchState, hm, hsub, hadd, show left < mid by omega,
          show mid ≤ r by omega]
      by_cases hdo : mid + (r - mid) / 2 = mid
      · rw [if_pos hdo] at hs
        exact .last hs (by omega) (by omega)
      · rw [if_neg hdo] at hs
        exact .next hs (by omega) (.inr rfl) (ih _ (by omega) hm hr hst rfl)
    · have hs : handleAncestorSearchState max (.binarySearch left r) mid (mid ≤ common) =
          some (some (.binarySearch left mid, left + (mid - left) / 2)) := by
        have hsub : checkedSub mid left = some _ := if_pos (by omega)
        have hadd : checkedAdd max left ((mid - left) / 2) = some _ := if_pos (by omega)
        simp [handleAncestorSearchState, hm, hsub, hadd, show left < mid by omega,
          show left ≤ mid by omega, show left + (mid - left) / 2 ≠ mid by omega]
      exact .next hs (by omega) (.inl rfl) (ih _ (by omega) hl (by omega) (by omega) rfl)

theorem backoff_mismatch (hmis : ¬ c ≤ common) (hmax : 2 * d ≤ max) :
    handleAncestorSearchState max (.exponentialBackoff d) c (c ≤ common) =
      some (some (.exponentialBackoff (2 * d), c - d)) := by
  have hadd : checkedAdd max d d = some (2 * d) := checkedAdd_eq_some.mpr (by omega)
  have hsub : (checkedSub c d).getD 0 = c - d := by
    unfold checkedSub
    split
    · rfl
    · exact (Nat.sub_eq_zero_of_le (by omega)).symm
  simp [handleAncestorSearchState, hmis, hadd, hsub]

/-- Going back from the tip. The last number that did not match is at most `d` away. -/
theorem finds_backoff (hdistance : 0 < d) (hmis : common < c + d)
    (hst : c + d ≤ a) (hmax : a < (max + 1) / 2) (hcurrent : c = 0 ∨ c + 2 * d = a + 1) :
    Finds max common a k (.exponentialBackoff (2 * d)) c := by
  induction hgap : c using Nat.strong_induction_on generalizing c d with
  | _ gap ih =>
    subst hgap
    by_cases hm : c ≤ common
    · have hs : handleAncestorSearchState max (.exponentialBackoff (2 * d)) c
          (c ≤ common) = some (some (.binarySearch c (c + d), c + (c + d - c) / 2)) := by
        have hr : checkedAdd max c d = some _ := if_pos (by omega)
        have hsub : checkedSub (c + d) c = some _ := if_pos (by omega)
        have hadd : checkedAdd max c (d / 2) = some _ := if_pos (by omega)
        simp [handleAncestorSearchState, hm, hr, hsub, hadd, show 2 * d ≠ 1 by omega]
      exact .next hs (by omega) (.inr rfl) (finds_binarySearch hm hmis hst (by omega))
    · have hs := backoff_mismatch hm (show 2 * (2 * d) ≤ max by omega)
      refine .next hs (by omega) (.inl rfl) (ih _ ?_ ?_ ?_ ?_ ?_ rfl) <;> omega

end

/-- The highest match is the highest common number, as far as the search starts. -/
theorem ancestor_search_finds (max common start : ℕ) (hstart : start < (max + 1) / 2) :
    ∃ steps asked, search max common steps (.exponentialBackoff 1) start = some asked ∧
      (∀ n ∈ asked, n ≤ start) ∧
      IsGreatest {n | n ∈ asked ∧ n ≤ common} (min common start) := by
  by_cases hm : start ≤ common
  · refine ⟨1, [start], ?_, by simp, by simp [IsGreatest, upperBounds, hm]⟩
    simp [search, handleAncestorSearchState, hm]
  have hs := backoff_mismatch hm (show 2 * 1 ≤ max by omega)
  have hr : Finds max common start start (.exponentialBackoff (2 * 1)) (start - 1) := by
    refine finds_backoff ?_ ?_ ?_ hstart ?_ <;> omega
  obtain ⟨steps, asked, ha, hb, hf⟩ := hr.next hs le_rfl (.inl rfl)
  refine ⟨steps, asked, ha, hb, ⟨?_, ?_⟩, ?_⟩
  · rw [min_eq_left (by omega)]
    exact hf.resolve_left (by omega)
  · exact min_le_left _ _
  · exact fun n hn => le_min hn.2 (hb n hn.1)

theorem ancestor_search_finds_third : ∃ steps asked,
    search 100 3 steps (.exponentialBackoff 1) 40 = some asked ∧ (∀ n ∈ asked, n ≤ 40) ∧
      IsGreatest {n | n ∈ asked ∧ n ≤ 3} (min 3 40) :=
  ancestor_search_finds 100 3 40 (by decide)

/-! ## The common number -/

variable {H : Type} [DecidableEq H]

structure AncestorSearch where
  start : ℕ
  current : ℕ
  state : AncestorSearchState

/-- What we know about a peer. Without a search it is available. -/
structure PeerSync where
  /-- A common point of ancestry for both our chains. -/
  commonNumber : ℕ
  bestNumber : ℕ
  search : Option AncestorSearch

/-- Why a peer is disconnected. -/
inductive BadPeer where
  | unknownAncestor
  | blockchainReadError
  | genesisMismatch

/-- The common number after an answer. -/
def commonAfter (bestQueuedNumber : ℕ) (peer : PeerSync) (search : AncestorSearch)
    (matching : Bool) : ℕ :=
  if matching then
    if search.start < bestQueuedNumber ∧ bestQueuedNumber ≤ peer.bestNumber then bestQueuedNumber
    else max peer.commonNumber search.current
  else peer.commonNumber

/-- An answer in an ancestor search. When it is complete, the best block of the peer may become a
fork target. -/
def onBlockData (max bestQueuedNumber : ℕ) (block : Option H) (ourHash : Except Unit (Option H))
    (peer : PeerSync) (search : AncestorSearch) : Option (Except BadPeer (PeerSync × Bool)) :=
  match block, ourHash with
  | none, _ => some (.error .unknownAncestor)
  | some _, .error _ => some (.error .blockchainReadError)
  | some hash, .ok maybeOurBlockHash => do
    let matching := decide (maybeOurBlockHash = some hash)
    if !matching && search.current = 0 then return .error .genesisMismatch
    let peer := { peer with commonNumber := commonAfter bestQueuedNumber peer search matching }
    match ← handleAncestorSearchState max search.state search.current matching with
    | some (state, number) =>
      return .ok ({ peer with search := some ⟨search.start, number, state⟩ }, false)
    | none =>
      return .ok ({ peer with search := none },
        peer.commonNumber < peer.bestNumber ∧ peer.bestNumber < bestQueuedNumber)

theorem onBlockData_common {max best : ℕ} {b : Option H} {ours : Except Unit (Option H)}
    {peer p' : PeerSync} {s : AncestorSearch} {fork : Bool}
    (hok : onBlockData max best b ours peer s = some (.ok (p', fork))) :
    ∃ hash our, b = some hash ∧ ours = .ok our ∧
      p'.commonNumber = commonAfter best peer s (our = some hash) := by
  unfold onBlockData at hok
  split at hok
  · cases hok
  · cases hok
  · refine ⟨_, _, rfl, rfl, ?_⟩
    dsimp only at hok
    split at hok
    · cases hok
    obtain ⟨next, -, hn⟩ := Option.bind_eq_some_iff.mp hok
    split at hn
    · cases hn
      rfl
    · cases hn
      rfl

/-- Our chain and that of a peer, by the hashes of their blocks. The blocks that we have queued are
imported in order. -/
structure Ancestry (H : Type) where
  ours : List H
  imported : ℕ
  theirs : List H
  /-- Until it is disconnected. -/
  peer : Option PeerSync

inductive AncestryEvent (H : Type) where
  | queue (hash : H)
  | importBlock
  /-- The peer answers truthfully, and our client can be read or not. -/
  | answer (readable : Bool)

namespace Ancestry

def bestQueuedNumber (w : Ancestry H) : ℕ := w.ours.length - 1

def ourHash (w : Ancestry H) (number : ℕ) : Option H := (w.ours.take w.imported)[number]?

def step (max : ℕ) (w : Ancestry H) : AncestryEvent H → Ancestry H
  | .queue hash => { w with ours := w.ours ++ [hash] }
  | .importBlock => { w with imported := w.imported + 1 }
  | .answer readable =>
    { w with peer := do
        let peer ← w.peer
        match peer.search with
        | none => return peer
        | some search =>
          match ← onBlockData max w.bestQueuedNumber w.theirs[search.current]?
            (if readable then .ok (w.ourHash search.current) else .error ()) peer search with
          | .ok (peer, _) => return peer
          | .error _ => failure }

/-- The chains agree at a number. -/
def Agree (w : Ancestry H) (number : ℕ) : Prop :=
  ∃ hash, w.ours[number]? = some hash ∧ w.theirs[number]? = some hash

/-- The common number is not above the highest number at which the chains agree. -/
def Sound (w : Ancestry H) : Prop :=
  ∀ peer ∈ w.peer, ∃ number, w.Agree number ∧ peer.commonNumber ≤ number

/-- Where a match moves the common number to our best queued block, the peer has that block. An
answer that we cannot compare with our chain moves nothing. -/
def Grounded (w : Ancestry H) : AncestryEvent H → Prop
  | .answer readable => readable = true →
      ∀ peer search hash, w.peer = some peer → peer.search = some search →
      w.theirs[search.current]? = some hash → w.ourHash search.current = some hash →
      search.start < w.bestQueuedNumber → w.bestQueuedNumber ≤ peer.bestNumber →
      w.Agree w.bestQueuedNumber
  | _ => True

variable {w : Ancestry H} {max : ℕ} {e : AncestryEvent H}

theorem Sound.answer {peer p' : PeerSync} {s : AncestorSearch} {r : Bool}
    (h : w.Sound) (hgr : w.Grounded (.answer r)) (hp : w.peer = some peer)
    (hs : peer.search = some s) {fork : Bool}
    (hok : onBlockData max w.bestQueuedNumber w.theirs[s.current]?
      (if r then .ok (w.ourHash s.current) else .error ()) peer s =
        some (.ok (p', fork))) : ∃ n, w.Agree n ∧ p'.commonNumber ≤ n := by
  obtain ⟨hash, our, ht, hr, hc⟩ := onBlockData_common hok
  rw [hc]
  unfold commonAfter
  split
  · rename_i hm
    obtain ⟨hreadable, ho⟩ : r = true ∧ w.ourHash s.current = some hash := by
      split at hr
      next hreadable =>
        cases hr
        exact ⟨hreadable, of_decide_eq_true hm⟩
      next => cases hr
    split
    · rename_i hb
      exact ⟨_, hgr hreadable peer s hash hp hs ht ho hb.1 hb.2, le_rfl⟩
    -- Our own chain has the block, as imported blocks have been queued.
    have ha : w.Agree s.current := by
      rw [ourHash, getElem?_take] at ho
      split at ho
      · exact ⟨hash, ho, ht⟩
      · cases ho
    rcases le_total peer.commonNumber s.current with hle | hle
    · exact ⟨_, ha, (max_eq_right hle).le⟩
    · rw [max_eq_left hle]
      exact h peer hp
  · exact h peer hp

theorem Sound.step (h : w.Sound) (hgr : w.Grounded e) : (w.step max e).Sound := by
  cases e with
  | queue hash =>
    intro peer hp
    obtain ⟨n, ⟨hash', ho, ht⟩, hle⟩ := h peer hp
    have hlt := (List.getElem?_eq_some_iff.mp ho).1
    exact ⟨n, ⟨hash', (getElem?_append_left hlt).trans ho, ht⟩, hle⟩
  | importBlock => exact h
  | answer readable =>
    intro peer' hp'
    obtain ⟨peer, hp, hr⟩ := Option.bind_eq_some_iff.mp hp'
    split at hr
    · cases hr
      exact h _ hp
    · obtain ⟨out, hout, hdo⟩ := Option.bind_eq_some_iff.mp hr
      split at hdo
      · cases hdo
        exact h.answer hgr hp ‹_› hout
      · cases hdo

/-- If our best queued block is on the chain of the peer whenever it is taken for the common one,
the common number is never too high. -/
theorem common_number_not_overestimated (max : ℕ) (w : Ancestry H) (es : List (AncestryEvent H))
    (h : w.Sound) (hgr : Run.Each (step max) Grounded w es) : Run.Always (step max) Sound w es :=
  hgr.always (fun _ _ h hgr => h.step hgr) h

theorem common_number_not_overestimated_grown :
    Run.Always (step 100) Sound
      ⟨[0, 1], 2, [0, 1, 2, 3], some ⟨0, 3, some ⟨1, 1, .exponentialBackoff 1⟩⟩⟩
      [.queue 2, .answer true, .importBlock, .answer false] := by
  refine common_number_not_overestimated 100 _ _ ?_ ?_
  · rintro _ ⟨⟩
    exact ⟨0, ⟨0, rfl, rfl⟩, le_rfl⟩
  · exact Run.each_cons.mpr ⟨trivial, Run.each_cons.mpr
      ⟨fun _ _ _ _ _ _ _ _ _ _ => ⟨2, rfl, rfl⟩, Run.each_cons.mpr ⟨trivial,
        Run.each_cons.mpr ⟨nofun, Run.each_nil⟩⟩⟩⟩

/-- A search that starts at the first block, where the peer is on another fork. -/
def forked : Ancestry ℕ :=
  ⟨[0, 1], 2, [0, 11, 12, 13], some ⟨0, 3, some ⟨1, 1, .exponentialBackoff 1⟩⟩⟩

/-- We extend our own fork while the genesis block is asked for. -/
theorem not_common_number_overestimated :
    let w := Run.exec (step 100) forked [.answer true, .queue 2, .answer true, .answer true]
    forked.Sound ∧ w.peer = some ⟨2, 3, none⟩ ∧ ¬ w.Sound := by
  refine ⟨?_, rfl, fun h => ?_⟩
  · rintro _ ⟨⟩
    exact ⟨0, ⟨0, rfl, rfl⟩, le_rfl⟩
  · obtain ⟨n, ⟨hash, ho, ht⟩, hle⟩ := h _ rfl
    have hlt : n < 3 := (List.getElem?_eq_some_iff.mp ho).1
    obtain rfl : n = 2 := le_antisymm (Nat.le_of_lt_succ hlt) hle
    cases ho
    cases ht

end Ancestry

end Sync
