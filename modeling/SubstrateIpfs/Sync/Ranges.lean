-- SUMMARY: Download ranges stay disjoint while none is cropped for others or answered too late.
import SubstrateIpfs.Base.Run
import SubstrateIpfs.Sync.Blocks

/-!
# Download ranges

Requests are answered with all blocks of the requested range. The stored ranges do not
overlap, what is ready is one chain, and no number is handed out again before it is cleared,
as long as three things do not happen: a range that another peer downloads is cropped, blocks
are inserted over a range that is queued, and a range is asked for while a peer is still to
answer for one that is not stored any more.
-/

namespace Sync

open List Option FinMap OrderedMap Run BlockCollection BlockRangeState

variable {P H B : Type} {start stop : ℕ} {who : P} {queued : FinMap H (ℕ × ℕ)}
  {c' : BlockCollection P H B} {range : Option (ℕ × ℕ)} {peerBest maxAhead common : ℕ}
  {q' : FinMap H (ℕ × ℕ)} {ready blocks : List (BlockData P B)}

/-! ## Stored ranges -/

abbrev Entry (P B : Type) := ℕ × BlockRangeState P B

/-- The number is in the stored range. -/
def Covers (e : Entry P B) (n : ℕ) : Prop := e.1 ≤ n ∧ n < e.1 + e.2.len

/-- The first range ends before the second one starts. -/
def Before (e e' : Entry P B) : Prop := e.1 + e.2.len ≤ e'.1

/-- The range from `start` to `stop` has no number of the stored range. -/
def Clear (start stop : ℕ) (e : Entry P B) : Prop := e.1 + e.2.len ≤ start ∨ stop ≤ e.1

def BlockRangeState.isQueued : BlockRangeState P B → Bool
  | .queued _ => true
  | _ => false

/-- The numbers of the blocks that are handed out. -/
def numbers (number : B → ℕ) (blocks : List (BlockData P B)) : List ℕ :=
  blocks.map fun data => number data.block

variable {e : Entry P B} {es' : List (Entry P B)}

namespace BlockCollection

/-- No stored range overlaps a later one. -/
def Apart (c : BlockCollection P H B) : Prop :=
  ∀ e ∈ c.blocks.entries, ∀ e' ∈ c.blocks.entries, e.1 < e'.1 → Before e e'

/-- The stored ranges are apart and hold what they should. -/
structure Tidy (number : B → ℕ) (c : BlockCollection P H B) : Prop where
  size : ∀ e ∈ c.blocks.entries, 0 < e.2.len ∧ e.2.len < 2 ^ 32
  before : ∀ e ∈ c.blocks.entries, ∀ e' ∈ c.blocks.entries, e.1 < e'.1 → Before e e'
  numbered : ∀ start blocks, (start, .complete blocks) ∈ c.blocks.entries →
    blocks.length < 2 ^ 32 ∧ numbers number blocks = List.range' start blocks.length

variable {num : B → ℕ} {c : BlockCollection P H B}

theorem Tidy.apart (h : c.Tidy num) : c.Apart := h.before

theorem Apart.pairwise (h : c.Apart) : c.blocks.entries.Pairwise Before :=
  c.blocks.sorted.imp_of_mem fun he he' hlt => h _ he _ he' hlt

/-- A range in the place of one with the same start, or among numbers that are not stored. -/
theorem Tidy.insert (h : c.Tidy num) {r : BlockRangeState P B} (hlt : start < stop)
    (hsize : stop - start < 2 ^ 32) (hlen : r.len = stop - start)
    (hclr : ∀ e ∈ c.blocks.entries, e.1 ≠ start → Clear start stop e)
    (hnum : ∀ blocks, r = .complete blocks →
      blocks.length < 2 ^ 32 ∧ numbers num blocks = range' start blocks.length) :
    { c with blocks := c.blocks.insert start r }.Tidy num where
  size e he := by
    rcases mem_insert.mp he with rfl | ⟨he, -⟩
    · rw [hlen]
      omega
    · exact h.size e he
  before e he e' he' hlt' := by
    have hlen' : start + r.len = stop := by omega
    rcases mem_insert.mp he with rfl | ⟨he, hne⟩
    · rcases mem_insert.mp he' with rfl | ⟨he', hne'⟩
      · exact absurd hlt' (lt_irrefl _)
      · rcases hclr e' he' hne' with hle | hle
        · omega
        · exact hlen'.le.trans hle
    · rcases mem_insert.mp he' with rfl | ⟨he', -⟩
      · rcases hclr e he hne with hle | hle
        · exact hle
        · omega
      · exact h.before e he e' he' hlt'
  numbered start' blocks hmem := by
    rcases mem_insert.mp hmem with heq | ⟨hmem, -⟩
    · obtain ⟨rfl, heq⟩ := Prod.ext_iff.mp heq
      exact hnum blocks heq.symm
    · exact h.numbered start' blocks hmem

/-- Some ranges are left. -/
theorem Tidy.subset (h : c.Tidy num) (hsub : ∀ e ∈ c'.blocks.entries, e ∈ c.blocks.entries) :
    c'.Tidy num where
  size e he := h.size e (hsub e he)
  before e he e' he' := h.before e (hsub e he) e' (hsub e' he')
  numbered start blocks hmem := h.numbered start blocks (hsub _ hmem)

/-- Two stored ranges with different starts. -/
theorem Apart.clear_of_ne (h : c.Apart) {e' : Entry P B} (he : e ∈ c.blocks.entries)
    (he' : e' ∈ c.blocks.entries) (hne : e'.1 ≠ e.1) : Clear e.1 (e.1 + e.2.len) e' := by
  rcases lt_or_gt_of_ne hne with hlt | hlt
  · exact .inl (h e' he' e he hlt)
  · exact .inr (h e he e' he' hlt)

/-! ## Finding a range -/

/-- What is found: a range that has room for one more peer, or numbers that are not stored. -/
inductive Finds (count maxParallel : ℕ) (entries : List (Entry P B)) : Candidate → Prop where
  | parallel {start len downloading : ℕ}
      (hmem : (start, .downloading len downloading) ∈ entries) (hlt : downloading < maxParallel) :
      Finds count maxParallel entries ⟨start, start + len, downloading⟩
  | fresh {start stop : ℕ} (hstop : stop ≤ start + count)
      (hclear : ∀ e ∈ entries, Clear start stop e) :
      Finds count maxParallel entries ⟨start, stop, 0⟩

variable {count maxParallel prev : ℕ} {es r : List (Entry P B)} {p : Entry P B} {cand : Candidate}

theorem finds_of_parallel
    (h : parallel maxParallel p = some cand) (count : ℕ) (rest : List (Entry P B)) :
    Finds count maxParallel (p :: rest) cand ∧ p.1 ≤ cand.start := by
  obtain ⟨start, range⟩ := p
  cases range with
  | downloading len downloading =>
    obtain ⟨hlt, heq⟩ := ite_none_right_eq_some.mp h
    cases heq
    exact ⟨.parallel mem_cons_self hlt, le_rfl⟩
  | complete | queued => cases h

theorem Finds.cons (h : Finds count maxParallel r cand) (hbef : p.1 + p.2.len ≤ cand.start) :
    Finds count maxParallel (p :: r) cand := by
  cases h with
  | parallel hmem hlt => exact .parallel (mem_cons_of_mem _ hmem) hlt
  | fresh hs hclr =>
    exact .fresh hs (forall_mem_cons.mpr ⟨.inl hbef, hclr⟩)

theorem finds_findAfter (h : (p :: r).Pairwise Before) :
    Finds count maxParallel (p :: r) (findAfter count maxParallel p r) ∧
      p.1 ≤ (findAfter count maxParallel p r).start := by
  induction r generalizing p with
  | nil =>
    rw [findAfter]
    cases hpar : parallel maxParallel p with
    | none =>
      refine ⟨.fresh le_rfl ?_, Nat.le_add_right _ _⟩
      exact forall_mem_singleton.mpr (.inl le_rfl)
    | some cand => exact finds_of_parallel hpar count []
  | cons next r ih =>
    obtain ⟨hp, hr⟩ := pairwise_cons.mp h
    rw [findAfter]
    cases hpar : parallel maxParallel p with
    | some cand => exact finds_of_parallel hpar count (next :: r)
    | none =>
      dsimp only
      split
      · refine ⟨.fresh (min_le_right _ _) ?_, Nat.le_add_right _ _⟩
        refine forall_mem_cons.mpr ⟨.inl le_rfl, forall_mem_cons.mpr ⟨.inr ?_, ?_⟩⟩
        · exact min_le_left _ _
        · intro e he
          have hle : next.1 + next.2.len ≤ e.1 := (pairwise_cons.mp hr).1 e he
          exact .inr ((min_le_left _ _).trans (by omega))
      · obtain ⟨hf, hst⟩ := ih hr
        have hbef : p.1 + p.2.len ≤ next.1 := hp next mem_cons_self
        exact ⟨hf.cons (hbef.trans hst), by omega⟩

theorem finds_find {first : ℕ} (h : es.Pairwise Before)
    (hf : find first count maxParallel es = cand) :
    Finds count maxParallel es cand := by
  subst hf
  cases es with
  | nil => exact .fresh le_rfl (forall_mem_nil _)
  | cons a r =>
    rw [find]
    split
    · refine .fresh (min_le_left _ _) (forall_mem_cons.mpr ⟨.inr ?_, fun e he => .inr ?_⟩)
      · exact min_le_right _ _
      · have hle : a.1 + a.2.len ≤ e.1 := (pairwise_cons.mp h).1 e he
        exact (min_le_right _ _).trans (by omega)
    · exact (finds_findAfter h).1

/-- A call finds no range, or marks one that it crops to the best number of the peer. -/
theorem neededBlocks_cases [DecidableEq P]
    (hc : c.neededBlocks who count peerBest common maxParallel maxAhead = some (range, c')) :
    range = none ∧ c' = c ∨ ∃ cand,
      find (common + 1) (asU32 count) maxParallel c.blocks.entries = cand ∧
      ∃ stop, stop = min (peerBest + 1) cand.stop ∧ cand.start < stop ∧
      range = some (cand.start, stop) ∧
      c' = { c with
        peerRequests := c.peerRequests.insert who cand.start
        blocks := c.blocks.insert cand.start
          (.downloading (stop - cand.start) (cand.downloading + 1)) } := by
  unfold neededBlocks at hc
  split at hc
  · cases hc
    exact .inl ⟨rfl, rfl⟩
  dsimp only at hc
  split at hc
  · cases hc
    exact .inl ⟨rfl, rfl⟩
  split at hc
  · cases hc
    exact .inl ⟨rfl, rfl⟩
  split at hc
  · cases hc
  next hlt =>
    cases hc
    exact .inr ⟨_, rfl, _, rfl, not_le.mp hlt, rfl, rfl⟩

/-! ## What is ready -/

section
variable [DecidableEq H] [WireBlock B H]

/-- No two hashes stand for ranges with the same start. -/
def Unique (queued : FinMap H (ℕ × ℕ)) : Prop :=
  ∀ hash hash' start stop stop', queued.get? hash = some (start, stop) →
    queued.get? hash' = some (start, stop') → hash = hash'

section
omit [WireBlock B H]

theorem Unique.insert (h : Unique queued) (hnew : ∀ hash s, queued.get? hash ≠ some (start, s))
    (hash0 : H) (s : ℕ) : Unique (queued.insert hash0 (start, s)) := by
  intro hash hash' a' s' stop2 hget hg'
  rcases of_get?_insert hget with ⟨rfl, heq⟩ | ⟨-, hget⟩
  · cases heq
    rcases of_get?_insert hg' with ⟨rfl, -⟩ | ⟨-, hg'⟩
    · rfl
    · exact absurd hg' (hnew hash' stop2)
  · rcases of_get?_insert hg' with ⟨-, heq⟩ | ⟨-, hg'⟩
    · cases heq
      exact absurd hget (hnew hash s')
    · exact h hash hash' a' s' stop2 hget hg'

theorem Unique.erase (h : Unique queued) (hash0 : H) : Unique (queued.erase hash0) := by
  intro hash hash' start stop s' hget hg'
  exact h hash hash' start stop s' (of_get?_erase hget).2 (of_get?_erase hg').2

end

/-- What the loop leaves of the ranges and hands out. -/
structure Readies (number : B → ℕ) (prev : ℕ) (entries : List (Entry P B))
    (queued : FinMap H (ℕ × ℕ)) (entries' : List (Entry P B)) (queued' : FinMap H (ℕ × ℕ))
    (ready : List (BlockData P B)) : Prop where
  kept : ∀ e' ∈ entries', e' ∈ entries ∨ ∃ blocks, (e'.1, .complete blocks) ∈ entries ∧
    e'.2 = .queued (asU32 blocks.length)
  others : ∀ e ∈ entries, (∀ blocks, e.2 ≠ .complete blocks) → e ∈ entries'
  chain : ∃ first len, numbers number ready = List.range' first len ∧ (len ≠ 0 → first ≤ prev)
  handed : ∀ n ∈ numbers number ready, ∃ start blocks, (start, .complete blocks) ∈ entries ∧
    (start, .queued (asU32 blocks.length)) ∈ entries' ∧ start ≤ n ∧ n < start + asU32 blocks.length
  noted : ∀ hash start stop, queued'.get? hash = some (start, stop) →
    queued.get? hash = some (start, stop) ∨
      start < stop ∧ ∃ blocks, (start, .complete blocks) ∈ entries ∧
        (start, .queued (stop - start)) ∈ entries'
  unique : Unique queued → (∀ hash start stop blocks, queued.get? hash = some (start, stop) →
    (start, .complete blocks) ∉ entries) → Unique queued'

section
omit [WireBlock B H]

theorem Readies.unchanged : Readies num prev es queued es queued [] where
  kept _ he := .inl he
  others _ he _ := he
  chain := ⟨prev, 0, rfl, absurd rfl⟩
  handed _ hn := absurd hn not_mem_nil
  noted _ _ _ h := .inl h
  unique h _ := h

/-- A range is passed. -/
theorem Readies.pass {f : Entry P B} (h : Readies num prev es queued es' q' ready)
    (hk : f = e ∨ ∃ blocks, e = (f.1, .complete blocks) ∧ f.2 = .queued (asU32 blocks.length)) :
    Readies num prev (e :: es) queued (f :: es') q' ready where
  kept := by
    refine forall_mem_cons.mpr ⟨?_, fun e' he' => ?_⟩
    · rcases hk with rfl | ⟨blocks, rfl, heq⟩
      · exact .inl mem_cons_self
      · exact .inr ⟨blocks, mem_cons_self, heq⟩
    rcases h.kept e' he' with he | ⟨blocks, hmem, heq⟩
    · exact .inl (mem_cons_of_mem _ he)
    · exact .inr ⟨blocks, mem_cons_of_mem _ hmem, heq⟩
  others := by
    refine forall_mem_cons.mpr
      ⟨fun hne => ?_, fun e he hne => mem_cons_of_mem _ (h.others e he hne)⟩
    rcases hk with rfl | ⟨blocks, rfl, -⟩
    · exact mem_cons_self
    · exact absurd rfl (hne blocks)
  chain := h.chain
  handed n hn := by
    obtain ⟨start, blocks, hmem, hm', hn⟩ := h.handed n hn
    exact ⟨start, blocks, mem_cons_of_mem _ hmem, mem_cons_of_mem _ hm', hn⟩
  noted hash start stop hqd := by
    rcases h.noted hash start stop hqd with hold | ⟨hlt, blocks, hmem, hm'⟩
    · exact .inl hold
    · exact .inr ⟨hlt, blocks, mem_cons_of_mem _ hmem, mem_cons_of_mem _ hm'⟩
  unique huniq hnew := h.unique huniq fun hash start stop blocks hqd hmem =>
    hnew hash start stop blocks hqd (mem_cons_of_mem _ hmem)

/-- A complete range is handed out. -/
theorem Readies.take (hash0 : H) (h : Readies num (start + asU32 blocks.length) es
      (queued.insert hash0 (start, start + asU32 blocks.length)) es' q' ready)
    (hbef : ∀ e ∈ es, Before (start, .complete blocks) e) (hst : start ≤ prev)
    (hlen : blocks.length < 2 ^ 32) (hpos : 0 < blocks.length)
    (hnu : numbers num blocks = range' start blocks.length) :
    Readies num prev ((start, .complete blocks) :: es) queued
      ((start, .queued (asU32 blocks.length)) :: es') q' (blocks ++ ready) := by
  have ha32 : asU32 blocks.length = blocks.length := Nat.mod_eq_of_lt hlen
  rw [ha32] at h
  have hbef : ∀ e ∈ es, start + blocks.length ≤ e.1 := by
    intro e he
    have hle := hbef e he
    rwa [Before, len, ha32] at hle
  have hall := h.pass (f := (start, .queued (asU32 blocks.length))) (.inr ⟨blocks, rfl, rfl⟩)
  refine { hall with chain := ?chain, handed := ?handed, noted := ?noted, unique := ?unique }
  case chain =>
    obtain ⟨a, len, hrdy, hfst⟩ := h.chain
    refine ⟨start, blocks.length + len, ?_, fun _ => hst⟩
    rw [numbers, map_append, ← numbers, ← numbers, hnu, hrdy]
    cases len with
    | zero => simp
    | succ len =>
      -- the numbers that follow are those of later ranges, and start by the end of this one
      have hmem : a ∈ numbers num ready := by
        rw [hrdy]
        simp
      obtain ⟨a', bs', hm', -, hle, -⟩ := h.handed a hmem
      have hge : start + blocks.length ≤ a' := hbef _ hm'
      have heq : a = start + blocks.length :=
        le_antisymm (hfst (Nat.succ_ne_zero len)) (hge.trans hle)
      rw [heq]
      exact range'_append_1
  case handed =>
    intro n hn
    rw [numbers, map_append, mem_append, ← numbers] at hn
    rcases hn with hn | hn
    · rw [hnu, mem_range'_1] at hn
      exact ⟨start, blocks, mem_cons_self, mem_cons_self, hn.1, by rw [ha32]; exact hn.2⟩
    · exact hall.handed n hn
  case noted =>
    intro hash a' stop hqd
    rcases hall.noted hash a' stop hqd with hold | hnew
    · rcases of_get?_insert hold with ⟨-, heq⟩ | ⟨-, hold⟩
      · cases heq
        refine .inr ⟨by omega, blocks, mem_cons_self, ?_⟩
        rw [Nat.add_sub_cancel_left, ha32]
        exact mem_cons_self
      · exact .inl hold
    · exact .inr hnew
  case unique =>
    intro hu hnew
    have hnot hash stop hget : False := hnew hash start stop blocks hget mem_cons_self
    refine h.unique (hu.insert hnot _ _) ?_
    intro hash a' stop bs' hget hmem
    rcases of_get?_insert hget with ⟨-, heq⟩ | ⟨-, hget⟩
    · cases heq
      have hge := hbef _ hmem
      omega
    · exact hnew hash a' stop bs' hget (mem_cons_of_mem _ hmem)

end

theorem readies_readyLoop (hbef : es.Pairwise Before)
    (hsize : ∀ e ∈ es, 0 < e.2.len ∧ e.2.len < 2 ^ 32)
    (hnum : ∀ start blocks, (start, .complete blocks) ∈ es →
      blocks.length < 2 ^ 32 ∧ numbers num blocks = range' start blocks.length) :
    Readies num prev es queued (readyLoop prev es queued).1
      (readyLoop prev es queued).2.1 (readyLoop prev es queued).2.2 := by
  induction es generalizing prev queued with
  | nil => exact .unchanged
  | cons e es ih =>
    obtain ⟨start, range⟩ := e
    obtain ⟨hfst, hrest⟩ := pairwise_cons.mp hbef
    have hnum' : ∀ start blocks, (start, .complete blocks) ∈ es →
        blocks.length < 2 ^ 32 ∧ numbers num blocks = range' start blocks.length :=
      fun start blocks hmem => hnum start blocks (mem_cons_of_mem _ hmem)
    have hsize' := fun e he => hsize e (mem_cons_of_mem _ he)
    cases range with
    | downloading => exact .unchanged
    | queued len =>
      rw [readyLoop]
      split
      · exact .unchanged
      · exact (ih hrest hsize' hnum').pass (.inl rfl)
    | complete blocks =>
      rw [readyLoop]
      split
      · exact .unchanged
      rename_i hle
      obtain ⟨hlen, hn⟩ := hnum start blocks mem_cons_self
      have ha32 : asU32 blocks.length = blocks.length := Nat.mod_eq_of_lt hlen
      have hp : 0 < blocks.length := by
        have hpos := (hsize _ mem_cons_self).1
        rwa [len, ha32] at hpos
      obtain ⟨a, r, rfl⟩ := exists_cons_of_length_pos hp
      exact Readies.take (WireBlock.hash a.block) (ih hrest hsize' hnum') hfst
        (not_lt.mp hle) hlen hp hn

end

end BlockCollection

/-! ## Downloads -/

/-- The calls on a collection. -/
inductive Call (P H B : Type) where
  | neededBlocks (who : P) (count peerBest common maxParallel maxAhead : ℕ)
  | insert (start : ℕ) (blocks : List B) (who : P)
  | clearPeerDownload (who : P)
  | readyBlocks (fromNumber : ℕ)
  | clearQueued (hash : H)

/-- The collection, with the outstanding request of each peer, the request that the call before
ended, and the numbers that were handed out and not cleared yet. -/
structure Download (P H B : Type) where
  collection : BlockCollection P H B
  outstanding : FinMap P (ℕ × ℕ)
  returning : Option (P × ℕ × ℕ)
  returned : List ℕ

namespace Download

def new : Download P H B := ⟨.new, .empty, none, []⟩

/-- The stored ranges are disjoint. Whatever is ready are blocks with consecutive numbers that start
at or below the given one, and none of them was handed out and not cleared. -/
structure Good [DecidableEq H] [WireBlock B H] (number : B → ℕ) (d : Download P H B) : Prop where
  disjoint : d.collection.blocks.entries.Pairwise fun e e' => ∀ n, ¬ (Covers e n ∧ Covers e' n)
  consecutive : ∀ fromNumber, ∃ first len,
    numbers number (d.collection.readyBlocks fromNumber).1 = List.range' first len ∧
      (len ≠ 0 → first ≤ fromNumber)
  once : ∀ fromNumber, ∀ n ∈ numbers number (d.collection.readyBlocks fromNumber).1, n ∉ d.returned

section
variable [DecidableEq P] [DecidableEq H] [WireBlock B H] (number : B → ℕ)

/-- The requests that are outstanding after one more was asked for. -/
def noteRequest (outstanding : FinMap P (ℕ × ℕ)) (who : P) : Option (ℕ × ℕ) → FinMap P (ℕ × ℕ)
  | some range => outstanding.insert who range
  | none => outstanding

variable (d : Download P H B)

def call : Call P H B → Option (Download P H B)
  | .neededBlocks who count peerBest common maxParallel maxAhead => do
    let (range, collection) ←
      d.collection.neededBlocks who count peerBest common maxParallel maxAhead
    return ⟨collection, noteRequest d.outstanding who range, none, d.returned⟩
  | .insert start blocks who =>
    some ⟨d.collection.insert start blocks who, d.outstanding.erase who, none, d.returned⟩
  | .clearPeerDownload who =>
    some ⟨d.collection.clearPeerDownload who, d.outstanding.erase who,
      (d.outstanding.get? who).map fun range => (who, range), d.returned⟩
  | .readyBlocks fromNumber =>
    let (ready, collection) := d.collection.readyBlocks fromNumber
    some ⟨collection, d.outstanding, none, d.returned ++ numbers number ready⟩
  | .clearQueued hash =>
    let returned := match d.collection.queuedBlocks.get? hash with
      | some (start, stop) => d.returned.filter fun n => ¬ (start ≤ n ∧ n < stop)
      | none => d.returned
    some ⟨d.collection.clearQueued hash, d.outstanding, none, returned⟩

def step (d : Option (Download P H B)) (e : Call P H B) : Option (Download P H B) :=
  d.bind fun d => d.call number e

section
omit [DecidableEq H] [WireBlock B H]

/-- The requests that the peer may answer: the outstanding one, and the one that was ended by the
call before. -/
def requests (who : P) : List (ℕ × ℕ) :=
  (d.outstanding.get? who).toList ++ (d.returning.filter (·.1 = who)).toList.map Prod.snd

/-- Blocks are inserted in answer to a request of the peer, with all blocks of the range. -/
def Answers : Call P H B → Prop
  | .insert start blocks who => ∃ range ∈ d.requests who,
      range.1 = start ∧ blocks.map number = List.range' start (range.2 - start)
  | _ => True

/-- A peer is asked again after its request has ended, and a request is ended before its blocks are
inserted. A range that another peer downloads is not cropped for the one that is asked, every range
that was asked for is still stored then, and no blocks replace a range that is queued. -/
def Orderly : Call P H B → Prop
  | .neededBlocks who _ peerBest _ maxParallel _ =>
    d.outstanding.get? who = none ∧
      (∀ e ∈ d.collection.blocks.entries, ∀ cand ∈ parallel maxParallel e,
        peerBest < cand.start ∨ cand.stop ≤ peerBest + 1) ∧
      ∀ range ∈ d.outstanding.values, (d.collection.blocks.get? range.1).isSome
  | .insert start _ who => d.outstanding.get? who = none ∧
      ∀ r ∈ d.collection.blocks.get? start, r.isQueued = false
  | _ => True

end

end

/-! ## Orderly calls -/

/-- Every stored range is this one, or apart from it. -/
def Placed (start stop : ℕ) (entries : List (Entry P B)) : Prop :=
  ∀ e ∈ entries, e.1 = start ∧ e.2.len = stop - start ∨ Clear start stop e

/-- A peer is to answer for the range, or may do so next. -/
def Pending [DecidableEq P] (d : Download P H B) (start stop : ℕ) : Prop :=
  (∃ who, d.outstanding.get? who = some (start, stop)) ∨
    ∃ who, d.returning = some (who, start, stop)

/-- Two requests are for the same range or for ranges that are apart. What was handed out is
queued. -/
structure Sound [DecidableEq P] [DecidableEq H] (number : B → ℕ) (d : Download P H B) : Prop where
  tidy : d.collection.Tidy number
  queued : ∀ hash start stop, d.collection.queuedBlocks.get? hash = some (start, stop) →
    start < stop ∧ (start, .queued (stop - start)) ∈ d.collection.blocks.entries
  unique : BlockCollection.Unique d.collection.queuedBlocks
  returned : ∀ n ∈ d.returned, ∃ start len,
    (start, .queued len) ∈ d.collection.blocks.entries ∧ start ≤ n ∧ n < start + len
  requested : ∀ who, d.collection.peerRequests.get? who = (d.outstanding.get? who).map Prod.fst
  pending : ∀ start stop, d.Pending start stop →
    start < stop ∧ stop - start < 2 ^ 32 ∧ Placed start stop d.collection.blocks.entries
  separate : ∀ start stop start' stop', d.Pending start stop → d.Pending start' stop' →
    start = start' ∧ stop = stop' ∨ stop ≤ start' ∨ stop' ≤ start

/-- A range is stored that is the same or apart. -/
theorem Placed.insert {bs : OrderedMap ℕ (BlockRangeState P B)} {a s : ℕ}
    (h : Placed start stop bs.entries) {r : BlockRangeState P B} (hlt : a < s)
    (hlen : r.len = s - a) (hsep : start = a ∧ stop = s ∨ stop ≤ a ∨ s ≤ start) :
    Placed start stop (bs.insert a r).entries := by
  intro e he
  rcases mem_insert.mp he with rfl | ⟨he, -⟩
  · rcases hsep with ⟨rfl, rfl⟩ | hle | hle
    · exact .inl ⟨rfl, hlen⟩
    · exact .inr (.inr hle)
    · refine .inr (.inl ?_)
      dsimp only
      omega
  · exact h e he

section
variable [DecidableEq P] [DecidableEq H] {number : B → ℕ} {d d' : Download P H B}

theorem sound_new : (new : Download P H B).Sound number where
  tidy := ⟨by simp [new, BlockCollection.new, OrderedMap.empty],
    by simp [new, BlockCollection.new, OrderedMap.empty],
    by simp [new, BlockCollection.new, OrderedMap.empty]⟩
  queued := by simp [new, BlockCollection.new]
  unique := by simp [new, BlockCollection.new, BlockCollection.Unique]
  returned := forall_mem_nil _
  requested := by simp [new, BlockCollection.new]
  pending := by simp [new, Pending]
  separate := by simp [new, Pending]

namespace Sound

section
variable (h : d.Sound number)

include h

/-- Other ranges are stored, with those that are queued among them, and no other requests are left
to be answered. -/
theorem of_pending (ht : d'.collection.Tidy number)
    (hqb : d'.collection.queuedBlocks = d.collection.queuedBlocks)
    (hqd : ∀ start len, (start, .queued len) ∈ d.collection.blocks.entries →
      (start, .queued len) ∈ d'.collection.blocks.entries) (hret : d'.returned = d.returned)
    (hreq : ∀ who, d'.collection.peerRequests.get? who = (d'.outstanding.get? who).map Prod.fst)
    (hpen : ∀ start stop, d'.Pending start stop → d.Pending start stop ∧
      Placed start stop d'.collection.blocks.entries) : d'.Sound number where
  tidy := ht
  queued hash start stop hget := (h.queued hash start stop (hqb ▸ hget)).imp_right (hqd start _)
  unique := hqb ▸ h.unique
  returned n hn := by
    obtain ⟨start, len, hmem, hn⟩ := h.returned n (hret ▸ hn)
    exact ⟨start, len, hqd start len hmem, hn⟩
  requested := hreq
  pending start stop hp := by
    obtain ⟨hold, hpl⟩ := hpen start stop hp
    obtain ⟨hlt, hlen, -⟩ := h.pending start stop hold
    exact ⟨hlt, hlen, hpl⟩
  separate start stop start' stop' hp hp' :=
    h.separate start stop start' stop' (hpen _ _ hp).1 (hpen _ _ hp').1

/-- What is stored where a request is has its length. -/
theorem len_eq (hp : d.Pending start stop) {r : BlockRangeState P B}
    (hmem : (start, r) ∈ d.collection.blocks.entries) : r.len = stop - start := by
  obtain ⟨hlt, -, hpl⟩ := h.pending start stop hp
  have hpos := (h.tidy.size _ hmem).1
  rcases hpl _ hmem with ⟨-, hlen⟩ | hle | hle
  · exact hlen
  · dsimp only at hle hpos
    omega
  · exact absurd hlt (not_lt.mpr hle)

/-- The request that the call before ended is not answered any more. -/
theorem settle : Sound number { d with returning := none } := by
  refine h.of_pending h.tidy rfl (fun _ _ => id) rfl h.requested fun start stop hp => ?_
  have hold : d.Pending start stop := hp.imp_right fun ⟨_, heq⟩ => nomatch heq
  exact ⟨hold, (h.pending start stop hold).2.2⟩

/-- A range is stored that is apart from all requests for other ranges. -/
theorem put {r : BlockRangeState P B} (hlt : start < stop) (hsize : stop - start < 2 ^ 32)
    (hlen : r.len = stop - start) (hpl : Placed start stop d.collection.blocks.entries)
    (hqd : ∀ len, d.collection.blocks.get? start ≠ some (.queued len))
    (hnum : ∀ blocks, r = .complete blocks →
      blocks.length < 2 ^ 32 ∧ numbers number blocks = range' start blocks.length)
    (hsep : ∀ a s, d.Pending a s → a = start ∧ s = stop ∨ s ≤ start ∨ stop ≤ a) :
    Sound number { d with
      collection := { d.collection with blocks := d.collection.blocks.insert start r } } := by
  refine h.of_pending (h.tidy.insert hlt hsize hlen (fun e he hne => ?_) hnum) rfl
    (fun a len hmem => ?_) rfl h.requested fun a s hp => ⟨hp, ?_⟩
  · exact (hpl e he).resolve_left fun heq => hne heq.1
  · refine mem_insert.mpr (.inr ⟨hmem, ?_⟩)
    rintro rfl
    exact hqd len (get?_eq_some_iff.mpr hmem)
  · exact (h.pending a s hp).2.2.insert hlt hlen (hsep a s hp)

/-- A peer is asked for a range that is the one of another request or apart from it. -/
theorem request (hlt : start < stop) (hsize : stop - start < 2 ^ 32)
    (hpl : Placed start stop d.collection.blocks.entries)
    (hsep : ∀ a s, d.Pending a s → a = start ∧ s = stop ∨ s ≤ start ∨ stop ≤ a) :
    Sound number { d with
      collection := { d.collection with peerRequests := d.collection.peerRequests.insert who start }
      outstanding := d.outstanding.insert who (start, stop) } := by
  have hcases : ∀ a s,
      Pending { d with outstanding := d.outstanding.insert who (start, stop) } a s →
      a = start ∧ s = stop ∨ d.Pending a s := by
    rintro a s (⟨w, hget⟩ | hret)
    · rcases of_get?_insert hget with ⟨-, heq⟩ | ⟨-, hget⟩
      · cases heq
        exact .inl ⟨rfl, rfl⟩
      · exact .inr (.inl ⟨w, hget⟩)
    · exact .inr (.inr hret)
  refine { h with
    tidy := h.tidy.subset fun e he => he
    requested := fun w => ?_, pending := fun a s hp => ?_, separate := fun a s a' s' hp hp' => ?_ }
  · rw [get?_insert, get?_insert]
    split
    · rfl
    · exact h.requested w
  · rcases hcases a s hp with ⟨rfl, rfl⟩ | hp
    · exact ⟨hlt, hsize, hpl⟩
    · exact h.pending a s hp
  · rcases hcases a s hp with ⟨rfl, rfl⟩ | hold
    · rcases hcases a' s' hp' with ⟨rfl, rfl⟩ | hold'
      · exact .inl ⟨rfl, rfl⟩
      · have hsep := hsep a' s' hold'
        omega
    · rcases hcases a' s' hp' with ⟨rfl, rfl⟩ | hold'
      · exact hsep a s hold
      · exact h.separate a s a' s' hold hold'

/-- What is found may be asked for, if it is not cropped for another peer. -/
theorem placed_of_finds {count maxParallel : ℕ} (hlt : cand.start < stop)
    (hcount : count < 2 ^ 32) (hstop : stop = min (peerBest + 1) cand.stop)
    (hf : BlockCollection.Finds count maxParallel d.collection.blocks.entries cand)
    (hcrop : ∀ e ∈ d.collection.blocks.entries, ∀ cand ∈ parallel maxParallel e,
      peerBest < cand.start ∨ cand.stop ≤ peerBest + 1) :
    stop - cand.start < 2 ^ 32 ∧ Placed cand.start stop d.collection.blocks.entries ∧
      ∀ len, d.collection.blocks.get? cand.start ≠ some (.queued len) := by
  cases hf with
  | @parallel start len downloading hmem hdl =>
    have hsize := (h.tidy.size _ hmem).2
    obtain rfl : stop = start + len := by
      have hin := hcrop _ hmem ⟨start, start + len, downloading⟩ (if_pos hdl)
      dsimp only at hlt hstop hin
      omega
    dsimp only [BlockRangeState.len] at hsize ⊢
    refine ⟨by omega, fun e he => ?_, fun len' hget => ?_⟩
    · by_cases heq : e.1 = start
      · cases eq_of_key_eq he hmem heq
        exact .inl ⟨rfl, (Nat.add_sub_cancel_left ..).symm⟩
      · exact .inr (h.tidy.apart.clear_of_ne hmem he heq)
    · cases hget.symm.trans (get?_eq_some_iff.mpr hmem)
  | @fresh start s hs hclr =>
    dsimp only at hlt hstop ⊢
    refine ⟨by omega, fun e he => .inr ((hclr e he).imp_right (le_trans (by omega))),
      fun len hget => ?_⟩
    have hmem := get?_eq_some_iff.mp hget
    have hpos := (h.tidy.size _ hmem).1
    rcases hclr _ hmem with hle | hle
    · dsimp only at hle hpos
      omega
    · dsimp only at hle
      omega

theorem neededBlocks {count maxParallel : ℕ} {after : BlockCollection P H B}
    (hord : d.Orderly (.neededBlocks who count peerBest common maxParallel maxAhead))
    (hc : d.collection.neededBlocks who count peerBest common maxParallel maxAhead =
      some (range, after)) :
    Sound number ⟨after, noteRequest d.outstanding who range, none, d.returned⟩ := by
  obtain ⟨-, hcrop, hstored⟩ := hord
  rcases neededBlocks_cases hc with ⟨rfl, rfl⟩ | ⟨cand, hf, stop, hs, hlt, rfl, rfl⟩
  · exact h.settle
  obtain ⟨hsize, hpl, hqd⟩ := h.placed_of_finds hlt (Nat.mod_lt _ (by decide)) hs
    (finds_find h.tidy.apart.pairwise hf) hcrop
  -- a range that was asked for before is stored, so it is this one or apart from it
  have hsep : ∀ a s, Pending { d with returning := none } a s →
      a = cand.start ∧ s = stop ∨ s ≤ cand.start ∨ stop ≤ a := by
    rintro a s (⟨w, hget⟩ | ⟨w, heq⟩)
    · obtain ⟨r, hr⟩ := isSome_iff_exists.mp (hstored (a, s) (mem_values.mpr ⟨w, hget⟩))
      have hmem := get?_eq_some_iff.mp hr
      have hlen := h.len_eq (.inl ⟨w, hget⟩) hmem
      have hlt' := (h.pending a s (.inl ⟨w, hget⟩)).1
      rcases hpl _ hmem with ⟨heq, hlen'⟩ | hle | hle
      · dsimp only at heq hlen'
        omega
      · dsimp only at hle
        omega
      · exact .inr (.inr hle)
    · cases heq
  have hput := h.settle.put (r := .downloading (stop - cand.start) (cand.downloading + 1))
    hlt hsize rfl hpl hqd nofun hsep
  exact hput.request hlt hsize (hpl.insert hlt rfl (.inl ⟨rfl, rfl⟩)) hsep

theorem clearPeerDownload_none (hwho : d.outstanding.get? who = none) :
    Sound number
      ⟨d.collection.clearPeerDownload who, d.outstanding.erase who, none, d.returned⟩ := by
  have hn : d.collection.peerRequests.get? who = none := by
    rw [h.requested, hwho]
    rfl
  have hsa : d.collection.clearPeerDownload who = d.collection := by
    rw [clearPeerDownload, hn]
  rw [hsa, erase_of_none hwho]
  exact h.settle

theorem clearPeerDownload_some (hwho : d.outstanding.get? who = some (start, stop)) :
    Sound number ⟨d.collection.clearPeerDownload who, d.outstanding.erase who,
      some (who, start, stop), d.returned⟩ := by
  have hp : d.Pending start stop := .inl ⟨who, hwho⟩
  -- the request is ended, and the range is still as it was
  have hend : Sound number ⟨{ d.collection with
      peerRequests := d.collection.peerRequests.erase who }, d.outstanding.erase who,
      some (who, start, stop), d.returned⟩ := by
    refine h.of_pending (h.tidy.subset fun e he => he) rfl (fun _ _ => id) rfl (fun w => ?_)
      fun a s hp' => ?_
    · rw [get?_erase, get?_erase]
      split
      · rfl
      · exact h.requested w
    · have hold : d.Pending a s := by
        rcases hp' with ⟨w, hget⟩ | ⟨w, heq⟩
        · exact .inl ⟨w, (of_get?_erase hget).2⟩
        · cases heq
          exact hp
      exact ⟨hold, (h.pending a s hold).2.2⟩
  obtain ⟨hlt, hsize, hpl⟩ := h.pending start stop hp
  rw [clearPeerDownload, h.requested, hwho]
  dsimp only [Option.map_some]
  split
  next len downloading hget =>
    have hmem := get?_eq_some_iff.mp hget
    have hlen : len = stop - start := h.len_eq hp hmem
    split
    · refine hend.put hlt hsize hlen hpl (fun len' hq => ?_) nofun fun a s hp' => ?_
      · cases hget.symm.trans hq
      · have hsep := hend.separate start stop a s (.inr ⟨who, rfl⟩) hp'
        omega
    · refine hend.of_pending (hend.tidy.subset fun e he => (mem_erase.mp he).1) rfl
        (fun a len' hmem' => mem_erase.mpr ⟨hmem', fun heq => ?_⟩) rfl hend.requested
        fun a s hp' => ⟨hp', fun e he => ?_⟩
      · cases eq_of_key_eq hmem' hmem heq
      · exact (hend.pending a s hp').2.2 e (mem_erase.mp he).1
  next => exact hend

theorem insert {bs : List B} (hord : d.Orderly (.insert start bs who))
    (hrtn : d.returning = some (who, start, stop))
    (hb : bs.map number = range' start (stop - start)) :
    Sound number ⟨d.collection.insert start bs who, d.outstanding.erase who, none, d.returned⟩ := by
  obtain ⟨hwho, hq⟩ := hord
  have hqd : ∀ len, d.collection.blocks.get? start ≠ some (.queued len) :=
    fun len hget => nomatch hq _ hget
  have hp : d.Pending start stop := .inr ⟨who, hrtn⟩
  obtain ⟨hlt, hsize, hpl⟩ := h.pending start stop hp
  have hl : bs.length = stop - start := by
    have hl := congrArg length hb
    rwa [length_map, length_range'] at hl
  have hput : Sound number ⟨{ d.collection with
      blocks := d.collection.blocks.insert start (.received bs who) }, d.outstanding, none,
      d.returned⟩ := by
    refine (h.put hlt hsize ?_ hpl hqd (fun blocks' heq => ?_) fun a s hp' => ?_).settle
    · rw [received, len, length_map, hl]
      exact Nat.mod_eq_of_lt hsize
    · cases heq
      rw [length_map, hl]
      refine ⟨hsize, ?_⟩
      rw [numbers, List.map_map, ← hb]
      rfl
    · have hsep := h.separate start stop a s hp hp'
      omega
  have hnemp : ¬ bs.isEmpty = true := by
    rw [isEmpty_iff_length_eq_zero]
    omega
  rw [BlockCollection.insert, if_neg hnemp, erase_of_none hwho]
  dsimp only
  split
  next existing hget =>
    -- another peer has answered for the range
    have hmem := get?_eq_some_iff.mp hget
    have hlen := h.len_eq hp hmem
    rw [len, asU32, Nat.mod_eq_of_lt (h.tidy.numbered start existing hmem).1] at hlen
    rw [if_pos (by omega)]
    exact h.settle
  next => exact hput

/-- The entries that stay when a queued range is cleared. -/
theorem mem_foldl_erase (hmem : (start, .queued (stop - start)) ∈ d.collection.blocks.entries)
    (hlt : start < stop) :
    e ∈ ((range' start (stop - start)).foldl OrderedMap.erase d.collection.blocks).entries ↔
      e ∈ d.collection.blocks.entries ∧ e.1 ≠ start := by
  rw [OrderedMap.mem_foldl_erase, mem_range'_1]
  refine and_congr_right fun he => ⟨fun hnot heq => hnot (by omega), fun hne hin => ?_⟩
  have hclr := h.tidy.apart.clear_of_ne hmem he hne
  rw [len] at hclr
  rcases hclr with hle | hle
  · omega
  · omega

theorem clearQueued (hash : H) :
    Sound number ⟨d.collection.clearQueued hash, d.outstanding, none,
      match d.collection.queuedBlocks.get? hash with
      | some (start, stop) => d.returned.filter fun n => ¬ (start ≤ n ∧ n < stop)
      | none => d.returned⟩ := by
  cases hget : d.collection.queuedBlocks.get? hash with
  | none =>
    have hs : d.collection.clearQueued hash = d.collection := by
      rw [BlockCollection.clearQueued, hget]
    rw [hs]
    exact h.settle
  | some range =>
    obtain ⟨start, stop⟩ := range
    obtain ⟨hlt, hmem⟩ := h.queued hash start stop hget
    have hclr : d.collection.clearQueued hash = { d.collection with
        queuedBlocks := d.collection.queuedBlocks.erase hash
        blocks := (range' start (stop - start)).foldl erase d.collection.blocks } := by
      rw [BlockCollection.clearQueued, hget]
    have hold := fun (e : Entry P B) he hne =>
      (h.mem_foldl_erase hmem hlt (e := e)).mpr ⟨he, hne⟩
    rw [hclr]
    refine { h with
      tidy := ?tidy, queued := ?queued, unique := h.unique.erase hash, returned := ?returned
      pending := ?pending, separate := h.settle.separate }
    case tidy => exact h.tidy.subset fun e he => ((h.mem_foldl_erase hmem hlt).mp he).1
    case queued =>
      intro hash' a' s' hg'
      obtain ⟨hne, o⟩ := of_get?_erase hg'
      obtain ⟨hlt', hm'⟩ := h.queued hash' a' s' o
      refine ⟨hlt', hold _ hm' ?_⟩
      rintro rfl
      exact hne (h.unique hash' hash _ s' stop o hget)
    case returned =>
      intro n hn
      obtain ⟨hn, hout⟩ := mem_filter.mp hn
      obtain ⟨a', len, hm', hin⟩ := h.returned n hn
      refine ⟨a', len, hold _ hm' fun heq => ?_, hin⟩
      cases eq_of_key_eq hm' hmem heq
      refine of_decide_eq_true hout ⟨hin.1, ?_⟩
      omega
    case pending =>
      intro a' s' hp
      obtain ⟨hlt', hsize, hpl⟩ := h.settle.pending a' s' hp
      exact ⟨hlt', hsize, fun e he => hpl e ((h.mem_foldl_erase hmem hlt).mp he).1⟩

end

variable [WireBlock B H]

section
variable (h : d.Sound number)

include h

theorem readies (first : ℕ) :
    Readies number first d.collection.blocks.entries d.collection.queuedBlocks
      (d.collection.readyBlocks first).2.blocks.entries
      (d.collection.readyBlocks first).2.queuedBlocks (d.collection.readyBlocks first).1 :=
  readies_readyLoop h.tidy.apart.pairwise h.tidy.size h.tidy.numbered

theorem readyBlocks (first : ℕ) :
    Sound number ⟨(d.collection.readyBlocks first).2, d.outstanding, none,
      d.returned ++ numbers number (d.collection.readyBlocks first).1⟩ := by
  have hrdy := h.readies first
  -- an entry has the start and the length that it had before
  have hk : ∀ e' ∈ (d.collection.readyBlocks first).2.blocks.entries,
      ∃ e ∈ d.collection.blocks.entries, e.1 = e'.1 ∧ e.2.len = e'.2.len := by
    intro e' he'
    rcases hrdy.kept e' he' with he | ⟨blocks, hmem, heq⟩
    · exact ⟨e', he, rfl, rfl⟩
    · exact ⟨_, hmem, rfl, by rw [heq]; rfl⟩
  constructor
  case tidy =>
    constructor
    case size =>
      intro e' he'
      obtain ⟨e, he, -, hlen⟩ := hk e' he'
      exact hlen ▸ h.tidy.size e he
    case before =>
      intro e1' he1' e2' he2' hlt
      obtain ⟨e1, he1, hst, hl'⟩ := hk e1' he1'
      obtain ⟨e2, he2, hst', -⟩ := hk e2' he2'
      have hbef := h.tidy.before e1 he1 e2 he2 (by rwa [hst, hst'])
      rwa [Before, hst, hst', hl'] at hbef
    case numbered =>
      intro start blocks hmem
      rcases hrdy.kept _ hmem with hold | ⟨blocks, -, heq⟩
      · exact h.tidy.numbered start blocks hold
      · cases heq
  case queued =>
    intro hash start stop hget
    rcases hrdy.noted hash start stop hget with hold | ⟨hlt, -, -, hmem⟩
    · obtain ⟨hlt, hmem⟩ := h.queued hash start stop hold
      exact ⟨hlt, hrdy.others _ hmem nofun⟩
    · exact ⟨hlt, hmem⟩
  case unique =>
    refine hrdy.unique h.unique fun hash start stop blocks hget hmem => ?_
    obtain ⟨-, hm'⟩ := h.queued hash start stop hget
    cases eq_of_key_eq hmem hm' rfl
  case returned =>
    intro n hn
    rcases mem_append.mp hn with hn | hn
    · obtain ⟨start, len, hmem, hn⟩ := h.returned n hn
      exact ⟨start, len, hrdy.others _ hmem nofun, hn⟩
    · obtain ⟨start, blocks, -, hmem, hn⟩ := hrdy.handed n hn
      exact ⟨start, _, hmem, hn⟩
  case requested => exact h.requested
  case pending =>
    intro start stop hp
    obtain ⟨hlt, hsize, hpl⟩ := h.settle.pending start stop hp
    refine ⟨hlt, hsize, fun e' he' => ?_⟩
    obtain ⟨e, he, hst, hlen⟩ := hk e' he'
    have hpl := hpl e he
    rwa [Clear, hst, hlen] at hpl
  case separate => exact h.settle.separate

theorem good : d.Good number where
  disjoint := by
    refine h.tidy.apart.pairwise.imp fun {e e'} hbef n hcovers => ?_
    obtain ⟨⟨-, hlt⟩, hle, -⟩ := hcovers
    have hbef : e.1 + e.2.len ≤ e'.1 := hbef
    omega
  consecutive fromNumber := (h.readies fromNumber).chain
  once fromNumber n hn hret := by
    -- a number is in one range only, which is not both complete and queued
    obtain ⟨start, blocks, hmem, -, hle, hlt⟩ := (h.readies fromNumber).handed n hn
    obtain ⟨a', len, hm', hle', hlt'⟩ := h.returned n hret
    have hne : a' ≠ start := by
      rintro rfl
      cases eq_of_key_eq hmem hm' rfl
    rcases h.tidy.apart.clear_of_ne hmem hm' hne with hclr | hclr
    · have hclr : a' + len ≤ start := hclr
      omega
    · have hclr : start + asU32 blocks.length ≤ a' := hclr
      omega

theorem call {e : Call P H B} (hans : d.Answers number e) (hord : d.Orderly e)
    {d' : Download P H B} (hc : d.call number e = some d') : d'.Sound number := by
  cases e with
  | neededBlocks who count peerBest common maxParallel maxAhead =>
    obtain ⟨⟨range, coll⟩, hn, heq⟩ := bind_eq_some_iff.mp hc
    cases heq
    exact h.neededBlocks hord hn
  | insert start blocks who =>
    obtain ⟨⟨start, stop⟩, hreq, rfl, hb⟩ := hans
    have hrtn : d.returning = some (who, start, stop) := by
      rw [requests, hord.1] at hreq
      obtain ⟨⟨w', range⟩, hmem, rfl⟩ := mem_map.mp hreq
      obtain ⟨hrtn, hwho'⟩ := mem_filter_iff.mp (mem_toList.mp hmem)
      obtain rfl : w' = who := of_decide_eq_true hwho'
      exact hrtn
    cases hc
    exact h.insert hord hrtn hb
  | clearPeerDownload who =>
    cases hc
    cases hwho : d.outstanding.get? who with
    | none => exact h.clearPeerDownload_none hwho
    | some range => exact h.clearPeerDownload_some hwho
  | readyBlocks first =>
    cases hc
    exact h.readyBlocks first
  | clearQueued hash =>
    cases hc
    exact h.clearQueued hash

end

end Sound

variable [WireBlock B H]

/-- In every run of orderly calls in which requests are answered with all their blocks: the ranges
are disjoint, what is ready is a chain, and nothing is handed out twice. -/
theorem good_of_orderly {calls : List (Call P H B)}
    (hanswers : Run.Each (step number) (fun o e => ∀ d, o = some d → d.Answers number e)
      (some (new : Download P H B)) calls)
    (horderly : Run.Each (step number) (fun o e => ∀ d, o = some d → d.Orderly e)
      (some (new : Download P H B)) calls) :
    Run.Always (step number) (fun o => ∀ d, o = some d → d.Good number)
      (some (new : Download P H B)) calls := by
  have hinv := Run.Each.always_some
    (fun d e d' h hgd hc => h.call (hgd.1 d rfl) (hgd.2 d rfl) hc)
    sound_new (hanswers.and horderly)
  intro pre hpre d hd
  exact (hinv pre hpre d hd).good

instance (d : Download P H B) (e : Call P H B) : Decidable (d.Answers number e) := by
  cases e <;> unfold Answers <;> infer_instance

instance (d : Download P H B) (e : Call P H B) : Decidable (d.Orderly e) := by
  cases e <;> unfold Orderly <;> infer_instance

end

/-- Blocks that are no more than their numbers. -/
instance : WireBlock ℕ ℕ where
  hash := id

/-- Two peers download the first range and both answer for it, after the one that downloads the
second range. -/
def orderlyRun : List (Call ℕ ℕ ℕ) :=
  [.neededBlocks 0 4 10 0 2 200, .neededBlocks 1 4 10 0 2 200, .neededBlocks 2 4 10 0 2 200,
    .clearPeerDownload 2, .insert 5 [5, 6, 7, 8] 2, .readyBlocks 1, .clearPeerDownload 1,
    .insert 1 [1, 2, 3, 4] 1, .clearPeerDownload 0, .insert 1 [1, 2, 3, 4] 0, .readyBlocks 1,
    .clearQueued 1]

theorem good_orderlyRun : ∃ d, exec (step id) (some new) orderlyRun = some d ∧
    d.returned = [5, 6, 7, 8] ∧ d.Good id := by
  obtain ⟨d, hd, hret⟩ : ∃ d, exec (step id) (some new) orderlyRun = some d ∧
      d.returned = [5, 6, 7, 8] := by
    decide +kernel
  exact ⟨d, hd, hret, (good_of_orderly (by decide +kernel) (by decide +kernel)).last d hd⟩

/-- The second peer has fewer blocks, so that the range of the first one is cropped. The third one
is asked for the rest before the first one answers. -/
def croppedRun : List (Call ℕ ℕ ℕ) :=
  [.neededBlocks 0 4 10 0 2 200, .neededBlocks 1 4 2 0 2 200, .neededBlocks 2 4 10 0 2 200,
    .clearPeerDownload 0, .insert 1 [1, 2, 3, 4] 0, .clearPeerDownload 2, .insert 3 [3, 4, 5, 6] 2]

/-- The second peer answers after the blocks of the first one were handed out. -/
def repeatedRun : List (Call ℕ ℕ ℕ) :=
  [.neededBlocks 0 4 10 0 2 200, .neededBlocks 1 4 10 0 2 200, .clearPeerDownload 0,
    .insert 1 [1, 2, 3, 4] 0, .readyBlocks 1, .clearPeerDownload 1, .insert 1 [1, 2, 3, 4] 1]

/-- The ranges from 1 and from 3 overlap and are handed out one after the other, and the same
numbers are handed out twice. -/
theorem not_good_parallel :
    (Run.Each (step id) (fun o e => ∀ d, o = some d → d.Answers id e) (some new) croppedRun ∧
      ∃ d, exec (step id) (some new) croppedRun = some d ∧ ¬ d.Good id ∧
        numbers id (d.collection.readyBlocks 1).1 = [1, 2, 3, 4, 3, 4, 5, 6]) ∧
    Run.Each (step id) (fun o e => ∀ d, o = some d → d.Answers id e) (some new) repeatedRun ∧
      ∃ d, exec (step id) (some new) repeatedRun = some d ∧ ¬ d.Good id ∧
        numbers id (d.collection.readyBlocks 1).1 = [1, 2, 3, 4] ∧ d.returned = [1, 2, 3, 4] := by
  obtain ⟨d, hd, hrdy⟩ : ∃ d, exec (step id) (some new) croppedRun = some d ∧
      numbers id (d.collection.readyBlocks 1).1 = [1, 2, 3, 4, 3, 4, 5, 6] := by
    decide +kernel
  obtain ⟨d', hd', hr', hret⟩ : ∃ d, exec (step id) (some new) repeatedRun = some d ∧
      numbers id (d.collection.readyBlocks 1).1 = [1, 2, 3, 4] ∧ d.returned = [1, 2, 3, 4] := by
    decide +kernel
  refine ⟨⟨by decide +kernel, d, hd, fun hg => ?_, hrdy⟩,
    by decide +kernel, d', hd', fun hg => ?_, hr', hret⟩
  · obtain ⟨a, len, hrng, -⟩ := hg.consecutive 1
    rw [hrdy] at hrng
    have hnd : (range' a len).Nodup := nodup_range'
    rw [← hrng] at hnd
    exact absurd hnd (by decide)
  · refine hg.once 1 1 ?_ ?_
    · rw [hr']
      decide
    · rw [hret]
      decide

end Download

end Sync
