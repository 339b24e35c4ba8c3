-- SUMMARY: Pinned state stays readable until the block is unpinned.
import SubstrateIpfs.StateDb.Reading

/-!
# Pinned state

A reader pins a block and unpins it again. In between it can read everything that the block and its
ancestors in the overlay had inserted, unless it is in the database because a block became
canonical.

This is so if no block is pinned that was discarded before and is only kept aside for a pin above
it: `unpin` would give up the pin that is not its own.
-/

namespace StateDb

open List Option Function Run

variable {H K V : Type} [DecidableEq H] [DecidableEq K]

/-! ## Readers -/

/-- The keys inserted by a block of the first level of the list, and by its ancestors in the levels
below. -/
def lineOf (parents : FinMap H H) : List (OverlayLevel H K) → H → List K
  | [], _ => []
  | level :: below, hash =>
    match level.blocks.find? fun x => x.hash = hash with
    | none => []
    | some x =>
      x.inserted ++
        match parents.get? hash with
        | none => []
        | some parent => lineOf parents below parent

/-- The keys inserted by a block in the levels, from the last one down, and by its ancestors. -/
def lineFrom (parents : FinMap H H) : List (OverlayLevel H K) → H → List K
  | [], _ => []
  | level :: below, hash =>
    if hash ∈ level.blocks.map BlockOverlay.hash then lineOf parents (level :: below) hash
    else lineFrom parents below hash

/-- What a pinned block can read in the overlay: what it and its ancestors have inserted. -/
def Overlay.line (o : Overlay H K V) (hash : H) : List K := lineFrom o.parents o.levels.reverse hash

/-- The overlay and its readers. -/
structure Watch (H K V : Type) where
  overlay : Overlay H K V
  /-- The pins that are not released yet. -/
  held : H → Nat
  /-- What has to be readable for a pinned block. -/
  watched : H → List K
  /-- The keys that became part of the database. -/
  written : List K
  /-- The blocks that are canonical, as far as the overlay was told. -/
  canonical : List H

namespace Watch

/-- The overlay over an empty database, without readers. -/
def empty : Watch H K V := ⟨.empty, fun _ => 0, fun _ => [], [], []⟩

variable (w : Watch H K V)

/-- The overlay after a call, and what it means for the readers. -/
def call : Call H K V → Option (Watch H K V)
  | .insert hash number parentHash changeset => do
    let (r, o) ← w.overlay.insert hash number parentHash changeset
    -- the parent of a block of the first level is canonical
    let first := r.toBool ∧ (w.overlay.makeRoom number).2 = 0
    some { w with
      overlay := o
      canonical := if first then parentHash :: w.canonical else w.canonical }
  | .canonicalize hash => do
    let (r, o, commit) ← w.overlay.canonicalize hash .empty
    some { w with
      overlay := o
      written := w.written ++ commit.data.inserted.map Prod.fst
      canonical := if r.toBool then hash :: w.canonical else w.canonical }
  | .pin hash =>
    let before := if w.held hash = 0 then [] else w.watched hash
    some { w with
      overlay := w.overlay.pin hash
      held := update w.held hash (w.held hash + 1)
      watched := update w.watched hash (before ++ w.overlay.line hash) }
  | .unpin hash =>
    some { w with
      overlay := w.overlay.unpin hash
      held := update w.held hash (w.held hash - 1) }
  | c => (w.overlay.call c).map fun o => { w with overlay := o }

def step (w : Option (Watch H K V)) (c : Call H K V) : Option (Watch H K V) := w.bind (call · c)

/-- What a pinned block could read is still in the overlay, or in the database. -/
def Readable : Prop :=
  ∀ hash k, 0 < w.held hash → k ∈ w.watched hash → (w.overlay.get k).isSome ∨ k ∈ w.written

/-- The number of pins of a block. -/
def refs (hash : H) : Nat := (w.overlay.pinned.get? hash).getD 0

/-- What has to hold for a call of a run with readers: pins are matched, no hash is used twice, and
no block is pinned that was discarded and is not pinned already. -/
def Careful : Call H K V → Prop
  | .insert hash number parentHash changeset =>
    w.overlay.Fits hash number parentHash changeset ∧
      (w.overlay.Accepts hash number parentHash changeset →
        hash ∉ w.canonical ∧ parentHash ≠ hash ∧
          ((w.overlay.makeRoom number).2 = 0 →
            parentHash ∈ w.canonical ∨ w.overlay.parents.get? parentHash = none))
  | .canonicalize hash => w.overlay.Selects hash ∧ w.refs hash + 1 < 2 ^ 32
  | .pin hash =>
    w.refs hash + 1 < 2 ^ 32 ∧
      (hash ∈ w.canonical ∨ w.overlay.pinnedInsertions.get? hash = none ∨
        (w.overlay.pinned.get? hash).isSome)
  | .unpin hash => 0 < w.held hash
  | .sync => True
  | .revertOne => False
  | .remove _ => False

instance : ∀ c, Decidable (w.Careful c)
  | .insert .. | .canonicalize _ | .pin _ | .unpin _ | .sync | .revertOne | .remove _ => by
    unfold Careful; infer_instance

end Watch

section
variable {c : List H} {o : Overlay H K V} {hash : H} {k : K}

omit [DecidableEq K] in
/-- What is read along the levels is read up the line. -/
theorem reads_of_mem_lineOf {lvs : List (OverlayLevel H K)}
    (hsub : ∀ l ∈ lvs, l.blocks ⊆ blocksOf o.levels)
    (hcan : ∀ x ∈ blocksOf o.levels, x.hash ∉ c) (h : k ∈ lineOf o.parents lvs hash) :
    Reads c o hash k := by
  induction lvs generalizing hash with
  | nil => cases h
  | cons l below ih =>
    unfold lineOf at h
    split at h
    · cases h
    rename_i x hf
    have hx := hsub l mem_cons_self (mem_of_find?_eq_some hf)
    have hh : x.hash = hash := by simpa using find?_some hf
    have hhas : o.Has hash x.inserted := .inl ⟨x, hx, hh, rfl⟩
    have hnot : hash ∉ c := hh ▸ hcan x hx
    cases mem_append.mp h with
    | inl h => exact .here hnot hhas h
    | inr h =>
      split at h
      · cases h
      next par hpar =>
        exact .up hnot hhas hpar (ih (fun l hlev => hsub l (mem_cons_of_mem _ hlev)) h)

omit [DecidableEq K] in
theorem reads_of_mem_line (hcan : ∀ x ∈ blocksOf o.levels, x.hash ∉ c)
    (h : k ∈ o.line hash) : Reads c o hash k := by
  have hsub : ∀ l ∈ o.levels.reverse, l.blocks ⊆ blocksOf o.levels := fun l hlev _ hx =>
    mem_flatMap.mpr ⟨l, mem_reverse.mp hlev, hx⟩
  unfold Overlay.line at h
  generalize o.levels.reverse = ls at h hsub
  induction ls with
  | nil => cases h
  | cons l below ih =>
    unfold lineFrom at h
    split at h
    · exact reads_of_mem_lineOf hsub hcan h
    · exact ih h fun l hlev => hsub l (mem_cons_of_mem _ hlev)

end

/-! ## The invariant -/

namespace Watch

/-- The pin counts are right, there are as many pins as are held and will be released by `sync`, and
what has to be readable is read up the line. -/
structure Kept (w : Watch H K V) (pending : List H) : Prop where
  steady : Steady w.canonical w.overlay
  refs : ∀ z, w.held z + pending.count z ≤ w.refs z
  reads : ∀ z k, 0 < w.held z → k ∈ w.watched z → Reads w.canonical w.overlay z k ∨ k ∈ w.written

variable {w w' : Watch H K V} {p p' : List H} {hash : H}

theorem kept_empty : Kept (empty : Watch H K V) [] where
  steady := Steady.empty []
  refs := fun _ => le_refl 0
  reads := fun _ _ hh => absurd hh (lt_irrefl 0)

section
variable (h : Kept w p)

include h

theorem Kept.readable : w.Readable := fun z k hh hk =>
  (h.reads z k hh hk).imp_left fun hrd => hrd.get_isSome h.steady.sound.accounts

/-- From one state to the next, when the overlay carries the lines on. -/
theorem Kept.next (hov : Steady w'.canonical w'.overlay ∧
      Carries w.canonical w'.canonical w.overlay w'.overlay w'.written)
    (hwrt : w.written ⊆ w'.written) (hr : ∀ z, w'.held z + p'.count z ≤ w'.refs z)
    (hwat : ∀ z k, 0 < w'.held z → k ∈ w'.watched z →
      (0 < w.held z ∧ k ∈ w.watched z) ∨ Reads w.canonical w.overlay z k) : Kept w' p' := by
  refine ⟨hov.1, hr, fun z k hh hk => ?_⟩
  have hpin : w'.overlay.pinned.get? z ≠ none := by
    intro hn
    have hle := hr z
    rw [Watch.refs, hn, getD_none] at hle
    omega
  have hcar : Reads w.canonical w.overlay z k →
      Reads w'.canonical w'.overlay z k ∨ k ∈ w'.written :=
    fun hrd => hrd.carry hov.2 (.inl hpin)
  rcases hwat z k hh hk with ⟨hh, hk⟩ | hrd
  · exact (h.reads z k hh hk).elim hcar fun hk => .inr (hwrt hk)
  · exact hcar hrd

/-- A pin is released, by a reader or by `sync`. -/
theorem Kept.unpin (hash : H) {held : H → Nat} (hh : ∀ z, 0 < held z → 0 < w.held z)
    (hr : ∀ z, held z + p'.count z ≤ if z = hash then w.refs z - 1 else w.refs z) :
    Kept { w with overlay := w.overlay.unpin hash, held := held } p' := by
  obtain ⟨hov, hpin⟩ := h.steady.unpin hash w.written
  refine h.next hov (fun _ hk => hk) (fun z => ?_) fun z k hz hk => .inl ⟨hh z hz, hk⟩
  show held z + p'.count z ≤ ((w.overlay.unpin hash).pinned.get? z).getD 0
  rw [hpin z]
  exact hr z

/-- `sync` releases the pins of canonical blocks one after the other. -/
theorem Kept.foldl_unpin : Kept { w with overlay := p.foldl Overlay.unpin w.overlay } [] := by
  induction p generalizing w with
  | nil => exact h
  | cons hash p ih =>
    refine ih (h.unpin hash (fun _ hz => hz) fun z => ?_)
    have hle := h.refs z
    rw [count_cons] at hle
    split
    next heq =>
      rw [if_pos (by rw [heq, beq_self_eq_true])] at hle
      omega
    · omega

end

omit [DecidableEq K] in
theorem refs_pin {z : H} (hr : (w.overlay.pinned.get? hash).getD 0 + 1 < 2 ^ 32) :
    ((w.overlay.pin hash).pinned.get? z).getD 0 = w.refs z + if z = hash then 1 else 0 := by
  show ((w.overlay.pinned.insert hash _).get? z).getD 0 = _
  rw [FinMap.get?_insert, Nat.mod_eq_of_lt hr, refs]
  split
  next heq => rw [heq, getD_some]
  · rfl

section
variable (h : Kept w w.overlay.pinnedCanonicalized)

include h

theorem Kept.pin (hc : w.Careful (.pin hash)) (hca : w.call (.pin hash) = some w') :
    Kept w' w'.overlay.pinnedCanonicalized := by
  cases hca
  obtain ⟨hr, hpin⟩ := hc
  refine h.next (h.steady.pin hr hpin w.written) (fun _ hk => hk) (fun z => ?_) fun z k hz hk => ?_
  · have hle := h.refs z
    show update w.held hash (w.held hash + 1) z + w.overlay.pinnedCanonicalized.count z ≤
      ((w.overlay.pin hash).pinned.get? z).getD 0
    rw [refs_pin hr]
    by_cases hzh : z = hash
    · subst hzh
      rw [update_self, if_pos rfl]
      omega
    · rw [update_of_ne hzh, if_neg hzh]
      exact hle
  · have hz : 0 < update w.held hash (w.held hash + 1) z := hz
    have hk : k ∈ update w.watched hash
        ((if w.held hash = 0 then [] else w.watched hash) ++ w.overlay.line hash) z := hk
    by_cases hzh : z = hash
    · -- what was watched before, and the line of the block as it is now
      subst hzh
      rw [update_self] at hk
      cases mem_append.mp hk with
      | inl hk =>
        split at hk
        · cases hk
        next hh => exact .inl ⟨Nat.pos_of_ne_zero hh, hk⟩
      | inr hk => exact .inr (reads_of_mem_line h.steady.outside hk)
    · rw [update_of_ne hzh] at hk hz
      exact .inl ⟨hz, hk⟩

theorem Kept.insert {num : Nat} {ph : H} {cs : ChangeSet K V}
    (hca : w.Careful (.insert hash num ph cs)) (hc : w.call (.insert hash num ph cs) = some w') :
    Kept w' w'.overlay.pinnedCanonicalized := by
  obtain ⟨⟨r, o⟩, hin, hc⟩ := bind_eq_some_iff.mp hc
  cases hc
  rcases Overlay.insert_cases hin with ⟨⟨e, rfl⟩, rfl⟩ |
    ⟨c, asm, lvs, i, level, rfl, hins⟩
  · exact h.next (h.steady.repin _ rfl rfl rfl h.steady.bounded (fun _ _ _ _ => rfl) w.written)
      (fun _ hk => hk) h.refs fun z k hz hk => .inl ⟨hz, hk⟩
  have hacc := Overlay.accepts_of_inserted hin
  obtain ⟨hnew, hbel⟩ := hca.1 hacc
  obtain ⟨hhash, hself, hfst⟩ := hca.2 hacc
  rw [hins.index_eq] at hbel hfst
  have hcan : ∀ z, z ∈ (if (Except.ok (ε := StateDbError) c).toBool ∧
      (w.overlay.makeRoom num).2 = 0 then ph :: w.canonical else w.canonical) ↔
      (i = 0 ∧ z = ph) ∨ z ∈ w.canonical := by
    rw [hins.index_eq]
    split
    next hze => simp [hze.2]
    next hpos =>
      have hi : i ≠ 0 := fun hi => hpos ⟨rfl, hi⟩
      simp [hi]
  have hov := h.steady.inserted hins hnew hbel
    (fun hmem => ((hcan hash).mp hmem).elim (fun heq => hself heq.2.symm) hhash) hself
    (fun z hz => (hcan z).mpr (.inr hz))
    (fun z hz => ((hcan z).mp hz).elim (fun heq => heq.2 ▸ hfst heq.1) .inl)
    (fun hi => (hcan ph).mpr (.inl ⟨hi, rfl⟩)) w.written
  have hpin : o.pinned = w.overlay.pinned ∧
      o.pinnedCanonicalized = w.overlay.pinnedCanonicalized := by
    rw [hins.result]
    exact ⟨rfl, rfl⟩
  refine h.next hov (fun _ hk => hk) (fun z => ?_) fun z k hz hk => .inl ⟨hz, hk⟩
  show w.held z + o.pinnedCanonicalized.count z ≤ (o.pinned.get? z).getD 0
  rw [hpin.1, hpin.2]
  exact h.refs z

theorem Kept.canonicalize (hcare : w.Careful (.canonicalize hash))
    (hca : w.call (.canonicalize hash) = some w') : Kept w' w'.overlay.pinnedCanonicalized := by
  obtain ⟨⟨r, o, c⟩, hc, hca⟩ := bind_eq_some_iff.mp hca
  cases hca
  obtain ⟨hs, hre⟩ := hcare
  have hwrt : ∀ k ∈ c.data.inserted.map Prod.fst,
      k ∈ w.written ++ c.data.inserted.map Prod.fst := fun k hk => mem_append_right _ hk
  rcases h.steady.canonicalize hs hre hc hwrt with
    ⟨hr, hov, hpin, hp⟩ | ⟨hr, hov, hpin, hp⟩
  all_goals
    refine h.next (by dsimp only; rw [hr]; exact hov) (subset_append_left _ _)
      (fun z => ?_) fun z k hz hk => .inl ⟨hz, hk⟩
    show w.held z + o.pinnedCanonicalized.count z ≤ (o.pinned.get? z).getD 0
    rw [hpin, hp]
  · exact h.refs z
  · have hle := h.refs z
    rw [refs_pin hre, count_append, count_singleton]
    simp only [beq_iff_eq, eq_comm (a := hash)]
    omega

theorem Kept.call {c : Call H K V} (hc : w.Careful c) (hca : w.call c = some w') :
    Kept w' w'.overlay.pinnedCanonicalized := by
  cases c with
  | insert => exact h.insert hc hca
  | canonicalize => exact h.canonicalize hc hca
  | revertOne | remove => exact hc.elim
  | pin => exact h.pin hc hca
  | unpin hash =>
    cases hca
    have hh : 0 < w.held hash := hc
    have hs : (w.overlay.unpin hash).pinnedCanonicalized = w.overlay.pinnedCanonicalized := by
      unfold Overlay.unpin
      split
      · rfl
      · split <;> rfl
    rw [hs]
    refine h.unpin hash (fun z hz => ?_) fun z => ?_
    · by_cases hzh : z = hash
      · exact hzh ▸ hh
      · rwa [update_of_ne hzh] at hz
    have hle := h.refs z
    split
    next heq =>
      subst heq
      rw [update_self]
      omega
    next hne =>
      rw [update_of_ne hne]
      exact hle
  | sync =>
    cases hca
    have hst : Kept { w with overlay := { w.overlay with pinnedCanonicalized := [] } }
        w.overlay.pinnedCanonicalized :=
      h.next (h.steady.repin { w.overlay with pinnedCanonicalized := [] } rfl rfl rfl
        h.steady.bounded (fun _ _ _ _ => rfl) w.written) (fun _ hk => hk) h.refs
        fun z k hz hk => .inl ⟨hz, hk⟩
    have hend := hst.foldl_unpin
    exact hend.next (hend.steady.repin w.overlay.sync rfl rfl rfl hend.steady.bounded
      (fun _ _ _ _ => rfl) w.written) (fun _ hk => hk) hend.refs fun z k hz hk => .inl ⟨hz, hk⟩

end

/-- Pinned state is readable in every state of a run of careful calls. -/
theorem readable_of_careful {calls : List (Call H K V)}
    (hcareful : Run.Each step (fun o c => ∀ w, o = some w → w.Careful c) (some empty) calls) :
    Run.Always step (fun o => ∀ w, o = some w → w.Readable) (some empty) calls := by
  have hinv := Run.Each.always_some
    (I := fun w => Kept w w.overlay.pinnedCanonicalized)
    (fun w _ _ h hG hc => h.call (hG w rfl) hc) kept_empty hcareful
  exact fun pre hpre w hw => (hinv pre hpre w hw).readable

/-- A block on a fork is pinned, and the fork is discarded. -/
def pinnedFork : List (Call Nat Nat Nat) :=
  [.insert 1 1 0 ⟨[(7, 70)], []⟩, .insert 2 1 0 ⟨[(8, 80)], []⟩, .insert 3 2 2 ⟨[(9, 90)], []⟩,
    .pin 3, .canonicalize 1, .sync]

theorem readable_pinnedFork : ∃ w, exec step (some empty) pinnedFork = some w ∧ w.Readable ∧
    w.held 3 = 1 ∧ w.watched 3 = [9, 8] ∧ w.written = [7] := by
  obtain ⟨w, hw, hend⟩ : ∃ w, exec step (some empty) pinnedFork = some w ∧
      w.held 3 = 1 ∧ w.watched 3 = [9, 8] ∧ w.written = [7] := by
    decide +kernel
  exact ⟨w, hw, (readable_of_careful (by decide +kernel)).last w hw, hend⟩

/-- Then another reader comes for the parent of the pinned block, and goes again. -/
def lateReader : List (Call Nat Nat Nat) := pinnedFork ++ [.pin 2, .unpin 2]

/-- The overlay still has the parent when it is pinned. When it is unpinned its values are gone,
with the pin on the block above it in place. -/
theorem not_readable_lateReader :
    (∃ w, exec step (some empty) pinnedFork = some w ∧ w.overlay.haveBlock 2 = true) ∧
      ∃ w, exec step (some empty) lateReader = some w ∧ w.held 3 = 1 ∧ w.held 2 = 0 ∧
        ¬ w.Readable := by
  obtain ⟨w, hw, hh, hrel, hwat, hget, hwrt⟩ : ∃ w,
      exec step (some empty) lateReader = some w ∧ w.held 3 = 1 ∧ w.held 2 = 0 ∧ 8 ∈ w.watched 3 ∧
        w.overlay.get 8 = none ∧ 8 ∉ w.written := by
    decide +kernel
  refine ⟨by decide +kernel, w, hw, hh, hrel, fun h => ?_⟩
  rcases h 3 8 (by omega) hwat with hs | hmem
  · rw [hget] at hs
    cases hs
  · exact hwrt hmem

end Watch

end StateDb
