-- SUMMARY: When pruning at finality changes no epoch lookup below the finalized block.
import SubstrateIpfs.Epochs.Changes
import SubstrateIpfs.Base.Run

/-!
# Epoch lookups survive finality

Along every chain of the block tree the slots increase, and the first block of every epoch announces
the next epoch. The announcements are imported ancestors first, and the tree is pruned whenever a
block is finalized.

Pruning re-roots the tree at the deepest ancestor of the finalized block whose announced epoch has
started. The first block of that epoch is stored below the new root, and everything on the chains of
the finalized block stays stored through it.
-/

namespace Epochs

open List Option

/-- The epoch that is announced. -/
def PersistedEpoch.next {E : Type} : PersistedEpoch E → E
  | .genesis _ epoch1 => epoch1
  | .regular epoch => epoch

end Epochs

namespace EpochChanges

open List Option ForkTree

open Epochs
open ForkTree (BlockTree Forest Found Deepest entries)

variable {H N E Slot Err : Type} [DecidableEq H] [LinearOrder N] [LinearOrder Slot] [Epoch E Slot]
  {entry : H × N × PersistedEpochHeader Slot} {epoch : PersistedEpoch E} {later : Slot}

/-! ## Announcements -/

/-- The blocks of the tree have slots, and some of them announce an epoch: among the descendents of
a block that announces one, the first block of this epoch does. -/
structure Schedule (t : BlockTree H N) (slot : H → Slot)
    (announced : H → Option (PersistedEpoch E)) : Prop where
  slot_lt : ∀ a b, t.Below a b → slot a < slot b
  genesis_le : ∀ a epoch0 epoch1, announced a = some (.genesis epoch0 epoch1) →
    Epoch.startSlot epoch0 ≤ Epoch.startSlot epoch1
  first : ∀ a epoch c, announced a = some epoch → t.Below a c →
    Epoch.startSlot epoch.next ≤ slot c →
    (∀ b, t.Below a b → t.Below b c → slot b < Epoch.startSlot epoch.next) → (announced c).isSome

/-- The ancestry queries of the client are right, also about a block that it does not store yet. -/
structure Follows (t : BlockTree H N)
    (descendentOfBuilder : Option (H × H) → H → H → Except Err Bool) : Prop where
  stored : ∀ base block, descendentOfBuilder none base block = .ok (t.isDescendentOf base block)
  current : ∀ current parent base, current ≠ parent → ¬ t.Below current parent →
    descendentOfBuilder (some (current, parent)) base current =
      .ok (decide (base = parent) || t.isDescendentOf base parent)

def IsParent (t : BlockTree H N) (parent hash : H) : Prop :=
  ∀ base, t.Below base hash ↔ t.AtOrBelow base parent

/-- The fake head above the parent has not been in the chain before, and has a number. -/
structure Prospective [One N] [Add N] [HashBytes H] (t : BlockTree H N)
    (announced : H → Option (PersistedEpoch E)) (parent : H) : Prop where
  ne : fakeHeadHash parent ≠ parent
  unrelated : t.Unrelated (fakeHeadHash parent)
  unannounced : announced (fakeHeadHash parent) = none
  number_lt : t.number parent < t.number parent + 1

/-! ## Histories -/

/-- The epoch changes, with the blocks whose announcements were imported so far and the last
finalized block. -/
structure History (H N E Slot : Type) where
  changes : EpochChanges H N E Slot
  imported : List H
  finalized : Option H

inductive Call (H E : Type) where
  | importEpoch (hash parent : H) (epoch : PersistedEpoch E)
  | pruneFinalized (hash : H)

namespace History

def new : History H N E Slot := ⟨.new, [], none⟩

section
variable (t : BlockTree H N) (slot : H → Slot) (announced : H → Option (PersistedEpoch E))
  (descendentOfBuilder : Option (H × H) → H → H → Except Err Bool)

def call (history : History H N E Slot) : Call H E → Option (History H N E Slot)
  | .importEpoch hash parent epoch => do
    let (_, changes) ←
      history.changes.importEpoch descendentOfBuilder hash (t.number hash) parent epoch
    return { history with changes := changes, imported := hash :: history.imported }
  | .pruneFinalized hash => do
    let (_, changes) ←
      history.changes.pruneFinalized descendentOfBuilder hash (t.number hash) (slot hash)
    return { history with changes := changes, finalized := some hash }

def step (history : Option (History H N E Slot)) (e : Call H E) : Option (History H N E Slot) :=
  history.bind fun history => history.call t slot descendentOfBuilder e

section
omit [DecidableEq H] [LinearOrder Slot] [Epoch E Slot]

/-- The block can be finalized: it is imported with its ancestors, and does not revert finality. -/
def Finalizable (history : History H N E Slot) (hash : H) : Prop :=
  (∀ base, t.AtOrBelow base hash → (announced base).isSome → base ∈ history.imported) ∧
    ∀ finalized, history.finalized = some finalized → t.AtOrBelow finalized hash

/-- Announcements are imported once and after those of the ancestors. -/
def Orderly (history : History H N E Slot) : Call H E → Prop
  | .importEpoch hash parent epoch =>
    announced hash = some epoch ∧ IsParent t parent hash ∧ hash ∉ history.imported ∧
      ∀ base, t.Below base hash → (announced base).isSome → base ∈ history.imported
  | .pruneFinalized hash => history.Finalizable t announced hash

end

/-- What is imported and can still matter is stored. -/
structure Tracks (history : History H N E Slot) : Prop where
  forest : Forest t {hash | hash ∈ history.imported} history.changes.inner.roots
  unfinalized : history.changes.inner.bestFinalizedNumber = none
  signaled : ∀ hash ∈ history.imported, (announced hash).isSome
  closed : ∀ hash ∈ history.imported, ∀ base, t.Below base hash → (announced base).isSome →
    base ∈ history.imported
  header : ∀ entry ∈ entries history.changes.inner.roots, ∃ epoch,
    announced entry.1 = some epoch ∧ entry.2.2 = epoch.header
  above : ∀ hash ∈ history.imported,
    (∀ finalized, history.finalized = some finalized → t.AtOrBelow finalized hash) →
    hash ∈ history.changes.inner.hashes
  below : ∀ hash ∈ history.imported, ∀ finalized, history.finalized = some finalized →
    t.AtOrBelow hash finalized → ∀ base ∈ history.changes.inner.hashes, t.AtOrBelow base hash →
    hash ∈ history.changes.inner.hashes

end

variable {t : BlockTree H N} {s : H → Slot} {ann : H → Option (PersistedEpoch E)}
  {d : Option (H × H) → H → H → Except Err Bool}
  {pa p' : History H N E Slot} {hash : H}

omit [DecidableEq H] [LinearOrder Slot] in
theorem tracks_new : Tracks t ann (new : History H N E Slot) where
  forest := .nil
  unfinalized := rfl
  signaled := forall_mem_nil _
  closed := forall_mem_nil _
  header := forall_mem_nil _
  above := forall_mem_nil _
  below := forall_mem_nil _

namespace Tracks

/-! ## Importing -/

theorem importEpoch (h : pa.Tracks t ann) (hf : Follows t d) (sl : H → Slot) {p : H}
    (hord : pa.Orderly t ann (.importEpoch hash p epoch)) :
    ∃ p', pa.call t sl d (.importEpoch hash p epoch) = some p' ∧ p'.Tracks t ann := by
  obtain ⟨hep, hpar, hnot, ha⟩ := hord
  have hse : t.Below p hash := (hpar p).mpr (.refl _)
  -- the oracle is asked about ancestors of the new block, which are those of its parent
  have hask : ∀ ba, d (some (hash, p)) ba hash = t.oracle ba hash := by
    intro ba
    have hne : hash ≠ p := by
      rintro rfl
      exact t.treeOrder.irrefl _ hse
    have hbel : ¬ t.Below hash p := fun hbel =>
      t.treeOrder.irrefl _ (t.treeOrder.trans hse hbel)
    rw [hf.current hash p ba hne hbel]
    congr 1
    rw [Bool.eq_iff_iff, Bool.or_eq_true, decide_eq_true_iff]
    exact (or_congr_left eq_comm).trans (hpar ba).symm
  have hnew : ∀ hash' ∈ {hash | hash ∈ pa.imported}, ¬ t.Below hash hash' := by
    intro hash' hmem hbel
    exact hnot (h.closed hash' hmem hash hbel (by rw [hep]; rfl))
  obtain ⟨res, inner, himp, hfor, hres⟩ := h.forest.importNode (E := Err) hnew epoch.header
  have hu : hash ∉ pa.changes.inner.hashes := by
    intro hmem
    obtain ⟨node, hn, rfl⟩ := mem_hashes.mp hmem
    exact hnot (h.forest.ordered_nodesOf hn).hash_mem
  rw [importNode, ← findNodeIndexWhere_congr hask, ← importNode] at himp
  simp only [call, EpochChanges.importEpoch, himp]
  cases hres with
  | reverted hrev => simp [reverts, h.unfinalized] at hrev
  | duplicate hmem => exact absurd hmem hu
  | added _ hbe hen =>
    have hhs : ∀ b, b ∈ inner.hashes ↔ b = hash ∨ b ∈ pa.changes.inner.hashes := by
      intro b
      rw [← map_fst_entries, (hen.map Prod.fst).mem_iff, map_cons, mem_cons, map_fst_entries]
    refine ⟨_, rfl, ?_⟩
    constructor
    case forest =>
      refine hfor.mono ?_
      rintro b (rfl | hmem)
      · exact mem_cons_self
      · exact mem_cons_of_mem _ hmem
    case unfinalized => exact hbe.trans h.unfinalized
    case signaled =>
      refine forall_mem_cons.mpr ⟨?_, h.signaled⟩
      rw [hep]
      rfl
    case closed =>
      refine forall_mem_cons.mpr ⟨fun ba hbel hs => ?_, fun b hmem ba hbel hs => ?_⟩
      · exact mem_cons_of_mem _ (ha ba hbel hs)
      · exact mem_cons_of_mem _ (h.closed b hmem ba hbel hs)
    case header =>
      intro entry hent
      rcases mem_cons.mp (hen.mem_iff.mp hent) with rfl | hent
      · exact ⟨epoch, hep, rfl⟩
      · exact h.header entry hent
    case above =>
      refine forall_mem_cons.mpr ⟨fun _ => (hhs hash).mpr (.inl rfl), fun b hmem hat => ?_⟩
      exact (hhs b).mpr (.inr (h.above b hmem hat))
    case below =>
      intro b hmem fin hfin hat ba hb hbel
      rcases mem_cons.mp hmem with rfl | hold
      · exact (hhs b).mpr (.inl rfl)
      rcases (hhs ba).mp hb with rfl | hb
      · -- a block that is imported now has no imported descendents
        rcases hbel with rfl | hbel
        · exact absurd hold hnot
        · exact absurd hbel (hnew b hold)
      · exact (hhs b).mpr (.inr (h.below b hold fin hfin hat ba hb hbel))

/-! ## Pruning -/

omit [DecidableEq H] [LinearOrder Slot] in
/-- Between a stored block and one that can be finalized, what is imported is stored. -/
theorem mem_hashes (h : pa.Tracks t ann) (hfin : pa.Finalizable t ann hash) {b ba : H}
    (hmem : b ∈ pa.imported) (hat : t.AtOrBelow b hash)
    (hb : ba ∈ pa.changes.inner.hashes) (hbel : t.AtOrBelow ba b) :
    b ∈ pa.changes.inner.hashes := by
  cases hf : pa.finalized with
  | none => exact h.above b hmem fun fin heq => by simp [hf] at heq
  | some fin =>
    rcases t.treeOrder.atOrBelow_total hat (hfin.2 fin hf) with hup | hdo
    · exact h.below b hmem fin hf hup ba hb hbel
    · refine h.above b hmem fun fin' heq => ?_
      cases hf.symm.trans heq
      exact hdo

section
variable [WellFoundedLT N]

omit [DecidableEq H] in
/-- Below a block whose announced epoch has started at a descendent, there is the first block of
this epoch, which is imported with the descendent. -/
theorem exists_first (hsch : Schedule t s ann) {ba : H}
    (hep : ann ba = some epoch) (hbel : t.Below ba hash)
    (hst : Epoch.startSlot epoch.next ≤ s hash) :
    ∃ f, t.Below ba f ∧ t.AtOrBelow f hash ∧ (ann f).isSome := by
  have hne : {c | t.Below ba c ∧ t.AtOrBelow c hash ∧ Epoch.startSlot epoch.next ≤ s c}.Nonempty :=
    ⟨hash, hbel, .refl _, hst⟩
  have hwf : WellFounded fun a b => t.number a < t.number b := InvImage.wf t.number wellFounded_lt
  obtain ⟨c, ⟨hba, hat, hle⟩, hmin⟩ := hwf.has_min _ hne
  refine ⟨c, hba, hat, hsch.first ba epoch c hep hba hle fun b hb hbc => ?_⟩
  by_contra hge
  have hup := t.treeOrder.atOrBelow_trans (.inr hbc) hat
  exact hmin b ⟨hb, hup, not_lt.mp hge⟩ (t.number_lt hbc)

omit [DecidableEq H] [WellFoundedLT N] in
/-- Lookups at later slots see an epoch that has started. -/
theorem isLive_of_hasStarted (h : pa.Tracks t ann)
    (hsch : Schedule t s ann) (hent : entry ∈ entries pa.changes.inner.roots)
    {now : Slot} (hst : hasStarted now entry.2.2 = true) (hlt : now < later) :
    isLive later entry.2.2 = true := by
  obtain ⟨epoch, hep, hhd⟩ := h.header entry hent
  rw [hhd] at hst ⊢
  cases epoch with
  | genesis epoch0 epoch' =>
    have hle := of_decide_eq_true hst
    have hfst := hsch.genesis_le _ _ _ hep
    exact decide_eq_true ((hfst.trans hle).trans hlt.le)
  | regular epoch => exact decide_eq_true ((of_decide_eq_true hst).trans hlt.le)

/-- What pruning keeps: everything from the new root on that is on a chain through the block. -/
structure Keeps (t : BlockTree H N) (hash : H)
    (stored stored' : List (H × N × PersistedEpochHeader Slot))
    (root : H × N × PersistedEpochHeader Slot) : Prop where
  mem : root ∈ stored
  below : t.Below root.1 hash
  kept : ∀ entry ∈ stored, t.AtOrBelow root.1 entry.1 →
    (t.AtOrBelow entry.1 hash ∨ t.AtOrBelow hash entry.1) → entry ∈ stored'
  above : ∀ entry ∈ stored', t.AtOrBelow root.1 entry.1

theorem keeps_of_rerooted (h : pa.Tracks t ann) (hsch : Schedule t s ann)
    (hfin : pa.Finalizable t ann hash) {n : Node H N (PersistedEpochHeader Slot)}
    (hn : n ∈ ForkTree.Node.nodesOf pa.changes.inner.roots)
    (hbel : t.Below n.hash hash) (hsta : hasStarted (s hash) n.data = true)
    {s' : List (H × N × PersistedEpochHeader Slot)}
    (hen : s'.Perm (n.entry :: entries (n.children.filter (t.leads hash)))) :
    Keeps t hash (entries pa.changes.inner.roots) s' n.entry := by
  have hmem : n.entry ∈ entries pa.changes.inner.roots := mem_entries.mpr ⟨n, hn, rfl⟩
  refine ⟨hmem, hbel, fun entry hent hr hcha => ?_, fun entry hent => ?_⟩
  · -- the first block of the epoch that the new root announces is stored
    obtain ⟨epoch, hep, hhd⟩ := h.header _ hmem
    have hst : Epoch.startSlot epoch.next ≤ s hash := by
      have hhd : n.data = epoch.header := hhd
      rw [hhd] at hsta
      cases epoch with
      | genesis | regular => exact of_decide_eq_true hsta
    obtain ⟨a, hfst, hat, hs⟩ := exists_first hsch hep hbel hst
    have himp := hfin.1 a hat hs
    have hsto := h.mem_hashes hfin himp hat (ForkTree.mem_hashes.mpr ⟨n, hn, rfl⟩) (.inr hfst)
    exact hen.mem_iff.mpr (h.forest.mem_kept hn hsto hfst hat hent hr hcha)
  · rcases mem_cons.mp (hen.mem_iff.mp hent) with rfl | hent
    · exact .refl _
    obtain ⟨below, hb', rfl⟩ := mem_entries.mp hent
    obtain ⟨child, hch, hmem'⟩ := ForkTree.Node.mem_nodesOf.mp hb'
    have hch := (mem_filter.mp hch).1
    have hord := h.forest.ordered_nodesOf hn
    have hat := ((hord.forest.ordered child hch).nodes hmem').2
    exact .inr (t.treeOrder.below_of_below_atOrBelow (hord.below_children child hch) hat)

/-- What pruning at a block does. -/
structure Prunes (t : BlockTree H N) (hash : H) (slot : Slot)
    (changes changes' : EpochChanges H N E Slot) : Prop where
  unfinalized : changes'.inner.bestFinalizedNumber = changes.inner.bestFinalizedNumber
  subset : entries changes'.inner.roots ⊆ entries changes.inner.roots
  epochs : ∀ entry ∈ entries changes'.inner.roots,
    changes'.epochs.get? (entry.1, entry.2.1) = changes.epochs.get? (entry.1, entry.2.1)
  kept : entries changes.inner.roots ⊆ entries changes'.inner.roots ∨
    ∃ root, hasStarted slot root.2.2 = true ∧
      Keeps t hash (entries changes.inner.roots) (entries changes'.inner.roots) root

omit [LinearOrder Slot] [Epoch E Slot] [WellFoundedLT N] in
/-- Entries under other hashes are not taken out of the map. -/
theorem get?_foldl_erase_removed {es : FinMap (H × N) (PersistedEpoch E)}
    {rem : List (H × N × PersistedEpochHeader Slot)} (hdi : ∀ e' ∈ rem, e'.1 ≠ entry.1) :
    (rem.foldl (fun es (hash, num, _) => es.erase (hash, num)) es).get?
      (entry.1, entry.2.1) = es.get? (entry.1, entry.2.1) := by
  have hmap : ((rem.map fun entry => (entry.1, entry.2.1)).foldl FinMap.erase es).get?
      (entry.1, entry.2.1) = _ := FinMap.get?_foldl_erase
  rw [foldl_map] at hmap
  refine hmap.trans (if_neg fun hmem => ?_)
  obtain ⟨e', he', heq⟩ := mem_map.mp hmem
  exact hdi e' he' (Prod.ext_iff.mp heq).1

theorem pruneFinalized (h : pa.Tracks t ann) (hsch : Schedule t s ann) (hf : Follows t d)
    (hfin : pa.Finalizable t ann hash) :
    ∃ cs', pa.changes.pruneFinalized d hash (t.number hash) (s hash) =
        some (.ok (), cs') ∧
      Forest t {hash | hash ∈ pa.imported} cs'.inner.roots ∧
      Prunes t hash (s hash) pa.changes cs' := by
  have hb : d none = t.oracle :=
    funext fun ba => funext fun b => hf.stored ba b
  obtain ⟨rem, inner, hpru, hfor, hbe, hen, hprd⟩ :=
    h.forest.prune (E := Err) hash (hasStarted (s hash))
  simp only [EpochChanges.pruneFinalized, hb, hpru]
  refine ⟨_, rfl, hfor, hbe, ?_, ?_, ?_⟩
  · intro entry hent
    exact hen.mem_iff.mpr (mem_append_left _ hent)
  · intro entry hent
    refine get?_foldl_erase_removed fun entry' hent' heq => ?_
    -- no hash is stored twice
    have hspl := (hen.map Prod.fst).nodup_iff.mp
      ((map_fst_entries pa.changes.inner).symm ▸ h.forest.nodup_hashes)
    rw [map_append] at hspl
    exact hspl.disjoint (mem_map_of_mem hent) (heq ▸ mem_map_of_mem hent')
  · cases hprd with
    | unchanged => exact .inl (List.Subset.refl _)
    | deepest hn hde _ he' =>
      exact .inr ⟨_, hde.passes, h.keeps_of_rerooted hsch hfin hn hde.below hde.passes he'⟩

omit [DecidableEq H] [LinearOrder N] [LinearOrder Slot] [Epoch E Slot] [WellFoundedLT N] in
theorem mem_hashes_of_subset {tr t' : ForkTree H N (PersistedEpochHeader Slot)}
    (h : entries tr.roots ⊆ entries t'.roots) (hmem : hash ∈ tr.hashes) :
    hash ∈ t'.hashes := by
  rw [← map_fst_entries] at hmem ⊢
  exact map_subset _ h hmem

omit [WellFoundedLT N] in
/-- Histories in which the tree was pruned. -/
theorem prune (h : pa.Tracks t ann) (hfin : pa.Finalizable t ann hash)
    {cs' : EpochChanges H N E Slot} (hfor : Forest t {hash | hash ∈ pa.imported} cs'.inner.roots)
    (hprs : Prunes t hash (s hash) pa.changes cs') :
    Tracks t ann { pa with changes := cs', finalized := some hash } := by
  -- what was relevant for the last finalized block and is on a chain through the new one
  have hke : ∀ b ∈ pa.changes.inner.hashes,
      (t.AtOrBelow b hash ∨ t.AtOrBelow hash b) →
      (∀ ba ∈ cs'.inner.hashes, t.AtOrBelow ba b → b ∈ cs'.inner.hashes) ∧
      (t.AtOrBelow hash b → b ∈ cs'.inner.hashes) := by
    intro b hoth hcha
    rcases hprs.kept with hsub | ⟨root, -, hk⟩
    · exact ⟨fun _ _ _ => mem_hashes_of_subset hsub hoth, fun _ => mem_hashes_of_subset hsub hoth⟩
    rw [← map_fst_entries] at hoth ⊢
    obtain ⟨entry, hent, rfl⟩ := mem_map.mp hoth
    refine ⟨fun ba hb hat => ?_, fun hat => ?_⟩
    · obtain ⟨e', he', rfl⟩ := mem_map.mp hb
      have hr := t.treeOrder.atOrBelow_trans (hk.above e' he') hat
      exact mem_map_of_mem (hk.kept entry hent hr hcha)
    · have hr := t.treeOrder.below_of_below_atOrBelow hk.below hat
      exact mem_map_of_mem (hk.kept entry hent (.inr hr) hcha)
  constructor
  case forest => exact hfor
  case unfinalized => exact hprs.unfinalized.trans h.unfinalized
  case signaled => exact h.signaled
  case closed => exact h.closed
  case header => exact fun entry hent => h.header entry (hprs.subset hent)
  case above =>
    intro b hmem hat
    have hat := hat hash rfl
    have hsto := h.above b hmem fun f hf =>
      t.treeOrder.atOrBelow_trans (hfin.2 f hf) hat
    exact (hke b hsto (.inr hat)).2 hat
  case below =>
    intro b hmem f hf hat ba hb hbel
    obtain rfl : hash = f := some.inj hf
    have hsto := h.mem_hashes hfin hmem hat (mem_hashes_of_subset hprs.subset hb) hbel
    exact (hke b hsto (.inl hat)).1 ba hb hbel

end

end Tracks

end History

/-! ## Lookups -/

section
variable [Zero N] [One N] [Add N] [HashBytes H] {t : BlockTree H N} {S : Set H}
  {a : H → Option (PersistedEpoch E)}
  {de : Option (H × H) → H → H → Except Err Bool}
  {cs cs' : EpochChanges H N E Slot} {hash p : H} {pa : History H N E Slot}
  {s : H → Slot}

/-- A lookup in both gives the same descriptor, and the descriptor the same epoch. -/
structure SameLookup (t : BlockTree H N)
    (descendentOfBuilder : Option (H × H) → H → H → Except Err Bool)
    (changes changes' : EpochChanges H N E Slot) (parent : H) (slot : Slot)
    (descriptor : Option (ViableEpochDescriptor H N Slot)) : Prop where
  before : changes.epochDescriptorForChildOf descendentOfBuilder parent (t.number parent) slot =
    some (.ok descriptor)
  after : changes'.epochDescriptorForChildOf descendentOfBuilder parent (t.number parent) slot =
    some (.ok descriptor)
  viableEpoch : ∀ makeGenesis, ∀ descriptor' ∈ descriptor,
    changes'.viableEpoch makeGenesis descriptor' = changes.viableEpoch makeGenesis descriptor'
  epochData : ∀ makeGenesis,
    changes'.epochDataForChildOf descendentOfBuilder parent (t.number parent) slot makeGenesis =
      changes.epochDataForChildOf descendentOfBuilder parent (t.number parent) slot makeGenesis

omit [Epoch E Slot] in
/-- It is enough that the descriptors are the same, and that the map has the same under them. -/
theorem SameLookup.of_epoch {slot : Slot} {d : Option (ViableEpochDescriptor H N Slot)}
    (hbef : cs.epochDescriptorForChildOf de p (t.number p) slot = some (.ok d))
    (haft : cs'.epochDescriptorForChildOf de p (t.number p) slot = some (.ok d))
    (hep : ∀ id header, d = some (.signaled id header) → cs'.epoch id = cs.epoch id) :
    SameLookup t de cs cs' p slot d := by
  have hda : ∀ mg, ∀ d' ∈ d, cs'.epochData mg d' = cs.epochData mg d' := by
    intro mg d' hmem
    cases d' with
    | unimportedGenesis => rfl
    | signaled id header => exact hep id header hmem
  refine ⟨hbef, haft, fun mg d' hmem => ?_, fun mg => ?_⟩
  · cases d' with
    | unimportedGenesis => rfl
    | signaled id header => exact congrArg (Option.map _) (hep id header hmem)
  · rw [epochDataForChildOf, epochDataForChildOf, hbef, haft]
    cases d with
    | none => rfl
    | some d => exact congrArg (fun data => some (Except.ok data)) (hda mg _ rfl)

omit [Epoch E Slot] in
/-- A lookup for a child of a block which is not the first one. -/
theorem epochDescriptorForChildOf_eq (hfor : Forest t S cs.inner.roots)
    (hf : Follows t de) (hh : Prospective t a p)
    (hnot : fakeHeadHash p ∉ S) (hz : t.number p ≠ 0) (sl : Slot) :
    ∃ f : Option (Node H N (PersistedEpochHeader Slot)),
      cs.epochDescriptorForChildOf de p (t.number p) sl = some (.ok (f.map (descriptor sl))) ∧
      Found (t.withHead p (fakeHeadHash p) (t.number p + 1) hh.ne hh.unrelated
        hh.number_lt) (entries cs.inner.roots) (fakeHeadHash p) (isLive sl)
        (f.map ForkTree.Node.entry) := by
  have hans := fun b => hf.current (fakeHeadHash p) p b hh.ne (hh.unrelated p).2
  obtain ⟨f, hfi, hfnd⟩ := hfor.findHead hh.ne hh.unrelated hh.number_lt hnot hans (isLive sl)
  refine ⟨f, ?_, hfnd⟩
  rw [epochDescriptorForChildOf, if_neg hz]
  simp only [hfi]
  rfl

omit [Zero N] in
/-- The deepest live entry above a block that the pruned one is at or above is kept. -/
theorem History.Tracks.mem_of_deepest (h : pa.Tracks t a) (hsch : Schedule t s a)
    (hprs : Prunes t hash (s hash) pa.changes cs')
    (hat : t.AtOrBelow hash p) (hh : Prospective t a p)
    (hnot : fakeHeadHash p ∉ pa.imported) (hlat : s hash < later)
    (hde : Deepest (t.withHead p (fakeHeadHash p) (t.number p + 1) hh.ne
      hh.unrelated hh.number_lt) (entries pa.changes.inner.roots) (fakeHeadHash p)
      (isLive later) entry) : entry ∈ entries cs'.inner.roots := by
  rcases hprs.kept with hsub | ⟨r, hst, hk⟩
  · exact hsub hde.mem
  have hpar : t.AtOrBelow entry.1 p := BlockTree.below_withHead.mp hde.below
  have hne : entry.1 ≠ fakeHeadHash p := by
    obtain ⟨node, hn, rfl⟩ := mem_entries.mp hde.mem
    exact ne_of_mem_of_not_mem (h.forest.ordered_nodesOf hn).hash_mem hnot
  -- the new root is live, so the deepest live entry is at or below it
  have hr := hde.deepest r hk.mem
    (BlockTree.below_withHead.mpr (.inr (t.treeOrder.below_of_below_atOrBelow hk.below hat)))
    (h.isLive_of_hasStarted hsch hk.mem hst hlat)
  have hr : t.AtOrBelow r.1 entry.1 := hr.imp_right (BlockTree.below_withHead_of_ne hne).mp
  exact hk.kept entry hde.mem hr (t.treeOrder.atOrBelow_total hpar hat)

/-- Pruning leaves the lookups at later slots as they are. -/
theorem History.Tracks.sameLookup (h : pa.Tracks t a) (hsch : Schedule t s a) (hf : Follows t de)
    (hfor : Forest t {hash | hash ∈ pa.imported} cs'.inner.roots)
    (hprs : Prunes t hash (s hash) pa.changes cs')
    (hat : t.AtOrBelow hash p) (hh : Prospective t a p) (hlat : s hash < later) :
    ∃ descriptor, SameLookup t de pa.changes cs' p later descriptor := by
  by_cases hz : t.number p = 0
  · refine ⟨some (.unimportedGenesis later), .of_epoch ?_ ?_ fun id header heq => by cases heq⟩
    · rw [epochDescriptorForChildOf, if_pos hz]
    · rw [epochDescriptorForChildOf, if_pos hz]
  have hnot : fakeHeadHash p ∉ pa.imported := by
    intro hmem
    have hs := h.signaled _ hmem
    rw [hh.unannounced] at hs
    cases hs
  obtain ⟨found, hbef, hfnd⟩ := epochDescriptorForChildOf_eq h.forest hf hh hnot hz later
  obtain ⟨found', haft, hfnd'⟩ := epochDescriptorForChildOf_eq hfor hf hh hnot hz later
  have heq := hfnd.unique hfnd' hprs.subset
    (fun entry => h.mem_of_deepest hsch hprs hat hh hnot hlat)
    (fun entry hent entry' he' => h.forest.entry_eq hent he')
  have hde : found'.map (descriptor later) = found.map (descriptor later) := by
    have hent := congrArg (Option.map fun entry =>
      descriptor later ⟨entry.1, entry.2.1, entry.2.2, []⟩) heq
    rwa [Option.map_map, Option.map_map] at hent
  rw [hde] at haft
  refine ⟨_, .of_epoch hbef haft fun id header hid => ?_⟩
  -- the descriptor names a node that both trees have
  rw [← hde] at hid
  obtain ⟨node, rfl, hid⟩ := map_eq_some_iff.mp hid
  cases hid
  cases hfnd' with
  | some hdeep =>
    have hep := hprs.epochs _ hdeep.mem
    exact congrArg (bind · _) hep

end

namespace History

section
variable [Zero N] [One N] [Add N] [HashBytes H] [WellFoundedLT N] {t : BlockTree H N}
  {slot : H → Slot} {announced : H → Option (PersistedEpoch E)}
  {descendentOfBuilder : Option (H × H) → H → H → Except Err Bool}

/-- Pruning at the block succeeds, and for every block at or below it leaves the lookups for its
children at all slots after that of the pruned block as they are. -/
def Survives (t : BlockTree H N) (slot : H → Slot) (announced : H → Option (PersistedEpoch E))
    (descendentOfBuilder : Option (H × H) → H → H → Except Err Bool)
    (history : History H N E Slot) (hash : H) : Prop :=
  ∃ changes', history.changes.pruneFinalized descendentOfBuilder hash (t.number hash) (slot hash) =
      some (.ok (), changes') ∧
    ∀ parent, t.AtOrBelow hash parent → Prospective t announced parent →
      ∀ later, slot hash < later → ∃ descriptor,
        SameLookup t descendentOfBuilder history.changes changes' parent later descriptor

/-- In every run in which announcements are imported once and ancestors first, and finality moves
down the tree: no call panics, and the lookups survive the finality of every block. -/
theorem survives_of_orderly (hschedule : Schedule t slot announced)
    (hfollows : Follows t descendentOfBuilder) {calls : List (Call H E)}
    (hcalls : Run.Each (step t slot descendentOfBuilder)
      (fun o e => ∀ history, o = some history → history.Orderly t announced e)
      (some (new : History H N E Slot)) calls) :
    Run.Always (step t slot descendentOfBuilder)
      (fun o => ∃ history, o = some history ∧ ∀ hash, history.Finalizable t announced hash →
        history.Survives t slot announced descendentOfBuilder hash)
      (some new) calls := by
  have hinv := Run.Each.always
    (I := fun o => ∃ history, o = some history ∧ history.Tracks t announced)
    (by
      rintro o e ⟨history, rfl, h⟩ he
      cases e with
      | importEpoch hash p epoch => exact h.importEpoch hfollows slot (he history rfl)
      | pruneFinalized hash =>
        obtain ⟨cs', hpru, hfor, hprs⟩ := h.pruneFinalized hschedule hfollows (he history rfl)
        refine ⟨_, ?_, h.prune (he history rfl) hfor hprs⟩
        simp only [step, call, hpru, bind_some]
        rfl)
    ⟨new, rfl, tracks_new⟩ hcalls
  intro pre hpre
  obtain ⟨history, hhis, h⟩ := hinv pre hpre
  refine ⟨history, hhis, fun hash hfin => ?_⟩
  obtain ⟨cs', hpru, hfor, hprs⟩ := h.pruneFinalized hschedule hfollows hfin
  exact ⟨cs', hpru, fun p hat hh later hlat =>
    h.sameLookup hschedule hfollows hfor hprs hat hh hlat⟩

end

/-! ### A run with a fork -/

section
variable {t : BlockTree H N} {announced : H → Option (PersistedEpoch E)} [Fintype H]

instance (a b : H) : Decidable (t.Below a b) := inferInstanceAs (Decidable (_ = true))

instance (a b : H) : Decidable (t.AtOrBelow a b) := inferInstanceAs (Decidable (_ ∨ _))

instance (parent hash : H) : Decidable (IsParent t parent hash) := by
  unfold IsParent
  infer_instance

instance (history : History H N E Slot) (hash : H) :
    Decidable (history.Finalizable t announced hash) := by
  unfold Finalizable
  infer_instance

instance [DecidableEq E] (history : History H N E Slot) (e : Call H E) :
    Decidable (history.Orderly t announced e) := by
  cases e <;> unfold Orderly <;> infer_instance

end

section
variable {t : BlockTree H N}

/-- A client that answers by the block tree, and knows the parent of a block that is not stored. -/
def askTree (t : BlockTree H N) (current : Option (H × H)) (base block : H) : Except Empty Bool :=
  match current with
  | none => .ok (t.isDescendentOf base block)
  | some (hash, parent) =>
    if block = hash then
      .ok (decide (base = parent) || t.isDescendentOf base parent)
    else
      .ok (t.isDescendentOf base block)

theorem follows_askTree : Follows t (askTree t) where
  stored _ _ := rfl
  current _ _ _ _ _ := if_pos rfl

end

/-- Epochs that are no more than their slots. -/
instance : Epoch (ℕ × ℕ) ℕ where
  startSlot := Prod.fst
  endSlot := Prod.snd

/-- Hashes of one byte of which only four bits are used, the first one among them. -/
instance : HashBytes (Fin 16) where
  modifyFirst f hash :=
    let byte := f (.ofNat (hash.val % 8 + 128 * (hash.val / 8)))
    .ofNat 16 (byte.toNat % 8 + 8 * (byte.toNat / 128))

/-- The chain `0 - 1 - 2 - 3 - 4 - 6`, with `7` above `2` and `5` above `3`. -/
def forkedTree : BlockTree (Fin 16) ℕ where
  number hash := [0, 1, 2, 3, 4, 4, 5, 3].getD hash.val 0
  isDescendentOf base hash := base ∈
    ([[], [0], [0, 1], [0, 1, 2], [0, 1, 2, 3], [0, 1, 2, 3], [0, 1, 2, 3, 4], [0, 1, 2]].getD
      hash.val [] : List (Fin 16))
  trans := by decide +kernel
  chain := by decide +kernel
  number_lt := by decide +kernel

def forkedSlot (hash : Fin 16) : ℕ := [0, 10, 15, 21, 25, 35, 31, 22].getD hash.val 0

/-- Blocks `3` and `7` are the first ones of the second epoch, `5` and `6` of the third one. -/
def forkedEpochs (hash : Fin 16) : Option (PersistedEpoch (ℕ × ℕ)) :=
  [none, some (.genesis (10, 20) (20, 30)), none, some (.regular (30, 40)), none,
    some (.regular (40, 50)), some (.regular (40, 55)), some (.regular (30, 45))].getD hash.val none

def forkedRun : List (Call (Fin 16) (ℕ × ℕ)) :=
  [.importEpoch 1 0 (.genesis (10, 20) (20, 30)), .importEpoch 3 2 (.regular (30, 40)),
    .pruneFinalized 2, .importEpoch 6 4 (.regular (40, 55)), .importEpoch 7 2 (.regular (30, 45)),
    .importEpoch 5 3 (.regular (40, 50))]

theorem schedule_forked : Schedule forkedTree forkedSlot forkedEpochs where
  slot_lt := by decide +kernel
  genesis_le := by
    have hall : ∀ a, (forkedEpochs a).all fun epoch => match epoch with
        | .genesis epoch0 epoch' => decide (Epoch.startSlot epoch0 ≤ Epoch.startSlot epoch')
        | .regular _ => true := by
      decide +kernel
    intro a epoch0 epoch' hep
    have ha := hall a
    rw [hep] at ha
    exact of_decide_eq_true ha
  first := by
    have hall : ∀ a c, (forkedEpochs a).all fun epoch => decide (forkedTree.Below a c →
        Epoch.startSlot epoch.next ≤ forkedSlot c → (∀ b, forkedTree.Below a b →
        forkedTree.Below b c → forkedSlot b < Epoch.startSlot epoch.next) →
        (forkedEpochs c).isSome) := by
      decide +kernel
    intro a epoch c hep
    have hac := hall a c
    rw [hep] at hac
    exact of_decide_eq_true hac

theorem survives_forkedRun : ∃ history : History (Fin 16) ℕ (ℕ × ℕ) ℕ,
    Run.exec (step forkedTree forkedSlot (askTree forkedTree)) (some new) forkedRun = some history ∧
      history.imported = [5, 7, 6, 3, 1] ∧ history.Finalizable forkedTree forkedEpochs 4 ∧
      Prospective forkedTree forkedEpochs 6 ∧
      history.Survives forkedTree forkedSlot forkedEpochs (askTree forkedTree) 4 := by
  have hord : Run.Each (step forkedTree forkedSlot (askTree forkedTree)) (fun o e => ∀ history,
      o = some history → history.Orderly forkedTree forkedEpochs e) (some new) forkedRun := by
    decide +kernel
  have hend : ∀ history, Run.exec (step forkedTree forkedSlot (askTree forkedTree)) (some new)
      forkedRun = some history → history.imported = [5, 7, 6, 3, 1] ∧
        history.Finalizable forkedTree forkedEpochs 4 := by
    decide +kernel
  have hh : Prospective forkedTree forkedEpochs 6 :=
    ⟨by decide, by unfold BlockTree.Unrelated; decide +kernel, rfl, by decide⟩
  obtain ⟨history, hhis, hs⟩ := (survives_of_orderly schedule_forked follows_askTree hord).last
  obtain ⟨himp, hfin⟩ := hend history hhis
  exact ⟨history, hhis, himp, hfin, hh, hs 4 hfin⟩

end History

end EpochChanges
