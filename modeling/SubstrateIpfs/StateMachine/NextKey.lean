-- SUMMARY: The next key under pending changes is the next key of the merged view.
import SubstrateIpfs.StateMachine.OverlayRefinement

/-!
# The next key

Two ordered streams are merged: the keys of the backend and the pending changes. A change hides
what the backend has at its key, so the key in the backend moves on where a deletion meets it.
-/

namespace StateMachine

open List Option Set OverlayedMap

local instance linearOrderUInt8 : LinearOrder UInt8 where
  le_refl := UInt8.le_refl
  le_trans _ _ _ := UInt8.le_trans
  le_antisymm _ _ := UInt8.le_antisymm
  le_total := UInt8.le_total
  lt_iff_le_not_ge _ _ := by rw [UInt8.not_le, and_iff_right_of_imp UInt8.le_of_lt]
  toDecidableLE := inferInstance
  toDecidableEq := inferInstance

variable {K W : Type} [LinearOrder K]

/-- The smallest key of a set that is greater than a key, if there is one. -/
def Next (keys : Set K) (key : K) : Option K → Prop
  | some next => IsLeast (keys ∩ Ioi key) next
  | none => keys ∩ Ioi key = ∅

/-- One storage of the backend: the keys that have a value, and how they are gone through. -/
structure Backend (K : Type) [LinearOrder K] where
  keys : Set K
  nextKey : K → Option K
  next_nextKey : ∀ key, Next keys key (nextKey key)

/-! ## The externalities -/

/-- The loop over the changes. -/
def mergeLoop (backend : Backend K) :
    Option K → List (K × OverlayedEntry (Option W)) → Option (Option K)
  | nextBackendKey, [] => some nextBackendKey
  | nextBackendKey, (key, entry) :: changes => do
    if ∃ k ∈ nextBackendKey, k < key then return nextBackendKey
    else if (← entry.valueRef).isSome then return some key
    else if nextBackendKey = some key then mergeLoop backend (backend.nextKey key) changes
    else mergeLoop backend nextBackendKey changes

/-- The first change that has a value. -/
def findLive : List (K × OverlayedEntry (Option W)) → Option (Option K)
  | [] => some none
  | (key, entry) :: changes => do
    if (← entry.valueRef).isSome then return some key else findLive changes

def nextKeyAfter (backend : Backend K) (key : K) (changes : List (K × OverlayedEntry (Option W))) :
    Option (Option K) :=
  match backend.nextKey key, changes with
  | nextBackendKey, [] => some nextBackendKey
  | some nextBackendKey, changes => mergeLoop backend (some nextBackendKey) changes
  | none, changes => findLive changes

section
variable [DecidableEq K] (self : OverlayedChangeSet K W)

/-- The changes that follow the key, in the order of their keys. -/
def OverlayedChangeSet.changesAfter (key : K) : List (K × OverlayedEntry (Option W)) :=
  ((self.changes.keys.filter (key < ·)).insertionSort (· ≤ ·)).filterMap fun k =>
    (self.get k).map (k, ·)

/-- The keys that have a value in the merged view. -/
def OverlayedChangeSet.merged (backend : Set K) : Set K :=
  {k | match self.get k with
    | some entry => ∃ value, entry.valueRef = some (some value)
    | none => k ∈ backend}

end

structure Ext where
  overlay : OverlayedChanges
  backend : Backend StorageKey
  childBackend : StorageKey → Backend StorageKey

namespace Ext

variable (self : Ext) (storageKey key : StorageKey)

def nextStorageKey : Option (Option StorageKey) :=
  nextKeyAfter self.backend key (self.overlay.top.changesAfter key)

def nextChildStorageKey : Option (Option StorageKey) :=
  nextKeyAfter (self.childBackend storageKey) key
    ((self.overlay.children.lookup storageKey).elim [] (·.changesAfter key))

end Ext

/-! ## Merging -/

section
variable {keys ks' : Set K} {low key : K} {next : Option K}

theorem next_congr (h : keys ∩ Ioi low = ks' ∩ Ioi key) :
    Next keys low next ↔ Next ks' key next := by
  cases next with
  | none | some => rw [Next, Next, h]

/-- Nothing is skipped between the two keys. -/
theorem inter_Ioi_eq (hle : low ≤ key) (h : ∀ k ∈ keys, low < k → key < k) :
    keys ∩ Ioi low = keys ∩ Ioi key :=
  ext fun k => and_congr_right fun hk => ⟨h k hk, hle.trans_lt⟩

theorem findLive_eq (b : Backend K) (cs : List (K × OverlayedEntry (Option W))) :
    findLive cs = mergeLoop b none cs := by
  induction cs with
  | nil => rfl
  | cons c cs ih => simp [findLive, mergeLoop, ih]

theorem nextKeyAfter_eq (ba : Backend K) (cs : List (K × OverlayedEntry (Option W))) :
    nextKeyAfter ba key cs = mergeLoop ba (ba.nextKey key) cs := by
  unfold nextKeyAfter
  cases ba.nextKey key with
  | none =>
    cases cs with
    | nil => rfl
    | cons c cs => exact findLive_eq ..
  | some b =>
    cases cs with
    | nil | cons => rfl

variable [DecidableEq K] {cs : OverlayedChangeSet K W} (hp : Present cs.changes) (ba : Backend K)

omit [LinearOrder K] in
theorem mem_merged_of_none (h : cs.get key = none) : key ∈ cs.merged keys ↔ key ∈ keys := by
  simp [OverlayedChangeSet.merged, h]

include hp

theorem mergeLoop_next {chs : List (K × OverlayedEntry (Option W))} (hs : chs.Pairwise (·.1 < ·.1))
    (hmem : ∀ k e, (k, e) ∈ chs ↔ low < k ∧ cs.get k = some e) (hn : Next ba.keys low next) :
    ∃ r, mergeLoop ba next chs = some r ∧ Next (cs.merged ba.keys) low r := by
  induction chs generalizing low next with
  | nil =>
    refine ⟨next, rfl, (next_congr (ext fun k => and_congr_left fun hlow => ?_)).mp hn⟩
    refine (mem_merged_of_none (eq_none_iff_forall_ne_some.mpr fun e he => ?_)).symm
    cases (hmem k e).mpr ⟨hlow, he⟩
  | cons c chs ih =>
    obtain ⟨key, entry⟩ := c
    obtain ⟨hfirst, hrest⟩ := pairwise_cons.mp hs
    obtain ⟨hlow, hget⟩ := (hmem key entry).mp mem_cons_self
    obtain ⟨value, _, hvals⟩ := exists_cons_of_ne_nil (hp key entry hget)
    have hv : entry.valueRef = some value := by
      rw [OverlayedEntry.valueRef_eq, hvals, head?_cons]
    -- before the first change there is only the backend
    have hbe : ∀ k, low < k → k < key → (k ∈ cs.merged ba.keys ↔ k ∈ ba.keys) := by
      intro k hlt hkey
      refine mem_merged_of_none (eq_none_iff_forall_ne_some.mpr fun e he => ?_)
      rcases mem_cons.mp ((hmem k e).mpr ⟨hlt, he⟩) with heq | hla
      · exact hkey.ne (congrArg Prod.fst heq)
      · exact (hfirst _ hla).not_gt hkey
    unfold mergeLoop
    by_cases hlt : ∃ k ∈ next, k < key
    · rw [if_pos hlt]
      obtain ⟨b, rfl, hb⟩ := hlt
      obtain ⟨⟨hmemb, hlowb⟩, hleast⟩ := hn
      refine ⟨b, rfl, ⟨(hbe b hlowb hb).mpr hmemb, hlowb⟩, ?_⟩
      rintro k ⟨hk, hl⟩
      by_contra hkb
      exact hkb (hleast ⟨(hbe k hl ((not_le.mp hkb).trans hb)).mp hk, hl⟩)
    have hba : ∀ k ∈ ba.keys, low < k → key ≤ k := by
      intro k hk hl
      cases next with
      | none => exact absurd ⟨hk, hl⟩ (eq_empty_iff_forall_notMem.mp hn k)
      | some b => exact (not_lt.mp fun hb => hlt ⟨b, rfl, hb⟩).trans (hn.2 ⟨hk, hl⟩)
    have hm : ∀ k ∈ cs.merged ba.keys, low < k → key ≤ k := by
      intro k hk hl
      by_contra hkey
      have hkey := not_le.mp hkey
      exact hkey.not_ge (hba k ((hbe k hl hkey).mp hk) hl)
    have hkey : key ∈ cs.merged ba.keys ↔ value.isSome := by
      simp [OverlayedChangeSet.merged, hget, hv, isSome_iff_exists]
    rw [if_neg hlt, hv, bind_eq_bind, bind_some]
    by_cases hli : value.isSome
    · rw [if_pos hli]
      exact ⟨key, rfl, ⟨hkey.mpr hli, hlow⟩, fun k hk => hm k hk.1 hk.2⟩
    -- the key is deleted
    have hgap : cs.merged ba.keys ∩ Ioi low = cs.merged ba.keys ∩ Ioi key :=
      inter_Ioi_eq hlow.le fun k hk hl =>
        (hm k hk hl).lt_of_ne fun h => hli (hkey.mp (h ▸ hk))
    have hla : ∀ k e, (k, e) ∈ chs ↔ key < k ∧ cs.get k = some e := by
      refine fun k e => ⟨fun h => ⟨hfirst _ h, ((hmem k e).mp (mem_cons_of_mem _ h)).2⟩, ?_⟩
      rintro ⟨hlt, he⟩
      have hc := (hmem k e).mpr ⟨hlow.trans hlt, he⟩
      exact (mem_cons.mp hc).resolve_left fun heq => hlt.ne' (congrArg Prod.fst heq)
    simp only [next_congr hgap]
    split_ifs with heq
    · exact ih hrest hla (ba.next_nextKey key)
    refine ih hrest hla ((next_congr (inter_Ioi_eq hlow.le fun k hk hl => ?_)).mp hn)
    refine (hba k hk hl).lt_of_ne ?_
    rintro rfl
    cases next with
    | none => exact absurd ⟨hk, hl⟩ (eq_empty_iff_forall_notMem.mp hn key)
    | some b => exact hlt ⟨b, rfl, (hn.2 ⟨hk, hl⟩).lt_of_ne fun h => heq (congrArg some h)⟩

theorem nextKeyAfter_next (key : K) :
    ∃ r, nextKeyAfter ba key (cs.changesAfter key) = some r ∧ Next (cs.merged ba.keys) key r := by
  rw [nextKeyAfter_eq]
  refine mergeLoop_next hp ba ?_ (fun k e => ?_) (ba.next_nextKey key)
  · refine pairwise_filterMap.mpr (Pairwise.imp ?_ ((pairwise_insertionSort (· ≤ ·) _).and
      ((perm_insertionSort _ _).nodup_iff.mpr (cs.changes.keys_nodup.filter _))))
    intro k k' ⟨hle, hne⟩ c hc c' hc'
    obtain ⟨_, -, rfl⟩ := map_eq_some_iff.mp hc
    obtain ⟨_, -, rfl⟩ := map_eq_some_iff.mp hc'
    exact hle.lt_of_ne hne
  · simp only [OverlayedChangeSet.changesAfter, mem_filterMap, mem_insertionSort, mem_filter,
      map_eq_some_iff, decide_eq_true_eq]
    constructor
    · rintro ⟨k, ⟨-, hlt⟩, e, he, ⟨⟩⟩
      exact ⟨hlt, he⟩
    · rintro ⟨hlt, he⟩
      refine ⟨k, ⟨AList.mem_keys.mp (AList.lookup_isSome.mp ?_), hlt⟩, e, he, rfl⟩
      exact isSome_of_mem he

end

/-- In every state of the overlay, the next key is the next one of the merged view. -/
theorem next_key_of_merged (ext : Ext) (h : ext.overlay.Reachable) (key : StorageKey) :
    (∃ next, ext.nextStorageKey key = some next ∧
        Next (ext.overlay.top.merged ext.backend.keys) key next) ∧
      ∀ storageKey, ∃ next, ext.nextChildStorageKey storageKey key = some next ∧
        Next ((ext.overlay.children.lookup storageKey).elim (ext.childBackend storageKey).keys
          (·.merged (ext.childBackend storageKey).keys)) key next := by
  obtain ⟨r, hr⟩ := h.stands
  refine ⟨nextKeyAfter_next hr.top.cells.present _ key, fun storageKey => ?_⟩
  have hc := hr.child storageKey
  unfold Ext.nextChildStorageKey
  cases hl : ext.overlay.children.lookup storageKey with
  | none =>
    refine ⟨_, ?_, (ext.childBackend storageKey).next_nextKey key⟩
    simp [nextKeyAfter]
  | some cs =>
    rw [hl] at hc
    cases hc with
    | there hf => exact nextKeyAfter_next hf.cells.present _ key

/-- A storage with one key. -/
def oneKey (k : StorageKey) : Backend StorageKey where
  keys := {k}
  nextKey key := if key < k then some k else none
  next_nextKey key := by
    split
    next hlt => simp [Next, hlt]
    next hge => simp [Next, hge]

/-- The key of the backend is deleted, and one is written after it. -/
theorem next_key_of_merged_written : ∃ ext : Ext, ext.nextStorageKey [1] = some (some [7]) ∧
    Next (ext.overlay.top.merged {[5]}) [1] (some [7]) := by
  have h := (OverlayedChanges.Reachable.default.step (.setStorage [5] none) nofun rfl).step
    (.setStorage [7] (some [2])) nofun rfl
  obtain ⟨next, hn, hm⟩ := (next_key_of_merged ⟨_, oneKey [5], oneKey⟩ h [1]).1
  exact ⟨_, rfl, Option.some.inj hn ▸ hm⟩

end StateMachine
