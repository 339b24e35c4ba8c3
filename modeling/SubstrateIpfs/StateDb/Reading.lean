-- SUMMARY: What can be read through a pinned block, and how every call carries it on.
import SubstrateIpfs.StateDb.Structure
import SubstrateIpfs.StateDb.Flow

/-!
# Reading through a block

A block reads what it and its ancestors have inserted, as long as the blocks in between are
in the overlay, in a level or kept aside. The line ends at a canonical block: what is below
is in the database.

`Steady` is the invariant, with the pin counts of the blocks kept aside; `Carries` says how
lines go on from one overlay to the next.
-/

namespace StateDb

open List Option FinMap Flowing Nat Prod Overlay

variable {H K V : Type} [DecidableEq H] [DecidableEq K] {x : BlockOverlay H K} {keys : List K}
  {pi : FinMap H Nat}

/-! ## Reading up the line -/

/-- The block is in the overlay, in a level or kept aside, with these keys. -/
def Overlay.Has (o : Overlay H K V) (hash : H) (keys : List K) : Prop :=
  (∃ x ∈ blocksOf o.levels, x.hash = hash ∧ x.inserted = keys) ∨
    ∃ e, o.pinnedInsertions.get? hash = some e ∧ e.1 = keys

/-- A key that the block or an ancestor of it inserted, where the blocks in between are all in the
overlay and not canonical. -/
inductive Reads (canon : List H) (o : Overlay H K V) : H → K → Prop
  | here {hash : H} {keys : List K} {k : K} (hcanon : hash ∉ canon) (hhas : o.Has hash keys)
      (hk : k ∈ keys) : Reads canon o hash k
  | up {hash parent : H} {keys : List K} {k : K} (hcanon : hash ∉ canon) (hhas : o.Has hash keys)
      (hparent : o.parents.get? hash = some parent) (hreads : Reads canon o parent k) :
      Reads canon o hash k

section
variable {c c' : List H} {o o' : Overlay H K V} {hash : H} {k : K} {w : List K}

omit [DecidableEq K] in
theorem Reads.notMem (h : Reads c o hash k) : hash ∉ c := by
  cases h with
  | here hcan | up hcan => exact hcan

/-- What can be read up the line has a counter. -/
theorem Reads.get_isSome (h : Reads c o hash k)
    (ha : o.toBooks.Accounts (blocksOf o.levels)) : (o.get k).isSome := by
  induction h with
  | up _ _ _ _ ih => exact ih
  | @here hash keys k _ hhas hk =>
    have hpos : 0 < counterOf o.values k := by
      rw [ha.counted k]
      have hcnt : 0 < keys.count k := count_pos_iff.mpr hk
      rcases hhas with ⟨x, hx, -, rfl⟩ | ⟨e, he, rfl⟩
      · have hle := count_le_occurrences hx k
        omega
      · have hle := le_total (f := fun _ e => e.1.count k) he
        unfold Books.kept
        omega
    unfold Overlay.get
    rw [isSome_map]
    exact isSome_of_counterOf hpos

/-- From one overlay to the next: a block that goes, and is not canonical, has no pin and no child
left; a block that becomes canonical is written to the database. -/
structure Carries (canon canon' : List H) (o o' : Overlay H K V) (written : List K) : Prop where
  stays : ∀ hash keys, hash ∉ canon' → o.Has hash keys →
    (o'.Has hash keys ∧ o'.parents.get? hash = o.parents.get? hash) ∨
      o'.pinned.get? hash = none ∧
        ∀ z keys', z ∉ canon' → o'.Has z keys' → o'.parents.get? z ≠ some hash
  becomes : ∀ hash keys, hash ∈ canon' → hash ∉ canon → o.Has hash keys →
    (∀ k ∈ keys, k ∈ written) ∧ ∀ p, o.parents.get? hash = some p → p ∈ canon
  grows : canon ⊆ canon'

omit [DecidableEq K] in
theorem Reads.carry (h : Reads c o hash k) (hcar : Carries c c' o o' w)
    (hn : o'.pinned.get? hash ≠ none ∨
      ∃ z keys, z ∉ c' ∧ o'.Has z keys ∧ o'.parents.get? z = some hash) :
    Reads c' o' hash k ∨ k ∈ w := by
  induction h with
  | @here hash keys k hcan hhas hk =>
    by_cases hc' : hash ∈ c'
    · exact .inr ((hcar.becomes hash keys hc' hcan hhas).1 k hk)
    rcases hcar.stays hash keys hc' hhas with ⟨hh', -⟩ | ⟨hpin, hch⟩
    · exact .inl (.here hc' hh' hk)
    · rcases hn with hne | ⟨z, ks', hz, hh', hpar⟩
      · exact absurd hpin hne
      · exact absurd hpar (hch z ks' hz hh')
  | @up hash par keys k hcan hhas hpar hrd ih =>
    by_cases hc' : hash ∈ c'
    · exact absurd ((hcar.becomes hash keys hc' hcan hhas).2 par hpar) hrd.notMem
    rcases hcar.stays hash keys hc' hhas with ⟨hh', hs⟩ | ⟨hpin, hch⟩
    · have hp' := hs.trans hpar
      refine (ih (.inr ⟨hash, keys, hc', hh', hp'⟩)).imp_left fun hrd' => ?_
      exact .up hc' hh' hp' hrd'
    · rcases hn with hne | ⟨z, ks', hz, hh', hp'⟩
      · exact absurd hpin hne
      · exact absurd hp' (hch z ks' hz hh')

end

/-! ## The invariant -/

/-- The structure of the overlay, and the pin counts. `canon` are the blocks that are canonical. -/
structure Steady (canon : List H) (o : Overlay H K V) : Prop where
  sound : o.Sound
  outside : ∀ x ∈ blocksOf o.levels, x.hash ∉ canon
  first : ∀ level, o.levels[0]? = some level → ∀ y ∈ level.blocks,
    ∃ p ∈ canon, o.parents.get? y.hash = some p
  flowing : Flowing canon [] o.pinned o.toBooks
  rootward : Rootward canon o.toBooks
  bounded : ∀ h r, o.pinned.get? h = some r → 0 < r ∧ r < 2 ^ 32

namespace Steady

variable {c : List H} {o o' : Overlay H K V} {written : List K} {hash : H}

theorem empty (canon : List H) : Steady canon (empty : Overlay H K V) where
  sound := sound_empty
  outside := fun x hx => absurd hx not_mem_nil
  first := fun level hlev => by simp [Overlay.empty] at hlev
  flowing :=
    ⟨fun h e he => by simp [Overlay.empty] at he, fun h e he => by simp [Overlay.empty] at he,
      fun h e he => by simp [Overlay.empty] at he⟩
  rootward := ⟨fun h e he => by simp [Overlay.empty] at he, fun h => by simp [Overlay.empty]⟩
  bounded := fun h r hr => by simp [Overlay.empty] at hr

/-- A block that the overlay has is known. -/
theorem known (h : Steady c o) (hhas : o.Has hash keys) : (o.parents.get? hash).isSome := by
  refine (h.sound.accounts.known hash).mpr ?_
  rcases hhas with ⟨x, hx, rfl, -⟩ | ⟨e, he, -⟩
  · exact .inl (mem_map_of_mem hx)
  · exact .inr (by rw [he]; rfl)

/-- The parent of a block in a level is in the level below, or canonical. -/
theorem parent_of_block (h : Steady c o) (hx : x ∈ blocksOf o.levels) {p : H}
    (hp : o.parents.get? x.hash = some p) : p ∈ c ∨ ∃ y ∈ blocksOf o.levels, y.hash = p := by
  obtain ⟨i, l, hlev, hx⟩ := mem_blocksOf.mp hx
  cases i with
  | zero =>
    obtain ⟨q, hq, hpar⟩ := h.first l hlev x hx
    cases hp.symm.trans hpar
    exact .inl hq
  | succ i =>
    obtain ⟨y, hy, hpar⟩ := chained_iff.mp h.sound.chained i x (mem_blocksAt.mpr ⟨l, hlev, hx⟩)
    cases hp.symm.trans hpar
    exact .inr ⟨y, blocksAt_subset hy, rfl⟩

/-- Nothing in the levels is on top of a block that is neither in a level nor canonical. -/
theorem parent_ne (h : Steady c o) (hx : x ∈ blocksOf o.levels) {p : H} (hcan : p ∉ c)
    (hnot : ∀ y ∈ blocksOf o.levels, y.hash ≠ p) : o.parents.get? x.hash ≠ some p := by
  intro hp
  rcases h.parent_of_block hx hp with hmem | ⟨y, hy, heq⟩
  · exact hcan hmem
  · exact hnot y hy heq

/-! ## Insertion -/

section
variable {num : Nat} {ph : H} {cs : ChangeSet K V}
  {asm : Option (H × Nat)} {lvs : List (OverlayLevel H K)} {i : Nat}
  {level : OverlayLevel H K} {co : CommitSet H K V} {c' : List H}

/-- A new block on a block of the overlay, or on one that is canonical. -/
theorem inserted (h : Steady c o) (hins : Inserted o hash num ph cs asm lvs i level co o')
    (hnew : o.parents.get? hash = none) (hbel : o.ParentBelow ph i)
    (hh : hash ∉ c') (hs : ph ≠ hash) (hsub : c ⊆ c')
    (hc' : ∀ z ∈ c', z ∈ c ∨ o.parents.get? z = none) (hfst : i = 0 → ph ∈ c') (w : List K) :
    Steady c' o' ∧ Carries c c' o o' w := by
  have hasi : o'.pinnedInsertions = o.pinnedInsertions := by rw [hins.result]
  have hpin : o'.pinned = o.pinned := by rw [hins.result]
  -- a block that was in the overlay keeps its parent, and does not become canonical
  have hold : ∀ z, (o.parents.get? z).isSome → z ∈ c' → z ∈ c := by
    intro z hz hmem
    refine (hc' z hmem).resolve_right fun hn => ?_
    rw [hn] at hz
    cases hz
  have hk : ∀ z e, o.pinnedInsertions.get? z = some e → (o.parents.get? z).isSome :=
    fun z e hz => h.known (.inr ⟨e, hz, rfl⟩)
  have hblk : ∀ x ∈ blocksOf o.levels, (o.parents.get? x.hash).isSome :=
    fun x hx => h.sound.accounts.parent_isSome hx
  refine ⟨⟨h.sound.inserted hins hnew hbel, fun x hx => ?_, fun a hlev y hy => ?_,
    ?_, ⟨fun z e hz hmem => ?_, fun z hz => ?_⟩, hpin ▸ h.bounded⟩, fun z keys hz hhas => .inl ?_,
    fun z keys hmem hnot hhas => absurd (hold z (h.known hhas) hmem) hnot, hsub⟩
  · cases mem_cons.mp (hins.blocksOf_perm.mem_iff.mp hx) with
    | inl heq => exact heq ▸ hh
    | inr hx => exact fun hmem => h.outside x hx (hold x.hash (hblk x hx) hmem)
  · obtain ⟨hi, rfl⟩ | hy := hins.mem_blocksAt.mp (mem_blocksAt.mpr ⟨a, hlev, hy⟩)
    · exact ⟨ph, hfst hi, hins.parents_self⟩
    · obtain ⟨l, hl, hy⟩ := mem_blocksAt.mp hy
      obtain ⟨p, hp, hpar⟩ := h.first l hl y hy
      refine ⟨p, hsub hp, (hins.parents_eq (hblk y ?_) hnew).trans hpar⟩
      exact mem_blocksOf.mpr ⟨0, l, hl, hy⟩
  · rw [hpin]
    exact h.flowing.congr hasi (fun z e hz => hins.parents_eq (hk z e hz) hnew) hsub
      (fun z e hz => hold z (hk z e hz)) fun _ _ _ _ => rfl
  · rw [hasi] at hz
    obtain ⟨p, hp, hpar⟩ := h.rootward.canonical z e hz (hold z (hk z e hz) hmem)
    exact ⟨p, hsub hp, (hins.parents_eq (hk z e hz) hnew).trans hpar⟩
  · by_cases hzh : z = hash
    · subst hzh
      rw [hins.parents_self] at hz
      exact hs (some.inj hz)
    · rw [hins.result] at hz
      exact h.rootward.irrefl z ((get?_insert_of_ne hzh).symm.trans hz)
  · refine ⟨?_, hins.parents_eq (h.known hhas) hnew⟩
    rcases hhas with ⟨x, hx, heq⟩ | ⟨e, he⟩
    · exact .inl ⟨x, hins.blocksOf_perm.mem_iff.mpr (mem_cons_of_mem _ hx), heq⟩
    · exact .inr ⟨e, by rw [hasi]; exact he⟩

end

/-! ## Pins -/

section
variable (h : Steady c o)

include h

/-- The overlay with other pins. -/
theorem repin (o' : Overlay H K V) (hbks : o'.toBooks = o.toBooks)
    (hl : o'.levels = o.levels) (hla : o'.lastCanonicalized = o.lastCanonicalized)
    (hbd : ∀ h r, o'.pinned.get? h = some r → 0 < r ∧ r < 2 ^ 32)
    (hpin : ∀ z e, o.pinnedInsertions.get? z = some e → z ∉ c →
      (o'.pinned.get? z).isSome = (o.pinned.get? z).isSome)
    (w : List K) : Steady c o' ∧ Carries c c o o' w := by
  have hsnd : o'.Sound := by
    refine h.sound.of_books hl ?_ hla
    unfold Overlay.Sheds
    rw [hbks, hl]
    exact .refl h.sound.accounts
  refine ⟨⟨hsnd, ?_, ?_, ?_, ?_, hbd⟩, fun z keys _ hhas => .inl ⟨?_, ?_⟩,
    fun z keys hmem hnot => absurd hmem hnot, fun _ hz => hz⟩
  · rw [hl]
    exact h.outside
  · rw [hl, hbks]
    exact h.first
  · rw [hbks]
    exact h.flowing.congr rfl (fun _ _ _ => rfl) (fun _ hz => hz) (fun _ _ _ hz => hz) hpin
  · rw [hbks]
    exact h.rootward
  · unfold Has
    rw [hl, hbks]
    exact hhas
  · rw [hbks]

theorem bounded_pin (hre : (o.pinned.get? hash).getD 0 + 1 < 2 ^ 32) (z : H) (r : Nat)
    (hr : (o.pin hash).pinned.get? z = some r) : 0 < r ∧ r < 2 ^ 32 := by
  obtain ⟨-, rfl⟩ | ⟨-, hr⟩ := of_get?_insert hr
  · rw [mod_eq_of_lt hre]
    exact ⟨succ_pos _, hre⟩
  · exact h.bounded z r hr

/-- A block is pinned that is not just kept aside for others. -/
theorem pin (hr : (o.pinned.get? hash).getD 0 + 1 < 2 ^ 32)
    (hpin : hash ∈ c ∨ o.pinnedInsertions.get? hash = none ∨ (o.pinned.get? hash).isSome)
    (w : List K) :
    Steady c (o.pin hash) ∧ Carries c c o (o.pin hash) w := by
  refine h.repin (o.pin hash) rfl rfl rfl (h.bounded_pin hr) (fun z e hz hcan => ?_) w
  show ((o.pinned.insert hash _).get? z).isSome = _
  rw [get?_insert]
  split
  next heq =>
    subst heq
    have hs := (hpin.resolve_left hcan).resolve_left (by rw [hz]; exact some_ne_none _)
    rw [hs]
    rfl
  · rfl

/-- The last pin of a block is gone, and the counts are not changed yet. -/
theorem owing (hpin : (o.pinned.get? hash).isSome) :
    Owing c (o.pinned.erase hash) o.toBooks hash where
  positive := h.flowing.positive
  upward := fun z e hz hcan => by
    obtain ⟨p, hp, hwh⟩ := h.flowing.upward z e hz hcan
    exact ⟨p, hp, hwh.imp_right fun hp => hp.resolve_left not_mem_nil⟩
  flow := fun z e hz hcan => by
    rw [h.flowing.flow z e hz hcan]
    unfold withSelf
    by_cases hzh : z = hash
    · subst hzh
      rw [if_pos hpin, if_neg (by simp), if_pos rfl]
    · rw [get?_erase_of_ne hzh, if_neg hzh]
      rfl

/-- The last pin of a block is released. -/
theorem unpin_last (hp : (o.pinned.get? hash).isSome)
    (hc : o' = { o with toBooks := o.toBooks.unpinFrom hash, pinned := o.pinned.erase hash })
    (w : List K) : Steady c o' ∧ Carries c c o o' w := by
  have hs : o.Sheds o' := by
    rw [hc]
    exact .unpinFrom h.sound.accounts hash
  have hl : o'.levels = o.levels := by rw [hc]
  have hrel : Released c o'.pinned o.toBooks o'.toBooks := by
    rw [hc]
    exact (h.owing hp).unpinFrom h.rootward fun z e hz => h.known (.inr ⟨e, hz, rfl⟩)
  have hstd : Steady c o' := by
    refine ⟨h.sound.of_books hl hs (by rw [hc]), ?_, fun l hlev y hy => ?_,
      hrel.flowing, hrel.rootward, fun z r hr => ?_⟩
    · rw [hl]
      exact h.outside
    · rw [hs.parents y (mem_blocksOf.mpr ⟨0, l, hlev, hy⟩)]
      exact h.first l (hl ▸ hlev) y hy
    · rw [hc] at hr
      exact h.bounded z r (of_get?_erase hr).2
  refine ⟨hstd, fun z keys hcan hhas => ?_, fun z keys hmem hnot => absurd hmem hnot,
    fun _ hz => hz⟩
  rcases hhas with ⟨x, hx, rfl, hk⟩ | ⟨e, he, hk⟩
  · rw [← hl] at hx
    exact .inl ⟨.inl ⟨x, hx, rfl, hk⟩, hs.parents x hx⟩
  cases he' : o'.pinnedInsertions.get? z with
  | some e' =>
    obtain ⟨⟨e0, he0, heq⟩, hpa⟩ := hrel.aside z e' he'
    cases he.symm.trans he0
    exact .inl ⟨.inr ⟨e', he', heq ▸ hk⟩, hpa⟩
  | none =>
    -- dropped: nothing that is left is on top of it
    obtain ⟨hpin, hch⟩ := hrel.dropped z hcan (by rw [he]; rfl) he'
    refine .inr ⟨hpin, fun y keys' hy hh' => ?_⟩
    rcases hh' with ⟨x, hx, rfl, -⟩ | ⟨e', he', -⟩
    · exact hstd.parent_ne hx hcan fun y hy =>
        (h.sound.accounts.aside_ne he (hl ▸ hy)).symm
    · exact hch y hy (by rw [he']; rfl)

/-- A pin is released. -/
theorem unpin (hash : H) (w : List K) :
    (Steady c (o.unpin hash) ∧ Carries c c o (o.unpin hash) w) ∧
      ∀ z, ((o.unpin hash).pinned.get? z).getD 0 =
        if z = hash then (o.pinned.get? z).getD 0 - 1 else (o.pinned.get? z).getD 0 := by
  cases hr : o.pinned.get? hash with
  | none =>
    have hc : o.unpin hash = o := by rw [Overlay.unpin, hr]
    rw [hc]
    refine ⟨h.repin o rfl rfl rfl h.bounded (fun _ _ _ _ => rfl) w, fun z => ?_⟩
    split
    next heq => rw [heq, hr, getD_none]
    · rfl
  | some r =>
    obtain ⟨hpos, hlt⟩ := h.bounded hash r hr
    have hc : o.unpin hash = if r - 1 = 0 then
        { o with toBooks := o.toBooks.unpinFrom hash, pinned := o.pinned.erase hash }
        else { o with pinned := o.pinned.insert hash (r - 1) } := by
      rw [Overlay.unpin, hr]
      dsimp only
      have heq : r + (2 ^ 32 - 1) = r - 1 + 2 ^ 32 := by omega
      rw [heq, add_mod_right, mod_eq_of_lt (by omega)]
    by_cases hl : r - 1 = 0
    · rw [if_pos hl] at hc
      refine ⟨h.unpin_last (by rw [hr]; rfl) hc w, fun z => ?_⟩
      rw [hc]
      rw [get?_erase]
      split
      next heq => rw [heq, hr, getD_none, getD_some, hl]
      · rfl
    rw [if_neg hl] at hc
    rw [hc]
    refine ⟨h.repin { o with pinned := o.pinned.insert hash (r - 1) } rfl rfl rfl
      (fun z r' hr' => ?_) (fun z e hz _ => ?_) w, fun z => ?_⟩
    · obtain ⟨-, rfl⟩ | ⟨-, hr'⟩ := of_get?_insert hr'
      · omega
      · exact h.bounded z r' hr'
    · show ((o.pinned.insert hash (r - 1)).get? z).isSome = _
      rw [get?_insert]
      split
      next heq => rw [heq, hr]; rfl
      · rfl
    · show ((o.pinned.insert hash (r - 1)).get? z).getD 0 = _
      rw [get?_insert]
      split
      next heq => rw [heq, hr]; rfl
      · rfl

end

/-! ## Canonicalization -/

/-- The overlay in the middle of `canonicalize`, as far as pins go. A block that was in the overlay
is in a level, or left in the first one, or kept aside, or nothing needs it. -/
structure Settling (o0 : Overlay H K V) (canon : List H) (pinned : FinMap H Nat) (hash : H)
    (s : Canonicalization H K V) (rest : List (BlockOverlay H K)) :
    Prop where
  canonicalizing : Overlay.Canonicalizing o0 hash s rest
  unique : ∀ {x y}, x ∈ blocksOf o0.levels → y ∈ blocksOf o0.levels → x.hash = y.hash → x = y
  outside : ∀ y ∈ blocksOf s.1.levels, y.hash ∉ canon
  left : ∀ x ∈ rest, (x.hash ∈ canon ↔ x.hash = hash) ∧
    ∃ p ∈ canon, s.1.parents.get? x.hash = some p
  flowing : Flowing canon [] pinned s.1.toBooks
  rootward : Rootward canon s.1.toBooks
  pinned_eq : s.1.pinned = pinned
  pending_eq : s.1.pinnedCanonicalized = o0.pinnedCanonicalized ++ [hash]
  aside : ∀ z e, o0.pinnedInsertions.get? z = some e → s.1.pinnedInsertions.get? z = some e
  settled : ∀ x ∈ blocksOf o0.levels, x.hash ∉ canon →
    x ∈ blocksOf s.1.levels ++ rest ∨ (s.1.pinnedInsertions.get? x.hash).isSome ∨
      pinned.get? x.hash = none ∧ s.1.inflow canon x.hash = 0
  written : ∀ x ∈ blocksOf o0.levels, x.hash = hash →
    x ∈ rest ∨ ∀ k ∈ x.inserted, k ∈ s.2.1.inserted.map fst

omit [DecidableEq H] in
/-- The keys that are read for the database are those of the block. -/
theorem map_fst_of_mapM {vs : FinMap K (Nat × V)} {l : List (K × V)}
    (h : keys.mapM (fun k => (vs.get? k).map fun v => (k, v.2)) = some l) :
    l.map fst = keys := by
  induction keys generalizing l with
  | nil =>
    cases h
    rfl
  | cons k keys ih =>
    rw [mapM_cons] at h
    obtain ⟨kv, hkv, h⟩ := bind_eq_some_iff.mp h
    obtain ⟨rest, hrest, h⟩ := bind_eq_some_iff.mp h
    cases h
    obtain ⟨v, -, rfl⟩ := map_eq_some_iff.mp hkv
    rw [map_cons, ih hrest]

/-- One block of the first level. -/
theorem Settling.step {o0 : Overlay H K V}
    {s s' : Canonicalization H K V} {rest : List (BlockOverlay H K)}
    (h : Settling o0 c pi hash s (x :: rest)) (hx : Processes hash s x s') :
    Settling o0 c pi hash s' rest := by
  have hcan := h.canonicalizing.step hx
  have ha := h.canonicalizing.sheds.accounts
  have hsub := h.canonicalizing.sheds.subset
  have hh := ha.perm perm_middle
  obtain ⟨hxc, p, hpc, hp⟩ := h.left x mem_cons_self
  obtain ⟨o, data, js⟩ := s
  obtain ⟨o', data', js'⟩ := s'
  have hpinned_eq : o.pinned = pi := h.pinned_eq
  -- the parents of the blocks that are left are those they were
  have hl : ∀ y ∈ rest, (y.hash ∈ c ↔ y.hash = hash) ∧
      ∃ p ∈ c, o'.parents.get? y.hash = some p := by
    intro y hy
    obtain ⟨hyc, q, hq, hpar⟩ := h.left y (mem_cons_of_mem _ hy)
    refine ⟨hyc, q, hq, ((hx.sheds ha).parents y ?_).trans hpar⟩
    exact mem_append_right _ hy
  have hoth : ∀ y ∈ blocksOf o0.levels, y.hash = hash → y ∈ rest ∨ y = x ∨
      ∀ k ∈ y.inserted, k ∈ data.inserted.map fst := by
    intro y hy heq
    rcases h.written y hy heq with hmem | hw
    · exact (mem_cons.mp hmem).elim (.inr ∘ .inl) .inl
    · exact .inr (.inr hw)
  cases hx with
  | canonical heq hins =>
    have hxm := hxc.mpr heq
    refine ⟨hcan, h.unique, h.outside, hl, h.flowing.settle_canonical hh hxm,
      ⟨fun z e hz hmem => ?_, fun z hz => h.rootward.irrefl z (parents_settle hz)⟩,
      h.pinned_eq, h.pending_eq,
      fun z e hz => (aside_settle_of_aside hh (h.aside z e hz)).1,
      fun y hy hyc => ?_, fun y hy hyh => ?_⟩
    · rcases aside_settle hz with ⟨rfl, hpos, -⟩ | hz
      · rw [(aside_settle_self hpos).2]
        exact ⟨p, hpc, hp⟩
      · rw [(aside_settle_of_aside hh hz).2]
        exact h.rootward.canonical z e hz hmem
    · rcases h.settled y hy hyc with hmem | hso | ⟨hpin, hfl⟩
      · refine .inl ?_
        rcases mem_append.mp hmem with hmem | hmem
        · exact mem_append_left _ hmem
        · cases mem_cons.mp hmem with
          | inl hyx => exact absurd (hyx ▸ hxm) hyc
          | inr hmem => exact mem_append_right _ hmem
      · exact .inr (.inl (isSome_settle hh hso))
      · refine .inr (.inr ⟨hpin, ?_⟩)
        rw [inflow_settle hh, if_neg fun hnot => hnot.1 hxm]
        exact hfl
    · rcases hoth y hy hyh with hmem | rfl | hw
      · exact .inl hmem
      · refine .inr fun k hk => ?_
        rw [map_append, map_fst_of_mapM hins]
        exact mem_append_right _ hk
      · refine .inr fun k hk => ?_
        rw [map_append]
        exact mem_append_left _ (hw k hk)
  | @discarded _ _ _ keys _ n lvs b hne hkeys hdi =>
    rw [hpinned_eq] at hdi hcan hl ⊢
    have hxn : x.hash ∉ c := mt hxc.mp hne
    have hs := hdi.sheds (x :: rest) ha
    have ha' := hs.accounts.perm perm_middle
    have hp' : b.parents.get? x.hash = some p := (hs.parents x (by simp)).trans hp
    have hpx : p ≠ x.hash := fun heq => hxn (heq ▸ hpc)
    have hdr := hdi.drained (x :: rest) [x.hash] ha (by simp) (by simp) h.outside
      (h.flowing.mono (nil_subset _)) fun y hy =>
        h.flowing.inflow_eq_zero (h.outside y hy) (ha.apart y (mem_append_left _ hy))
    have hn : b.inflow c x.hash = n := by
      rw [hdr.total, h.flowing.inflow_eq_zero hxn (ha.apart x (by simp)), Nat.zero_add]
    have hf := hdr.flowing.settle ha' hp' hpx (.inl hpc) (.inl hpc)
    rw [hn] at hf
    -- the block is on a canonical one, so nothing flows from it
    have hfl : ∀ z, z ∉ c → (b.settle x (withSelf pi x.hash n)).inflow c z = b.inflow c z := by
      intro z hz
      rw [inflow_settle ha', if_neg, Nat.add_zero]
      rintro ⟨-, hpz⟩
      cases hp'.symm.trans hpz
      exact hz hpc
    refine ⟨hcan, h.unique, fun y hy => h.outside y (hdi.subset hy), hl, hf,
      ⟨fun z e hz hmem => ?_, fun z hz => h.rootward.irrefl z
        (hdi.parents_of_some (parents_settle hz))⟩, rfl, h.pending_eq,
      fun z e hz => (aside_settle_of_aside ha' (hdi.aside _ ha (h.aside z e hz)).1).1,
      fun y hy hyc => ?_, fun y hy hyh => ?_⟩
    · -- a canonical block that is kept aside was so before
      rcases aside_settle hz with ⟨rfl, -, -⟩ | hz
      · exact absurd hmem hxn
      rw [(aside_settle_of_aside ha' hz).2, hs.aside_parents z e hz]
      rcases hs.aside z e hz with ⟨e0, he0, -⟩ | ⟨y, hy, rfl, -⟩
      · exact h.rootward.canonical z e0 he0 hmem
      · rcases mem_append.mp hy with hy | hy
        · exact absurd hmem (h.outside y hy)
        · exact absurd rfl (hs.accounts.aside_ne hz (mem_append_right _ hy))
    · by_cases hthr : y ∈ blocksOf o.levels ++ x :: rest
      · rcases mem_append.mp hthr with hmem | hmem
        · by_cases hst : y ∈ blocksOf lvs
          · exact .inl (mem_append_left _ hst)
          · rw [hfl y.hash hyc]
            exact .inr ((hdr.dropped y hmem hst).imp_left (isSome_settle ha'))
        cases mem_cons.mp hmem with
        | inr hmem => exact .inl (mem_append_right _ hmem)
        | inl heq =>
          subst heq
          rw [hfl y.hash hyc, hn]
          by_cases hze : withSelf pi y.hash n = 0
          · exact .inr (.inr (withSelf_eq_zero hze).symm)
          · refine .inr (.inl ?_)
            rw [(aside_settle_self hze).1]
            rfl
      · rw [hfl y.hash hyc]
        rcases h.settled y hy hyc with hmem | hso | ⟨hpin, hze⟩
        · exact absurd hmem hthr
        · obtain ⟨e, he⟩ := isSome_iff_exists.mp hso
          refine .inr (.inl (isSome_settle ha' ?_))
          rw [(hdi.aside _ ha he).1]
          rfl
        -- a block that was dropped before has another hash
        have ho : ∀ z ∈ blocksOf o.levels ++ x :: rest, z.hash ≠ y.hash := by
          intro z hz heq
          exact hthr (h.unique (hsub hz) hy heq ▸ hz)
        refine .inr (.inr ⟨hpin, ?_⟩)
        rw [hdr.same y.hash (ho x (by simp)).symm]
        · exact hze
        · intro hmem
          obtain ⟨z, hz, heq⟩ := mem_map.mp hmem
          exact ho z (mem_append_left _ hz) heq
    · rcases hoth y hy hyh with hmem | rfl | hw
      · exact .inl hmem
      · exact absurd hyh hne
      · exact .inr hw

/-- The loop starts with the first level out and the block pinned. -/
theorem settling (h : Steady c o) {l : OverlayLevel H K} {a : List (OverlayLevel H K)}
    (hl : o.levels = l :: a) (hh : hash ∈ l.blocks.map BlockOverlay.hash) (d : ChangeSet K V) :
    Settling o (hash :: c) (o.pin hash).pinned hash (o.forced hash a, d, []) l.blocks := by
  obtain ⟨top, htop, rfl⟩ := mem_map.mp hh
  have ha := h.sound.accounts
  rw [hl] at ha
  have hlev : ∀ x ∈ l.blocks, x ∈ blocksOf o.levels := by
    intro x hx
    rw [hl]
    exact mem_append_left _ hx
  have habv : ∀ x ∈ blocksOf a, x ∈ blocksOf o.levels := by
    intro x hx
    rw [hl]
    exact mem_append_right _ hx
  -- the block is in a level, so it is not kept aside
  have hasi : ∀ z e, o.pinnedInsertions.get? z = some e → z ≠ top.hash :=
    fun z e hz => h.sound.accounts.aside_ne hz (hlev top htop)
  have hmem : ∀ z e, o.pinnedInsertions.get? z = some e → z ∈ top.hash :: c → z ∈ c :=
    fun z e hz hmem => (mem_cons.mp hmem).resolve_left (hasi z e hz)
  refine ⟨h.sound.canonicalizing hl top.hash d, h.sound.accounts.eq_of_hash, fun y hy => ?_,
    fun x hx => ⟨?_, ?_⟩, ?_, ⟨fun z e hz hz' => ?_, h.rootward.irrefl⟩, rfl, rfl,
    fun _ _ hz => hz, fun x hx _ => .inl ?_, fun x hx heq => .inl ?_⟩
  · rw [mem_cons, not_or]
    exact ⟨(ha.hash_ne_append htop hy).symm, h.outside y (habv y hy)⟩
  · rw [mem_cons, or_iff_left (h.outside x (hlev x hx))]
  · obtain ⟨p, hp, hpar⟩ := h.first l (by rw [hl]; rfl) x hx
    exact ⟨p, mem_cons_of_mem _ hp, hpar⟩
  · refine h.flowing.congr rfl (fun _ _ _ => rfl) (subset_cons_self _ _) hmem fun z e hz _ => ?_
    show ((o.pinned.insert top.hash _).get? z).isSome = _
    rw [get?_insert_of_ne (hasi z e hz)]
  · obtain ⟨p, hp, hpar⟩ := h.rootward.canonical z e hz (hmem z e hz hz')
    exact ⟨p, mem_cons_of_mem _ hp, hpar⟩
  · rw [hl] at hx
    exact (perm_append_comm.mem_iff).mp hx
  · rw [hl] at hx
    cases mem_append.mp hx with
    | inl hx => exact hx
    | inr hx => exact absurd heq.symm (ha.hash_ne_append htop hx)

/-- A block of the overlay after `canonicalize`. -/
theorem Settling.carries {d : ChangeSet K V} {js : List (Nat × Nat)}
    (h : Steady c o) (hend : Settling o (hash :: c) pi hash (o', d, js) [])
    (hstd : Steady (hash :: c) o') (hblk : ∃ x ∈ blocksOf o.levels, x.hash = hash)
    (hpar : ∃ p ∈ c, o.parents.get? hash = some p) (hw : ∀ k ∈ d.inserted.map fst, k ∈ written) :
    Carries c (hash :: c) o o' written := by
  have hs := hend.canonicalizing.sheds
  rw [append_nil] at hs
  have hpi : o'.pinned = pi := hend.pinned_eq
  refine ⟨fun z keys hz hhas => ?_, fun z keys hz hnot hhas => ?_, subset_cons_self _ _⟩
  · -- what is kept aside has the keys of the block
    rcases hhas with ⟨x, hx, rfl, hke⟩ | ⟨e, he, hke⟩
    · rcases hend.settled x hx hz with hmem | hso | ⟨hpin, hf⟩
      · rw [append_nil] at hmem
        exact .inl ⟨.inl ⟨x, hmem, rfl, hke⟩, hs.parents x hmem⟩
      · obtain ⟨e, he⟩ := isSome_iff_exists.mp hso
        refine .inl ⟨.inr ⟨e, he, ?_⟩, hs.aside_parents x.hash e he⟩
        rcases hs.aside x.hash e he with ⟨e0, he0, -⟩ | ⟨y, hy, heq, hins⟩
        · exact absurd rfl (h.sound.accounts.aside_ne he0 hx)
        · rw [← hins, hend.unique hy hx heq]
          exact hke
      · -- nothing that is left is on top of it
        by_cases hmem : x ∈ blocksOf o'.levels
        · exact .inl ⟨.inl ⟨x, hmem, rfl, hke⟩, hs.parents x hmem⟩
        refine .inr ⟨by rw [hpi]; exact hpin, fun y keys' hy hh' => ?_⟩
        rcases hh' with ⟨y, hy', rfl, -⟩ | ⟨e, he, -⟩
        · refine hstd.parent_ne hy' hz fun y' hy' heq => hmem ?_
          exact hend.unique (hs.subset hy') hx heq ▸ hy'
        intro hpar
        have hle := Books.le_inflow he hy hpar
        have hpos := hend.flowing.positive y e he
        have hzero : o'.inflow (hash :: c) x.hash = 0 := hf
        omega
    · have he' := hend.aside z e he
      exact .inl ⟨.inr ⟨e, he', hke⟩, hs.aside_parents z e he'⟩
  · -- the block that became canonical
    have heq := (mem_cons.mp hz).resolve_right hnot
    subst heq
    obtain ⟨p, hp, hpar⟩ := hpar
    refine ⟨fun k hk => hw k ?_, fun q hq => ?_⟩
    · rcases hhas with ⟨x, hx, heq, rfl⟩ | ⟨e, he, -⟩
      · exact (hend.written x hx heq).resolve_left not_mem_nil k hk
      · obtain ⟨x, hx, heq⟩ := hblk
        exact absurd heq.symm (h.sound.accounts.aside_ne he hx)
    · cases hpar.symm.trans hq
      exact hp

/-- A canonicalization: nothing happens, or the block is canonical from now on. -/
theorem canonicalize (h : Steady c o) {co c' : CommitSet H K V}
    {r : Except StateDbError Nat} (hsel : o.Selects hash)
    (hr : (o.pinned.get? hash).getD 0 + 1 < 2 ^ 32) (hc : o.canonicalize hash co = some (r, o', c'))
    (hw : ∀ k ∈ c'.data.inserted.map fst, k ∈ written) :
    (r.toBool = false ∧ (Steady c o' ∧ Carries c c o o' written) ∧
        o'.pinned = o.pinned ∧ o'.pinnedCanonicalized = o.pinnedCanonicalized) ∨
      (r.toBool = true ∧
        (Steady (hash :: c) o' ∧ Carries c (hash :: c) o o' written) ∧
        o'.pinned = (o.pin hash).pinned ∧
        o'.pinnedCanonicalized = o.pinnedCanonicalized ++ [hash]) := by
  have hsnd := (h.sound.canonicalize hsel hc).1
  rcases canonicalize_cases (fun _ => h.sound.first_unique) hc with
    ⟨-, rfl, rfl, -⟩ | ⟨level, above, hl,
      ⟨hnot, rfl, rfl, -⟩ | ⟨hhash, o1, data, js, rfl, rfl, rfl, hloop⟩⟩
  · exact .inl ⟨rfl, h.repin o' rfl rfl rfl h.bounded (fun _ _ _ _ => rfl) written, rfl, rfl⟩
  · -- the level that is lost has no blocks
    have hnil : level.blocks = [] := by
      refine (hsel level ?_).resolve_right hnot
      rw [hl]
      rfl
    have hb : blocksOf above = blocksOf o.levels := by
      rw [hl, blocksOf_cons, hnil, nil_append]
    refine .inl ⟨rfl, ⟨⟨hsnd, ?_, fun a hfst y hy => ?_, h.flowing, h.rootward, h.bounded⟩,
      fun z keys _ hhas => .inl ⟨?_, rfl⟩, fun z keys hz hnot => absurd hz hnot,
      fun _ hz => hz⟩, rfl, rfl⟩
    · rw [hb]
      exact h.outside
    · have hch := h.sound.chained 0 level a (by rw [hl]; rfl) (by rw [hl]; exact hfst) y hy
      rw [hnil] at hch
      obtain ⟨x, hx, -⟩ := hch
      cases hx
    · unfold Has at hhas ⊢
      rwa [hb]
  · have hend := hloop (Settling o (hash :: c) (o.pin hash).pinned hash)
      (fun _ _ _ _ => Settling.step) (h.settling hl hhash co.data)
    have hpin : o1.pinned = (o.pin hash).pinned := hend.pinned_eq
    have hstd : Steady (hash :: c)
        { o1 with lastCanonicalized := some (hash, o1.frontBlockNumber) } := by
      refine ⟨hsnd, hend.outside, fun a hfst y hy => ?_, ?_, hend.rootward, ?_⟩
      · exact ⟨hash, mem_cons_self, hsnd.rooted a hash _ hfst rfl y hy⟩
      · rw [hpin]
        exact hend.flowing
      · rw [hpin]
        exact h.bounded_pin hr
    obtain ⟨x, hx, rfl⟩ := mem_map.mp hhash
    have hxm : x ∈ blocksOf o.levels := by
      rw [hl]
      exact mem_append_left _ hx
    obtain ⟨p, hp, hpar⟩ := h.first level (by rw [hl]; rfl) x hx
    have hend' : Settling o (x.hash :: c) (o.pin x.hash).pinned x.hash
        ({ o1 with lastCanonicalized := some (x.hash, o1.frontBlockNumber) }, data, js) [] :=
      ⟨⟨hend.canonicalizing.sheds, hend.canonicalizing.chained, hend.canonicalizing.rooted⟩,
        hend.unique, hend.outside, hend.left, hend.flowing, hend.rootward, hend.pinned_eq,
        hend.pending_eq, hend.aside, hend.settled, hend.written⟩
    exact .inr ⟨rfl, ⟨hstd, hend'.carries h hstd ⟨x, hxm, rfl⟩ ⟨p, hp, hpar⟩ hw⟩,
      hpin, hend.pending_eq⟩

end Steady

end StateDb
