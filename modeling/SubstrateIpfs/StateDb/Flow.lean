-- SUMMARY: The pin counts of blocks kept aside, and what discarding and unpinning do to them.
import SubstrateIpfs.StateDb.Calls

/-!
# Pin counts

A block that is kept aside has a count of the pins on it and on its descendants. Said for one block
at a time: its count is one for its own pin plus the counts of its children that are kept aside.
`discard_descendants` builds the counts so, and `unpin` takes one off along the parents, where at
every moment the count of exactly one block is one too high.

Canonical blocks, which are kept aside for another reason, are left out.
-/

namespace StateDb

open List Option FinMap Books

variable {H K V : Type} [DecidableEq H] [DecidableEq K] {e : List K × Nat} {h : H} {z p : H}

/-- The counts of the children of a block that are kept aside. -/
def Books.inflow (canon : List H) (b : Books H K V) (hash : H) : Nat :=
  b.pinnedInsertions.total fun z e =>
    if z ∉ canon ∧ b.parents.get? z = some hash then e.2 else 0

section
omit [DecidableEq K]

/-- A child that is kept aside. -/
theorem Books.le_inflow {c : List H} {b : Books H K V} {hash : H}
    (hz : b.pinnedInsertions.get? z = some e) (hcan : z ∉ c)
    (hpar : b.parents.get? z = some hash) : e.2 ≤ b.inflow c hash := by
  have hle := le_total (f := fun z e =>
    if z ∉ c ∧ b.parents.get? z = some hash then e.2 else 0) hz
  rwa [if_pos ⟨hcan, hpar⟩] at hle

theorem withSelf_eq {pi : FinMap H Nat} {hash : H} {n : Nat} :
    withSelf pi hash n = n + withSelf pi hash 0 := by
  unfold withSelf
  split <;> omega

theorem withSelf_eq_zero {pi : FinMap H Nat} {hash : H} {n : Nat}
    (h : withSelf pi hash n = 0) : n = 0 ∧ pi.get? hash = none := by
  unfold withSelf at h
  split at h
  · omega
  next hn => exact ⟨h, by simpa using hn⟩

end

/-- The counts are right. A block that is kept aside has a parent that is canonical, or kept aside
too, or waiting for its descendants to be discarded. -/
structure Flowing (canon waiting : List H) (pinned : FinMap H Nat) (b : Books H K V) : Prop where
  positive : ∀ h e, b.pinnedInsertions.get? h = some e → 0 < e.2
  upward : ∀ h e, b.pinnedInsertions.get? h = some e → h ∉ canon →
    ∃ p, b.parents.get? h = some p ∧ (p ∈ canon ∨ p ∈ waiting ∨ (b.pinnedInsertions.get? p).isSome)
  flow : ∀ h e, b.pinnedInsertions.get? h = some e → h ∉ canon →
    e.2 = withSelf pinned h (b.inflow canon h)

namespace Flowing

variable {c w : List H} {pi : FinMap H Nat} {b : Books H K V}
  {bs : List (BlockOverlay H K)} {x : BlockOverlay H K} {n : Nat}

section
omit [DecidableEq K]

theorem mono {w' : List H} (h : Flowing c w pi b) (hsub : w ⊆ w') : Flowing c w' pi b where
  positive := h.positive
  upward := fun z e hz hcan => by
    obtain ⟨p, hp, hwh⟩ := h.upward z e hz hcan
    exact ⟨p, hp, hwh.imp_right (Or.imp_left fun hp => hsub hp)⟩
  flow := h.flow

/-- Nothing flows to a block that is in a level. -/
theorem inflow_eq_zero (h : Flowing c [] pi b) {hash : H} (hcan : hash ∉ c)
    (hn : b.pinnedInsertions.get? hash = none) : b.inflow c hash = 0 := by
  refine total_eq_zero fun z e hz => if_neg ?_
  rintro ⟨hzc, hpar⟩
  obtain ⟨p, hp, hwh⟩ := h.upward z e hz hzc
  cases hpar.symm.trans hp
  rcases hwh with hp | hp | hp
  · exact hcan hp
  · cases hp
  · rw [hn] at hp
    cases hp

/-- The same blocks are kept aside, with the same parents and the same pins. -/
theorem congr {c' : List H} {p' : FinMap H Nat} {b' : Books H K V}
    (h : Flowing c w pi b) (hasi : b'.pinnedInsertions = b.pinnedInsertions)
    (hpa : ∀ z e, b.pinnedInsertions.get? z = some e → b'.parents.get? z = b.parents.get? z)
    (hsub : c ⊆ c') (hcan : ∀ z e, b.pinnedInsertions.get? z = some e → z ∈ c' → z ∈ c)
    (hpin : ∀ z e, b.pinnedInsertions.get? z = some e → z ∉ c →
      (p'.get? z).isSome = (pi.get? z).isSome) :
    Flowing c' w p' b' := by
  have hf : ∀ hash, b'.inflow c' hash = b.inflow c hash := by
    intro hash
    unfold inflow
    rw [hasi]
    refine total_congr fun z e hz => ?_
    have hiff : z ∉ c' ↔ z ∉ c := not_congr ⟨hcan z e hz, fun hmem => hsub hmem⟩
    simp only [hpa z e hz, hiff]
  refine ⟨fun z e hz => ?_, fun z e hz hc' => ?_, fun z e hz hc' => ?_⟩
  all_goals rw [hasi] at hz
  · exact h.positive z e hz
  · obtain ⟨p, hp, hwh⟩ := h.upward z e hz fun hmem => hc' (hsub hmem)
    rw [hasi]
    exact ⟨p, (hpa z e hz).trans hp, hwh.imp_left fun hmem => hsub hmem⟩
  · have hnot : z ∉ c := fun hmem => hc' (hsub hmem)
    rw [hf, h.flow z e hz hnot]
    unfold withSelf
    rw [hpin z e hz hnot]

end

/-! ## Settling a block -/

/-- What a settled block adds to its parent. -/
theorem inflow_settle (ha : b.Accounts (x :: bs)) (n : Nat) (hash : H) :
    (b.settle x n).inflow c hash = b.inflow c hash +
      if x.hash ∉ c ∧ b.parents.get? x.hash = some hash then n else 0 := by
  have hn := ha.apart x mem_cons_self
  unfold settle
  split
  · show total _ (b.pinnedInsertions.insert x.hash (x.inserted, n)) = _
    rw [total_insert, erase_of_none hn, Nat.add_comm]
    rfl
  rename_i hze
  rw [not_not] at hze
  have hif : (if x.hash ∉ c ∧ b.parents.get? x.hash = some hash then n else 0) = 0 := by
    rw [hze, ite_self]
  rw [hif, Nat.add_zero]
  refine total_congr fun z e hz => ?_
  show (if z ∉ c ∧ (b.parents.erase x.hash).get? z = some hash then e.2 else 0) = _
  rw [get?_erase_of_ne (ha.aside_ne hz mem_cons_self)]

/-- What is kept aside after a block is settled. -/
theorem aside_settle (he : (b.settle x n).pinnedInsertions.get? h = some e) :
    (h = x.hash ∧ n ≠ 0 ∧ e = (x.inserted, n)) ∨ b.pinnedInsertions.get? h = some e := by
  unfold settle at he
  split at he
  next hn =>
    obtain ⟨heq, rfl⟩ | ⟨-, he⟩ := of_get?_insert he
    · exact .inl ⟨heq, hn, rfl⟩
    · exact .inr he
  · exact .inr he

theorem aside_settle_of_aside (ha : b.Accounts (x :: bs))
    (he : b.pinnedInsertions.get? h = some e) :
    (b.settle x n).pinnedInsertions.get? h = some e ∧
      (b.settle x n).parents.get? h = b.parents.get? h := by
  have hne := ha.aside_ne he mem_cons_self
  unfold settle
  split
  · exact ⟨(get?_insert_of_ne hne).trans he, rfl⟩
  · exact ⟨he, get?_erase_of_ne hne⟩

theorem isSome_settle (ha : b.Accounts (x :: bs)) (hs : (b.pinnedInsertions.get? h).isSome) :
    ((b.settle x n).pinnedInsertions.get? h).isSome := by
  obtain ⟨e, he⟩ := isSome_iff_exists.mp hs
  rw [(aside_settle_of_aside ha he).1]
  rfl

theorem aside_settle_self (hn : n ≠ 0) :
    (b.settle x n).pinnedInsertions.get? x.hash = some (x.inserted, n) ∧
      (b.settle x n).parents = b.parents := by
  unfold settle
  rw [if_pos hn]
  exact ⟨get?_insert_self, rfl⟩

/-- A parent that is recorded after a block is settled was recorded before. -/
theorem parents_settle (hp : (b.settle x n).parents.get? h = some p) :
    b.parents.get? h = some p := by
  unfold settle at hp
  split at hp
  · exact hp
  · exact (of_get?_erase hp).2

/-- A block whose descendants are settled. -/
theorem settle (h : Flowing c (x.hash :: w) pi b) (ha : b.Accounts (x :: bs))
    (hp : b.parents.get? x.hash = some p) (hpx : p ≠ x.hash) (hwh : p ∈ c ∨ p ∈ w)
    (hasi : p ∈ c ∨ b.pinnedInsertions.get? p = none) :
    Flowing c w pi (b.settle x (withSelf pi x.hash (b.inflow c x.hash))) := by
  generalize hn : withSelf pi x.hash (b.inflow c x.hash) = n
  refine ⟨fun z e hz => ?_, fun z e hz hcan => ?_, fun z e hz hcan => ?_⟩
  · rcases aside_settle hz with ⟨-, hpos, rfl⟩ | hz
    · exact Nat.pos_of_ne_zero hpos
    · exact h.positive z e hz
  · rcases aside_settle hz with ⟨rfl, hpos, rfl⟩ | hz
    · refine ⟨p, ?_, hwh.imp_right .inl⟩
      rw [(aside_settle_self hpos).2]
      exact hp
    obtain ⟨q, hq, hqw⟩ := h.upward z e hz hcan
    refine ⟨q, (aside_settle_of_aside ha hz).2.trans hq, ?_⟩
    rcases hqw with hq' | hq' | hq'
    · exact .inl hq'
    · cases mem_cons.mp hq' with
      | inr hq' => exact .inr (.inl hq')
      | inl heq =>
        -- a block with a child that is kept aside is kept aside
        subst heq
        have hch := le_inflow hz hcan hq
        have hcnt := h.positive z e hz
        have hpos : n ≠ 0 := by
          intro hze
          rw [hze] at hn
          have := (withSelf_eq_zero hn).1
          omega
        rw [(aside_settle_self hpos).1]
        exact .inr (.inr rfl)
    · exact .inr (.inr (isSome_settle ha hq'))
  · rw [inflow_settle ha]
    rcases aside_settle hz with ⟨rfl, -, rfl⟩ | hz
    · rw [if_neg (by simp [hp, hpx])]
      exact hn.symm
    have hne : ¬ (x.hash ∉ c ∧ b.parents.get? x.hash = some z) := by
      rintro ⟨-, hpz⟩
      cases hp.symm.trans hpz
      rcases hasi with hpc | hpn
      · exact hcan hpc
      · rw [hpn] at hz
        cases hz
    rw [if_neg hne]
    exact h.flow z e hz hcan

/-- A canonical block. -/
theorem settle_canonical (h : Flowing c w pi b) (ha : b.Accounts (x :: bs))
    (hx : x.hash ∈ c) : Flowing c w pi (b.settle x n) := by
  refine ⟨fun z e hz => ?_, fun z e hz hcan => ?_, fun z e hz hcan => ?_⟩
  · rcases aside_settle hz with ⟨-, hpos, rfl⟩ | hz
    · exact Nat.pos_of_ne_zero hpos
    · exact h.positive z e hz
  all_goals
    rcases aside_settle hz with ⟨rfl, -, -⟩ | hz
    · exact absurd hx hcan
  · obtain ⟨q, hq, hqw⟩ := h.upward z e hz hcan
    exact ⟨q, (aside_settle_of_aside ha hz).2.trans hq,
      hqw.imp_right (Or.imp_right (isSome_settle ha))⟩
  · rw [inflow_settle ha, if_neg (fun hnot => hnot.1 hx)]
    exact h.flow z e hz hcan

end Flowing

/-! ## Discarding descendants -/

section
variable {c : List H} {pi : FinMap H Nat} {ls ls' : List (OverlayLevel H K)}
  {b b' : Books H K V} {hash : H} {n : Nat}

/-- What was kept aside still is. -/
theorem Discards.aside (h : Discards pi ls b hash n ls' b')
    (bs : List (BlockOverlay H K)) (ha : b.Accounts (blocksOf ls ++ bs))
    (hz : b.pinnedInsertions.get? z = some e) :
    b'.pinnedInsertions.get? z = some e ∧ b'.parents.get? z = b.parents.get? z := by
  induction h generalizing bs with
  | done => exact ⟨hz, rfl⟩
  | @child level level' rem r' ls' b b1 b' hash i m n x hpar hrem habv
      hrest iha ihr =>
    obtain ⟨-, -, hp⟩ := OverlayLevel.remove_eq hrem
    have hout := (remove_perm hp bs rem).1
    have hin := (remove_perm hp bs r').2
    have h1 := (habv.sheds _ (ha.perm hout)).accounts.perm hin
    obtain ⟨hz', hpa⟩ := iha _ (ha.perm hout) hz
    obtain ⟨hz2, hpars'⟩ := Flowing.aside_settle_of_aside h1 hz'
    obtain ⟨hz3, hpars3⟩ := ihr bs (Sheds.settle h1 _).accounts hz2
    exact ⟨hz3, (hpars3.trans hpars').trans hpa⟩

theorem Discards.parents_of_some (h : Discards pi ls b hash n ls' b')
    (hp : b'.parents.get? z = some p) : b.parents.get? z = some p := by
  induction h with
  | done => exact hp
  | child _ _ _ _ i ihr => exact i (Flowing.parents_settle (ihr hp))

/-- The books after the descendants of `hash` are gone, as far as counts go. -/
structure Drained (canon waiting : List H) (pinned : FinMap H Nat)
    (levels levels' : List (OverlayLevel H K)) (b b' : Books H K V) (hash : H) (n : Nat) :
    Prop where
  flowing : Flowing canon waiting pinned b'
  total : b'.inflow canon hash = b.inflow canon hash + n
  same : ∀ h, h ≠ hash → h ∉ (blocksOf levels).map BlockOverlay.hash →
    b'.inflow canon h = b.inflow canon h
  idle : ∀ y ∈ blocksOf levels', b'.inflow canon y.hash = 0
  dropped : ∀ y ∈ blocksOf levels, y ∉ blocksOf levels' →
    (b'.pinnedInsertions.get? y.hash).isSome ∨
      pinned.get? y.hash = none ∧ b'.inflow canon y.hash = 0

theorem Discards.drained (h : Discards pi ls b hash n ls' b')
    (bs : List (BlockOverlay H K)) (w : List H)
    (ha : b.Accounts (blocksOf ls ++ bs)) (hha : hash ∈ bs.map BlockOverlay.hash)
    (hw : hash ∈ w) (ho : ∀ y ∈ blocksOf ls, y.hash ∉ c) (hf : Flowing c w pi b)
    (hi : ∀ y ∈ blocksOf ls, b.inflow c y.hash = 0) :
    Drained c w pi ls ls' b b' hash n := by
  induction h generalizing bs w with
  | done => exact ⟨hf, rfl, fun _ _ _ => rfl, hi, fun y hy hnot => absurd hy hnot⟩
  | @child l l' rem r' ls' b b1 b' hash i m n x hpar hrem habv
      hr iha ihr =>
    obtain ⟨hx, -, hp⟩ := OverlayLevel.remove_eq hrem
    have hxm : x ∈ l.blocks := mem_of_getElem? hx
    have hout := (remove_perm hp bs rem).1
    have hin := (remove_perm hp bs r').2
    have hsh := habv.sheds _ (ha.perm hout)
    have ha' := hsh.accounts.perm hin
    have hshed' := Sheds.settle ha' (withSelf pi x.hash m)
    have hs : ∀ h, (b1.settle x (withSelf pi x.hash m)).inflow c h =
        b1.inflow c h + if h = hash then withSelf pi x.hash m else 0 := by
      intro h
      have hxc := ho x (mem_append_left _ hxm)
      rw [Flowing.inflow_settle ha', hsh.parents x (by simp), hpar]
      simp [hxc, eq_comm]
    have hsub := remove_subset hp habv.subset
    -- no block in a level has the hash
    obtain ⟨top, htop, rfl⟩ := mem_map.mp hha
    have hoth : ∀ y ∈ blocksOf (l :: rem), y.hash ≠ top.hash :=
      fun y hy => ha.hash_ne_append hy htop
    have hne := (hoth x (mem_append_left _ hxm)).symm
    -- the descendants of the child
    have hdr := iha _ (x.hash :: w) (ha.perm hout) (by simp) mem_cons_self
      (fun y hy => ho y (mem_append_right _ hy))
      (hf.mono (subset_cons_self _ _))
      (fun y hy => hi y (mem_append_right _ hy))
    have hm : b1.inflow c x.hash = m := by
      rw [hdr.total, hi x (mem_append_left _ hxm), Nat.zero_add]
    -- the child itself
    have hflow' : Flowing c w pi (b1.settle x (withSelf pi x.hash m)) := by
      have hasi := ha'.apart top (by simp [htop])
      have hset := hdr.flowing.settle ha'
        ((hsh.parents x (by simp)).trans hpar) hne (.inr hw) (.inr hasi)
      rwa [hm] at hset
    have hidle' : ∀ y ∈ blocksOf (l' :: r'),
        (b1.settle x (withSelf pi x.hash m)).inflow c y.hash = 0 := by
      intro y hy
      rw [hs, if_neg (hoth y (hsub hy))]
      cases mem_append.mp hy with
      | inl hy =>
        rw [hdr.same y.hash (ha'.hash_ne (by simp [hy])) fun hmem => ?_]
        · exact hi y (hsub (mem_append_left _ hy))
        · obtain ⟨z, hz, heq⟩ := mem_map.mp hmem
          exact (ha.perm hout).hash_ne_append hz (by simp [hy]) heq
      | inr hy => exact hdr.idle y hy
    -- the other children
    have hdr' := ihr bs w hshed'.accounts hha hw (fun y hy => ho y (hsub hy)) hflow' hidle'
    have hsa : ∀ h, h ≠ top.hash → h ∉ (blocksOf (l' :: r')).map BlockOverlay.hash →
        b'.inflow c h = b1.inflow c h := by
      intro h hh hnot
      rw [hdr'.same h hh hnot, hs, if_neg hh, Nat.add_zero]
    refine ⟨hdr'.flowing, ?_, fun h hh hnot => ?_, hdr'.idle, fun y hy hnot => ?_⟩
    · rw [hdr'.total, hs, if_pos rfl, hdr.same _ hne fun hmem => ?_, Nat.add_assoc]
      obtain ⟨z, hz, heq⟩ := mem_map.mp hmem
      exact hoth z (mem_append_right _ hz) heq
    · rw [hsa h hh fun hmem => hnot (map_subset _ hsub hmem)]
      rw [blocksOf_cons, map_append, mem_append, not_or] at hnot
      exact hdr.same h (fun heq => hnot.1 (heq ▸ mem_map_of_mem hxm)) hnot.2
    by_cases hlat : y ∈ blocksOf (l' :: r')
    · exact hdr'.dropped y hlat hnot
    -- the block was taken out in this round: the child, or a descendant of it
    have hk : ((b1.settle x (withSelf pi x.hash m)).pinnedInsertions.get? y.hash).isSome →
        (b'.pinnedInsertions.get? y.hash).isSome := by
      intro hso
      obtain ⟨e, he⟩ := isSome_iff_exists.mp hso
      rw [(hr.aside bs hshed'.accounts he).1]
      rfl
    have hg : y.hash ∉ (blocksOf (l' :: r')).map BlockOverlay.hash := by
      intro hmem
      obtain ⟨z, hz, heq⟩ := mem_map.mp hmem
      exact hlat (ha.eq_of_hash (mem_append_left _ (hsub hz)) (mem_append_left _ hy) heq ▸ hz)
    rw [hsa y.hash (hoth y hy) hg]
    cases mem_append.mp hy with
    | inl hy =>
      cases mem_cons.mp (hp.mem_iff.mp hy) with
      | inr hy => exact absurd (mem_append_left _ hy) hlat
      | inl heq =>
        subst heq
        by_cases hze : withSelf pi y.hash m = 0
        · obtain ⟨rfl, hpin⟩ := withSelf_eq_zero hze
          exact .inr ⟨hpin, hm⟩
        · refine .inl (hk ?_)
          rw [(Flowing.aside_settle_self hze).1]
          rfl
    | inr hy =>
      have hdropped := hdr.dropped y hy fun hy' => hlat (mem_append_right _ hy')
      exact hdropped.imp_left fun hso => hk (Flowing.isSome_settle ha' hso)

end

/-! ## Unpinning -/

/-- The parents are as they should be for the loop of `unpin`: the parent of a canonical block is
canonical, and no block is its own parent. -/
structure Rootward (canon : List H) (b : Books H K V) : Prop where
  canonical : ∀ h e, b.pinnedInsertions.get? h = some e → h ∈ canon →
    ∃ p ∈ canon, b.parents.get? h = some p
  irrefl : ∀ h, b.parents.get? h ≠ some h

/-- The counts while `unpin` is at `hash`, whose count is one too high. -/
structure Owing (canon : List H) (pinned : FinMap H Nat) (b : Books H K V) (hash : H) : Prop where
  positive : ∀ h e, b.pinnedInsertions.get? h = some e → 0 < e.2
  upward : ∀ h e, b.pinnedInsertions.get? h = some e → h ∉ canon →
    ∃ p, b.parents.get? h = some p ∧ (p ∈ canon ∨ (b.pinnedInsertions.get? p).isSome)
  flow : ∀ h e, b.pinnedInsertions.get? h = some e → h ∉ canon →
    e.2 = withSelf pinned h (b.inflow canon h) + if h = hash then 1 else 0

/-- What the loop of `unpin` does to the blocks kept aside: some are dropped, and one that is
dropped has no pin and no child that is kept aside. -/
structure Released (canon : List H) (pinned : FinMap H Nat) (b b' : Books H K V) : Prop where
  flowing : Flowing canon [] pinned b'
  rootward : Rootward canon b'
  aside : ∀ h e', b'.pinnedInsertions.get? h = some e' →
    (∃ e, b.pinnedInsertions.get? h = some e ∧ e.1 = e'.1) ∧ b'.parents.get? h = b.parents.get? h
  dropped : ∀ h, h ∉ canon → (b.pinnedInsertions.get? h).isSome →
    b'.pinnedInsertions.get? h = none → pinned.get? h = none ∧
      ∀ z, z ∉ canon → (b'.pinnedInsertions.get? z).isSome → b'.parents.get? z ≠ some h

section
variable {ca : List H} {pi : FinMap H Nat} {b : Books H K V} {hash : H} {ins : List K}
  {c : Nat}

/-- What is kept aside after one round. -/
theorem aside_release (he : (b.release hash ins c).pinnedInsertions.get? h = some e) :
    (h = hash ∧ c - 1 ≠ 0 ∧ e = (ins, c - 1)) ∨
      (h ≠ hash ∧ b.pinnedInsertions.get? h = some e) := by
  unfold release at he
  split at he
  · exact .inr (of_get?_erase he)
  next hcnt =>
    obtain ⟨heq, rfl⟩ | hold := of_get?_insert he
    · exact .inl ⟨heq, hcnt, rfl⟩
    · exact .inr hold

theorem aside_release_of_ne (hne : h ≠ hash) :
    (b.release hash ins c).pinnedInsertions.get? h = b.pinnedInsertions.get? h ∧
      (b.release hash ins c).parents.get? h = b.parents.get? h := by
  unfold release
  split
  · exact ⟨get?_erase_of_ne hne, get?_erase_of_ne hne⟩
  · exact ⟨get?_insert_of_ne hne, rfl⟩

theorem aside_release_self (hcnt : c - 1 ≠ 0) :
    (b.release hash ins c).pinnedInsertions.get? hash = some (ins, c - 1) ∧
      (b.release hash ins c).parents = b.parents := by
  unfold release
  rw [if_neg hcnt]
  exact ⟨get?_insert_self, rfl⟩

/-- One round takes one off what flows to the parent. -/
theorem inflow_release (can : List H) (hk : b.pinnedInsertions.get? hash = some (ins, c))
    (hcnt : 0 < c) (h : H) :
    b.inflow can h = (b.release hash ins c).inflow can h +
      if hash ∉ can ∧ b.parents.get? hash = some h then 1 else 0 := by
  have hbef : b.inflow can h =
      (if hash ∉ can ∧ b.parents.get? hash = some h then c else 0) +
        (b.pinnedInsertions.erase hash).total fun z e =>
          if z ∉ can ∧ b.parents.get? z = some h then e.2 else 0 :=
    total_erase hk
  by_cases hze : c - 1 = 0
  · have haft : (b.release hash ins c).inflow can h =
        (b.pinnedInsertions.erase hash).total fun z e =>
          if z ∉ can ∧ b.parents.get? z = some h then e.2 else 0 := by
      unfold release
      rw [if_pos hze]
      refine total_congr fun z e hz => ?_
      rw [get?_erase_of_ne (of_get?_erase hz).1]
    rw [hbef]
    split <;> omega
  · have haft : (b.release hash ins c).inflow can h =
        (if hash ∉ can ∧ b.parents.get? hash = some h then c - 1 else 0) +
          (b.pinnedInsertions.erase hash).total fun z e =>
            if z ∉ can ∧ b.parents.get? z = some h then e.2 else 0 := by
      unfold release
      rw [if_neg hze]
      exact total_insert
    rw [hbef, haft]
    split <;> omega

/-- One round hands what is owed to the parent. -/
theorem Owing.release (h : Owing ca pi b hash) (hr : Rootward ca b)
    (hk : b.pinnedInsertions.get? hash = some (ins, c)) (hp : b.parents.get? hash = some p) :
    Owing ca pi (b.release hash ins c) p ∧ Rootward ca (b.release hash ins c) := by
  have hcnt : 0 < c := h.positive hash _ hk
  have hpne : p ≠ hash := by
    rintro rfl
    exact hr.irrefl _ hp
  -- what is left of the count of this block
  have hent : hash ∉ ca → c - 1 = withSelf pi hash (b.inflow ca hash) := by
    intro hcan
    have hf := h.flow hash _ hk hcan
    rw [if_pos rfl] at hf
    exact (Nat.sub_eq_of_eq_add hf)
  refine ⟨⟨fun z e hz => ?_, fun z e hz hcan => ?_, fun z e hz hcan => ?_⟩,
    fun z e hz hcan => ?_, fun z hz => hr.irrefl z ?_⟩
  · rcases aside_release hz with ⟨-, hpos, rfl⟩ | ⟨-, hz⟩
    · exact Nat.pos_of_ne_zero hpos
    · exact h.positive z e hz
  · rcases aside_release hz with ⟨rfl, hpos, rfl⟩ | ⟨hne, hz⟩
    · obtain ⟨q, hq, hwh⟩ := h.upward z _ hk hcan
      cases hp.symm.trans hq
      rw [(aside_release_self hpos).2]
      refine ⟨p, hp, hwh.imp_right fun hp' => ?_⟩
      rwa [(aside_release_of_ne hpne).1]
    obtain ⟨q, hq, hwh⟩ := h.upward z e hz hcan
    have hch := le_inflow hz hcan hq
    have hpos := h.positive z e hz
    refine ⟨q, (aside_release_of_ne hne).2.trans hq, ?_⟩
    by_cases hqc : q ∈ ca
    · exact .inl hqc
    refine .inr ?_
    by_cases hqh : q = hash
    · -- a block with a child that is kept aside keeps a count
      subst hqh
      have hre := hent hqc
      rw [withSelf_eq] at hre
      rw [(aside_release_self (by omega)).1]
      rfl
    · rw [(aside_release_of_ne hqh).1]
      exact hwh.resolve_left hqc
  · have hinf := inflow_release ca hk hcnt z
    rcases aside_release hz with ⟨rfl, -, rfl⟩ | ⟨hne, hz⟩
    · rw [if_neg (fun hs => hr.irrefl z hs.2), Nat.add_zero] at hinf
      rw [if_neg (symm hpne), ← hinf]
      exact hent hcan
    have hf := h.flow z e hz hcan
    rw [if_neg hne, withSelf_eq, hinf] at hf
    rw [withSelf_eq, hf]
    by_cases hzp : z = p
    · subst hzp
      have hh : hash ∉ ca := by
        intro hh
        obtain ⟨q, hqc, hq⟩ := hr.canonical hash _ hk hh
        cases hp.symm.trans hq
        exact hcan hqc
      rw [if_pos ⟨hh, hp⟩, if_pos rfl]
      omega
    · rw [if_neg (fun hz' => hzp (some.inj (hz'.2.symm.trans hp))), if_neg hzp]
      omega
  · rcases aside_release hz with ⟨rfl, hpos, -⟩ | ⟨hne, hz⟩
    · rw [(aside_release_self hpos).2]
      exact hr.canonical z _ hk hcan
    · rw [(aside_release_of_ne hne).2]
      exact hr.canonical z e hz hcan
  · unfold Books.release at hz
    split at hz
    · exact (of_get?_erase hz).2
    · exact hz

/-- The loop of `unpin`. -/
theorem Owing.unpinFrom (h : Owing ca pi b hash) (hr : Rootward ca b)
    (hkn : ∀ h e, b.pinnedInsertions.get? h = some e → (b.parents.get? h).isSome) :
    Released ca pi b (b.unpinFrom hash) := by
  fun_induction Books.unpinFrom b hash with
  | case1 b hash hn =>
    refine ⟨⟨h.positive, fun z e hz hcan => ?_, fun z e hz hcan => ?_⟩, hr,
      fun z e hz => ⟨⟨e, hz, rfl⟩, rfl⟩, fun z _ hs hg => ?_⟩
    · obtain ⟨q, hq, hwh⟩ := h.upward z e hz hcan
      exact ⟨q, hq, hwh.imp_right .inr⟩
    · have hf := h.flow z e hz hcan
      have hne : z ≠ hash := by
        rintro rfl
        rw [hn] at hz
        cases hz
      rwa [if_neg hne] at hf
    · rw [hg] at hs
      cases hs
  | case2 b hash ins c hk hpar =>
    have hs := hkn hash _ hk
    rw [hpar] at hs
    cases hs
  | case3 b hash ins c hk p hp ih =>
    obtain ⟨how, hr'⟩ := h.release hr hk hp
    have hasi : ∀ z e', (b.release hash ins c).pinnedInsertions.get? z = some e' →
        (∃ e, b.pinnedInsertions.get? z = some e ∧ e.1 = e'.1) ∧
          (b.release hash ins c).parents.get? z = b.parents.get? z := by
      intro z e' hz
      rcases aside_release hz with ⟨rfl, hpos, rfl⟩ | ⟨hne, hz⟩
      · exact ⟨⟨_, hk, rfl⟩, by rw [(aside_release_self hpos).2]⟩
      · exact ⟨⟨e', hz, rfl⟩, (aside_release_of_ne hne).2⟩
    have hrec := ih how hr' fun z e hz => by
      obtain ⟨⟨e0, he0, -⟩, hpa⟩ := hasi z e hz
      rw [hpa]
      exact hkn z e0 he0
    refine ⟨hrec.flowing, hrec.rootward, fun z e' hz => ?_, fun z hcan hs hg => ?_⟩
    · obtain ⟨⟨e1, he, heq⟩, hp'⟩ := hrec.aside z e' hz
      obtain ⟨⟨e0, he0, heq0⟩, hpars0⟩ := hasi z e1 he
      exact ⟨⟨e0, he0, heq0.trans heq⟩, hp'.trans hpars0⟩
    by_cases hthr : ((b.release hash ins c).pinnedInsertions.get? z).isSome
    · exact hrec.dropped z hcan hthr hg
    -- dropped in this round
    have hzh : z = hash := by
      by_contra hne
      rw [(aside_release_of_ne hne).1] at hthr
      exact hthr hs
    subst hzh
    have hcnt : c - 1 = 0 := by
      by_contra hpos
      rw [(aside_release_self hpos).1] at hthr
      exact hthr rfl
    have hf := h.flow z _ hk hcan
    rw [if_pos rfl] at hf
    obtain ⟨hinf, hpin⟩ := (withSelf_eq_zero (by omega) : b.inflow ca z = 0 ∧ pi.get? z = none)
    refine ⟨hpin, fun y hyc hy hpar => ?_⟩
    obtain ⟨e', he'⟩ := isSome_iff_exists.mp hy
    obtain ⟨⟨e1, he, -⟩, hp'⟩ := hrec.aside y e' he'
    obtain ⟨⟨e0, he0, -⟩, hpars0⟩ := hasi y e1 he
    rw [hp', hpars0] at hpar
    have hle := le_inflow he0 hyc hpar
    have hpos := h.positive y e0 he0
    omega

end

end StateDb
