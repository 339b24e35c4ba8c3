-- SUMMARY: The ready ring of the message queue: when the waiting queues form one ring.
import SubstrateIpfs.Base.Linked
import SubstrateIpfs.MessageQueue.Waiting

/-!
# The ready ring

The queues that have pages to be serviced are linked to a ring, and `ServiceHead`
points into it. Three calls can break this:

* servicing leaves a queue in the ring if it went through all of its pages without
  processing any message, because all of them were too heavy;
* executing an overweight message removes the page it was in, also if that page is
  the first one that waits for service;
* enqueueing at the last page index puts the queue in the ring although its window
  stays empty.

In runs without these three, the ring is intact in every state.
-/

namespace MessageQueue

open Option Function Linked Run Nat

namespace Storage

variable {c : Config} {K : Type} {n : Neighbours K} {b : BookState K} {x : K} {s1 : Storage c K}
  {i : Nat} {a : Attempt K} {processor : Processor c K} {limit : Weight} {m : Message c}

/-- The links of the ready ring. -/
def links (s : Storage c K) (o : K) : Option (K × K) :=
  (s.book o).readyNeighbours.map fun n => (n.prev, n.next)

/-- The queues that are linked form a ring, and the head is one of them. -/
structure Ring (s : Storage c K) : Prop where
  ring : ∃ ring, Linked.IsRing s.links ring
  head : ∀ o, s.serviceHead = some o → (s.links o).isSome
  headless : s.serviceHead = none → ∀ o, s.links o = none

/-- The queue of `o` has pages that wait for service. -/
def Ready (s : Storage c K) (o : K) : Prop := (s.book o).beginPage < (s.book o).endPage

instance {s : Storage c K} {o : K} : Decidable (s.Ready o) := inferInstanceAs (Decidable (_ < _))

/-- The pages that wait for service are there. -/
structure Window (s : Storage c K) (o : K) : Prop where
  le : (s.book o).beginPage ≤ (s.book o).endPage
  stored : ∀ i, (s.book o).beginPage ≤ i → i < (s.book o).endPage → (s.pages o i).isSome

/-- The queue of `o` is in the ring if it has pages that wait for service, and these are there. -/
structure Listed (s : Storage c K) (o : K) : Prop extends Window s o where
  ready : (s.links o).isSome ↔ s.Ready o

/-- The ready ring is intact. -/
structure ReadyRing (s : Storage c K) : Prop where
  window : ∀ o, s.Window o
  ready : ∀ o, (s.book o).readyNeighbours.isSome ↔ s.Ready o
  /-- One circle goes through all ready queues. -/
  ring : ∃ ring, Linked.IsRing s.links ring
  next_prev : ∀ o n, (s.book o).readyNeighbours = some n →
    ∃ m, (s.book n.next).readyNeighbours = some m ∧ m.prev = o
  prev_next : ∀ o n, (s.book o).readyNeighbours = some n →
    ∃ m, (s.book n.prev).readyNeighbours = some m ∧ m.next = o
  head_none : s.serviceHead = none ↔ ∀ o, (s.book o).readyNeighbours = none
  head_some : ∀ o, s.serviceHead = some o → (s.book o).readyNeighbours.isSome

variable {s s' : Storage c K} {o : K}

theorem isSome_links : (s.links o).isSome = (s.book o).readyNeighbours.isSome := isSome_map

theorem links_eq_none : s.links o = none ↔ (s.book o).readyNeighbours = none := map_eq_none_iff

theorem links_eq_some (h : (s.book o).readyNeighbours = some n) :
    s.links o = some (n.prev, n.next) := by
  rw [links, h, map_some]

theorem readyNeighbours_of_links {p n : K} (h : s.links o = some (p, n)) :
    (s.book o).readyNeighbours = some ⟨p, n⟩ := by
  obtain ⟨m, hm, heq⟩ := map_eq_some_iff.mp h
  cases heq
  exact hm

theorem readyRing_iff : s.ReadyRing ↔ s.Ring ∧ ∀ o, s.Listed o := by
  constructor
  · intro h
    refine ⟨⟨h.ring, fun o ho => ?_, fun hno o => ?_⟩, fun o => ⟨h.window o, ?_⟩⟩
    · rw [isSome_links]
      exact h.head_some o ho
    · exact links_eq_none.mpr (h.head_none.mp hno o)
    · rw [isSome_links]
      exact h.ready o
  rintro ⟨hr, hqs⟩
  obtain ⟨ring, r⟩ := hr.ring
  refine ⟨fun o => (hqs o).toWindow, fun o => ?_, ⟨ring, r⟩, fun o n hn => ?_,
    fun o n hn => ?_, ⟨fun hno o => ?_, fun hno => ?_⟩, fun o ho => ?_⟩
  · rw [← isSome_links]
    exact (hqs o).ready
  · obtain ⟨m, hm⟩ := (r.neighbours (links_eq_some hn)).1
    exact ⟨_, readyNeighbours_of_links hm, rfl⟩
  · obtain ⟨m, hm⟩ := (r.neighbours (links_eq_some hn)).2
    exact ⟨_, readyNeighbours_of_links hm, rfl⟩
  · exact links_eq_none.mp (hr.headless hno o)
  · cases hh : s.serviceHead with
    | none => rfl
    | some o =>
      have hs := hr.head o hh
      rw [isSome_links, hno o] at hs
      cases hs
  · rw [← isSome_links]
    exact hr.head o ho

theorem ring_congr (h : s.Ring) (hlk : s'.links = s.links)
    (hh : s'.serviceHead = s.serviceHead) : s'.Ring := by
  refine ⟨?_, ?_, ?_⟩
  · rw [hlk]
    exact h.ring
  · rw [hlk, hh]
    exact h.head
  · rw [hlk, hh]
    exact h.headless

theorem Window.congr (h : s.Window o) (hbeg : (s'.book o).beginPage = (s.book o).beginPage)
    (hend : (s'.book o).endPage = (s.book o).endPage)
    (hpgs : ∀ i, (s.book o).beginPage ≤ i → i < (s.book o).endPage → (s.pages o i).isSome →
      (s'.pages o i).isSome) : s'.Window o := by
  refine ⟨by rw [hbeg, hend]; exact h.le, fun i hi hi' => ?_⟩
  rw [hbeg] at hi
  rw [hend] at hi'
  exact hpgs i hi hi' (h.stored i hi hi')

theorem Listed.congr (h : s.Listed o) (hbeg : (s'.book o).beginPage = (s.book o).beginPage)
    (hend : (s'.book o).endPage = (s.book o).endPage)
    (hlk : (s'.links o).isSome = (s.links o).isSome)
    (hpgs : ∀ i, (s.book o).beginPage ≤ i → i < (s.book o).endPage → (s.pages o i).isSome →
      (s'.pages o i).isSome) : s'.Listed o := by
  refine ⟨h.toWindow.congr hbeg hend hpgs, ?_⟩
  rw [hlk, Ready, hbeg, hend]
  exact h.ready

/-! ## Knitting and unknitting -/

variable [DecidableEq K] {s s' : Storage c K} {o : K}

theorem links_putBook : (s.putBook o b).links =
    update s.links o (b.readyNeighbours.map fun n => (n.prev, n.next)) := by
  funext x
  unfold links
  by_cases hx : x = o
  · subst hx
    rw [book_putBook_self, update_self]
  · rw [book_putBook_of_ne hx, update_of_ne hx]

theorem links_putBook_of_eq (h : b.readyNeighbours = (s.book o).readyNeighbours) :
    (s.putBook o b).links = s.links := by
  rw [links_putBook, h]
  exact update_eq_self o s.links

theorem links_mutate_prev {p : K} :
    (s.mutateNeighbours o fun n => { n with prev := p }).links = setPrev s.links o p := by
  unfold mutateNeighbours
  rw [links_putBook, setPrev, links, map_map, map_map]
  rfl

theorem links_mutate_next {n : K} :
    (s.mutateNeighbours o fun m => { m with next := n }).links = setNext s.links o n := by
  unfold mutateNeighbours
  rw [links_putBook, setNext, links, map_map, map_map]
  rfl

theorem isSome_links_mutateNeighbours {f : Neighbours K → Neighbours K} :
    ((s.mutateNeighbours o f).links x).isSome = (s.links x).isSome := by
  unfold mutateNeighbours
  rw [links_putBook]
  by_cases hx : x = o
  · subst hx
    simp [isSome_links]
  · rw [update_of_ne hx]

/-- Nobody loses or gets links when a neighbour leaves. -/
theorem isSome_links_readyRingUnknit :
    ((s.readyRingUnknit o n).links x).isSome = (s.links x).isSome := by
  unfold readyRingUnknit
  split
  · rfl
  have hmut : (((s.mutateNeighbours n.next fun m => { m with prev := n.prev }).mutateNeighbours
      n.prev fun m => { m with next := n.next }).links x).isSome = (s.links x).isSome := by
    rw [isSome_links_mutateNeighbours, isSome_links_mutateNeighbours]
  dsimp only
  split
  · exact hmut
  · exact hmut

/-- Nobody loses or gets links when a neighbour gets in. -/
theorem isSome_links_readyRingKnit :
    ((s.readyRingKnit o).2.links x).isSome = (s.links x).isSome := by
  unfold readyRingKnit
  split
  · rfl
  split
  · rfl
  · dsimp only
    split
    · exact isSome_links_mutateNeighbours
    · rw [isSome_links_mutateNeighbours, isSome_links_mutateNeighbours]

/-- A queue that is not in the ring gets in at the end. -/
theorem Ring.knit (h : s.Ring) (ho : s.links o = none) :
    ∃ n s1, s.readyRingKnit o = (some n, s1) ∧
      (s1.putBook o { b with readyNeighbours := some n }).Ring := by
  unfold readyRingKnit
  split
  next hh =>
    have hn := h.headless hh
    refine ⟨_, _, rfl, ⟨[o], ?_⟩, fun x hx => ?_, fun hx => ?_⟩
    · rw [links_putBook]
      exact .singleton hn
    · cases hx
      simp [links_putBook]
    · cases hx
  rename_i head hh
  obtain ⟨ring, hr⟩ := h.ring
  obtain ⟨l, hr⟩ := hr.of_mem (h.head head hh)
  have hlk := readyNeighbours_of_links hr.links_head
  rw [hlk]
  dsimp only
  generalize ht : lastOr id head l = tail at hlk ⊢
  -- the tail has links as well, after the head was changed
  have hs : ((s.mutateNeighbours head fun n => { n with prev := o }).links tail).isSome := by
    rw [links_mutate_prev, isSome_setPrev]
    obtain ⟨m, hm⟩ := (hr.neighbours hr.links_head).2
    rw [ht] at hm
    rw [hm, isSome_some]
  rw [isSome_links] at hs
  obtain ⟨m, hm⟩ := isSome_iff_exists.mp hs
  rw [hm]
  have hins := hr.insert ho ht.symm
  refine ⟨_, _, rfl, ⟨head :: (l ++ [o]), ?_⟩, fun x hx => ?_, fun hx => ?_⟩
  · rw [links_putBook, links_mutate_next, links_mutate_prev]
    exact hins
  · have hx : s.serviceHead = some x := hx
    rw [hh, some.injEq] at hx
    rw [links_putBook, links_mutate_next, links_mutate_prev]
    exact (hins.mem_iff x).mp (hx ▸ List.mem_cons_self)
  · have hx : s.serviceHead = none := hx
    rw [hh] at hx
    cases hx

/-- A queue leaves the ring. -/
theorem Ring.unknit (h : s.Ring) (hn : (s.book o).readyNeighbours = some n)
    (hb : b.readyNeighbours = none) : ((s.readyRingUnknit o n).putBook o b).Ring := by
  obtain ⟨ring, hr⟩ := h.ring
  have hlk := links_eq_some hn
  unfold readyRingUnknit
  split
  next hse =>
    -- it was the only one
    rw [← hse] at hlk
    have hno := hr.remove_only hlk
    have heq : ({ s with serviceHead := none }.putBook o b).links = update s.links o none := by
      rw [links_putBook, hb]
      rfl
    refine ⟨⟨[], ?_⟩, fun x hx => ?_, fun _ x => ?_⟩
    · rw [heq]
      exact .nil hno
    · cases hx
    · rw [heq]
      exact hno x
  rename_i hne
  obtain ⟨l, hrem⟩ := hr.remove hlk hne
  have heq : ((((s.mutateNeighbours n.next fun m => { m with prev := n.prev }
      ).mutateNeighbours n.prev fun m => { m with next := n.next }).putBook o b).links) =
      update (setNext (setPrev s.links n.next n.prev) n.prev n.next) o
        none := by
    rw [links_putBook, links_mutate_next, links_mutate_prev, hb]
    rfl
  -- whoever is linked and stays is linked afterwards
  have hs : ∀ x, x ≠ o → (s.links x).isSome → (update (setNext
      (setPrev s.links n.next n.prev) n.prev n.next) o none x).isSome := by
    intro x hx hsome
    rwa [update_of_ne hx, isSome_setNext, isSome_setPrev]
  have hnext : (s.links n.next).isSome := by
    obtain ⟨m, hm⟩ := (hr.neighbours hlk).1
    rw [hm, isSome_some]
  dsimp only
  split
  · refine ⟨⟨l, heq ▸ hrem⟩, fun x hx => ?_, fun hx => ?_⟩
    · cases hx
      exact heq ▸ hs _ (symm hne) hnext
    · cases hx
  rename_i hh
  refine ⟨⟨l, heq ▸ hrem⟩, fun x hx => ?_, fun hx => ?_⟩
  · have hx : s.serviceHead = some x := hx
    refine heq ▸ hs x ?_ (h.head x hx)
    rintro rfl
    exact hh hx
  · have hno := h.headless hx o
    rw [hlk] at hno
    cases hno

omit [DecidableEq K] in
theorem Ring.bump (h : s.Ring) {w : WeightMeter} : (s.bumpServiceHead w).2.2.Ring := by
  unfold bumpServiceHead
  split
  · exact h
  split
  · exact h
  split
  · exact h
  rename_i n hn
  obtain ⟨ring, hr⟩ := h.ring
  refine ⟨⟨ring, hr⟩, fun x hx => ?_, fun hx => ?_⟩
  · cases hx
    obtain ⟨m, hm⟩ := (hr.neighbours (links_eq_some hn)).1
    exact isSome_iff_exists.mpr ⟨_, hm⟩
  · cases hx

/-! ## Servicing one queue -/

/-- What steps of servicing the queue of `o` leave alone. -/
structure Served (o : K) (s s' : Storage c K) : Prop where
  links : s'.links = s.links
  serviceHead : s'.serviceHead = s.serviceHead
  book : ∀ x, x ≠ o → s'.book x = s.book x
  pages : ∀ x, x ≠ o → s'.pages x = s.pages x
  endPage : (s'.book o).endPage = (s.book o).endPage
  beginPage : (s.book o).beginPage ≤ (s'.book o).beginPage
  window : s.Window o → s'.Window o

omit [DecidableEq K] in
theorem Served.refl : Served o s s := ⟨rfl, rfl, fun _ _ => rfl, fun _ _ => rfl, rfl, le_refl _, id⟩

omit [DecidableEq K] in
theorem Served.trans {t : Storage c K} (h : Served o s s1) (h' : Served o s1 t) : Served o s t where
  links := h'.links.trans h.links
  serviceHead := h'.serviceHead.trans h.serviceHead
  book x hx := (h'.book x hx).trans (h.book x hx)
  pages x hx := (h'.pages x hx).trans (h.pages x hx)
  endPage := h'.endPage.trans h.endPage
  beginPage := le_trans h.beginPage h'.beginPage
  window hw := h'.window (h.window hw)

/-- A write to the book of a queue that does not touch the ring, and to one of its pages. -/
theorem served_write {q : Option (Page c.toSizing)}
    (hr : b.readyNeighbours = (s.book o).readyNeighbours) (hend : b.endPage = (s.book o).endPage)
    (hbeg : (s.book o).beginPage ≤ b.beginPage) (hle : b.beginPage ≤ b.endPage)
    (hq : b.beginPage ≤ i → i < b.endPage → (s.pages o i).isSome → q.isSome) :
    Served o s ((s.setPage o i q).putBook o b) where
  links := links_putBook_of_eq hr
  serviceHead := rfl
  book x hx := by rw [book_putBook_of_ne hx, book_setPage]
  pages x hx := by
    funext j
    rw [pages_putBook, pages_setPage, if_neg fun h => hx h.1]
  endPage := by rw [book_putBook_self, hend]
  beginPage := by rwa [book_putBook_self]
  window hw := by
    refine ⟨by rwa [book_putBook_self], fun j hj hj' => ?_⟩
    rw [book_putBook_self] at hj hj'
    have hsto := hw.stored j (le_trans hbeg hj) (hend ▸ hj')
    rw [pages_putBook, pages_setPage]
    split
    next heq => exact hq (heq.2 ▸ hj) (heq.2 ▸ hj') (heq.2 ▸ hsto)
    · exact hsto

theorem served_putBook (hr : b.readyNeighbours = (s.book o).readyNeighbours)
    (hend : b.endPage = (s.book o).endPage) (hbeg : (s.book o).beginPage ≤ b.beginPage)
    (hle : b.beginPage ≤ b.endPage) : Served o s (s.putBook o b) := by
  have hs := served_write (i := 0) hr hend hbeg hle fun _ _ h => h
  rwa [setPage_eq_self rfl] at hs

omit [DecidableEq K] in
theorem served_record : Served o s (s.record a) :=
  ⟨rfl, rfl, fun _ _ => rfl, fun _ _ => rfl, rfl, le_refl _, fun hw => ⟨hw.le, hw.stored⟩⟩

theorem Served.of_serve (h : Serve o s s') : Served o s s' := by
  cases h with
  | postpone _ => exact served_record
  | @item p a hrdy hp =>
    obtain ⟨hbeg, hend⟩ := window_noteAttempt
    have hr : (noteAttempt (s.book o) a).readyNeighbours = (s.book o).readyNeighbours := by
      unfold noteAttempt
      split <;> rfl
    refine served_record.trans (served_write hr hend hbeg.ge ?_ fun _ _ _ => rfl)
    omega
  | missing hrdy =>
    refine served_putBook rfl rfl (beginPage_le_advance hrdy) ?_
    rw [BookState.beginPage_advance hrdy]
    exact hrdy
  | @complete p hrdy hp =>
    have hadv := BookState.beginPage_advance (b := (s.book o).removePage) hrdy
    refine served_write rfl rfl (beginPage_le_advance hrdy) ?_ ?_
    · rw [hadv]
      exact hrdy
    · intro hle
      rw [hadv] at hle
      exact absurd hle (not_succ_le_self _)
  | exhausted hrdy =>
    refine served_putBook rfl rfl (beginPage_le_advance hrdy) ?_
    rw [BookState.beginPage_advance hrdy]
    exact hrdy

theorem Served.of_serves (hle : (s.book o).beginPage ≤ (s.book o).endPage)
    (h : Serves o (s.putBook o (s.book o)) s') : Served o s s' :=
  (served_putBook rfl rfl (le_refl _) hle).trans
    (invariant_of_reflTransGen (fun _ _ hI hr => hI.trans (.of_serve hr)) .refl h)

omit [DecidableEq K] in
/-- The queues other than `o` are as they were. -/
theorem Served.other (h : Served o s s') (hx : x ≠ o) (hli : s.Listed x) : s'.Listed x := by
  refine hli.congr (by rw [h.book x hx]) (by rw [h.book x hx]) (by rw [h.links]) fun i _ _ hi => ?_
  rwa [h.pages x hx]

/-- A queue that leaves the ring has no pages that wait for service. -/
theorem Listed.unknit (hx : x ≠ o → s.Listed x) (hr : b.readyNeighbours = none)
    (hb : b.beginPage = b.endPage) : ((s.readyRingUnknit o n).putBook o b).Listed x := by
  have hs : SameQueues s (s.readyRingUnknit o n) := sameQueues_readyRingUnknit
  obtain ⟨hbeg, hend⟩ := hs.window x
  by_cases hxo : x = o
  · subst hxo
    refine ⟨⟨?_, fun i hi hi' => ?_⟩, ?_⟩
    · rw [book_putBook_self, hb]
    · rw [book_putBook_self] at hi hi'
      omega
    · rw [links_putBook, hr, Ready, book_putBook_self, hb]
      simp
  · refine (hx hxo).congr ?_ ?_ ?_ fun i _ _ hi => ?_
    · rw [book_putBook_of_ne hxo, hbeg]
    · rw [book_putBook_of_ne hxo, hend]
    · rw [links_putBook, update_of_ne hxo, isSome_links_readyRingUnknit]
    · rwa [pages_putBook, hs.pages]

/-- A queue that was ready is not left without any progress. -/
theorem ReadyRing.visit {b : Bool} {next : Option K} (h : s.ReadyRing) (hvis : Visit o s b next s')
    (hcln : s.Ready o → s'.Ready o ∨ b = true) : s'.ReadyRing := by
  obtain ⟨hr, hqs⟩ := readyRing_iff.mp h
  have hrdy := (hqs o).ready
  have hwin := (hqs o).toWindow
  cases hvis with
  | refused => exact h
  | stays hsrv hst =>
    have hs := Served.of_serves hwin.le hsrv
    refine readyRing_iff.mpr ⟨ring_congr hr hs.links hs.serviceHead, fun x => ?_⟩
    by_cases hx : x = o
    · subst hx
      refine ⟨hs.window hwin, ?_⟩
      rw [hs.links, hrdy]
      constructor
      · intro hbef
        -- a queue that was ready and made progress is done only if it left the ring
        rcases hcln hbef with haft | hp
        · exact haft
        rcases hst with haft | hno | hnone
        · exact haft
        · rw [hp] at hno
          cases hno
        · rw [← links_eq_none, hs.links] at hnone
          rw [← hrdy, hnone] at hbef
          cases hbef
      · intro haft
        have hbeg := hs.beginPage
        have hend := hs.endPage
        unfold Ready at haft ⊢
        omega
    · exact hs.other hx (hqs x)
  | @leaves s1 n hsrv hdo hn =>
    have hs := Served.of_serves hwin.le hsrv
    have hle := (hs.window hwin).le
    refine readyRing_iff.mpr ⟨(ring_congr hr hs.links hs.serviceHead).unknit hn rfl, fun x => ?_⟩
    exact Listed.unknit (fun hx => hs.other hx (hqs x)) rfl (le_antisymm hle hdo)

/-! ## Servicing all queues -/

/-- If the queue of `o` is ready, a light message waits in it. -/
def CleanVisit (processor : Processor c K) (limit : Weight) (s : Storage c K) (o : K) : Prop :=
  s.Ready o → ∃ message ∈ s.waiting o, Light processor limit o message

/-- The visit takes the light message, or does not get to the end of the queue. -/
theorem CleanVisit.progress {w w' : WeightMeter} {b : Bool} {next : Option K}
    (hqt : processor.Quiet) (hs : s.Sound) (hcln : CleanVisit processor limit s o)
    (h : serviceQueue processor limit o s w = ((b, next), w', s')) (hrdy : s.Ready o) :
    s'.Ready o ∨ b = true := by
  obtain ⟨message, hmem, hlight⟩ := hcln hrdy
  obtain ⟨taken, heq, hnone⟩ := serviceQueue_takes hqt hs h
  by_contra hnot
  obtain ⟨hdone, hb⟩ := not_or.mp hnot
  have hnil : s'.waiting o = [] := waitingIn_of_le (not_lt.mp hdone)
  rw [hnil, List.append_nil] at heq
  rw [if_neg hb] at hnone
  exact (hnone rfl).2 message (heq ▸ hmem) hlight

/-- A light message waits in every ready queue at the time of its visit. -/
def CleanLoop (processor : Processor c K) (limit : Weight) : Nat → Round c K → Prop
  | 0, _ => True
  | fuel + 1, v =>
    CleanVisit processor limit v.storage v.next ∧
      match serviceRound processor limit v with
      | (false, _) => True
      | (true, v') => CleanLoop processor limit fuel v'

instance decidableCleanLoop (processor : Processor c K) (limit : Weight)
    [∀ o, DecidablePred (Light processor limit o)] :
    (fuel : Nat) → (v : Round c K) → Decidable (CleanLoop processor limit fuel v)
  | 0, _ => .isTrue trivial
  | fuel + 1, v =>
    have : Decidable (match serviceRound processor limit v with
        | (false, _) => True
        | (true, v') => CleanLoop processor limit fuel v') :=
      match serviceRound processor limit v with
      | (false, _) => .isTrue trivial
      | (true, v') => decidableCleanLoop processor limit fuel v'
    inferInstanceAs (Decidable ((v.storage.Ready v.next →
      ∃ message ∈ v.storage.waiting v.next, Light processor limit v.next message) ∧ _))

theorem ReadyRing.serviceLoop (hqt : processor.Quiet) {f : Nat} {v v' : Round c K}
    (h : v.storage.ReadyRing) (hs : v.storage.Sound) (hcln : CleanLoop processor limit f v)
    (hl : serviceLoop processor limit f v = some v') : v'.storage.ReadyRing := by
  induction f generalizing v with
  | zero => cases hl
  | succ f ih =>
    obtain ⟨hclean, hre⟩ := hcln
    generalize hres : serviceQueue processor limit v.next v.storage v.weight = r
    obtain ⟨⟨b, next⟩, w, s'⟩ := r
    have hvis := serviceQueue_eq hqt hres
    have hrdy := h.visit hvis (hclean.progress hqt hs hres)
    have hs' : s'.Sound := hvis.inv (fun hsa h => h.sameQueues hsa) (fun hs h => h.serve hs) hs
    have hrd : (serviceRound processor limit v).2.storage = s' := by
      unfold serviceRound
      rw [hres]
      dsimp only
      split
      · rfl
      · rfl
      · split <;> rfl
    rw [← hrd] at hrdy hs'
    unfold Storage.serviceLoop at hl
    split at hl
    next hr =>
      cases hl
      rwa [hr] at hrdy
    next hr =>
      rw [hr] at hrdy hs' hre
      exact ih hrdy hs' hre hl

/-- Every visit of the call is clean. -/
def CleanService (s : Storage c K) (processor : Processor c K) (fuel : Nat) (limit : Weight) :
    Prop :=
  match s.bumpServiceHead (.fromLimit limit) with
  | (none, _, _) => True
  | (some next, weight, s) => CleanLoop processor limit fuel ⟨s, weight, next, none⟩

instance {processor : Processor c K} {fuel : Nat} {limit : Weight}
    [∀ o, DecidablePred (Light processor limit o)] :
    Decidable (s.CleanService processor fuel limit) :=
  match h : s.bumpServiceHead (.fromLimit limit) with
  | (none, _, _) => .isTrue (by rw [CleanService, h]; trivial)
  | (some next, weight, s1) =>
    decidable_of_iff (CleanLoop processor limit fuel ⟨s1, weight, next, none⟩)
      (by rw [CleanService, h])

omit [DecidableEq K] in
theorem ReadyRing.bump (h : s.ReadyRing) (w : WeightMeter) :
    (s.bumpServiceHead w).2.2.ReadyRing := by
  obtain ⟨hr, hqs⟩ := readyRing_iff.mp h
  have hs : SameQueues s (s.bumpServiceHead w).2.2 := sameQueues_bumpServiceHead w
  refine readyRing_iff.mpr ⟨hr.bump, fun x => ?_⟩
  obtain ⟨hbeg, hend⟩ := hs.window x
  refine (hqs x).congr hbeg hend ?_ fun i _ _ hi => ?_
  · unfold bumpServiceHead
    split
    · rfl
    · split
      · rfl
      · split <;> rfl
  · rwa [hs.pages]

theorem ReadyRing.serviceQueues {w : Weight} {f : Nat} (hqt : processor.Quiet)
    (h : s.ReadyRing) (hs : s.Sound) (hcln : s.CleanService processor f limit)
    (hc : s.serviceQueues processor f limit = some (w, s')) : s'.ReadyRing := by
  have hb := h.bump (.fromLimit limit)
  have hs' := hs.sameQueues (sameQueues_bumpServiceHead (.fromLimit limit))
  unfold Storage.serviceQueues at hc
  unfold CleanService at hcln
  split at hc
  next hr =>
    cases hc
    rwa [hr] at hb
  next hr =>
    rw [hr] at hb hs' hcln
    obtain ⟨v, hl, heq⟩ := map_eq_some_iff.mp hc
    cases heq
    exact serviceLoop hqt hb hs' hcln hl

/-! ## The other calls -/

/-- A write to one queue that does not touch the ring or the window. -/
theorem ReadyRing.write {b : BookState K} {i : Nat} {q : Option (Page c.toSizing)}
    (h : s.ReadyRing) (hri : b.readyNeighbours = (s.book o).readyNeighbours)
    (hend : b.endPage = (s.book o).endPage) (hbeg : b.beginPage = (s.book o).beginPage)
    (hq : b.beginPage ≤ i → i < b.endPage → (s.pages o i).isSome → q.isSome) :
    ((s.setPage o i q).putBook o b).ReadyRing := by
  obtain ⟨hr, hqs⟩ := readyRing_iff.mp h
  have hle := (hqs o).le
  have hs := served_write hri hend hbeg.ge (by omega) hq
  refine readyRing_iff.mpr ⟨ring_congr hr hs.links hs.serviceHead, fun x => ?_⟩
  by_cases hx : x = o
  · subst hx
    refine ⟨hs.window (hqs x).toWindow, ?_⟩
    rw [hs.links, (hqs x).ready, Ready, Ready, book_putBook_self, hbeg, hend]
  · exact hs.other hx (hqs x)

theorem ReadyRing.putBook (h : s.ReadyRing) (hr : b.readyNeighbours = (s.book o).readyNeighbours)
    (hend : b.endPage = (s.book o).endPage) (hbeg : b.beginPage = (s.book o).beginPage) :
    (s.putBook o b).ReadyRing := by
  have hwr := h.write (i := 0) hr hend hbeg fun _ _ h => h
  rwa [setPage_eq_self rfl] at hwr

omit [DecidableEq K] in
theorem ReadyRing.record (h : s.ReadyRing) : (s.record a).ReadyRing :=
  ⟨fun o => ⟨(h.window o).le, (h.window o).stored⟩, h.ready, h.ring, h.next_prev, h.prev_next,
    h.head_none, h.head_some⟩

/-- The last message of the first page that waits for service is not executed by hand. -/
def CleanExecute (s : Storage c K) (o : K) (i : Nat) : Prop :=
  s.Ready o → i = (s.book o).beginPage → ∀ p, s.pages o i = some p → 1 < p.remaining

instance : Decidable (s.CleanExecute o i) :=
  inferInstanceAs (Decidable (_ → _ → ∀ p, s.pages o i = some p → 1 < p.remaining))

omit [DecidableEq K] in
theorem remaining_noteProcessedAtPos {p : Page c.toSizing} {pos : Nat} (h : 1 < p.remaining) :
    (p.noteProcessedAtPos pos).remaining ≠ 0 := by
  have hm : ∀ hdr, (p.markProcessed pos hdr).remaining ≠ 0 := by
    intro hdr
    unfold Page.markProcessed
    split
    · omega
    · dsimp only
      omega
  unfold Page.noteProcessedAtPos
  split
  · omega
  · exact hm _

theorem ReadyRing.execute {j : Nat} (h : s.ReadyRing) (hcln : s.CleanExecute o i)
    (hex : Execute o i j s s') : s'.ReadyRing := by
  cases hex with
  | refused => exact h
  | postponed _ => exact h.record
  | executed =>
    exact h.record.write rfl rfl rfl fun _ _ _ => rfl
  | removed hp hpeek hbeh horig hpidx hidx hused hrem =>
    refine h.record.write rfl rfl rfl fun hle hlt _ => ?_
    have hbeg : (s.book o).beginPage ≤ i := hle
    have hlt : i < (s.book o).endPage := hlt
    have hi : i = (s.book o).beginPage := by omega
    have hm := hcln (by unfold Ready; omega) hi _ hp
    exact absurd hrem (remaining_noteProcessedAtPos hm)

theorem ReadyRing.reap {r : Except Error Unit} (h : s.ReadyRing)
    (hr : s.doReapPage o i = some (r, s')) : s'.ReadyRing := by
  obtain ⟨rfl, -⟩ | ⟨p, hlt, -, -, rfl⟩ := doReapPage_eq hr
  · exact h
  · refine h.write rfl rfl rfl fun hle _ _ => ?_
    exact absurd hlt (not_lt.mpr hle)

theorem ReadyRing.sweep (h : s.ReadyRing) : (s.sweepQueue o).ReadyRing := by
  obtain ⟨hr, hqs⟩ := readyRing_iff.mp h
  unfold sweepQueue
  split
  · exact h
  rename_i b hb
  have hbo : s.book o = b := by
    unfold book
    rw [hb, getD_some]
  dsimp only
  split
  next hno =>
    -- the queue has no pages that wait, so nothing moves
    have hi : ¬ s.Ready o := by
      rw [← h.ready o, hbo]
      simp [hno]
    have hle := (h.window o).le
    unfold Ready at hi
    rw [hbo] at hi hle
    refine h.putBook ?_ ?_ ?_
    · rw [hbo]
    · rw [hbo]
    · rw [hbo]
      dsimp only
      omega
  next n hn =>
    rw [← hbo] at hn
    refine readyRing_iff.mpr ⟨hr.unknit hn rfl, fun x => ?_⟩
    exact Listed.unknit (fun _ => hqs x) rfl rfl

/-- The window grows by a page. -/
theorem listed_linkPage (hwin : ∀ i, b.beginPage ≤ i → i < b.endPage → (s.pages o i).isSome)
    (hl : b.readyNeighbours.isSome) (hrdy : b.beginPage < satAdd u32Max b.endPage 1) :
    (s.linkPage o b m).Listed o := by
  have hb : (s.linkPage o b m).book o = { b with
      endPage := satAdd u32Max b.endPage 1
      endPage_le := min_le_right ..
      count := satAdd u32Max b.count 1 } := book_putBook_self
  have hidx : newIndex b + 1 = satAdd u32Max b.endPage 1 := Nat.sub_add_cancel (by omega)
  have hle : satAdd u32Max b.endPage 1 ≤ b.endPage + 1 := min_le_left ..
  refine ⟨⟨?_, fun i hi hi' => ?_⟩, ?_⟩
  · rw [hb]
    exact le_of_lt hrdy
  · rw [hb] at hi hi'
    rw [pages_linkPage]
    split
    · rfl
    next hne =>
      have hi' : i < satAdd u32Max b.endPage 1 := hi'
      have hne : i ≠ newIndex b := fun h => hne ⟨rfl, h⟩
      exact hwin i hi (by omega)
  · rw [isSome_links, Ready, hb]
    simp [hl, hrdy]

theorem Listed.linkPage_of_ne (h : s.Listed x) (hx : x ≠ o) (hs : SameQueues s s1)
    (hlk : (s1.links x).isSome = (s.links x).isSome) : (s1.linkPage o b m).Listed x := by
  obtain ⟨hbeg, hend⟩ := hs.window x
  refine h.congr ?_ ?_ ?_ fun i _ _ hi => ?_
  · rw [book_linkPage_of_ne hx, hbeg]
  · rw [book_linkPage_of_ne hx, hend]
  · rw [← hlk, isSome_links, isSome_links, book_linkPage_of_ne hx]
  · rw [pages_linkPage, if_neg fun h => hx h.1, hs.pages]
    exact hi

/-- A page can be linked in to a queue that has none. -/
def CleanEnqueue (s : Storage c K) (o : K) : Prop := s.Ready o ∨ (s.book o).endPage < u32Max

instance : Decidable (s.CleanEnqueue o) := inferInstanceAs (Decidable (_ ∨ _))

theorem ReadyRing.enqueue (h : s.ReadyRing) (hcln : s.CleanEnqueue o) :
    (s.doEnqueueMessage o m).ReadyRing := by
  obtain ⟨hr, hqs⟩ := readyRing_iff.mp h
  unfold doEnqueueMessage
  dsimp only
  split
  next hrdy =>
    split
    · exact h
    split
    · exact h.write rfl rfl rfl fun _ _ _ => rfl
    refine readyRing_iff.mpr ⟨ring_congr hr (links_putBook_of_eq rfl) rfl, fun x => ?_⟩
    by_cases hx : x = o
    · subst hx
      refine listed_linkPage (hqs x).stored ((h.ready x).mpr hrdy) ?_
      have hle := (s.book x).endPage_le
      exact lt_of_lt_of_le hrdy (Nat.le_min.mpr ⟨le_succ _, hle⟩)
    · exact (hqs x).linkPage_of_ne hx .rfl rfl
  next hid =>
    have hlt := hcln.resolve_left hid
    have hn : s.links o = none := by
      rw [← not_isSome_iff_eq_none, (hqs o).ready]
      exact hid
    have hsa := sameQueues_readyRingKnit (s := s) (o := o)
    have hs := fun x => isSome_links_readyRingKnit (s := s) (o := o) (x := x)
    obtain ⟨n, s1, hk, hr'⟩ := hr.knit hn (b := { s.book o with
      messageCount := satAdd u64Max (s.book o).messageCount 1
      size := satAdd u64Max (s.book o).size m.val.length
      endPage := satAdd u32Max (s.book o).endPage 1
      endPage_le := min_le_right ..
      count := satAdd u32Max (s.book o).count 1 })
    rw [hk] at hsa hs ⊢
    refine readyRing_iff.mpr ⟨ring_congr hr' rfl rfl, fun x => ?_⟩
    by_cases hx : x = o
    · subst hx
      refine listed_linkPage (fun i hi hi' => ?_) rfl ?_
      · exact absurd (lt_of_le_of_lt hi hi') hid
      · have hle : (s.book x).beginPage ≤ (s.book x).endPage := (hqs x).le
        exact lt_of_le_of_lt hle (Nat.lt_min.mpr ⟨lt_succ_self _, hlt⟩)
    · exact (hqs x).linkPage_of_ne hx hsa (hs x)

/-! ## Runs -/

omit [DecidableEq K] in
theorem readyRing_empty : (empty : Storage c K).ReadyRing := by
  refine readyRing_iff.mpr ⟨⟨⟨[], .nil fun _ => rfl⟩, fun o ho => ?_, fun _ _ => rfl⟩, fun o => ?_⟩
  · cases ho
  · refine ⟨⟨le_refl _, fun i _ hi => ?_⟩, ?_⟩
    · cases hi
    · simp [links, Ready, book, empty, BookState.default]

/-- The call does none of the three things that break the ring. -/
def Call.Clean (s : Storage c K) : Call c K → Prop
  | .enqueueMessage o _ => s.CleanEnqueue o
  | .serviceQueues processor fuel limit => s.CleanService processor fuel limit
  | .executeOverweight _ _ o i _ => s.CleanExecute o i
  | .submitExecuteOverweight _ _ o i _ => s.CleanExecute o i
  | .reapPage _ _ => True
  | .sweepQueue _ => True

theorem ReadyRing.call (h : s.ReadyRing) (hs : s.Sound) {e : Call c K} (hqt : e.Quiet)
    (hcln : e.Clean s) (hc : s.call e = some s') : s'.ReadyRing := by
  cases e with
  | enqueueMessage o m =>
    cases hc
    exact h.enqueue hcln
  | serviceQueues processor fuel limit =>
    obtain ⟨⟨w, s1⟩, hse, rfl⟩ := map_eq_some_iff.mp hc
    exact h.serviceQueues hqt hs hcln hse
  | executeOverweight processor limit o i j =>
    cases hc
    exact h.execute hcln (executeOverweight_eq hqt rfl)
  | submitExecuteOverweight processor limit o i j =>
    exact h.execute hcln (submitExecuteOverweight_eq hqt hc)
  | reapPage o i =>
    obtain ⟨⟨r, s1⟩, hr, rfl⟩ := map_eq_some_iff.mp hc
    exact h.reap hr
  | sweepQueue o =>
    cases hc
    exact h.sweep

/-- The ready ring is intact in every state of a run of clean calls. -/
theorem readyRing_of_clean {es : List (Call c K)} (hquiet : ∀ e ∈ es, e.Quiet)
    (hclean : Run.Each step (fun s e => ∀ t, s = some t → e.Clean t) (some .empty) es) :
    Run.Always step (fun s => ∀ t, s = some t → t.ReadyRing) (some .empty) es := by
  have hinv := Run.Each.always_some (I := fun s => s.ReadyRing ∧ s.Sound)
    (fun s _ _ h hG hc => ⟨h.1.call h.2 hG.1 (hG.2 s rfl) hc, h.2.call hG.1 hc⟩)
    ⟨readyRing_empty, sound_empty⟩ ((each_of_mem hquiet).and hclean)
  exact fun pre hpre t ht => (hinv pre hpre t ht).1

/-- Messages of more than two bytes are too heavy. -/
def byLength : Processor .small Bool := fun _ message _ _ =>
  ⟨if message.length ≤ 2 then .ok (true, ⟨1, 0⟩) else .error (.overweight ⟨200, 0⟩), []⟩

theorem quiet_byLength : byLength.Quiet := fun _ _ _ _ => rfl

instance {limit : Weight} {o : Bool} : DecidablePred (Light byLength limit o) := fun message =>
  decidable_of_iff (tooHeavy limit (byLength [] message o limit).result = false)
    ⟨fun h _ _ => h, fun h => h [] limit⟩

/-- Two queues are serviced and leave the ring. A message that was too heavy is executed by hand,
before another one comes in. -/
def cleanRun : List (Call .small Bool) :=
  [.enqueueMessage true ⟨[1], by decide⟩, .enqueueMessage true ⟨[3, 2, 1], by decide⟩,
    .enqueueMessage false ⟨[9], by decide⟩, .serviceQueues byLength 10 ⟨100, 0⟩,
    .executeOverweight (.const (.ok (true, ⟨1, 0⟩))) ⟨50, 0⟩ true 0 1,
    .enqueueMessage true ⟨[5], by decide⟩]

theorem clean_cleanRun : Run.Each step (fun s e => ∀ t, s = some t → e.Clean t)
    (some .empty) cleanRun := by
  refine each_cons.mpr ⟨?_, each_cons.mpr ⟨?_, each_cons.mpr ⟨?_, each_cons.mpr ⟨?_,
    each_cons.mpr ⟨?_, each_cons.mpr ⟨?_, each_nil⟩⟩⟩⟩⟩⟩
  · show ∀ t, _ = some t → CleanEnqueue t true
    decide +kernel
  · show ∀ t, _ = some t → CleanEnqueue t true
    decide +kernel
  · show ∀ t, _ = some t → CleanEnqueue t false
    decide +kernel
  · show ∀ t, _ = some t → CleanService t byLength 10 ⟨100, 0⟩
    decide +kernel
  · show ∀ t, _ = some t → CleanExecute t true 0
    decide +kernel
  · show ∀ t, _ = some t → CleanEnqueue t true
    decide +kernel

theorem readyRing_cleanRun : ∃ s : Storage .small Bool,
    exec step (some .empty) cleanRun = some s ∧ s.ReadyRing ∧ s.serviceHead = some true := by
  obtain ⟨s, hs, hh⟩ : ∃ s, exec step (some .empty) cleanRun = some s ∧
      s.serviceHead = some true := by
    decide +kernel
  have hqt : ∀ e ∈ cleanRun, e.Quiet := by
    simp [cleanRun, Call.Quiet, Processor.quiet_const, quiet_byLength]
  exact ⟨s, hs, (readyRing_of_clean hqt clean_cleanRun).last s hs, hh⟩

/-- A message is too heavy for servicing. -/
def heavyService : List (Call .small Bool) :=
  [.enqueueMessage true ⟨[3, 2, 1], by decide⟩,
    .serviceQueues (.const (.error (.overweight ⟨200, 0⟩))) 10 ⟨100, 0⟩]

/-- The queue stays in the ring, although it has no page that waits for service. -/
theorem not_readyRing_heavyService : (∀ e ∈ heavyService, e.Quiet) ∧
    ∃ s, exec step (some .empty) heavyService = some s ∧ ¬ s.ReadyRing := by
  refine ⟨by simp [heavyService, Call.Quiet, Processor.quiet_const], ?_⟩
  obtain ⟨s, hs, hin, hstk⟩ : ∃ s, exec step (some .empty) heavyService = some s ∧
      (s.book true).readyNeighbours.isSome ∧ ¬ s.Ready true := by
    decide +kernel
  exact ⟨s, hs, fun h => hstk ((h.ready true).mp hin)⟩

end Storage

end MessageQueue
