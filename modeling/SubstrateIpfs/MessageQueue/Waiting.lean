-- SUMMARY: The messages of a queue that wait for service, and which of them a visit takes.
import SubstrateIpfs.MessageQueue.Queues

/-!
# Waiting messages

The messages that wait in a queue are the items of its ready pages from `first` on. A visit takes
messages from the front, and has processed one of them unless the processor found all of them too
heavy.
-/

namespace MessageQueue

open List Option Nat

variable {c : Config} {K : Type} {b : BookState K} {i : Nat} {m : List UInt8}

/-! ## What waits in a page -/

/-- The messages that wait for service. -/
def Page.waiting {z : Sizing} (p : Page z) : List (List UInt8) :=
  (p.items.drop p.firstIndex).map Item.payload

namespace Storage

section
variable {p : Page c.toSizing} (h : PageSound b i p)

include h

theorem PageSound.waiting_of_peek (hbeg : b.beginPage ≤ i) (hp : p.peekFirst = some m)
    (f : Bool) : p.waiting = m :: (p.skipFirst f).waiting := by
  have hn := h.next hp hbeg
  obtain ⟨hlt, hget⟩ := List.getElem?_eq_some_iff.mp hn
  rw [Page.waiting, Page.waiting, (h.skipFirst hp hbeg f).2, (h.holds.skipFirst hn f).2,
    drop_set_of_lt (lt_succ_self _), drop_eq_getElem_cons hlt, hget]
  rfl

theorem PageSound.waiting_of_none (hp : p.peekFirst = none) : p.waiting = [] := by
  rw [h.holds.peekFirst, map_eq_none_iff, getElem?_eq_none_iff] at hp
  rw [Page.waiting, drop_eq_nil_of_le hp, map_nil]

theorem PageSound.waiting_of_complete (hbeg : b.beginPage ≤ i) (hc : p.isComplete = true) :
    p.waiting = [] := by
  rw [Page.waiting, map_eq_nil_iff, eq_nil_iff_forall_not_mem]
  intro it hit
  have hdone := h.holds.isComplete.mp hc it (mem_of_mem_drop hit)
  rw [h.fresh hbeg it hit] at hdone
  cases hdone

end

/-! ## What waits in a queue -/

/-- The messages that wait in a page, if there is one. -/
def waitingAt (pages : Nat → Option (Page c.toSizing)) (i : Nat) : List (List UInt8) :=
  (pages i).elim [] Page.waiting

/-- The messages that wait in the pages of a window. -/
def waitingIn (pages : Nat → Option (Page c.toSizing)) (first last : Nat) : List (List UInt8) :=
  (range' first (last - first)).flatMap (waitingAt pages)

/-- The messages that wait in the queue of `o`. -/
def waiting (s : Storage c K) (o : K) : List (List UInt8) :=
  waitingIn (s.pages o) (s.book o).beginPage (s.book o).endPage

section
variable {pages pages' : Nat → Option (Page c.toSizing)} {first last : Nat}

theorem waitingIn_of_lt (h : first < last) :
    waitingIn pages first last = waitingAt pages first ++ waitingIn pages (first + 1) last := by
  obtain ⟨n, hn⟩ := Nat.exists_eq_add_of_lt h
  have hlen : last - first = n + 1 := by omega
  have hlen' : last - (first + 1) = n := by omega
  rw [waitingIn, waitingIn, hlen, hlen', range'_succ, flatMap_cons]

theorem waitingIn_of_le (h : last ≤ first) : waitingIn pages first last = [] := by
  rw [waitingIn, Nat.sub_eq_zero_of_le h]
  rfl

theorem waitingIn_congr (h : ∀ i, first ≤ i → pages' i = pages i) :
    waitingIn pages' first last = waitingIn pages first last := by
  refine flatMap_congr fun i hi => ?_
  rw [waitingAt, waitingAt, h i (mem_range'_1.mp hi).1]

end

/-! ## What the processor makes of a message -/

/-- The message is too heavy for servicing. -/
def tooHeavy (limit : Weight) : Except ProcessMessageError (Bool × Weight) → Bool
  | .error (.overweight w) => w.anyGt limit
  | _ => false

section
variable (processor : Processor c K) (limit : Weight) (o : K)

/-- The processor never finds the message too heavy, whatever it was asked before and whatever
weight is left. -/
def Light (message : List UInt8) : Prop :=
  ∀ attempts left, tooHeavy limit (processor attempts message o left).result = false

/-- Messages are taken from the front. If none of them is counted, none of them is light. -/
def Takes (before after : List (List UInt8)) (count count' : Nat) : Prop :=
  ∃ taken, before = taken ++ after ∧
    (count' = 0 → count = 0 ∧ ∀ message ∈ taken, ¬Light processor limit o message)

end

variable [DecidableEq K] {processor : Processor c K} {limit : Weight} {o : K} {s s' : Storage c K}
  {before after last : List (List UInt8)} {n n' n'' : Nat}

section
omit [DecidableEq K]

theorem Takes.refl : Takes processor limit o before before n n := ⟨[], rfl, fun h => ⟨h, nofun⟩⟩

theorem Takes.trans (h : Takes processor limit o before after n n')
    (h' : Takes processor limit o after last n' n'') :
    Takes processor limit o before last n n'' := by
  obtain ⟨taken, rfl, ht⟩ := h
  obtain ⟨taken', rfl, ht'⟩ := h'
  refine ⟨taken ++ taken', (append_assoc ..).symm, fun hz => ?_⟩
  obtain ⟨hz', hlight'⟩ := ht' hz
  obtain ⟨hz, hlight⟩ := ht hz'
  refine ⟨hz, fun message hmem => ?_⟩
  rcases mem_append.mp hmem with hmem | hmem
  · exact hlight message hmem
  · exact hlight' message hmem

theorem Takes.append (h : Takes processor limit o before after n n') (rest : List (List UInt8)) :
    Takes processor limit o (before ++ rest) (after ++ rest) n n' := by
  obtain ⟨taken, rfl, ht⟩ := h
  exact ⟨taken, append_assoc .., ht⟩

theorem Takes.add (h : Takes processor limit o before after 0 n') (n : Nat) :
    Takes processor limit o before after n (satAdd u32Max n n') := by
  obtain ⟨taken, rfl, ht⟩ := h
  refine ⟨taken, rfl, fun hz => ?_⟩
  unfold satAdd u32Max at hz
  exact ⟨by omega, (ht (by omega)).2⟩

end

/-! ## Servicing a page -/

section
variable (hq : processor.Quiet)

include hq

theorem processMessagePayload_takes {j : Nat} {w w' : WeightMeter} {st : MessageExecutionStatus}
    (h : processMessagePayload processor s o i j m w limit = (st, w', s')) :
    s'.pages = s.pages ∧ (st = .overweight → ¬Light processor limit o m) := by
  unfold processMessagePayload at h
  simp only [hq s.attempts m o w.remaining, foldl_nil] at h
  have hlight : Light processor limit o m → _ := fun hl => hl s.attempts w.remaining
  generalize (processor s.attempts m o w.remaining).result = res at h hlight
  cases res with
  | ok r =>
    cases h
    exact ⟨rfl, nofun⟩
  | error e =>
    cases e with
    | overweight weight =>
      dsimp only at h
      split at h
      next hgt =>
        cases h
        refine ⟨rfl, fun _ hl => ?_⟩
        cases hgt.symm.trans (hlight hl)
      next =>
        cases h
        exact ⟨rfl, nofun⟩
    | _ =>
      cases h
      exact ⟨rfl, nofun⟩

/-- One round of the loop over the items of a page. -/
theorem servicePageItem_takes {v v' : PageServing c K} {st : ItemExecutionStatus}
    (hs : PageSound v.book v.book.beginPage v.page)
    (h : servicePageItem processor limit o v.book.beginPage v = (st, v')) :
    v'.storage.pages = v.storage.pages ∧ PageSound v.book v.book.beginPage v'.page ∧
      (st = .bailed → v'.page = v.page) ∧ (st = .noItem → v'.page = v.page ∧ v.page.waiting = []) ∧
      ∀ processed, st = .executed processed → ∃ message,
        v.page.waiting = message :: v'.page.waiting ∧
          (processed = false → ¬Light processor limit o message) := by
  unfold servicePageItem at h
  split at h
  next hc =>
    cases h
    exact ⟨rfl, hs, nofun, fun _ => ⟨rfl, hs.waiting_of_complete le_rfl hc⟩, nofun⟩
  split at h
  · cases h
    exact ⟨rfl, hs, fun _ => rfl, nofun, nofun⟩
  next w _ =>
  split at h
  next hp =>
    cases h
    exact ⟨rfl, hs, nofun, fun _ => ⟨rfl, hs.waiting_of_none hp⟩, nofun⟩
  next payload hp =>
  generalize hpr : processMessagePayload processor v.storage o v.book.beginPage
    v.page.firstIndex payload w limit = r at h
  obtain ⟨st', w', s'⟩ := r
  obtain ⟨hpages, hlight⟩ := processMessagePayload_takes hq hpr
  have hskip (f : Bool) := hs.waiting_of_peek le_rfl hp f
  have hsound (f : Bool) := (hs.skipFirst hp le_rfl f).1
  cases st' with
  | insufficientWeight =>
    cases h
    exact ⟨hpages, hs, fun _ => rfl, nofun, nofun⟩
  | overweight =>
    cases h
    refine ⟨hpages, hsound false, nofun, nofun, ?_⟩
    rintro _ ⟨⟩
    exact ⟨payload, hskip false, fun _ => hlight rfl⟩
  | processed | unprocessable =>
    cases h
    refine ⟨hpages, hsound true, nofun, nofun, ?_⟩
    rintro _ ⟨⟩
    exact ⟨payload, hskip true, nofun⟩

theorem servicePageLoop_takes {v v' : PageServing c K} {st : PageExecutionStatus}
    (hi : i = v.book.beginPage) (hs : PageSound v.book v.book.beginPage v.page)
    (h : servicePageLoop processor limit o i v n = (n', st, v')) :
    v'.storage.pages = v.storage.pages ∧ PageSound v.book v.book.beginPage v'.page ∧
      Takes processor limit o v.page.waiting v'.page.waiting n n' ∧
      (st = .noMore → v'.page.waiting = []) := by
  fun_induction servicePageLoop processor limit o i v n with
  | case1 v n w hit =>
    subst hi
    cases h
    obtain ⟨hpages, hs', hbail, -⟩ := servicePageItem_takes hq hs hit
    rw [hbail rfl]
    exact ⟨hpages, hs, .refl, by simp⟩
  | case2 v n w hit =>
    subst hi
    cases h
    obtain ⟨hpages, hs', -, hno, -⟩ := servicePageItem_takes hq hs hit
    obtain ⟨hpage, hnil⟩ := hno rfl
    rw [hpage]
    exact ⟨hpages, hs, .refl, fun _ => hnil⟩
  | case3 v n processed w hit _ ih =>
    subst hi
    obtain ⟨hpages, hs', -, -, hexec⟩ := servicePageItem_takes hq hs hit
    obtain ⟨message, hwait, hlight⟩ := hexec processed rfl
    obtain ⟨hbeg, hend⟩ := servicePageItem_window processor limit o hit
    have hone : Takes processor limit o v.page.waiting w.page.waiting n
        (if processed then satAdd u32Max n 1 else n) := by
      refine ⟨[message], hwait, fun hz => ?_⟩
      cases processed with
      | false => exact ⟨hz, forall_mem_singleton.mpr (hlight rfl)⟩
      | true =>
        have hz : min (n + 1) u32Max = 0 := hz
        unfold u32Max at hz
        omega
    rw [← hbeg] at hs'
    obtain ⟨hpages', hs'', htake, hst⟩ := ih hbeg.symm (hs'.congr hend.ge hbeg.ge) h
    refine ⟨hpages'.trans hpages, ?_, hone.trans htake, hst⟩
    rw [hbeg] at hs''
    exact hs''.congr hend.le hbeg.le

/-- Servicing a page takes all that waits there, unless it bails out. -/
theorem servicePage_takes {v v' : Serving c K} {st : PageExecutionStatus}
    (hs : ∀ p, v.storage.pages o v.book.beginPage = some p →
      PageSound v.book v.book.beginPage p) (h : servicePage processor limit o v = (n, st, v')) :
    (∀ j, j ≠ v.book.beginPage → v'.storage.pages o j = v.storage.pages o j) ∧
      Takes processor limit o (waitingAt (v.storage.pages o) v.book.beginPage)
        (waitingAt (v'.storage.pages o) v.book.beginPage) 0 n ∧
      (st = .noMore → waitingAt (v'.storage.pages o) v.book.beginPage = []) := by
  unfold servicePage at h
  split at h
  · cases h
    exact ⟨fun _ _ => rfl, .refl, nofun⟩
  next w _ =>
  dsimp only at h
  split at h
  next hp =>
    cases h
    refine ⟨fun _ _ => rfl, .refl, fun _ => ?_⟩
    rw [waitingAt, hp]
    rfl
  next p hp =>
  generalize hl : servicePageLoop processor limit o v.book.beginPage
    ⟨⟨v.storage, v.book, w⟩, p⟩ 0 = r at h
  obtain ⟨n', st', v1⟩ := r
  obtain ⟨hpages, hs', htake, hdone⟩ :=
    servicePageLoop_takes hq (v := ⟨⟨v.storage, v.book, w⟩, p⟩) rfl (hs p hp) hl
  have hwait : waitingAt (v.storage.pages o) v.book.beginPage = p.waiting := by
    rw [waitingAt, hp]
    rfl
  have hother : ∀ q j, j ≠ v.book.beginPage →
      (v1.storage.setPage o v.book.beginPage q).pages o j = v.storage.pages o j := by
    intro q j hj
    rw [pages_setPage, if_neg fun heq => hj heq.2, hpages]
  split at h
  next hc =>
    cases h
    rw [hwait, waitingAt, pages_setPage_self, elim_none, ← hs'.waiting_of_complete le_rfl hc]
    exact ⟨hother none, htake, fun _ => rfl⟩
  next =>
    cases h
    rw [hwait, waitingAt, pages_setPage_self]
    exact ⟨hother _, htake, hdone⟩

/-! ## Servicing a queue -/

theorem serviceQueueLoop_takes {v v' : Serving c K}
    (hs : ∀ j p, v.book.beginPage ≤ j → v.storage.pages o j = some p → PageSound v.book j p)
    (h : serviceQueueLoop processor limit o v n = (n', v')) :
    Takes processor limit o (waitingIn (v.storage.pages o) v.book.beginPage v.book.endPage)
      (waitingIn (v'.storage.pages o) v'.book.beginPage v'.book.endPage) n n' := by
  fun_induction serviceQueueLoop processor limit o v n with
  | case1 v n hrdy k w hp =>
    cases h
    obtain ⟨hother, htake, -⟩ := servicePage_takes hq (fun p => hs _ p le_rfl) hp
    obtain ⟨hbeg, hend⟩ := servicePage_window processor limit o hp
    have hrest : waitingIn (v'.storage.pages o) (v.book.beginPage + 1) v.book.endPage =
        waitingIn (v.storage.pages o) (v.book.beginPage + 1) v.book.endPage :=
      waitingIn_congr fun j hj => hother j (by omega)
    rw [hbeg, hend, waitingIn_of_lt hrdy, waitingIn_of_lt hrdy, hrest]
    exact (htake.add n).append _
  | case2 v n hrdy k w hp _ _ ih =>
    obtain ⟨hother, htake, hdone⟩ := servicePage_takes hq (fun p => hs _ p le_rfl) hp
    obtain ⟨hbeg, hend⟩ := servicePage_window processor limit o hp
    have hadv : satAdd u32Max w.book.beginPage 1 = v.book.beginPage + 1 := by
      have hle := v.book.endPage_le
      rw [hbeg]
      exact min_eq_left (by omega)
    have htake' := ih (fun j p hj hget => ?_) h
    · dsimp only at htake'
      rw [hadv, hend, waitingIn_congr fun j hj => hother j (by omega)] at htake'
      rw [hdone rfl] at htake
      rw [waitingIn_of_lt hrdy]
      exact ((htake.add n).append _).trans htake'
    · dsimp only at hj hget ⊢
      rw [hadv] at hj
      rw [hother j (by omega)] at hget
      refine (hs j p (by omega) hget).congr hend.ge ?_
      dsimp only
      omega
  | case3 v n hrdy =>
    cases h
    exact .refl

/-- A visit takes messages from the front. -/
theorem serviceQueue_takes {w w' : WeightMeter} {progress : Bool} {next : Option K}
    (hs : s.Sound) (h : serviceQueue processor limit o s w = ((progress, next), w', s')) :
    Takes processor limit o (s.waiting o) (s'.waiting o) 0 (if progress then 1 else 0) := by
  unfold serviceQueue at h
  split at h
  · cases h
    exact .refl
  next w1 _ =>
  generalize hl : serviceQueueLoop processor limit o ⟨s, s.book o, w1⟩ 0 = r at h
  obtain ⟨n, v⟩ := r
  obtain ⟨taken, heq, ht⟩ := serviceQueueLoop_takes hq (fun j p _ hget => hs o j p hget) hl
  have htake : Takes processor limit o (s.waiting o)
      (waitingIn (v.storage.pages o) v.book.beginPage v.book.endPage) 0
      (if decide (0 < n) then 1 else 0) := by
    refine ⟨taken, heq, fun hz => ht ?_⟩
    by_contra hne
    rw [if_pos (decide_eq_true (Nat.pos_of_ne_zero hne))] at hz
    cases hz
  have hwait : ∀ {t : Storage c K} {b : BookState K}, t.pages = v.storage.pages →
      b.beginPage = v.book.beginPage → b.endPage = v.book.endPage → (t.putBook o b).waiting o =
        waitingIn (v.storage.pages o) v.book.beginPage v.book.endPage := by
    intro t b hp hbeg hend
    rw [waiting, book_putBook_self, pages_putBook, hp, hbeg, hend]
  dsimp only at h
  split at h
  · split at h
    · cases h
      rwa [hwait rfl rfl rfl]
    · cases h
      rwa [hwait (b := { v.book with readyNeighbours := none })
        sameQueues_readyRingUnknit.pages rfl rfl]
  · cases h
    rwa [hwait rfl rfl rfl]

end

end Storage

end MessageQueue
