-- SUMMARY: What each call of the message queue does to the queues, and sound pages.
import SubstrateIpfs.Base.Run
import SubstrateIpfs.MessageQueue.Servicing

/-!
# Calls on the queues

For each call there is one inversion that says what it can do. `serviceQueues_inv`
is the rule for servicing: a property that does not depend on the ready ring and is
kept by every small step is kept by the whole call.

The first such property is that stored pages are sound: each stands for a list of
items, lies below the end of its queue, and has no processed message among those
that still wait for service.
-/

namespace MessageQueue

open List Option BookState Nat

variable {c : Config} {K : Type} {p : Page c.toSizing} {pa : List UInt8} {n : Option K}
  {r : Except Error Unit}

/-- The book after a message of the given length was accepted. -/
def BookState.accept (b : BookState K) (len : Nat) : BookState K :=
  { b with messageCount := satAdd u64Max b.messageCount 1, size := satAdd u64Max b.size len }

/-- The book after a page was reaped. -/
def BookState.reap (b : BookState K) (remaining remainingSize : Nat) : BookState K :=
  { b with
    count := b.count - 1
    messageCount := b.messageCount - remaining
    size := b.size - remainingSize }

namespace Storage

variable [DecidableEq K] {s s' : Storage c K} {o : K} {i j : Nat} {m : Message c}
  {processor : Processor c K} {l : Weight} {b : BookState K}

/-! ## Visits of a queue -/

/-- The storages are the same up to the book of `o`. -/
def EqOff (o : K) (s s' : Storage c K) : Prop := ∀ b, s.putBook o b = s'.putBook o b

theorem EqOff.book {x : K} (h : EqOff o s s') (hx : x ≠ o) : s.book x = s'.book x := by
  have hb := congrArg (fun t => t.book x) (h .default)
  rwa [book_putBook_of_ne hx, book_putBook_of_ne hx] at hb

theorem EqOff.mutateNeighbours (h : EqOff o s s') (x : K) (f : Neighbours K → Neighbours K) :
    EqOff o (s.mutateNeighbours x f) (s'.mutateNeighbours x f) := by
  intro b
  unfold Storage.mutateNeighbours
  by_cases hx : x = o
  · subst hx
    rw [putBook_putBook, putBook_putBook, h]
  rw [h.book hx]
  have hc : ∀ t : Storage c K, ∀ b' b2, (t.putBook x b').putBook o b2 =
      (t.putBook o b2).putBook x b' := by
    intro t b' b2
    unfold putBook
    rw [Function.update_comm (symm hx)]
  rw [hc, hc, h]

theorem eqOff_putBook : EqOff o (s.putBook o b) s := fun _ => putBook_putBook

/-- The outgoing queue does not read its own book. -/
theorem EqOff.readyRingUnknit (h : EqOff o s s') (n : Neighbours K) :
    EqOff o (s.readyRingUnknit o n) (s'.readyRingUnknit o n) := by
  have hh : ∀ {t t' : Storage c K}, EqOff o t t' → t.serviceHead = t'.serviceHead := by
    intro t t' h
    have hb := congrArg serviceHead (h .default)
    exact hb
  have hput : ∀ {t t' : Storage c K} {hd : Option K}, EqOff o t t' →
      EqOff o { t with serviceHead := hd } { t' with serviceHead := hd } := by
    intro t t' hd h b
    have hb := h b
    unfold putBook at hb ⊢
    simp only [mk.injEq] at hb ⊢
    exact ⟨hb.1, trivial, hb.2.2⟩
  unfold Storage.readyRingUnknit
  split
  · exact hput h
  have hmut := (h.mutateNeighbours n.next fun m => { m with prev := n.prev }).mutateNeighbours
    n.prev fun m => { m with next := n.next }
  dsimp only
  rw [hh hmut]
  split
  · exact hput hmut
  · exact hmut

/-- What servicing the queue of `o` can do: whether some message was processed, the queue that comes
next, and the storage. -/
inductive Visit (o : K) (s : Storage c K) : Bool → Option K → Storage c K → Prop
  /-- There is not enough weight. -/
  | refused : Visit o s false none s
  /-- The queue keeps its place in the ready ring, if it has one. -/
  | stays {s1 : Storage c K} {b : Bool} (hserves : Serves o (s.putBook o (s.book o)) s1)
      (hstays : (s1.book o).beginPage < (s1.book o).endPage ∨ b = false ∨
        (s1.book o).readyNeighbours = none) :
      Visit o s b ((s1.book o).readyNeighbours.map (·.next)) s1
  /-- The queue is done and leaves the ready ring. -/
  | leaves {s1 : Storage c K} {n : Neighbours K} (hserves : Serves o (s.putBook o (s.book o)) s1)
      (hdone : (s1.book o).endPage ≤ (s1.book o).beginPage)
      (hn : (s1.book o).readyNeighbours = some n) :
      Visit o s true (some n.next) ((s1.readyRingUnknit o n).putBook o (s1.book o).unlinked)

theorem serviceQueue_eq (hqt : processor.Quiet) {w w' : WeightMeter} {b : Bool}
    (h : serviceQueue processor l o s w = ((b, n), w', s')) : Visit o s b n s' := by
  unfold serviceQueue at h
  split at h
  · cases h; exact .refused
  rename_i wei hwt
  generalize hl : serviceQueueLoop processor l o ⟨s, s.book o, wei⟩ 0 = r at h
  obtain ⟨t, v⟩ := r
  have hsrv := serviceQueueLoop_eq hqt hl
  have hb : (v.flush o).book o = v.book := book_putBook_self
  dsimp only at h
  split at h
  next hdo =>
    split at h
    next hno =>
      cases h
      rw [hno]
      have hvis := Visit.stays (b := decide (0 < t)) hsrv (.inr (.inr (by rw [hb]; exact hno)))
      rwa [hb, hno] at hvis
    next n hn =>
      cases h
      have hvis := Visit.leaves hsrv (by rw [hb]; exact hdo.1) (by rw [hb]; exact hn)
      have hu := eqOff_putBook.readyRingUnknit n (s := v.storage.putBook o v.book) v.book.unlinked
      rw [hb, Serving.flush, hu] at hvis
      rw [hn, decide_eq_true hdo.2]
      exact hvis
  next hdo =>
    cases h
    have hvis := Visit.stays hsrv (by
      rw [hb]
      by_cases hrdy : v.book.beginPage < v.book.endPage
      · exact .inl hrdy
      · exact .inr (.inl (decide_eq_false fun hpos => hdo ⟨by omega, hpos⟩)))
    rwa [hb] at hvis

/-! ## The rule for servicing -/

section
variable {P : Storage c K → Prop} (hs : ∀ {s s'}, SameQueues s s' → P s → P s')
  (hse : ∀ {o s s'}, Serve o s s' → P s → P s')
include hs hse

theorem Visit.inv {b : Bool} (h : Visit o s b n s') (hP : P s) : P s' := by
  have hsrv : ∀ {t}, Serves o (s.putBook o (s.book o)) t → P t := fun h1 =>
    Run.invariant_of_reflTransGen (r := Serve o) (fun _ _ hI hr => hse hr hI)
      (hs (sameQueues_putBook rfl) hP) h1
  cases h with
  | refused => exact hP
  | stays h1 _ => exact hsrv h1
  | leaves h1 _ _ =>
    refine hs (sameQueues_readyRingUnknit.trans (sameQueues_putBook ?_)) (hsrv h1)
    exact (sameQueues_readyRingUnknit.book o).symm

theorem serviceLoop_inv (hqt : processor.Quiet) {f : Nat} {v v' : Round c K}
    (h : serviceLoop processor l f v = some v') (hP : P v.storage) : P v'.storage := by
  induction f generalizing v with
  | zero => cases h
  | succ f ih =>
    have hrd : ∀ {b w}, serviceRound processor l v = (b, w) → P w.storage := by
      intro b w hr
      have hvis : P (serviceQueue processor l v.next v.storage v.weight).2.2 :=
        (serviceQueue_eq hqt rfl).inv hs hse hP
      unfold serviceRound at hr
      dsimp only at hr
      split at hr
      · cases hr; exact hvis
      · cases hr; exact hvis
      · split at hr
        · cases hr; exact hvis
        · cases hr; exact hvis
    unfold serviceLoop at h
    split at h
    next hr => cases h; exact hrd hr
    next hr => exact ih h (hrd hr)

/-- What every small step keeps, and what does not depend on the ready ring, servicing keeps. -/
theorem serviceQueues_inv (hqt : processor.Quiet) {f : Nat} {w : Weight}
    (h : s.serviceQueues processor f l = some (w, s')) (hP : P s) : P s' := by
  unfold serviceQueues at h
  have hb := sameQueues_bumpServiceHead (s := s) (.fromLimit l)
  split at h
  next hr =>
    cases h
    rw [hr] at hb
    exact hs hb hP
  next hr =>
    obtain ⟨v, hl, heq⟩ := map_eq_some_iff.mp h
    cases heq
    rw [hr] at hb
    exact serviceLoop_inv hs hse hqt hl (hs hb hP)

end

/-! ## The other calls -/

/-- What enqueueing can do. -/
inductive Enqueue (o : K) (m : Message c) (s : Storage c K) : Storage c K → Prop
  /-- The last page of the queue is not there, and the message is dropped. -/
  | lost (hready : (s.book o).beginPage < (s.book o).endPage)
      (hpage : s.pages o ((s.book o).endPage - 1) = none) : Enqueue o m s s
  | appended {p p' : Page c.toSizing} (hready : (s.book o).beginPage < (s.book o).endPage)
      (hpage : s.pages o ((s.book o).endPage - 1) = some p)
      (happend : p.tryAppendMessage m.val = some p') :
      Enqueue o m s ((s.setPage o ((s.book o).endPage - 1) (some p')).putBook o
        ((s.book o).accept m.val.length))
  /-- There is no ready page, or no room in the last one. -/
  | linked {s1 : Storage c K} {b : BookState K}
      (hroom : (s.book o).beginPage < (s.book o).endPage →
        ∃ p, s.pages o ((s.book o).endPage - 1) = some p ∧ p.tryAppendMessage m.val = none)
      (hsame : SameQueues s s1) (hb : b.unlinked = ((s.book o).accept m.val.length).unlinked) :
      Enqueue o m s (s1.linkPage o b m)

theorem doEnqueueMessage_eq : Enqueue o m s (s.doEnqueueMessage o m) := by
  unfold doEnqueueMessage
  dsimp only
  split
  next hrdy =>
    split
    next hp => exact .lost hrdy hp
    next p hp =>
      split
      next p' happ => exact .appended hrdy hp happ
      next happ => exact .linked (fun _ => ⟨p, hp, happ⟩) .rfl rfl
  next hrdy =>
    have hs := sameQueues_readyRingKnit (s := s) (o := o)
    split
    all_goals
      rename_i hr
      rw [hr] at hs
      exact .linked (fun h => absurd h hrdy) hs rfl

/-- What executing an overweight message can do. -/
inductive Execute (o : K) (i j : Nat) (s : Storage c K) : Storage c K → Prop
  | refused : Execute o i j s s
  | postponed {a : Attempt K} (ha : a.consumed = false) : Execute o i j s (s.record a)
  | executed {p : Page c.toSizing} {pos : Nat} {a : Attempt K} (hpage : s.pages o i = some p)
      (hpeek : p.peekIndex j = some (pos, false, a.message))
      (hbehind : i < (s.book o).beginPage ∨ i = (s.book o).beginPage ∧ pos < p.first)
      (horigin : a.origin = o) (hpageIndex : a.pageIndex = i) (hindex : a.messageIndex = j)
      (hconsumed : a.consumed = true) (hremain : (p.noteProcessedAtPos pos).remaining ≠ 0) :
      Execute o i j s (((s.record a).setPage o i (some (p.noteProcessedAtPos pos))).putBook o
        ((s.book o).consume a.message.length))
  /-- It was the last message of the page. -/
  | removed {p : Page c.toSizing} {pos : Nat} {a : Attempt K} (hpage : s.pages o i = some p)
      (hpeek : p.peekIndex j = some (pos, false, a.message))
      (hbehind : i < (s.book o).beginPage ∨ i = (s.book o).beginPage ∧ pos < p.first)
      (horigin : a.origin = o) (hpageIndex : a.pageIndex = i) (hindex : a.messageIndex = j)
      (hconsumed : a.consumed = true) (hremain : (p.noteProcessedAtPos pos).remaining = 0) :
      Execute o i j s (((s.record a).setPage o i none).putBook o
        ((s.book o).consume a.message.length).removePage)

theorem doExecuteOverweight_eq (hqt : processor.Quiet) {r : Except Error Weight}
    (h : s.doExecuteOverweight processor o i j l = (r, s')) : Execute o i j s s' := by
  unfold doExecuteOverweight at h
  dsimp only at h
  split at h
  · cases h; exact .refused
  rename_i p hpa
  split at h
  · cases h; exact .refused
  rename_i pos isProcessed pa hpe
  split at h
  · cases h; exact .refused
  rename_i hbeh
  split at h
  · cases h; exact .refused
  rename_i hp
  rw [Bool.not_eq_true] at hp
  subst hp
  generalize hpr : processMessagePayload processor s o i j pa (.fromLimit l) .top = q at h
  obtain ⟨st, w, t⟩ := q
  obtain ⟨a, horig, hpidx, hidx, rfl, rfl, hused⟩ := processMessagePayload_quiet hqt hpr
  have hbeh := not_not.mp hbeh
  have hg := fun ha hrem =>
    Execute.removed hpa hpe hbeh horig hpidx hidx ha hrem
  have hex := fun ha hrem =>
    Execute.executed hpa hpe hbeh horig hpidx hidx ha hrem
  cases st with
  | overweight | insufficientWeight => cases h; exact .postponed (by simpa using hused)
  | processed | unprocessable =>
    have ha : a.consumed = true := by simpa using hused
    dsimp only at h
    split at h
    next hrem => cases h; exact hg ha hrem
    next hrem => cases h; exact hex ha hrem

theorem executeOverweight_eq (hqt : processor.Quiet) {r : Except ExecuteOverweightError Weight}
    (h : s.executeOverweight processor l o i j = (r, s')) : Execute o i j s s' := by
  unfold executeOverweight at h
  split at h
  · cases h; exact .refused
  split at h
  all_goals
    rename_i hr
    cases h
    exact doExecuteOverweight_eq hqt hr

theorem doReapPage_eq (h : s.doReapPage o i = some (r, s')) :
    (s' = s ∧ ∃ e, r = .error e) ∨
      ∃ p, i < (s.book o).beginPage ∧ s.pages o i = some p ∧ r = .ok () ∧
        s' = (s.setPage o i none).putBook o ((s.book o).reap p.remaining p.remainingSize) := by
  unfold doReapPage at h
  dsimp only at h
  split at h
  · cases h; exact .inl ⟨rfl, _, rfl⟩
  rename_i hbef
  split at h
  · cases h; exact .inl ⟨rfl, _, rfl⟩
  next p hp =>
    obtain ⟨reap, -, hr⟩ := map_eq_some_iff.mp h
    split at hr
    · cases hr; exact .inl ⟨rfl, _, rfl⟩
    · cases hr; exact .inr ⟨p, not_not.mp hbef, hp, rfl, rfl⟩

/-- Sweeping moves the beginning of the queue to its end. -/
theorem sweepQueue_eq : SameQueues s (s.sweepQueue o) ∨
    ∃ t b, SameQueues s t ∧ s.sweepQueue o = t.putBook o b ∧
      b.unlinked = unlinked { s.book o with beginPage := (s.book o).endPage } := by
  unfold sweepQueue
  split
  · exact .inl .rfl
  rename_i b hb
  have hbo : s.book o = b := by
    unfold book
    rw [hb, getD_some]
  refine .inr ?_
  rw [hbo]
  dsimp only
  split
  · exact ⟨s, _, .rfl, rfl, rfl⟩
  · exact ⟨_, _, sameQueues_readyRingUnknit, rfl, rfl⟩

/-! ## Sound pages -/

/-- A page of a queue with the given book. -/
structure PageSound (b : BookState K) (i : Nat) (p : Page c.toSizing) : Prop where
  lt_end : i < b.endPage
  holds : p.Holds p.items
  /-- What waits for service was not processed. -/
  fresh : b.beginPage ≤ i → ∀ it ∈ p.items.drop p.firstIndex, it.isProcessed = false

/-- Every stored page is sound. -/
def Sound (s : Storage c K) : Prop := ∀ o i p, s.pages o i = some p → PageSound (s.book o) i p

omit [DecidableEq K] in
theorem sound_empty : (empty : Storage c K).Sound := by
  intro o i p hp
  cases hp

omit [DecidableEq K] in
theorem PageSound.congr {b b' : BookState K} (h : PageSound b i p) (hend : b.endPage ≤ b'.endPage)
    (hbeg : b.beginPage ≤ b'.beginPage) : PageSound b' i p :=
  ⟨lt_of_lt_of_le h.lt_end hend, h.holds, fun hle => h.fresh (le_trans hbeg hle)⟩

/-- A write to one page and to the book of its queue, which may move the window on. -/
theorem Sound.write {q : Option (Page c.toSizing)} (h : s.Sound)
    (hend : (s.book o).endPage ≤ b.endPage) (hbeg : (s.book o).beginPage ≤ b.beginPage)
    (hq : ∀ p, q = some p → PageSound b i p) : ((s.setPage o i q).putBook o b).Sound := by
  intro x k p hp
  rw [pages_putBook, pages_setPage] at hp
  split at hp
  next heq =>
    obtain ⟨rfl, rfl⟩ := heq
    rw [book_putBook_self]
    exact hq p hp
  · by_cases hx : x = o
    · subst hx
      rw [book_putBook_self]
      exact (h x k p hp).congr hend hbeg
    · rw [book_putBook_of_ne hx]
      exact h x k p hp

theorem Sound.putBook (h : s.Sound) (hend : (s.book o).endPage ≤ b.endPage)
    (hbeg : (s.book o).beginPage ≤ b.beginPage) : (s.putBook o b).Sound := by
  have hwr := h.write hend hbeg fun p hp =>
    (h o 0 p hp).congr hend hbeg
  rwa [setPage_eq_self rfl] at hwr

section
omit [DecidableEq K]

theorem SameQueues.window (h : SameQueues s s') (x : K) :
    (s'.book x).beginPage = (s.book x).beginPage ∧ (s'.book x).endPage = (s.book x).endPage := by
  obtain ⟨hbeg, hend, -⟩ := fields_of_unlinked (h.book x)
  exact ⟨hbeg, hend⟩

theorem Sound.sameQueues (h : s.Sound) (hs : SameQueues s s') : s'.Sound := by
  intro x k p hp
  rw [hs.pages] at hp
  obtain ⟨hbeg, hend⟩ := hs.window x
  exact (h x k p hp).congr hend.ge hbeg.ge

/-- The next item of a page that waits for service. -/
theorem PageSound.next (h : PageSound b i p) (hp : p.peekFirst = some pa)
    (hbeg : b.beginPage ≤ i) : p.items[p.firstIndex]? = some ⟨pa, false⟩ := by
  rw [h.holds.peekFirst] at hp
  obtain ⟨it, hit, rfl⟩ := map_eq_some_iff.mp hp
  have hfre := h.fresh hbeg it (by
    obtain ⟨hlt, rfl⟩ := List.getElem?_eq_some_iff.mp hit
    rw [drop_eq_getElem_cons hlt]
    exact mem_cons_self)
  rw [hit, ← hfre]

theorem PageSound.skipFirst (h : PageSound b i p) (hp : p.peekFirst = some pa)
    (hbeg : b.beginPage ≤ i) (f : Bool) :
    PageSound b i (p.skipFirst f) ∧ (p.skipFirst f).items = p.items.set p.firstIndex ⟨pa, f⟩ := by
  have hn := h.next hp hbeg
  obtain ⟨hho, hidx⟩ := h.holds.skipFirst hn f
  have hi := hho.items_eq
  refine ⟨⟨h.lt_end, hi ▸ hho, fun _ it hit => ?_⟩, hi⟩
  rw [hi, hidx, drop_set_of_lt (lt_succ_self _)] at hit
  refine h.fresh hbeg it ?_
  have hdrop : p.items.drop (p.firstIndex + 1) = (p.items.drop p.firstIndex).drop 1 := by
    rw [drop_drop]
  rw [hdrop] at hit
  exact mem_of_mem_drop hit

theorem window_noteAttempt {a : Attempt K} :
    (noteAttempt b a).beginPage = b.beginPage ∧ (noteAttempt b a).endPage = b.endPage := by
  unfold noteAttempt
  split <;> exact ⟨rfl, rfl⟩

theorem beginPage_le_advance (h : b.beginPage < b.endPage) : b.beginPage ≤ b.advance.beginPage := by
  rw [beginPage_advance h]
  exact le_succ _

end

/-- Every small step of servicing keeps the pages sound. -/
theorem Sound.serve (h : s.Sound) (hs : Serve o s s') : s'.Sound := by
  cases hs with
  | postpone _ => exact h
  | @item p a hrdy hp hc hpe horig hpidx hidx =>
    obtain ⟨hbeg, hend⟩ := window_noteAttempt
    refine write h hend.ge hbeg.ge fun q hq => ?_
    cases hq
    exact ((h _ _ _ hp).skipFirst hpe (le_refl _) _).1.congr hend.ge hbeg.ge
  | missing hrdy hp =>
    exact h.putBook (le_refl _) (beginPage_le_advance hrdy)
  | complete hrdy hp hc =>
    exact h.write (le_refl _) (beginPage_le_advance hrdy) (by simp)
  | exhausted hrdy hp hc hpe =>
    exact h.putBook (le_refl _) (beginPage_le_advance hrdy)

section
omit [DecidableEq K]

/-- A message added to the last page waits behind the others. -/
theorem PageSound.tryAppendMessage {p' : Page c.toSizing} (h : PageSound b i p)
    (happ : p.tryAppendMessage pa = some p') :
    PageSound b i p' ∧ p'.items = p.items ++ [⟨pa, false⟩] := by
  obtain ⟨hho, hidx⟩ := h.holds.tryAppendMessage happ
  have hi := hho.items_eq
  refine ⟨⟨h.lt_end, hi ▸ hho, fun hle it hit => ?_⟩, hi⟩
  rw [hi, hidx, drop_append_of_le_length h.holds.firstIndex_le, mem_append] at hit
  cases hit with
  | inl hit => exact h.fresh hle it hit
  | inr hit => rw [mem_singleton.mp hit]

theorem items_fromMessage (m : Message c) :
    (Page.fromMessage c.toSizing m.val).items = [⟨m.val, false⟩] :=
  (Page.holds_fromMessage (le_of_lt c.integrity) m.property).items_eq

theorem pageSound_fromMessage (hlt : i < b.endPage) (m : Message c) :
    PageSound b i (.fromMessage c.toSizing m.val) := by
  have hho := Page.holds_fromMessage (le_of_lt c.integrity) m.property
  refine ⟨hlt, items_fromMessage m ▸ hho, fun _ it hit => ?_⟩
  rw [items_fromMessage] at hit
  rw [mem_singleton.mp (mem_of_mem_drop hit)]

end

/-- The index of a page that is linked in. -/
def newIndex (b : BookState K) : Nat := satAdd u32Max b.endPage 1 - 1

omit [DecidableEq K] in
theorem newIndex_lt : newIndex b < satAdd u32Max b.endPage 1 := by
  unfold newIndex satAdd u32Max
  omega

section
omit [DecidableEq K] in
theorem newIndex_of_lt (h : b.endPage < u32Max) : newIndex b = b.endPage := by
  have hadd : satAdd u32Max b.endPage 1 = b.endPage + 1 := min_eq_left h
  rw [newIndex, hadd, Nat.add_sub_cancel]

theorem pages_linkPage (x : K) (k : Nat) : (s.linkPage o b m).pages x k =
    if x = o ∧ k = newIndex b then some (.fromMessage c.toSizing m.val) else s.pages x k := by
  unfold linkPage
  rw [pages_putBook, pages_setPage]
  rfl

theorem book_linkPage_of_ne {x : K} (hx : x ≠ o) : (s.linkPage o b m).book x = s.book x := by
  unfold linkPage
  rw [book_putBook_of_ne hx, book_setPage]

theorem endPage_linkPage (h : b.endPage < u32Max) :
    ((s.linkPage o b m).book o).endPage = b.endPage + 1 := by
  unfold linkPage
  rw [book_putBook_self]
  exact min_eq_left h

end

theorem Sound.enqueue (h : s.Sound) (henq : Enqueue o m s s') : s'.Sound := by
  cases henq with
  | lost hrdy hp => exact h
  | appended hrdy hp happ =>
    refine h.write (le_refl _) (le_refl _) fun q hq => ?_
    cases hq
    exact ((h _ _ _ hp).tryAppendMessage happ).1.congr (le_refl _) (le_refl _)
  | @linked t b hroom hsa hb =>
    have hs := h.sameQueues hsa
    obtain ⟨hbeg, hend, -⟩ := fields_of_unlinked hb
    obtain ⟨hbeg', hend'⟩ := hsa.window o
    refine hs.write ?_ ?_ fun q hq => ?_
    · have := b.endPage_le
      dsimp only [satAdd, accept] at hend ⊢
      omega
    · dsimp only [accept] at hbeg ⊢
      omega
    · cases hq
      exact pageSound_fromMessage newIndex_lt m

omit [DecidableEq K] in
/-- A message that is executed by hand does not wait for service. -/
theorem PageSound.noteProcessedAtPos {pos : Nat} (h : PageSound b i p)
    (hp : p.peekIndex j = some (pos, false, pa))
    (hbeh : i < b.beginPage ∨ i = b.beginPage ∧ pos < p.first) :
    p.items[j]? = some ⟨pa, false⟩ ∧ PageSound b i (p.noteProcessedAtPos pos) ∧
      (p.noteProcessedAtPos pos).items = p.items.set j ⟨pa, true⟩ := by
  rw [h.holds.peekIndex] at hp
  obtain ⟨⟨p', f⟩, hit, heq⟩ := map_eq_some_iff.mp hp
  obtain ⟨rfl, rfl, rfl⟩ : _ = pos ∧ f = false ∧ p' = pa := by simpa using heq
  have hho := h.holds.noteProcessedAtPos hit
  have hi := hho.items_eq
  refine ⟨hit, ⟨h.lt_end, hi ▸ hho, fun hle it' hit' => ?_⟩, hi⟩
  have hpos : j < p.firstIndex := by
    have hlt := (hbeh.resolve_left (by omega)).2
    rw [h.holds.first] at hlt
    by_contra hge
    have hmono : Records.offset (Item.encode c.toSizing) p.items p.firstIndex ≤ _ :=
      Records.offset_mono (Nat.le_of_not_lt hge)
    omega
  rw [hi, Page.firstIndex_noteProcessedAtPos, drop_set_of_lt hpos] at hit'
  exact h.fresh hle it' hit'

theorem Sound.execute (h : s.Sound) (hex : Execute o i j s s') : s'.Sound := by
  cases hex with
  | refused | postponed => exact h
  | @executed p pos a hpa hp hbeh =>
    refine write h (le_refl _) (le_refl _) fun q hq => ?_
    cases hq
    exact ((h _ _ _ hpa).noteProcessedAtPos hp hbeh).2.1.congr (le_refl _) (le_refl _)
  | @removed p pos a =>
    exact write h (le_refl _) (le_refl _) (by simp)

theorem Sound.reap (h : s.Sound) (hr : s.doReapPage o i = some (r, s')) : s'.Sound := by
  obtain ⟨rfl, -⟩ | ⟨p, -, -, -, rfl⟩ := doReapPage_eq hr
  · exact h
  · exact h.write (le_refl _) (le_refl _) (by simp)

theorem Sound.sweep (h : s.Sound) : (s.sweepQueue o).Sound := by
  obtain hs | ⟨t, b, hs, heq, hb⟩ := sweepQueue_eq (s := s)
  · exact h.sameQueues hs
  -- no page is at the end of the queue or behind it, so nothing waits for service
  obtain ⟨hbeg, hend, -⟩ := fields_of_unlinked hb
  obtain ⟨hbeg', hend'⟩ := hs.window o
  dsimp only at hbeg hend
  rw [heq]
  intro x k p hp
  have hsnd := h.sameQueues hs x k p hp
  by_cases hx : x = o
  · subst hx
    have hlt := hsnd.lt_end
    rw [book_putBook_self]
    exact ⟨by omega, hsnd.holds, fun hle => absurd hle (by omega)⟩
  · rwa [book_putBook_of_ne hx]

/-- The processor that a call meets does not call into the pallet. -/
def Call.Quiet : Call c K → Prop
  | .serviceQueues processor _ _ => processor.Quiet
  | .executeOverweight processor _ _ _ _ => processor.Quiet
  | .submitExecuteOverweight processor _ _ _ _ => processor.Quiet
  | _ => True

theorem submitExecuteOverweight_eq (hqt : processor.Quiet)
    (h : s.call (.submitExecuteOverweight processor l o i j) = some s') :
    Execute o i j s s' := by
  unfold call at h
  dsimp only at h
  split at h
  next hr => cases h; exact doExecuteOverweight_eq hqt hr
  · cases h; exact .refused

/-- Every call keeps the pages sound. -/
theorem Sound.call (h : s.Sound) {e : Call c K} (hqt : e.Quiet) (hc : s.call e = some s') :
    s'.Sound := by
  cases e with
  | enqueueMessage o m =>
    cases hc
    exact h.enqueue doEnqueueMessage_eq
  | serviceQueues processor fuel l =>
    obtain ⟨⟨w, t⟩, hse, rfl⟩ := map_eq_some_iff.mp hc
    exact serviceQueues_inv (fun hsa h => h.sameQueues hsa) (fun hs h => h.serve hs) hqt hse h
  | executeOverweight processor l o i j =>
    cases hc
    exact h.execute (executeOverweight_eq hqt rfl)
  | submitExecuteOverweight processor l o i j =>
    exact h.execute (submitExecuteOverweight_eq hqt hc)
  | reapPage o i =>
    obtain ⟨⟨r, t⟩, hr, rfl⟩ := map_eq_some_iff.mp hc
    exact h.reap hr
  | sweepQueue o =>
    cases hc
    exact h.sweep

end Storage

/-! ## A configuration to run calls in -/

/-- A small configuration: pages of sixteen bytes, and one unit of time for every part of
servicing. -/
def Config.small : Config where
  width := 1
  heapSize := 16
  heapSize_lt := by decide
  maxStale := 2
  maxStale_le := by decide
  weightInfo := ⟨⟨1, 0⟩, ⟨1, 0⟩, ⟨1, 0⟩, ⟨1, 0⟩, ⟨1, 0⟩, ⟨1, 0⟩, ⟨1, 0⟩, ⟨1, 0⟩⟩
  integrity := by decide

end MessageQueue
