-- SUMMARY: What servicing a queue can do, in small steps on the storage.
import SubstrateIpfs.MessageQueue.Pallet

/-!
# Servicing in steps

Servicing works on copies of the book and the page and writes them back later. Seen with the copies
written back, servicing is a sequence of small steps: an attempt to process the next item of the
page at the beginning of the queue, or the move to the next page.
-/

namespace MessageQueue

open Function Storage.PageServing Attempt

variable {c : Config} {K : Type} {a : Attempt K} {st : PageExecutionStatus}

/-! ## Attempts -/

/-- The message is gone with this attempt: it was processed, or failed for good. -/
def Attempt.consumed (a : Attempt K) : Bool :=
  match a.result with
  | .error (.overweight _) => false
  | _ => true

/-- The processor does not call into the pallet. -/
def Processor.Quiet (processor : Processor c K) : Prop :=
  ∀ attempts message origin limit, (processor attempts message origin limit).enqueued = []

theorem Processor.quiet_const (res : Except ProcessMessageError (Bool × Weight)) :
    (const res : Processor c K).Quiet := fun _ _ _ _ => rfl

namespace BookState

/-- The book after a message of the given length was processed. -/
def consume (b : BookState K) (len : Nat) : BookState K :=
  { b with messageCount := b.messageCount - 1, size := b.size - len }

/-- The book after a page was removed. -/
def removePage (b : BookState K) : BookState K := { b with count := b.count - 1 }

/-- The book after the move to the next page. -/
def advance (b : BookState K) : BookState K :=
  { b with beginPage := satAdd u32Max b.beginPage 1 }

/-- The book without its place in the ready ring. -/
def unlinked (b : BookState K) : BookState K := { b with readyNeighbours := none }

variable {b : BookState K}

theorem fields_of_unlinked {b' : BookState K} (h : b.unlinked = b'.unlinked) :
    b.beginPage = b'.beginPage ∧ b.endPage = b'.endPage ∧ b.count = b'.count ∧
      b.messageCount = b'.messageCount ∧ b.size = b'.size := by
  simp only [unlinked, mk.injEq] at h
  exact ⟨h.1, h.2.1, h.2.2.1, h.2.2.2.2⟩

theorem beginPage_advance (h : b.beginPage < b.endPage) : b.advance.beginPage = b.beginPage + 1 :=
  min_eq_left (le_trans h b.endPage_le)

end BookState

namespace Storage

/-- The storage after an attempt. -/
def record (s : Storage c K) (a : Attempt K) : Storage c K :=
  { s with attempts := s.attempts ++ [a] }

@[simp] theorem book_record {s : Storage c K} {o : K} : (s.record a).book o = s.book o := rfl

variable [DecidableEq K]

/-! ## Reading after a write -/

section
variable {s : Storage c K} {o x : K} {b b' : BookState K} {i j : Nat} {p : Option (Page c.toSizing)}

@[simp] theorem book_putBook_self : (s.putBook o b).book o = b := by
  simp [putBook, book]

theorem book_putBook_of_ne (h : x ≠ o) : (s.putBook o b).book x = s.book x := by
  simp [putBook, book, update_of_ne h]

@[simp] theorem book_setPage : (s.setPage o i p).book x = s.book x := rfl

@[simp] theorem pages_putBook : (s.putBook o b).pages = s.pages := rfl

omit [DecidableEq K] in
@[simp] theorem pages_record : (s.record a).pages = s.pages := rfl

@[simp] theorem pages_setPage_self : (s.setPage o i p).pages o i = p := by
  simp [setPage]

theorem pages_setPage : (s.setPage o i p).pages x j = if x = o ∧ j = i then p else s.pages x j := by
  unfold setPage
  by_cases hx : x = o
  · subst hx
    by_cases hj : j = i
    · subst hj
      simp
    · simp [hj]
  · simp [hx]

theorem setPage_eq_self (h : s.pages o i = p) : s.setPage o i p = s := by
  unfold setPage
  rw [← h, update_eq_self, update_eq_self]

@[simp] theorem setPage_setPage {p' : Option (Page c.toSizing)} :
    (s.setPage o i p).setPage o i p' = s.setPage o i p' := by
  simp [setPage]

@[simp] theorem putBook_putBook : (s.putBook o b).putBook o b' = s.putBook o b' := by
  simp [putBook]

theorem setPage_putBook : (s.putBook o b).setPage x i p = (s.setPage x i p).putBook o b := rfl

theorem record_putBook : (s.putBook o b).record a = (s.record a).putBook o b := rfl

theorem record_setPage : (s.setPage o i p).record a = (s.record a).setPage o i p :=
  rfl

end

/-! ## The ring apart from the queues -/

/-- The two storages differ in the ready ring only. -/
structure SameQueues (s s' : Storage c K) : Prop where
  book : ∀ o, (s'.book o).unlinked = (s.book o).unlinked
  pages : s'.pages = s.pages
  attempts : s'.attempts = s.attempts

omit [DecidableEq K] in
theorem SameQueues.rfl {s : Storage c K} : SameQueues s s := ⟨fun _ => .refl _, .refl _, .refl _⟩

omit [DecidableEq K] in
theorem SameQueues.trans {s t u : Storage c K} (h : SameQueues s t) (h' : SameQueues t u) :
    SameQueues s u :=
  ⟨fun o => (h'.book o).trans (h.book o), h'.pages.trans h.pages, h'.attempts.trans h.attempts⟩

section
variable {s : Storage c K} {o : K} {n : Neighbours K}

theorem sameQueues_putBook {b : BookState K} (h : b.unlinked = (s.book o).unlinked) :
    SameQueues s (s.putBook o b) := by
  refine ⟨fun x => ?_, rfl, rfl⟩
  by_cases hx : x = o
  · subst hx
    rw [book_putBook_self, h]
  · rw [book_putBook_of_ne hx]

theorem sameQueues_mutateNeighbours {f : Neighbours K → Neighbours K} :
    SameQueues s (s.mutateNeighbours o f) := sameQueues_putBook rfl

theorem sameQueues_readyRingKnit : SameQueues s (s.readyRingKnit o).2 := by
  unfold readyRingKnit
  split
  · exact ⟨fun _ => rfl, rfl, rfl⟩
  split
  · exact .rfl
  · dsimp only
    split
    · exact sameQueues_mutateNeighbours
    · exact sameQueues_mutateNeighbours.trans sameQueues_mutateNeighbours

theorem sameQueues_readyRingUnknit : SameQueues s (s.readyRingUnknit o n) := by
  unfold readyRingUnknit
  split
  · exact ⟨fun _ => rfl, rfl, rfl⟩
  have h : SameQueues s ((s.mutateNeighbours n.next fun m => { m with prev := n.prev }
      ).mutateNeighbours n.prev fun m => { m with next := n.next }) :=
    sameQueues_mutateNeighbours.trans sameQueues_mutateNeighbours
  dsimp only
  split
  · exact ⟨h.book, h.pages, h.attempts⟩
  · exact h

omit [DecidableEq K] in
theorem sameQueues_bumpServiceHead (w : WeightMeter) : SameQueues s (s.bumpServiceHead w).2.2 := by
  unfold bumpServiceHead
  split
  · exact .rfl
  split
  · exact .rfl
  · split
    · exact .rfl
    · exact ⟨fun _ => rfl, rfl, rfl⟩

end

/-! ## Small steps -/

/-- The book after an attempt on a message of the given length. -/
def noteAttempt (b : BookState K) (a : Attempt K) : BookState K :=
  if a.consumed then b.consume a.message.length else b

/-- One step of servicing the queue of `o`. -/
inductive Serve (o : K) : Storage c K → Storage c K → Prop
  /-- The processor was asked, but there is not enough weight for the message now. -/
  | postpone {s : Storage c K} {a : Attempt K} (ha : a.consumed = false) : Serve o s (s.record a)
  /-- The next message of the page is processed, or skipped because it is too heavy. -/
  | item {s : Storage c K} {p : Page c.toSizing} {a : Attempt K}
      (hready : (s.book o).beginPage < (s.book o).endPage)
      (hpage : s.pages o (s.book o).beginPage = some p) (hcomplete : p.isComplete = false)
      (hpeek : p.peekFirst = some a.message) (horigin : a.origin = o)
      (hpageIndex : a.pageIndex = (s.book o).beginPage) (hindex : a.messageIndex = p.firstIndex) :
      Serve o s (((s.record a).setPage o (s.book o).beginPage
        (some (p.skipFirst a.consumed))).putBook o (noteAttempt (s.book o) a))
  /-- There is no page. -/
  | missing {s : Storage c K} (hready : (s.book o).beginPage < (s.book o).endPage)
      (hpage : s.pages o (s.book o).beginPage = none) :
      Serve o s (s.putBook o (s.book o).advance)
  /-- No message remains in the page. -/
  | complete {s : Storage c K} {p : Page c.toSizing}
      (hready : (s.book o).beginPage < (s.book o).endPage)
      (hpage : s.pages o (s.book o).beginPage = some p) (hcomplete : p.isComplete = true) :
      Serve o s ((s.setPage o (s.book o).beginPage none).putBook o (s.book o).removePage.advance)
  /-- Only messages that were skipped remain in the page. -/
  | exhausted {s : Storage c K} {p : Page c.toSizing}
      (hready : (s.book o).beginPage < (s.book o).endPage)
      (hpage : s.pages o (s.book o).beginPage = some p) (hcomplete : p.isComplete = false)
      (hpeek : p.peekFirst = none) :
      Serve o s (s.putBook o (s.book o).advance)

/-- Any number of steps. -/
abbrev Serves (o : K) : Storage c K → Storage c K → Prop := Relation.ReflTransGen (Serve o)

/-- The storage with the copies written back. -/
def Serving.flush (v : Serving c K) (o : K) : Storage c K := v.storage.putBook o v.book

/-- The storage with the copies written back. -/
def PageServing.flush (v : PageServing c K) (o : K) : Storage c K :=
  (v.storage.setPage o v.book.beginPage (some v.page)).putBook o v.book

section
variable {p : Processor c K} {l : Weight} {o : K} {n : Nat}

section
variable (hq : p.Quiet)

include hq

/-- A quiet processor is asked, and nothing else happens. -/
theorem processMessagePayload_quiet {s s' : Storage c K} {i j : Nat} {m : List UInt8}
    {w w' : WeightMeter} {st : MessageExecutionStatus}
    (h : processMessagePayload p s o i j m w l = (st, w', s')) :
    ∃ a, a.origin = o ∧ a.pageIndex = i ∧ a.messageIndex = j ∧ a.message = m ∧
      s' = s.record a ∧ (a.consumed = true ↔ st = .processed ∨ st = .unprocessable) := by
  refine ⟨⟨o, i, j, m, w.remaining, (p s.attempts m o w.remaining).result⟩,
    rfl, rfl, rfl, rfl, ?_⟩
  have hen := hq s.attempts m o w.remaining
  unfold processMessagePayload at h
  simp only [hen] at h
  generalize (p s.attempts m o w.remaining).result = res at h ⊢
  cases res with
  | ok r => cases h; exact ⟨rfl, by simp [consumed]⟩
  | error e =>
    cases e with
    | overweight weight =>
      dsimp only at h
      split at h <;> (cases h; exact ⟨rfl, by simp [consumed]⟩)
    | _ => cases h; exact ⟨rfl, by simp [consumed]⟩

/-- What one round of the loop over the items of a page does. -/
theorem servicePageItem_eq {v v' : PageServing c K} {st : ItemExecutionStatus}
    (hrdy : v.book.beginPage < v.book.endPage)
    (h : servicePageItem p l o v.book.beginPage v = (st, v')) :
    Serves o (v.flush o) (v'.flush o) ∧
      (st = .bailed → v'.page.isComplete = false) ∧
      (st = .noItem → v'.page.isComplete = true ∨ v'.page.peekFirst = none) := by
  unfold servicePageItem at h
  split at h
  next hc =>
    cases h
    exact ⟨.refl, by simp, fun _ => .inl hc⟩
  rename_i hc
  rw [Bool.not_eq_true] at hc
  split at h
  · cases h
    exact ⟨.refl, fun _ => hc, by simp⟩
  rename_i w hwt
  split at h
  next hp =>
    cases h
    exact ⟨.refl, by simp, fun _ => .inr hp⟩
  rename_i pl hp
  generalize hpr : processMessagePayload p v.storage o v.book.beginPage
    v.page.firstIndex pl w l = r at h
  obtain ⟨st', w', s'⟩ := r
  obtain ⟨a, horig, hpage, hidx, rfl, rfl, hused⟩ := processMessagePayload_quiet hq hpr
  -- the step of the item, from the storage with the copies written back
  have hi : Serve o (v.flush o) _ :=
    .item (by simpa [flush] using hrdy)
      (by simp [flush]) hc hp horig
      (by simpa [flush] using hpage) hidx
  simp only [flush, book_putBook_self, record_putBook, setPage_putBook,
    putBook_putBook, record_setPage, setPage_setPage] at hi
  cases st' with
  | insufficientWeight =>
    cases h
    refine ⟨.single ?_, fun _ => hc, by simp⟩
    exact .postpone (by simpa using hused)
  | overweight =>
    cases h
    have ha : a.consumed = false := by simpa using hused
    refine ⟨.single ?_, by simp, by simp⟩
    simp only [noteAttempt, ha] at hi
    exact hi
  | processed | unprocessable =>
    cases h
    have ha : a.consumed = true := by simpa using hused
    refine ⟨.single ?_, by simp, by simp⟩
    simp only [noteAttempt, ha] at hi
    exact hi

/-- What the loop over the items of a page does. -/
theorem servicePageLoop_eq {v v' : PageServing c K} {i n' : Nat} (hi : i = v.book.beginPage)
    (hrdy : v.book.beginPage < v.book.endPage) (h : servicePageLoop p l o i v n = (n', st, v')) :
    Serves o (v.flush o) (v'.flush o) ∧ v'.book.beginPage = v.book.beginPage ∧
      v'.book.endPage = v.book.endPage ∧
      (st = .bailed → v'.page.isComplete = false) ∧
      (st = .noMore → v'.page.isComplete = true ∨ v'.page.peekFirst = none) := by
  fun_induction servicePageLoop p l o i v n with
  | case1 v n w hit =>
    subst hi
    cases h
    obtain ⟨hsrv, hb, -⟩ := servicePageItem_eq hq hrdy hit
    obtain ⟨hbeg, hend⟩ := servicePageItem_window p l o hit
    exact ⟨hsrv, hbeg, hend, fun _ => hb rfl, by simp⟩
  | case2 v n w hit =>
    subst hi
    cases h
    obtain ⟨hsrv, -, hn⟩ := servicePageItem_eq hq hrdy hit
    obtain ⟨hbeg, hend⟩ := servicePageItem_window p l o hit
    exact ⟨hsrv, hbeg, hend, by simp, fun _ => hn rfl⟩
  | case3 v n b w hit _ ih =>
    subst hi
    obtain ⟨hsrv, -, -⟩ := servicePageItem_eq hq hrdy hit
    obtain ⟨hbeg, hend⟩ := servicePageItem_window p l o hit
    obtain ⟨hs', hb', he', hs⟩ := ih hbeg.symm (by omega) h
    exact ⟨hsrv.trans hs', hb'.trans hbeg, he'.trans hend, hs⟩

/-- What servicing a page does. If the page is done, the queue moves on to the next one. -/
theorem servicePage_eq {v v' : Serving c K} (hrdy : v.book.beginPage < v.book.endPage)
    (h : servicePage p l o v = (n, st, v')) :
    (st = .bailed → Serves o (v.flush o) (v'.flush o)) ∧
      (st = .noMore → Serves o (v.flush o) (v'.storage.putBook o v'.book.advance)) := by
  unfold servicePage at h
  split at h
  · cases h
    exact ⟨fun _ => .refl, by simp⟩
  rename_i weight hwt
  dsimp only at h
  split at h
  next hp =>
    cases h
    refine ⟨by simp, fun _ => .single ?_⟩
    have hs : Serve o (v.flush o) _ := .missing (by simpa [Serving.flush] using hrdy)
      (by simpa [Serving.flush] using hp)
    simpa only [Serving.flush, book_putBook_self, putBook_putBook] using hs
  rename_i page hp
  generalize hsta : (⟨⟨v.storage, v.book, weight⟩, page⟩ : PageServing c K) = v0 at h
  have hb : v0.book = v.book := by rw [← hsta]
  have hf : v0.flush o = v.flush o := by
    rw [← hsta, flush, setPage_eq_self hp, Serving.flush]
  generalize hl : servicePageLoop p l o v.book.beginPage v0 0 = r at h
  obtain ⟨n', st', w⟩ := r
  obtain ⟨hsrv, hbeg, hend, hbail, hdone⟩ := servicePageLoop_eq hq (by rw [hb]) (by rwa [hb]) hl
  rw [hf] at hsrv
  rw [hb] at hbeg hend
  -- the window of the queue, seen in the storage with the copies written back
  have hrdy' : ((w.flush o).book o).beginPage < ((w.flush o).book o).endPage := by
    rw [flush, book_putBook_self]
    omega
  have hpage' : (w.flush o).pages o ((w.flush o).book o).beginPage = some w.page := by
    rw [flush, book_putBook_self, pages_putBook, pages_setPage_self]
  split at h
  next hc =>
    have hs : Serve o (w.flush o) _ := .complete hrdy' hpage' hc
    rw [flush, book_putBook_self, setPage_putBook, putBook_putBook,
      setPage_setPage, ← flush, hbeg] at hs
    cases h
    refine ⟨fun hst => ?_, fun _ => hsrv.tail hs⟩
    rw [hbail hst] at hc
    cases hc
  next hc =>
    rw [Bool.not_eq_true] at hc
    cases h
    constructor
    · intro _
      rw [flush, hbeg] at hsrv
      exact hsrv
    · intro hst
      have hpe := (hdone hst).resolve_left (by simp [hc])
      have hs : Serve o (w.flush o) _ := .exhausted hrdy' hpage' hc hpe
      rw [flush, book_putBook_self, putBook_putBook, ← flush, hbeg] at hs
      exact hsrv.tail hs

theorem serviceQueueLoop_eq {v v' : Serving c K} {n' : Nat}
    (h : serviceQueueLoop p l o v n = (n', v')) :
    Serves o (v.flush o) (v'.flush o) := by
  fun_induction serviceQueueLoop p l o v n with
  | case1 v n hrdy m w hp =>
    cases h
    exact (servicePage_eq hq hrdy hp).1 rfl
  | case2 v n hrdy m w hp _ _ ih =>
    have hsrv := (servicePage_eq hq hrdy hp).2 rfl
    exact hsrv.trans (ih h)
  | case3 v n hrdy =>
    cases h
    exact .refl

end

end

end Storage

end MessageQueue
