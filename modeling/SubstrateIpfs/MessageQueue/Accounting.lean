-- SUMMARY: The counters of the message queue are exact in every state that calls lead to.
import SubstrateIpfs.MessageQueue.Queues

/-!
# Accounting

The counters of a page are those of its items, by the layout of the page. The
counters of a book are totals over the stored pages of its queue. A call changes
one page of a queue at a time, and the book by the same amount.
-/

namespace MessageQueue

open List BookState Option

theorem unprocessedSize_eq_zero {l : List Item} (h : unprocessed l = 0) :
    unprocessedSize l = 0 := by
  have hnil : (l.filter fun it => !it.isProcessed) = [] := by
    rw [unprocessed, countP_eq_length_filter] at h
    exact eq_nil_of_length_eq_zero h
  rw [unprocessedSize, hnil]
  rfl

/-- A sum that is below the limit did not saturate. -/
theorem satAdd_of_lt {max a b : Nat} (h : satAdd max a b < max) : satAdd max a b = a + b := by
  unfold satAdd at *
  omega

namespace Storage

variable {c : Config} {K : Type} {x : K} {b : BookState K} {q : Option (Page c.toSizing)}
  {p p' : Page c.toSizing} {pl : List UInt8}

/-- The stored pages of a queue. -/
def storedPages (s : Storage c K) (o : K) : List (Page c.toSizing) :=
  (List.range (s.book o).endPage).filterMap (s.pages o)

/-- What a page adds to a total. -/
def share (f : Page c.toSizing → Nat) (q : Option (Page c.toSizing)) : Nat := q.elim 0 f

/-- The total over the stored pages of a queue. -/
def total (f : Page c.toSizing → Nat) (s : Storage c K) (o : K) : Nat :=
  ∑ i ∈ Finset.range (s.book o).endPage, share f (s.pages o i)

theorem total_eq_sum {f : Page c.toSizing → Nat} {s : Storage c K} {o : K} :
    total f s o = ((s.storedPages o).map f).sum := by
  unfold total storedPages
  induction (s.book o).endPage with
  | zero => rfl
  | succ n ih =>
    rw [Finset.sum_range_succ, ih, range_succ]
    cases hp : s.pages o n <;> simp [share, hp]

/-- The book counts the stored pages and the unprocessed messages in them. -/
structure Counted (s : Storage c K) (o : K) : Prop where
  count : (s.book o).count = total (fun _ => 1) s o
  messageCount : (s.book o).messageCount = total (·.remaining) s o
  size : (s.book o).size = total (·.remainingSize) s o

/-- Every counter is below the limit of its type. -/
structure BelowLimits (s : Storage c K) (o : K) : Prop where
  endPage : (s.book o).endPage < u32Max
  count : (s.book o).count < u32Max
  messageCount : (s.book o).messageCount < u64Max
  size : (s.book o).size < u64Max

variable [DecidableEq K] {s s' : Storage c K} {o : K} {i j : Nat} {m : Message c}
  {f : Page c.toSizing → Nat}

/-! ## Totals -/

omit [DecidableEq K] in
theorem total_congr (hpgs : s'.pages x = s.pages x)
    (hend : (s'.book x).endPage = (s.book x).endPage) : total f s' x = total f s x := by
  unfold total
  rw [hpgs, hend]

omit [DecidableEq K] in
theorem total_sameQueues (h : SameQueues s s') : total f s' x = total f s x :=
  total_congr (by rw [h.pages]) (h.window x).2

theorem total_write_of_ne (hx : x ≠ o) : total f ((s.setPage o i q).putBook o b) x = total f s x :=
  total_congr (Function.update_of_ne hx _ _) (by rw [book_putBook_of_ne hx, book_setPage])

/-- A write to one page changes the total by what the page adds to it. -/
theorem total_write (hi : i < (s.book o).endPage) (hend : b.endPage = (s.book o).endPage) :
    total f ((s.setPage o i q).putBook o b) o + share f (s.pages o i) =
      total f s o + share f q := by
  have hmem : i ∈ range (s.book o).endPage := mem_range.mpr hi
  have hpgs : ∀ k, share f (((s.setPage o i q).putBook o b).pages o k) =
      Function.update (fun k => share f (s.pages o k)) i (share f q) k := by
    intro k
    rw [pages_putBook, pages_setPage]
    by_cases hk : k = i <;> simp [hk]
  have hold : total f s o = ∑ k ∈ Finset.range (s.book o).endPage \ {i}, share f (s.pages o k) +
      share f (s.pages o i) :=
    Finset.sum_eq_sum_sdiff_singleton_add hmem _
  have hnew : total f ((s.setPage o i q).putBook o b) o = share f q +
      ∑ k ∈ Finset.range (s.book o).endPage \ {i}, share f (s.pages o k) := by
    unfold total
    rw [book_putBook_self, hend, Finset.sum_congr rfl fun k _ => hpgs k,
      Finset.sum_update_of_mem hmem]
  omega

/-- A page behind the end adds to the total. -/
theorem total_link (hend : b.endPage = (s.book o).endPage + 1) :
    total f ((s.setPage o (s.book o).endPage q).putBook o b) o = total f s o + share f q := by
  unfold total
  rw [book_putBook_self, hend, Finset.sum_range_succ, pages_putBook, pages_setPage_self]
  refine congrArg (· + _) (Finset.sum_congr rfl fun k hk => ?_)
  have hne : k ≠ (s.book o).endPage := ne_of_lt (mem_range.mp hk)
  rw [pages_setPage, if_neg (fun h => hne h.2)]

/-! ## Steps -/

omit [DecidableEq K] in
theorem Counted.sameQueues (h : s.Counted o) (hs : SameQueues s s') : s'.Counted o := by
  obtain ⟨-, -, hcnt, hm, hsi⟩ := fields_of_unlinked (hs.book o)
  constructor
  · rw [hcnt, total_sameQueues hs, h.count]
  · rw [hm, total_sameQueues hs, h.messageCount]
  · rw [hsi, total_sameQueues hs, h.size]

omit [DecidableEq K] in
theorem Counted.record (h : ∀ x, s.Counted x) (a : Attempt K) : ∀ x, (s.record a).Counted x :=
  fun x => ⟨(h x).count, (h x).messageCount, (h x).size⟩

/-- The counters after a write to one page are right if the book changes by what the page does. -/
theorem Counted.write {b : BookState K} {q : Option (Page c.toSizing)} (h : ∀ x, s.Counted x)
    (hi : i < (s.book o).endPage) (hend : b.endPage = (s.book o).endPage)
    (hcnt : b.count + share (fun _ => 1) (s.pages o i) = (s.book o).count + share (fun _ => 1) q)
    (hmsgs : b.messageCount + share (·.remaining) (s.pages o i) =
      (s.book o).messageCount + share (·.remaining) q)
    (hsize : b.size + share (·.remainingSize) (s.pages o i) =
      (s.book o).size + share (·.remainingSize) q) :
    ∀ x, ((s.setPage o i q).putBook o b).Counted x := by
  intro x
  by_cases hx : x = o
  · subst hx
    have hw := fun f => total_write (f := f) (q := q) hi hend
    have hc := hw fun _ => 1
    have hm := hw (·.remaining)
    have hs := hw (·.remainingSize)
    obtain ⟨h1, h2, h3⟩ := h x
    refine ⟨?_, ?_, ?_⟩ <;> rw [book_putBook_self] <;> omega
  · obtain ⟨h1, h2, h3⟩ := h x
    refine ⟨?_, ?_, ?_⟩ <;> rw [book_putBook_of_ne hx, total_write_of_ne hx]
    · exact h1
    · exact h2
    · exact h3

theorem Counted.link (h : ∀ x, s.Counted x) (hend : b.endPage = (s.book o).endPage + 1)
    (hcnt : b.count = (s.book o).count + 1)
    (hm : b.messageCount = (s.book o).messageCount + p.remaining)
    (hs : b.size = (s.book o).size + p.remainingSize) :
    ∀ x, ((s.setPage o (s.book o).endPage (some p)).putBook o b).Counted x := by
  intro x
  obtain ⟨h1, h2, h3⟩ := h x
  by_cases hx : x = o
  · subst hx
    refine ⟨?_, ?_, ?_⟩ <;> rw [book_putBook_self, total_link hend]
    · rw [hcnt, h1]
      rfl
    · rw [hm, h2]
      rfl
    · rw [hs, h3]
      rfl
  · refine ⟨?_, ?_, ?_⟩ <;> rw [book_putBook_of_ne hx, total_write_of_ne hx]
    · exact h1
    · exact h2
    · exact h3

theorem Counted.putBook (h : ∀ x, s.Counted x) (hend : b.endPage = (s.book o).endPage)
    (hcnt : b.count = (s.book o).count) (hm : b.messageCount = (s.book o).messageCount)
    (hs : b.size = (s.book o).size) : ∀ x, (s.putBook o b).Counted x := by
  intro x
  have htot : ∀ f, total f (s.putBook o b) x = total f s x := by
    intro f
    refine total_congr rfl ?_
    by_cases hx : x = o
    · subst hx
      rw [book_putBook_self, hend]
    · rw [book_putBook_of_ne hx]
  obtain ⟨h1, h2, h3⟩ := h x
  by_cases hx : x = o
  · subst hx
    refine ⟨?_, ?_, ?_⟩ <;> rw [htot, book_putBook_self]
    · exact hcnt.trans h1
    · exact hm.trans h2
    · exact hs.trans h3
  · refine ⟨?_, ?_, ?_⟩ <;> rw [htot, book_putBook_of_ne hx]
    · exact h1
    · exact h2
    · exact h3

omit [DecidableEq K] in
/-- A page that is stored is counted. -/
theorem Counted.share_le (h : s.Counted o) (hi : i < (s.book o).endPage) :
    share (fun _ => 1) (s.pages o i) ≤ (s.book o).count ∧
      share (·.remaining) (s.pages o i) ≤ (s.book o).messageCount ∧
      share (·.remainingSize) (s.pages o i) ≤ (s.book o).size := by
  have hle := fun f =>
    Finset.single_le_sum (f := fun k => share f (s.pages o k)) (fun _ _ => Nat.zero_le _)
      (Finset.mem_range.mpr hi)
  refine ⟨?_, ?_, ?_⟩
  · rw [h.count]
    exact hle fun _ => 1
  · rw [h.messageCount]
    exact hle (·.remaining)
  · rw [h.size]
    exact hle (·.remainingSize)

omit [DecidableEq K] in
/-- The counts of a page in which one message is flagged. -/
theorem counts_of_set (hp : p.Holds p.items) (hp' : p'.Holds p'.items)
    (hit : p.items[j]? = some ⟨pl, false⟩) (hi : p'.items = p.items.set j ⟨pl, true⟩) :
    p.remaining = p'.remaining + 1 ∧ p.remainingSize = p'.remainingSize + pl.length := by
  obtain ⟨hcnt, hs⟩ := unprocessed_set_mark hit rfl
  rw [hp.remaining, hp.remainingSize, hp'.remaining, hp'.remainingSize, hi]
  exact ⟨hcnt, hs⟩

theorem remainingSize_of_remaining (hp : p.Holds p.items) (h : p.remaining = 0) :
    p.remainingSize = 0 := by
  rw [hp.remaining] at h
  rw [hp.remainingSize]
  exact unprocessedSize_eq_zero h

/-- A message of a stored page is flagged and taken from the counters of the book. -/
theorem Counted.consume (h : ∀ x, s.Counted x) (hi : i < (s.book o).endPage)
    (hp : s.pages o i = some p) (hleft : p.remaining = p'.remaining + 1)
    (hsize : p.remainingSize = p'.remainingSize + pl.length) :
    ∀ x, ((s.setPage o i (some p')).putBook o ((s.book o).consume pl.length)).Counted x := by
  obtain ⟨-, hm, hby⟩ := (h o).share_le hi
  rw [hp] at hm hby
  dsimp only [share, Option.elim] at hm hby
  refine write h hi rfl ?_ ?_ ?_ <;> rw [hp] <;>
    dsimp only [share, Option.elim, BookState.consume] <;> omega

/-- A page in which no message remains is removed. -/
theorem Counted.remove (h : ∀ x, s.Counted x) (hi : i < (s.book o).endPage)
    (hp : s.pages o i = some p) (hleft : p.remaining = 0) (hsize : p.remainingSize = 0)
    (hend : b.endPage = (s.book o).endPage) (hcnt : b.count = (s.book o).count - 1)
    (hmsgs : b.messageCount = (s.book o).messageCount) (hby : b.size = (s.book o).size) :
    ∀ x, ((s.setPage o i none).putBook o b).Counted x := by
  obtain ⟨hle, -, -⟩ := (h o).share_le hi
  rw [hp] at hle
  dsimp only [share, Option.elim] at hle
  refine write h hi hend ?_ ?_ ?_ <;> rw [hp] <;> dsimp only [share, Option.elim] <;>
    omega

/-- Every small step of servicing keeps the counters right. -/
theorem counted_serve (hsnd : s.Sound) (h : ∀ x, s.Counted x) (hsrv : Serve o s s') :
    ∀ x, s'.Counted x := by
  cases hsrv with
  | postpone _ => exact Counted.record h _
  | @item p a hrdy hp hc hpe horig hpidx hidx =>
    have hps := hsnd _ _ _ hp
    have hn := hps.next hpe le_rfl
    obtain ⟨hps', hit⟩ := hps.skipFirst hpe le_rfl a.consumed
    have hrec := Counted.record h a
    unfold noteAttempt
    cases hu : a.consumed with
    | true =>
      rw [hu] at hps' hit
      obtain ⟨hl, hs⟩ := counts_of_set hps.holds hps'.holds hn hit
      exact Counted.consume hrec hrdy hp hl hs
    | false =>
      -- a skipped message still remains
      rw [hu] at hps' hit
      obtain ⟨hlt, hget⟩ := List.getElem?_eq_some_iff.mp hn
      rw [← hget, set_getElem_self] at hit
      have hsa : (p.skipFirst false).remaining = p.remaining ∧
          (p.skipFirst false).remainingSize = p.remainingSize := by
        rw [hps'.holds.remaining, hps'.holds.remainingSize, hit, hps.holds.remaining,
          hps.holds.remainingSize]
        exact ⟨rfl, rfl⟩
      refine Counted.write hrec hrdy rfl ?_ ?_ ?_ <;> rw [pages_record, hp, book_record] <;>
        simp only [share, Option.elim, hsa, Bool.false_eq_true, if_false]
  | missing hrdy hp => exact Counted.putBook h rfl rfl rfl rfl
  | complete hrdy hp hc =>
    have hl := beq_iff_eq.mp hc
    exact Counted.remove h hrdy hp hl
      (remainingSize_of_remaining (hsnd _ _ _ hp).holds hl) rfl rfl rfl rfl
  | exhausted hrdy hp hc hpe => exact Counted.putBook h rfl rfl rfl rfl

/-- Enqueueing keeps the counters right, as long as they do not reach their limits. -/
theorem counted_enqueue (hsnd : s.Sound) (h : ∀ x, s.Counted x) (henq : Enqueue o m s s')
    (hbel : s'.BelowLimits o) : ∀ x, s'.Counted x := by
  obtain ⟨hend, hcnt, hm, hs⟩ := hbel
  cases henq with
  | lost hrdy hp => exact h
  | @appended p p' hrdy hp happ =>
    have hps := hsnd _ _ _ hp
    obtain ⟨hps', hit⟩ := hps.tryAppendMessage happ
    have hcnts : p'.remaining = p.remaining + 1 ∧
        p'.remainingSize = p.remainingSize + m.val.length := by
      rw [hps'.holds.remaining, hps'.holds.remainingSize, hit, hps.holds.remaining,
        hps.holds.remainingSize, unprocessed_append, unprocessedSize_append]
      exact ⟨rfl, rfl⟩
    rw [book_putBook_self] at hm hs
    have hmsgs' := satAdd_of_lt hm
    have hsize' := satAdd_of_lt hs
    refine Counted.write h (Nat.sub_one_lt_of_lt hrdy) rfl ?_ ?_ ?_ <;> rw [hp] <;>
      dsimp only [share, Option.elim, accept]
    · rw [hmsgs']
      omega
    · rw [hsize']
      omega
  | @linked t b hroom hsa hb =>
    have h1 := fun x => (h x).sameQueues hsa
    obtain ⟨-, hbe, hbc, hbm, hbs⟩ := fields_of_unlinked hb
    obtain ⟨-, hend1, hcnt1, hmsgs1, hsize1⟩ := fields_of_unlinked (hsa.book o)
    unfold linkPage at hend hcnt hm hs ⊢
    rw [book_putBook_self] at hend hcnt hm hs
    dsimp only [accept] at hend hcnt hm hs hbe hbc hbm hbs ⊢
    rw [hbm] at hm
    rw [hbs] at hs
    have hend' := satAdd_of_lt hend
    have hcnt' := satAdd_of_lt hcnt
    have hmsgs' := satAdd_of_lt hm
    have hsize' := satAdd_of_lt hs
    have hidx : satAdd u32Max b.endPage 1 - 1 = (t.book o).endPage := by
      rw [hend', hend1, hbe]
      rfl
    rw [hidx]
    have hho := Page.holds_fromMessage (le_of_lt c.integrity) m.property
    refine Counted.link h1 ?_ ?_ ?_ ?_ <;> dsimp only
    · rw [hend', hbe, hend1]
    · rw [hcnt', hbc, hcnt1]
    · rw [hbm, hmsgs', hmsgs1]
      rfl
    · rw [hbs, hsize', hsize1, hho.remainingSize]
      simp [unprocessedSize]

theorem counted_execute (hsnd : s.Sound) (h : ∀ x, s.Counted x) (hex : Execute o i j s s') :
    ∀ x, s'.Counted x := by
  cases hex with
  | refused => exact h
  | postponed _ => exact Counted.record h _
  | @executed p pos a hp hpe hbeh =>
    have hps := hsnd _ _ _ hp
    obtain ⟨hit, hps', hi⟩ := hps.noteProcessedAtPos hpe hbeh
    obtain ⟨hleft, hsize⟩ := counts_of_set hps.holds hps'.holds hit hi
    exact Counted.consume (Counted.record h a) hps.lt_end hp hleft hsize
  | @removed p pos a hp hpe hbeh _ _ _ _ hrem =>
    -- first the message is flagged, then the page, now complete, is removed
    have hps := hsnd _ _ _ hp
    obtain ⟨hit, hps', hi⟩ := hps.noteProcessedAtPos hpe hbeh
    obtain ⟨hleft, hsize⟩ := counts_of_set hps.holds hps'.holds hit hi
    have hf := Counted.consume (Counted.record h a) hps.lt_end hp hleft hsize
    have hg := Counted.remove
      (b := ((s.book o).consume a.message.length).removePage) hf
      (by rw [book_putBook_self]; exact hps.lt_end)
      (by rw [pages_putBook, pages_setPage_self]) hrem
      (remainingSize_of_remaining hps'.holds hrem)
      (by rw [book_putBook_self]; rfl) (by rw [book_putBook_self]; rfl)
      (by rw [book_putBook_self]; rfl) (by rw [book_putBook_self]; rfl)
    rwa [setPage_putBook, setPage_setPage, putBook_putBook] at hg

theorem counted_reap (hsnd : s.Sound) (h : ∀ x, s.Counted x) {r : Except Error Unit}
    (hr : s.doReapPage o i = some (r, s')) : ∀ x, s'.Counted x := by
  obtain ⟨rfl, -⟩ | ⟨p, -, hp, -, rfl⟩ := doReapPage_eq hr
  · exact h
  have hlt := (hsnd _ _ _ hp).lt_end
  obtain ⟨hcnt, hm, hs⟩ := (h o).share_le hlt
  rw [hp] at hcnt hm hs
  dsimp only [share, Option.elim] at hcnt hm hs
  refine Counted.write h hlt rfl ?_ ?_ ?_ <;> rw [hp] <;>
    dsimp only [share, Option.elim, reap] <;> omega

theorem counted_sweep (h : ∀ x, s.Counted x) : ∀ x, (s.sweepQueue o).Counted x := by
  obtain hs | ⟨t, b, hs, heq, hb⟩ := sweepQueue_eq (s := s)
  · exact fun x => (h x).sameQueues hs
  obtain ⟨-, hend, hcnt, hm, hsi⟩ := fields_of_unlinked hb
  obtain ⟨-, hend', hcnt', hmsgs', hsize'⟩ := fields_of_unlinked (hs.book o)
  rw [heq]
  exact Counted.putBook (fun x => (h x).sameQueues hs) (hend.trans hend'.symm)
    (hcnt.trans hcnt'.symm) (hm.trans hmsgs'.symm) (hsi.trans hsize'.symm)

theorem counted_call {e : Call c K} (hsnd : s.Sound) (h : ∀ x, s.Counted x) (hqt : e.Quiet)
    (hc : s.call e = some s') (hbel : ∀ x, s'.BelowLimits x) : ∀ x, s'.Counted x := by
  cases e with
  | enqueueMessage o m =>
    cases hc
    exact counted_enqueue hsnd h doEnqueueMessage_eq (hbel o)
  | serviceQueues pr fuel l =>
    obtain ⟨⟨w, t⟩, hse, rfl⟩ := map_eq_some_iff.mp hc
    have hinv := serviceQueues_inv (P := fun s => s.Sound ∧ ∀ x, s.Counted x)
      (fun hs h => ⟨h.1.sameQueues hs, fun x => (h.2 x).sameQueues hs⟩)
      (fun hsrv h => ⟨h.1.serve hsrv, counted_serve h.1 h.2 hsrv⟩) hqt hse ⟨hsnd, h⟩
    exact hinv.2
  | executeOverweight pr l o i j =>
    cases hc
    exact counted_execute hsnd h (executeOverweight_eq hqt rfl)
  | submitExecuteOverweight pr l o i j =>
    exact counted_execute hsnd h (submitExecuteOverweight_eq hqt hc)
  | reapPage o i =>
    obtain ⟨⟨r, t⟩, hr, rfl⟩ := map_eq_some_iff.mp hc
    exact counted_reap hsnd h hr
  | sweepQueue o =>
    cases hc
    exact counted_sweep h

/-! ## Runs -/

/-- In every state that calls lead to, the counters of every book are the totals over the stored
pages of its queue, and the counters of every stored page are those of its unflagged items, as long
as no counter reaches the limit of its type. -/
theorem accounting_of_run {calls : List (Call c K)} (hquiet : ∀ e ∈ calls, e.Quiet)
    (hbelow : Run.Always step (fun s => ∀ t, s = some t → ∀ x, t.BelowLimits x) (some .empty) calls)
    (hrun : Run.exec step (some .empty) calls = some s) (o : K) :
    (s.book o).count = (s.storedPages o).length ∧
      (s.book o).messageCount = ((s.storedPages o).map (·.remaining)).sum ∧
      (s.book o).size = ((s.storedPages o).map (·.remainingSize)).sum ∧
      ∀ i p, s.pages o i = some p → p ∈ s.storedPages o ∧ p.remaining = unprocessed p.items ∧
        p.remainingSize = unprocessedSize p.items := by
  have hquiet : Run.Each step (fun _ e => e.Quiet) (some .empty) calls := Run.each_of_mem hquiet
  have hgd := hquiet.and hbelow.each_next
  have halw := Run.Each.always_some
    (I := fun s => s.Sound ∧ ∀ x, s.Counted x)
    (fun s e s' hI hG hc => ⟨hI.1.call hG.1 hc, counted_call hI.1 hI.2 hG.1 hc
      (hG.2 s' hc)⟩) ⟨sound_empty, fun _ => ⟨rfl, rfl, rfl⟩⟩ hgd
  obtain ⟨hsnd, hcnt⟩ := halw.last s hrun
  obtain ⟨hcount, hmsgs, hsize⟩ := hcnt o
  refine ⟨?_, ?_, ?_, fun i p hp => ?_⟩
  · rw [hcount, total_eq_sum]
    simp
  · rw [hmsgs, total_eq_sum]
  · rw [hsize, total_eq_sum]
  · have hps := hsnd o i p hp
    refine ⟨?_, hps.holds.remaining, hps.holds.remainingSize⟩
    exact mem_filterMap.mpr ⟨i, mem_range.mpr hps.lt_end, hp⟩

omit [DecidableEq K] in
theorem belowLimits_iff : s.BelowLimits o ↔ (s.book o).endPage < u32Max ∧
    (s.book o).count < u32Max ∧ (s.book o).messageCount < u64Max ∧ (s.book o).size < u64Max :=
  ⟨fun h => ⟨h.1, h.2, h.3, h.4⟩, fun h => ⟨h.1, h.2.1, h.2.2.1, h.2.2.2⟩⟩

instance : Decidable (s.BelowLimits o) := decidable_of_iff' _ belowLimits_iff

/-- Two queues; three messages are enqueued, all are serviced, another one comes in. -/
def serviceRun : List (Call .small Bool) :=
  [.enqueueMessage true ⟨[1, 2, 3], by decide⟩, .enqueueMessage true ⟨[4], by decide⟩,
    .enqueueMessage false ⟨[5, 6], by decide⟩,
    .serviceQueues (.const (.ok (true, ⟨1, 0⟩))) 10 ⟨100, 0⟩,
    .enqueueMessage true ⟨[7, 8], by decide⟩]

theorem belowLimits_serviceRun :
    Run.Always step (fun s => ∀ t, s = some t → ∀ x, t.BelowLimits x) (some .empty) serviceRun := by
  have hall : ∀ pre ∈ serviceRun.inits, ∀ t, Run.exec step (some .empty) pre = some t →
      ∀ x, t.BelowLimits x := by
    decide +kernel
  exact fun pre hpre => hall pre ((mem_inits _ _).mpr hpre)

theorem accounting_of_serviceRun : ∃ s : Storage .small Bool,
    Run.exec step (some .empty) serviceRun = some s ∧
      (s.book true).count = (s.storedPages true).length ∧ (s.book true).messageCount = 1 := by
  obtain ⟨s, hs, hone⟩ : ∃ s, Run.exec step (some .empty) serviceRun = some s ∧
      (s.book true).messageCount = 1 := by
    decide +kernel
  have hqt : ∀ e ∈ serviceRun, e.Quiet := by
    simp [serviceRun, Call.Quiet, Processor.quiet_const]
  exact ⟨s, hs, (accounting_of_run hqt belowLimits_serviceRun hs true).1, hone⟩

end Storage

end MessageQueue
