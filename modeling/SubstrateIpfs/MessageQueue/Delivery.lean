-- SUMMARY: Every enqueued message is stored, consumed once or discarded, or dropped at once.
import SubstrateIpfs.MessageQueue.Queues

/-!
# Delivery

A ledger keeps every enqueued message with the place at which it was stored, and the places of the
messages that were discarded with their page. What the processor has consumed is read off its
attempts. A message is delivered if it is at one of three places: stored and not flagged, consumed
by one attempt, or discarded.

Enqueueing loses a message if the last page of the queue is missing.
-/

namespace MessageQueue

open List Option Run Nat

variable {c : Config} {K : Type} {a : Attempt K} {p p' : Page c.toSizing} {s : Storage c K}
  {m : Message c}

namespace Storage

/-- What enqueueing will do with a message. -/
inductive Target where
  | lost
  | append (index position : Nat)
  | link (index : Nat)

/-- What enqueueing will do with a message for `o`. -/
def target (s : Storage c K) (o : K) (m : Message c) : Target :=
  let b := s.book o
  if b.beginPage < b.endPage then
    match s.pages o (b.endPage - 1) with
    | none => .lost
    | some p =>
      if (p.tryAppendMessage m.val).isSome then .append (b.endPage - 1) p.items.length
      else .link (newIndex b)
  else .link (newIndex b)

/-- The page and the position at which a message is stored. -/
def Target.place : Target → Option (Nat × Nat)
  | .lost => none
  | .append i j => some (i, j)
  | .link i => some (i, 0)

/-- Enqueueing keeps the message: it finds the last page, or links in a page at an index of its
own. -/
def Accepts (s : Storage c K) (o : K) (m : Message c) : Prop :=
  match s.target o m with
  | .lost => False
  | .append _ _ => True
  | .link _ => (s.book o).endPage < u32Max

/-- The call keeps the message it is given, if any. -/
def Keeps (s : Storage c K) : Call c K → Prop
  | .enqueueMessage o m => s.Accepts o m
  | _ => True

end Storage

open Storage

/-- An enqueued message. -/
structure Entry (K : Type) where
  origin : K
  message : List UInt8
  place : Option (Nat × Nat)

/-- The storage with the ledger of messages. -/
structure Ledger (c : Config) (K : Type) where
  storage : Storage c K
  entries : List (Entry K)
  discarded : List (K × Nat × Nat)

/-- The attempt was made at the place of the entry. -/
def Entry.At [DecidableEq K] (e : Entry K) (a : Attempt K) : Bool :=
  decide (a.origin = e.origin ∧ e.place = some (a.pageIndex, a.messageIndex))

/-- The places of the unflagged messages of a page. -/
def discardedBy (o : K) (i : Nat) (p : Page c.toSizing) : List (K × Nat × Nat) :=
  ((List.range p.items.length).filter fun j => p.items[j]?.any (!·.isProcessed)).map (o, i, ·)

namespace Ledger

/-- The ledger of a fresh chain. -/
def empty : Ledger c K := ⟨.empty, [], []⟩

/-- The message is stored and not flagged. -/
def stored (l : Ledger c K) (e : Entry K) : Bool :=
  match e.place with
  | none => false
  | some (i, j) => (l.storage.pages e.origin i).any fun p => p.items[j]? = some ⟨e.message, false⟩

variable [DecidableEq K]

/-- How often the processor has consumed the message. -/
def consumptions (l : Ledger c K) (e : Entry K) : Nat :=
  l.storage.attempts.countP fun a => a.consumed && e.At a

/-- How often the message was discarded. -/
def discards (l : Ledger c K) (e : Entry K) : Nat :=
  match e.place with
  | none => 0
  | some (i, j) => l.discarded.count (e.origin, i, j)

/-- Every enqueued message has a place of its own. It is stored there and unprocessed, or it was
consumed once, or it was discarded, and what was consumed is the message. -/
structure Delivered (l : Ledger c K) : Prop where
  distinct : (l.entries.map fun e => (e.origin, e.place)).Nodup
  once : ∀ e ∈ l.entries, (l.stored e).toNat + l.consumptions e + l.discards e = 1
  same : ∀ e ∈ l.entries, ∀ a ∈ l.storage.attempts, a.consumed = true → e.At a = true →
    a.message = e.message

/-- A call, with the ledger written along. -/
def call (l : Ledger c K) (e : Call c K) : Option (Ledger c K) :=
  (l.storage.call e).map fun s =>
    match e with
    | .enqueueMessage o m =>
      ⟨s, l.entries ++ [⟨o, m.val, (l.storage.target o m).place⟩], l.discarded⟩
    | .reapPage o i =>
      match l.storage.pages o i, s.pages o i with
      | some p, none => ⟨s, l.entries, l.discarded ++ discardedBy o i p⟩
      | _, _ => ⟨s, l.entries, l.discarded⟩
    | _ => ⟨s, l.entries, l.discarded⟩

def step (l : Option (Ledger c K)) (e : Call c K) : Option (Ledger c K) := l.bind (·.call e)

/-! ## The invariant -/

/-- Where the message of an entry at page `i` and position `j` is. -/
def Whereabouts (l : Ledger c K) (e : Entry K) (i j : Nat) : Prop :=
  match l.storage.pages e.origin i with
  | some p => ∃ it, p.items[j]? = some it ∧ it.payload = e.message ∧
      l.consumptions e = it.isProcessed.toNat ∧ l.discards e = 0
  | none => l.consumptions e + l.discards e = 1

/-- Some entry has the place. -/
def Taken (l : Ledger c K) (o : K) (i j : Nat) : Prop :=
  ∃ e ∈ l.entries, e.origin = o ∧ e.place = some (i, j)

/-- The ledger and the storage agree about every message. -/
structure Tracked (l : Ledger c K) : Prop where
  sound : l.storage.Sound
  distinct : (l.entries.map fun e => (e.origin, e.place)).Nodup
  entries : ∀ e ∈ l.entries, ∃ i j, e.place = some (i, j) ∧ i < (l.storage.book e.origin).endPage ∧
    l.Whereabouts e i j
  attempts : ∀ a ∈ l.storage.attempts, a.consumed = true →
    ∃ e ∈ l.entries, e.At a = true ∧ e.message = a.message
  discarded : ∀ o i j, (o, i, j) ∈ l.discarded → l.Taken o i j
  items : ∀ o i p j, l.storage.pages o i = some p → j < p.items.length → l.Taken o i j
  /-- Every page that was linked in had a first message. -/
  firsts : ∀ o i, i < (l.storage.book o).endPage → l.Taken o i 0

theorem Tracked.delivered {l : Ledger c K} (h : l.Tracked) : l.Delivered := by
  refine ⟨h.distinct, fun e he => ?_, fun e he a ha hc hat => ?_⟩
  · obtain ⟨i, j, hpl, -, hwh⟩ := h.entries e he
    unfold Whereabouts at hwh
    unfold stored
    rw [hpl]
    split at hwh
    next p hp =>
      obtain ⟨⟨pl, f⟩, hit, rfl, hco, hdi⟩ := hwh
      rw [hco, hdi]
      dsimp only
      rw [hp, any_some, hit]
      cases f <;> simp
    next hp =>
      dsimp only
      rw [hp]
      simpa using hwh
  · obtain ⟨e', he', hat', hmsg⟩ := h.attempts a ha hc
    have hpl := of_decide_eq_true hat
    have hpl' := of_decide_eq_true hat'
    have heq := inj_on_of_nodup_map h.distinct he he'
      (Prod.ext (hpl.1.symm.trans hpl'.1) (hpl.2.trans hpl'.2.symm))
    rw [heq, hmsg]

/-! ## Changes of the storage -/

section
variable {l : Ledger c K} {s' : Storage c K} {o : K} {i j : Nat}

theorem consumptions_congr (h : s'.attempts.filter (·.consumed) =
    l.storage.attempts.filter (·.consumed)) (e : Entry K) :
    consumptions { l with storage := s' } e = l.consumptions e := by
  have hfil : ∀ as : List (Attempt K), as.countP (fun a => a.consumed && e.At a) =
      (as.filter (·.consumed)).countP e.At := by
    intro as
    rw [countP_filter]
    exact countP_congr fun a _ => by simp [and_comm]
  unfold consumptions
  rw [hfil, hfil, h]

/-- Messages that the processor has not consumed, and changes of the books that keep the ends. -/
theorem Tracked.congr (h : l.Tracked) (hsnd : s'.Sound) (hpgs : s'.pages = l.storage.pages)
    (htry : s'.attempts.filter (·.consumed) = l.storage.attempts.filter (·.consumed))
    (hend : ∀ x, (s'.book x).endPage = (l.storage.book x).endPage) :
    Tracked { l with storage := s' } := by
  refine ⟨hsnd, h.distinct, fun e he => ?_, fun a ha hc => ?_, h.discarded,
    fun x k p n hp hn => ?_, fun x k hk => ?_⟩
  · obtain ⟨i, j, hpl, hlt, hwh⟩ := h.entries e he
    refine ⟨i, j, hpl, by rw [hend]; exact hlt, ?_⟩
    unfold Whereabouts at hwh ⊢
    rw [hpgs, consumptions_congr htry]
    exact hwh
  · have hmem : a ∈ s'.attempts.filter (·.consumed) := mem_filter.mpr ⟨ha, hc⟩
    rw [htry] at hmem
    exact h.attempts a (mem_filter.mp hmem).1 hc
  · rw [hpgs] at hp
    exact h.items x k p n hp hn
  · rw [hend] at hk
    exact h.firsts x k hk

/-- An attempt on a stored and unflagged message, which is flagged if it was consumed. -/
theorem Tracked.attempt (h : l.Tracked) (hsnd : s'.Sound) (hpa : l.storage.pages o i = some p)
    (hit : p.items[j]? = some ⟨a.message, false⟩)
    (hi : p'.items = p.items.set j ⟨a.message, a.consumed⟩) (horg : a.origin = o)
    (hp : a.pageIndex = i) (hidx : a.messageIndex = j)
    (hpgs : ∀ x k, s'.pages x k = if x = o ∧ k = i then some p' else l.storage.pages x k)
    (htry : s'.attempts = l.storage.attempts ++ [a])
    (hend : ∀ x, (s'.book x).endPage = (l.storage.book x).endPage) :
    Tracked { l with storage := s' } := by
  have hlt := (List.getElem?_eq_some_iff.mp hit).1
  have hcnt : ∀ e, consumptions { l with storage := s' } e =
      l.consumptions e + (a.consumed && e.At a).toNat := by
    intro e
    unfold consumptions
    rw [htry, countP_append, countP_singleton]
    cases a.consumed && e.At a <;> rfl
  refine ⟨hsnd, h.distinct, fun e he => ?_, fun a' ha' hc => ?_, h.discarded,
    fun x k q n hq hn => ?_, fun x k hk => ?_⟩
  · obtain ⟨i', j', hpl, hlt', hwh⟩ := h.entries e he
    refine ⟨i', j', hpl, by rw [hend]; exact hlt', ?_⟩
    have hat : e.At a = decide (e.origin = o ∧ i' = i ∧ j' = j) := by
      unfold Entry.At
      rw [hpl, horg, hp, hidx]
      simp only [some.injEq, Prod.mk.injEq, eq_comm]
    unfold Whereabouts at hwh ⊢
    rw [hpgs, hcnt, hat]
    by_cases hs : e.origin = o ∧ i' = i
    · -- the page of the entry is the one that was written
      obtain ⟨rfl, rfl⟩ := hs
      rw [hpa] at hwh
      obtain ⟨it, hget, hpay, hco, hdi⟩ := hwh
      rw [if_pos ⟨rfl, rfl⟩]
      by_cases hj : j' = j
      · subst hj
        cases hit.symm.trans hget
        refine ⟨⟨a.message, a.consumed⟩, ?_, hpay, ?_, hdi⟩
        · rw [hi]
          exact getElem?_set_self hlt
        · rw [hco]
          simp
      · refine ⟨it, ?_, hpay, ?_, hdi⟩
        · rw [hi, getElem?_set_ne (symm hj)]
          exact hget
        · rw [hco]
          simp [hj]
    · rw [if_neg hs]
      have hne : decide (e.origin = o ∧ i' = i ∧ j' = j) = false :=
        decide_eq_false fun hall => hs ⟨hall.1, hall.2.1⟩
      rw [hne, Bool.and_false]
      exact hwh
  · rw [htry, mem_append, mem_singleton] at ha'
    rcases ha' with ha' | rfl
    · exact h.attempts a' ha' hc
    obtain ⟨e, he, hx, hpl⟩ := h.items o i p j hpa hlt
    refine ⟨e, he, decide_eq_true ⟨horg.trans hx.symm, ?_⟩, ?_⟩
    · rw [hpl, hp, hidx]
    obtain ⟨i', j', hpl', -, hwh⟩ := h.entries e he
    cases hpl.symm.trans hpl'
    unfold Whereabouts at hwh
    rw [hx, hpa] at hwh
    obtain ⟨it, hget, hpay, -⟩ := hwh
    cases hit.symm.trans hget
    exact hpay.symm
  · rw [hpgs] at hq
    split at hq
    next heq =>
      obtain ⟨rfl, rfl⟩ := heq
      cases hq
      rw [hi, length_set] at hn
      exact h.items x k p n hpa hn
    · exact h.items x k q n hq hn
  · rw [hend] at hk
    exact h.firsts x k hk

/-- A page is removed. What was not flagged in it is discarded. -/
theorem Tracked.drop (h : l.Tracked) (more : List (K × Nat × Nat)) (hsnd : s'.Sound)
    (hp : l.storage.pages o i = some p) (hm : ∀ x k n, more.count (x, k, n) =
      if x = o ∧ k = i then (p.items[n]?.any (!·.isProcessed)).toNat else 0)
    (hpgs : ∀ x k, s'.pages x k = if x = o ∧ k = i then none else l.storage.pages x k)
    (htry : s'.attempts = l.storage.attempts)
    (hend : ∀ x, (s'.book x).endPage = (l.storage.book x).endPage) :
    Tracked ⟨s', l.entries, l.discarded ++ more⟩ := by
  have hcnt : ∀ e, consumptions ⟨s', l.entries, l.discarded ++ more⟩ e = l.consumptions e := by
    intro e
    unfold consumptions
    rw [htry]
  refine ⟨hsnd, h.distinct, fun e he => ?_, fun a ha hc => ?_, fun x k n hmem => ?_,
    fun x k q n hq hn => ?_, fun x k hk => ?_⟩
  · obtain ⟨i', j', hpl, hlt', hwh⟩ := h.entries e he
    refine ⟨i', j', hpl, by rw [hend]; exact hlt', ?_⟩
    have hdi : discards ⟨s', l.entries, l.discarded ++ more⟩ e =
        l.discards e + more.count (e.origin, i', j') := by
      unfold discards
      rw [hpl]
      exact count_append
    unfold Whereabouts at hwh ⊢
    rw [hpgs, hcnt, hdi, hm]
    by_cases hs : e.origin = o ∧ i' = i
    · obtain ⟨rfl, rfl⟩ := hs
      rw [hp] at hwh
      obtain ⟨it, hget, -, hco, hno⟩ := hwh
      rw [if_pos ⟨rfl, rfl⟩, hget, hco, hno]
      cases hf : it.isProcessed <;> simp [hf]
    · rw [if_neg hs, if_neg hs]
      exact hwh
  · rw [htry] at ha
    exact h.attempts a ha hc
  · rcases mem_append.mp hmem with hmem | hmem
    · exact h.discarded x k n hmem
    have hpos := count_pos_iff.mpr hmem
    rw [hm] at hpos
    split at hpos
    next heq =>
      obtain ⟨rfl, rfl⟩ := heq
      refine h.items x k p n hp ?_
      by_contra hge
      rw [getElem?_eq_none (Nat.le_of_not_lt hge)] at hpos
      cases hpos
    · cases hpos
  · rw [hpgs] at hq
    split at hq
    · cases hq
    · exact h.items x k q n hq hn
  · rw [hend] at hk
    exact h.firsts x k hk

end

/-! ## Steps -/

section
variable {l : Ledger c K} {s' : Storage c K} {o : K} {i j : Nat}

theorem endPage_putBook {t : Storage c K} {b : BookState K} (ht : ∀ x, t.book x = s.book x)
    (h : b.endPage = (s.book o).endPage) (x : K) :
    ((t.putBook o b).book x).endPage = (s.book x).endPage := by
  by_cases hx : x = o
  · subst hx
    rw [book_putBook_self, h]
  · rw [book_putBook_of_ne hx, ht]

theorem Tracked.sameQueues (h : l.Tracked) (hs : SameQueues l.storage s') :
    Tracked { l with storage := s' } :=
  h.congr (h.sound.sameQueues hs) hs.pages (by rw [hs.attempts]) fun x => (hs.window x).2

theorem Tracked.record (h : l.Tracked) (ha : a.consumed = false) :
    Tracked { l with storage := l.storage.record a } := by
  refine h.congr h.sound rfl ?_ fun _ => rfl
  unfold Storage.record
  rw [filter_append, filter_cons_of_neg (by simp [ha]), filter_nil, append_nil]

theorem Tracked.serve (h : l.Tracked) (hsrv : Serve o l.storage s') :
    Tracked { l with storage := s' } := by
  have hsnd := h.sound.serve hsrv
  cases hsrv with
  | postpone ha => exact h.record ha
  | @item p a hrdy hp hc hpe horg hpa hidx =>
    have hps := h.sound _ _ _ hp
    refine h.attempt hsnd hp (hps.next hpe (le_refl _))
      (hps.skipFirst hpe (le_refl _) _).2 horg hpa hidx
      (fun x k => by rw [pages_putBook, pages_setPage, pages_record]) rfl fun x => ?_
    exact endPage_putBook (fun _ => rfl) window_noteAttempt.2 x
  | missing hrdy hp => exact h.congr hsnd rfl rfl fun x => endPage_putBook (fun _ => rfl) (by rfl) x
  | @complete p hrdy hp hc =>
    have hall := (h.sound _ _ _ hp).holds.isComplete.mp hc
    have hdrop := h.drop [] hsnd hp (fun x k n => ?_)
      (fun x k => by rw [pages_putBook, pages_setPage]) rfl
      fun x => endPage_putBook (fun _ => rfl) (by rfl) x
    · rwa [append_nil] at hdrop
    · cases hget : p.items[n]? with
      | none => simp
      | some it => simp [hall it (mem_of_getElem? hget)]
  | exhausted hrdy hp hc hpe =>
    exact h.congr hsnd rfl rfl fun x => endPage_putBook (fun _ => rfl) (by rfl) x

theorem Tracked.execute (h : l.Tracked) (hexe : Execute o i j l.storage s') :
    Tracked { l with storage := s' } := by
  have hsnd := h.sound.execute hexe
  cases hexe with
  | refused => exact h
  | postponed ha => exact h.record ha
  | @executed p pos a hpa hpe hbeh horg hp hidx hc _ =>
    obtain ⟨hit, -, hi⟩ := (h.sound _ _ _ hpa).noteProcessedAtPos hpe hbeh
    exact h.attempt hsnd hpa hit (by rw [hi, hc]) horg hp hidx
      (fun x k => by rw [pages_putBook, pages_setPage, pages_record]) rfl
      fun x => endPage_putBook (fun _ => rfl) (by rfl) x
  | @removed p pos a hpa hpe hbeh horg hp hidx hc hrem =>
    -- the message is flagged first, and the complete page is removed then
    have hps := h.sound _ _ _ hpa
    obtain ⟨hit, hps', hi⟩ := hps.noteProcessedAtPos hpe hbeh
    have hf : (((l.storage.record a).setPage o i (some (p.noteProcessedAtPos pos))).putBook o
        ((l.storage.book o).consume a.message.length)).Sound := by
      refine Sound.write h.sound (le_refl _) (le_refl _) fun q hq => ?_
      cases hq
      exact hps'.congr (le_refl _) (le_refl _)
    have hat := h.attempt hf hpa hit (by rw [hi, hc]) horg hp
      hidx (fun x k => by rw [pages_putBook, pages_setPage, pages_record]) rfl
      fun x => endPage_putBook (fun _ => rfl) (by rfl) x
    have hall := hps'.holds.isComplete.mp (beq_iff_eq.mpr hrem)
    have hdrop := hat.drop [] hsnd
      (by rw [pages_putBook, pages_setPage_self]) (fun x k n => ?_) (fun x k => ?_) rfl
      fun x => ?_
    · rwa [append_nil] at hdrop
    · cases hget : (p.noteProcessedAtPos pos).items[n]? with
      | none => simp
      | some it => simp [hall it (mem_of_getElem? hget)]
    · simp only [pages_putBook, pages_setPage]
      split <;> rfl
    · exact (endPage_putBook (fun _ => rfl) (by rfl) x).trans
        (endPage_putBook (fun _ => rfl) (by rfl) x).symm

theorem count_discardedBy (x : K) (k n : Nat) :
    (discardedBy o i p).count (x, k, n) =
      if x = o ∧ k = i then (p.items[n]?.any (!·.isProcessed)).toNat else 0 := by
  unfold discardedBy
  split
  next heq =>
    obtain ⟨rfl, rfl⟩ := heq
    have hinj : Function.Injective fun j : Nat => (x, k, j) := fun a b hab => by simpa using hab
    rw [count_map_of_injective _ (fun j => (x, k, j)) hinj]
    cases hany : p.items[n]?.any (!·.isProcessed) with
    | true =>
      refine count_eq_one_of_mem (nodup_range.filter _) (mem_filter.mpr ⟨?_, hany⟩)
      obtain ⟨it, hget, -⟩ := (any_eq_true _ _).mp hany
      exact mem_range.mpr (List.getElem?_eq_some_iff.mp hget).1
    | false =>
      refine count_eq_zero_of_not_mem fun hmem => ?_
      rw [(mem_filter.mp hmem).2] at hany
      cases hany
  next hne =>
    refine count_eq_zero_of_not_mem fun hmem => ?_
    obtain ⟨j, -, heq⟩ := mem_map.mp hmem
    cases heq
    exact hne ⟨rfl, rfl⟩

theorem Tracked.sweep (h : l.Tracked) : Tracked { l with storage := l.storage.sweepQueue o } := by
  have hsnd := h.sound.sweep (o := o)
  obtain hs | ⟨t, b, hs, heq, hb⟩ := sweepQueue_eq (s := l.storage)
  · exact h.sameQueues hs
  rw [heq] at hsnd ⊢
  obtain ⟨-, hend, -⟩ := BookState.fields_of_unlinked hb
  refine h.congr hsnd hs.pages ?_ fun x => ?_
  · exact congrArg (filter (·.consumed)) hs.attempts
  · rw [endPage_putBook (fun _ => rfl) (hend.trans (hs.window o).2.symm)]
    exact (hs.window x).2

theorem not_at_of_not_taken {e : Entry K} (h : l.Tracked) (he : e.place = some (i, j))
    (hf : ¬ l.Taken e.origin i j) (ha : a ∈ l.storage.attempts) (hc : a.consumed = true) :
    e.At a = false := by
  refine decide_eq_false fun hat => hf ?_
  obtain ⟨e', he', hat', -⟩ := h.attempts a ha hc
  have hpl' := of_decide_eq_true hat'
  exact ⟨e', he', hpl'.1.symm.trans hat.1, by rw [hpl'.2, ← hat.2, he]⟩

/-- A message is stored at a place that was free. -/
theorem Tracked.store {m : List UInt8} (h : l.Tracked) (old : List Item) (hsnd : s'.Sound)
    (hf : ¬ l.Taken o i j) (hit : p'.items = old ++ [⟨m, false⟩]) (hj : j = old.length)
    (hold : ∀ p, l.storage.pages o i = some p → p.items = old)
    (hnew : l.storage.pages o i = none → old = [] ∧ ¬ ∃ n, l.Taken o i n)
    (hpgs : ∀ x k, s'.pages x k = if x = o ∧ k = i then some p' else l.storage.pages x k)
    (htry : s'.attempts = l.storage.attempts)
    (hend : ∀ x, (l.storage.book x).endPage ≤ (s'.book x).endPage) (hi : i < (s'.book o).endPage)
    (hfi : ∀ x k, k < (s'.book x).endPage → k < (l.storage.book x).endPage ∨
      x = o ∧ k = i ∧ j = 0) : Tracked ⟨s', l.entries ++ [⟨o, m, some (i, j)⟩], l.discarded⟩ := by
  have htk : ∀ {x k n}, l.Taken x k n →
      Taken ⟨s', l.entries ++ [⟨o, m, some (i, j)⟩], l.discarded⟩ x k n := by
    rintro x k n ⟨e, he, ho, hpl⟩
    exact ⟨e, mem_append_left _ he, ho, hpl⟩
  have hs : Taken ⟨s', l.entries ++ [⟨o, m, some (i, j)⟩], l.discarded⟩ o i j :=
    ⟨_, mem_append_right _ (mem_singleton_self _), rfl, rfl⟩
  have hcnt : ∀ e, consumptions ⟨s', l.entries ++ [⟨o, m, some (i, j)⟩], l.discarded⟩ e =
      l.consumptions e := by
    intro e
    unfold consumptions
    rw [htry]
  refine ⟨hsnd, ?_, fun e he => ?_, fun a ha hc => ?_, fun x k n hmem => ?_,
    fun x k q n hq hn => ?_, fun x k hk => ?_⟩
  · rw [map_append, map_singleton]
    refine List.Nodup.append h.distinct (nodup_singleton _) ?_
    rw [disjoint_singleton]
    intro hmem
    obtain ⟨e, he, heq⟩ := mem_map.mp hmem
    exact hf ⟨e, he, congrArg Prod.fst heq, congrArg Prod.snd heq⟩
  · rcases mem_append.mp he with hmem | hmem
    · obtain ⟨i', j', hpl, hlt, hwh⟩ := h.entries e hmem
      refine ⟨i', j', hpl, lt_of_lt_of_le hlt (hend _), ?_⟩
      unfold Whereabouts at hwh ⊢
      rw [hpgs, hcnt]
      by_cases hsa : e.origin = o ∧ i' = i
      · obtain ⟨rfl, rfl⟩ := hsa
        rw [if_pos ⟨rfl, rfl⟩]
        cases hp : l.storage.pages e.origin i' with
        | none => exact absurd ⟨j', e, hmem, rfl, hpl⟩ (hnew hp).2
        | some p =>
          rw [hp] at hwh
          obtain ⟨it, hget, hr⟩ := hwh
          rw [hold p hp] at hget
          have hlt := (List.getElem?_eq_some_iff.mp hget).1
          exact ⟨it, by rw [hit, getElem?_append_left hlt, hget], hr⟩
      · rw [if_neg hsa]
        exact hwh
    · rw [mem_singleton] at hmem
      subst hmem
      refine ⟨i, j, rfl, hi, ?_⟩
      unfold Whereabouts
      rw [hpgs, if_pos ⟨rfl, rfl⟩, hcnt]
      refine ⟨⟨m, false⟩, by rw [hit, hj, getElem?_concat_length], rfl, ?_, ?_⟩
      · refine countP_eq_zero.mpr fun a ha hat => ?_
        rw [Bool.and_eq_true] at hat
        have hnot := not_at_of_not_taken (e := ⟨o, m, some (i, j)⟩) h rfl hf ha hat.1
        rw [hnot] at hat
        exact Bool.false_ne_true hat.2
      · exact count_eq_zero_of_not_mem fun hmem => hf (h.discarded _ _ _ hmem)
  · rw [htry] at ha
    obtain ⟨e, he, hr⟩ := h.attempts a ha hc
    exact ⟨e, mem_append_left _ he, hr⟩
  · exact htk (h.discarded x k n hmem)
  · rw [hpgs] at hq
    split at hq
    next heq =>
      obtain ⟨rfl, rfl⟩ := heq
      cases hq
      rw [hit, length_append] at hn
      rcases lt_or_eq_of_le (le_of_lt_succ hn) with hlt | hl
      · cases hp : l.storage.pages x k with
        | none =>
          rw [(hnew hp).1] at hlt
          cases hlt
        | some p => exact htk (h.items x k p n hp (by rwa [hold p hp]))
      · rw [hl, ← hj]
        exact hs
    · exact htk (h.items x k q n hq hn)
  · rcases hfi x k hk with hk | ⟨rfl, rfl, rfl⟩
    · exact htk (h.firsts x k hk)
    · exact hs

section
omit [DecidableEq K]

theorem target_append (hrdy : (s.book o).beginPage < (s.book o).endPage)
    (hp : s.pages o ((s.book o).endPage - 1) = some p) (happ : p.tryAppendMessage m.val = some p') :
    s.target o m = .append ((s.book o).endPage - 1) p.items.length := by
  unfold target
  rw [if_pos hrdy, hp]
  dsimp only
  rw [happ]
  exact if_pos isSome_some

theorem target_link (hr : (s.book o).beginPage < (s.book o).endPage →
      ∃ p, s.pages o ((s.book o).endPage - 1) = some p ∧ p.tryAppendMessage m.val = none) :
    s.target o m = .link (newIndex (s.book o)) := by
  unfold target
  dsimp only
  split
  next hrdy =>
    obtain ⟨p, hp, happ⟩ := hr hrdy
    rw [hp]
    dsimp only
    rw [happ, if_neg (by simp)]
  · rfl

theorem target_eq_link (h : s.target o m = .link i) : i = newIndex (s.book o) := by
  unfold target at h
  dsimp only at h
  split at h
  · split at h
    · cases h
    · split at h
      · cases h
      · cases h
        rfl
  · cases h
    rfl

end

section
variable (h : l.Tracked)

include h

theorem Tracked.lt_of_taken (htk : l.Taken o i j) : i < (l.storage.book o).endPage := by
  obtain ⟨e, he, rfl, hpl⟩ := htk
  obtain ⟨i', j', hpl', hlt, -⟩ := h.entries e he
  cases hpl.symm.trans hpl'
  exact hlt

theorem Tracked.item_of_taken (htk : l.Taken o i j) (hp : l.storage.pages o i = some p) :
    j < p.items.length := by
  obtain ⟨e, he, rfl, hpl⟩ := htk
  obtain ⟨i', j', hpl', -, hwh⟩ := h.entries e he
  cases hpl.symm.trans hpl'
  unfold Whereabouts at hwh
  rw [hp] at hwh
  obtain ⟨it, hget, -⟩ := hwh
  exact (List.getElem?_eq_some_iff.mp hget).1

/-- Enqueueing a message that is kept. -/
theorem Tracked.enqueue (hacc : l.storage.Accepts o m) :
    Tracked ⟨l.storage.doEnqueueMessage o m,
      l.entries ++ [⟨o, m.val, (l.storage.target o m).place⟩], l.discarded⟩ := by
  have henq := doEnqueueMessage_eq (s := l.storage) (o := o) (m := m)
  have hsnd := h.sound.enqueue henq
  unfold Accepts at hacc
  generalize l.storage.doEnqueueMessage o m = s' at henq hsnd
  cases henq with
  | lost hrdy hp =>
    unfold target at hacc
    rw [if_pos hrdy, hp] at hacc
    exact hacc.elim
  | @appended p p' hrdy hp happ =>
    rw [target_append hrdy hp happ]
    have hend : ∀ x, ((((l.storage.setPage o ((l.storage.book o).endPage - 1) (some p')).putBook o
        ((l.storage.book o).accept m.val.length)).book x).endPage) = (l.storage.book x).endPage :=
      endPage_putBook (fun _ => rfl) (by rfl)
    refine h.store _ hsnd (fun htk => lt_irrefl _ (h.item_of_taken htk hp))
      ((h.sound _ _ _ hp).tryAppendMessage happ).2 rfl (fun q hq => ?_) (fun hn => ?_)
      (fun x k => by rw [pages_putBook, pages_setPage]) rfl (fun x => (hend x).ge) ?_
      (fun x k hk => .inl ?_)
    · cases hp.symm.trans hq
      rfl
    · cases hp.symm.trans hn
    · rw [hend]
      exact sub_one_lt_of_lt hrdy
    · rwa [hend] at hk
  | @linked t b hr hs hb =>
    rw [target_link hr] at hacc ⊢
    obtain ⟨-, hbe, -⟩ := BookState.fields_of_unlinked hb
    have hbe : b.endPage = (l.storage.book o).endPage := hbe
    have hlt : b.endPage < u32Max := by rwa [hbe]
    have hpgs : ∀ x k, (t.linkPage o b m).pages x k =
        if x = o ∧ k = (l.storage.book o).endPage then some (.fromMessage c.toSizing m.val)
        else l.storage.pages x k := by
      intro x k
      rw [pages_linkPage, newIndex_of_lt hlt, hbe, hs.pages]
    have hend : ∀ x, ((t.linkPage o b m).book x).endPage =
        if x = o then (l.storage.book x).endPage + 1 else (l.storage.book x).endPage := by
      intro x
      split
      next heq => rw [heq, endPage_linkPage hlt, hbe]
      next hne => rw [book_linkPage_of_ne hne, (hs.window x).2]
    have hf : ∀ n, ¬ l.Taken o (l.storage.book o).endPage n := fun n htk =>
      lt_irrefl _ (h.lt_of_taken htk)
    rw [newIndex_of_lt hacc]
    refine h.store [] hsnd (hf 0) (items_fromMessage m) rfl
      (fun q hq => ?_) (fun _ => ⟨rfl, fun ⟨n, htk⟩ => hf n htk⟩) hpgs ?_
      (fun x => ?_) ?_ fun x k hk => ?_
    · exact absurd (h.sound _ _ _ hq).lt_end (lt_irrefl _)
    · exact hs.attempts
    · rw [hend]
      split <;> omega
    · rw [hend, if_pos rfl]
      exact lt_succ_self _
    · rw [hend] at hk
      split at hk
      next heq =>
        subst heq
        rcases lt_or_eq_of_le (le_of_lt_succ hk) with hk | hk
        · exact .inl hk
        · exact .inr ⟨rfl, hk, rfl⟩
      · exact .inl hk

/-- Every call that keeps its message keeps track of every message. -/
theorem Tracked.call {l' : Ledger c K} {e : Call c K} (hqt : e.Quiet)
    (hk : l.storage.Keeps e) (hc : l.call e = some l') : l'.Tracked := by
  obtain ⟨s', hs', rfl⟩ := map_eq_some_iff.mp hc
  cases e with
  | enqueueMessage o m =>
    cases hs'
    exact h.enqueue hk
  | serviceQueues pr fuel li =>
    obtain ⟨⟨w, t⟩, hs, rfl⟩ := map_eq_some_iff.mp hs'
    exact serviceQueues_inv (P := fun s => Tracked { l with storage := s })
      (fun hsa h => h.sameQueues hsa) (fun hsrv h => h.serve hsrv) hqt hs h
  | executeOverweight pr li o i j =>
    cases hs'
    exact h.execute (executeOverweight_eq hqt rfl)
  | submitExecuteOverweight pr li o i j =>
    exact h.execute (submitExecuteOverweight_eq hqt hs')
  | reapPage o i =>
    obtain ⟨⟨r, t⟩, hr, rfl⟩ := map_eq_some_iff.mp hs'
    have hsnd := h.sound.reap hr
    obtain ⟨rfl, -⟩ | ⟨p, -, hpa, -, rfl⟩ := doReapPage_eq hr
    · dsimp only
      split
      next hp hnone => cases hp.symm.trans hnone
      · exact h
    · dsimp only at hsnd ⊢
      rw [hpa, pages_putBook, pages_setPage_self]
      exact h.drop _ hsnd hpa count_discardedBy
        (fun x k => by rw [pages_putBook, pages_setPage]) rfl
        fun x => endPage_putBook (fun _ => rfl) (by rfl) x
  | sweepQueue o =>
    cases hs'
    exact h.sweep

/-- A message that is not kept is nowhere, or has the place of another one. -/
theorem Tracked.keeps {e : Call c K} (hdel : ∀ l', l.call e = some l' → l'.Delivered) :
    l.storage.Keeps e := by
  cases e with
  | enqueueMessage o m =>
    obtain ⟨hdi, ho, -⟩ := hdel _ rfl
    unfold Keeps Accepts
    dsimp only at hdi ho ⊢
    split
    next hl =>
      -- without a place the message is neither stored, nor consumed, nor discarded
      have hone := ho _ (mem_append_right _ (mem_singleton_self _))
      rw [hl] at hone
      have hz : (l.storage.doEnqueueMessage o m).attempts.countP (fun a => a.consumed &&
          Entry.At ⟨o, m.val, none⟩ a) = 0 :=
        countP_eq_zero.mpr fun a _ => by simp [Entry.At]
      simp only [stored, discards, consumptions, Target.place, hz] at hone
      cases hone
    · trivial
    next i hlink =>
      by_contra hge
      -- when the end of the queue cannot move on, the index of its last page is used again
      have hlt : newIndex (l.storage.book o) < (l.storage.book o).endPage := by
        unfold newIndex satAdd
        unfold u32Max at hge ⊢
        omega
      obtain ⟨e, he, horg, hpl⟩ := h.firsts o _ hlt
      rw [hlink, target_eq_link hlink, map_append] at hdi
      refine disjoint_of_nodup_append hdi (mem_map.mpr ⟨e, he, rfl⟩) ?_
      rw [horg, hpl]
      exact mem_singleton_self _
  | _ => trivial

end

end

/-! ## Runs -/

theorem tracked_empty : (empty : Ledger c K).Tracked := by
  refine ⟨sound_empty, nodup_nil, ?_, ?_, ?_, ?_, ?_⟩
  · intro e he
    cases he
  · intro a ha
    cases ha
  · intro o i j h
    cases h
  · intro o i p j h
    cases h
  · intro o i h
    exact absurd h (not_lt_zero i)

/-- Along every run, every message is delivered at all times if and only if every enqueue finds the
last page of a queue that is not empty, and has an index left for a page that it links in. -/
theorem delivered_iff_keeps {calls : List (Call c K)} (hquiet : ∀ e ∈ calls, e.Quiet) :
    Run.Always step (fun l => ∀ t, l = some t → t.Delivered) (some .empty) calls ↔
      Run.Each step (fun l e => ∀ t, l = some t → t.storage.Keeps e) (some .empty) calls := by
  refine always_iff_each (I := fun l => ∀ t, l = some t → Tracked t)
    ?_ ?_ ?_ ?_ (each_of_mem hquiet)
  · intro l e hI _ hquiet hk t ht
    obtain ⟨t0, rfl, hc⟩ := bind_eq_some_iff.mp ht
    exact (hI t0 rfl).call hquiet (hk t0 rfl) hc
  · intro l e hI _ hquiet
    constructor
    · intro hP t ht
      subst ht
      exact (hI t rfl).keeps hP
    · intro hk t ht
      obtain ⟨t0, rfl, hc⟩ := bind_eq_some_iff.mp ht
      exact ((hI t0 rfl).call hquiet (hk t0 rfl) hc).delivered
  · intro t ht
    cases ht
    exact tracked_empty
  · intro t ht
    cases ht
    exact tracked_empty.delivered

/-- A message is found too heavy just when the weight for servicing runs out, and is then executed
by hand. -/
def heavyRun : List (Call .small Bool) :=
  [.enqueueMessage true ⟨[2, 3, 1], by decide⟩,
    .serviceQueues (.const (.error (.overweight ⟨10, 0⟩))) 10 ⟨5, 0⟩,
    .submitExecuteOverweight (.const (.ok (true, ⟨1, 0⟩))) ⟨100, 0⟩ true 0 0]

theorem quiet_heavyRun : ∀ e ∈ heavyRun, e.Quiet := by
  simp [heavyRun, Call.Quiet, Processor.quiet_const]

theorem delivered_heavyRun :
    Run.Always step (fun l => ∀ t, l = some t → t.Delivered) (some .empty) heavyRun := by
  refine (delivered_iff_keeps quiet_heavyRun).mpr ?_
  refine each_cons.mpr ⟨fun t ht => ?_, each_cons.mpr ⟨fun _ _ => trivial,
    each_cons.mpr ⟨fun _ _ => trivial, each_nil⟩⟩⟩
  cases ht
  -- the queue is empty, and a page is linked in
  have hidx : 0 < u32Max := by decide
  exact hidx

/-- The execution by hand has removed the page that the queue still counts as ready. The next
message for the queue is dropped. -/
theorem lost_after_heavyRun :
    ¬ Run.Always step (fun l => ∀ t, l = some t → t.Delivered) (some .empty)
      (heavyRun ++ [.enqueueMessage true ⟨[4], by decide⟩]) := by
  intro h
  obtain ⟨t, ht, e, he, hz⟩ : ∃ t, exec step (some .empty)
      (heavyRun ++ [Call.enqueueMessage true ⟨[4], by decide⟩]) = some t ∧
        ∃ e ∈ t.entries, (t.stored e).toNat + t.consumptions e + t.discards e = 0 := by
    decide +kernel
  have hone := (h.last t ht).once e he
  rw [hz] at hone
  cases hone

end Ledger

end MessageQueue
