-- SUMMARY: The message queue pallet: books of pages, the ready ring, enqueueing, servicing.
import SubstrateIpfs.MessageQueue.Layout

/-!
# The message queue pallet

Every origin has a queue of messages. A queue is a book of pages; the pages from `begin` to `end`
hold messages that wait for service. Queues with such pages are linked to a ring, which servicing
goes around. Messages that are too heavy are skipped and stay behind in their page, to be executed
by hand.

Counters are numbers, and their saturating arithmetic is written out. `defensive!` and
`debug_assert!` do nothing in a release build.
-/

namespace MessageQueue

/-- `u32::MAX`. -/
def u32Max : Nat := 2 ^ 32 - 1

/-- `u64::MAX`. -/
def u64Max : Nat := 2 ^ 64 - 1

/-- Addition that saturates at `max`. -/
def satAdd (max a b : Nat) : Nat := min (a + b) max

/-! ## Weights

What a computation costs is a weight: time and the size of a proof. A meter counts
what has been consumed and refuses what would pass its limit. -/

structure Weight where
  refTime : Nat
  proofSize : Nat
  deriving DecidableEq

namespace Weight

/-- `Weight::MAX`. -/
def top : Weight := ⟨u64Max, u64Max⟩

def max (self other : Weight) : Weight :=
  ⟨Nat.max self.refTime other.refTime, Nat.max self.proofSize other.proofSize⟩

def saturatingAdd (self rhs : Weight) : Weight :=
  ⟨satAdd u64Max self.refTime rhs.refTime, satAdd u64Max self.proofSize rhs.proofSize⟩

def saturatingSub (self rhs : Weight) : Weight :=
  ⟨self.refTime - rhs.refTime, self.proofSize - rhs.proofSize⟩

def checkedAdd (self rhs : Weight) : Option Weight :=
  if self.refTime + rhs.refTime ≤ u64Max ∧ self.proofSize + rhs.proofSize ≤ u64Max then
    some ⟨self.refTime + rhs.refTime, self.proofSize + rhs.proofSize⟩
  else none

def anyGt (self other : Weight) : Bool :=
  self.refTime > other.refTime || self.proofSize > other.proofSize

end Weight

/-- Meters consumed weight and a hard limit for the maximal consumable weight. -/
structure WeightMeter where
  consumed : Weight
  limit : Weight

namespace WeightMeter

def fromLimit (limit : Weight) : WeightMeter := ⟨⟨0, 0⟩, limit⟩

variable (self : WeightMeter) (w : Weight)

/-- The remaining weight that can still be consumed. -/
def remaining : Weight := self.limit.saturatingSub self.consumed

/-- Consume some weight. Saturate in any case. -/
def defensiveSaturatingAccrue : WeightMeter :=
  { self with consumed := self.consumed.saturatingAdd w }

/-- Consume the given weight after checking that it can be consumed. -/
def checkAccrue : Option WeightMeter :=
  match self.consumed.checkedAdd w with
  | none => none
  | some test => if test.anyGt self.limit then none else some { self with consumed := test }

end WeightMeter

/-- The weights of the parts of servicing. -/
structure WeightInfo where
  bumpServiceHead : Weight
  serviceQueueBase : Weight
  readyRingUnknit : Weight
  servicePageBaseCompletion : Weight
  servicePageBaseNoCompletion : Weight
  servicePageItem : Weight
  executeOverweightPageRemoved : Weight
  executeOverweightPageUpdated : Weight

/-! ## Configuration and storage -/

/-- The configuration of the pallet. -/
structure Config extends Sizing where
  maxStale : Nat
  maxStale_le : maxStale ≤ u32Max
  weightInfo : WeightInfo
  /-- `integrity_test`: messages may have a positive length. -/
  integrity : toSizing.headerLen < heapSize

/-- A message that is not too long. -/
def Message (c : Config) := { m : List UInt8 // m.length ≤ c.maxMessageLen }

/-- Links in the ring of ready queues. -/
structure Neighbours (K : Type) where
  prev : K
  next : K
  deriving DecidableEq

/-- The state of a queue. -/
structure BookState (K : Type) where
  /-- `begin`: the first page with some items to be processed in it. -/
  beginPage : Nat
  /-- `end`: one more than the last page with some items to be processed in it. -/
  endPage : Nat
  endPage_le : endPage ≤ u32Max
  /-- The number of pages stored at present. -/
  count : Nat
  /-- The neighbours in the ready ring. -/
  readyNeighbours : Option (Neighbours K)
  /-- The number of unprocessed messages stored at present. -/
  messageCount : Nat
  /-- The total size of all unprocessed messages stored at present. -/
  size : Nat

def BookState.default {K : Type} : BookState K := ⟨0, 0, Nat.zero_le _, 0, none, 0, 0⟩

/-- Why a message was not processed. -/
inductive ProcessMessageError where
  | badFormat
  | corrupt
  | unsupported
  | overweight (w : Weight)
  deriving DecidableEq

/-- A call of the message processor: the message, where it was stored, and the answer. -/
structure Attempt (K : Type) where
  origin : K
  pageIndex : Nat
  messageIndex : Nat
  message : List UInt8
  weightLimit : Weight
  result : Except ProcessMessageError (Bool × Weight)

/-- The storage of the pallet, and what the message processor was asked so far. -/
structure Storage (c : Config) (K : Type) where
  bookStateFor : K → Option (BookState K)
  serviceHead : Option K
  pages : K → Nat → Option (Page c.toSizing)
  attempts : List (Attempt K)

/-- What the message processor does: its result, and the messages that it enqueues itself. -/
structure Answer (c : Config) (K : Type) where
  result : Except ProcessMessageError (Bool × Weight)
  enqueued : List (K × Message c)

/-- A message processor. It sees a message, its origin and a weight limit; what it does may depend
on everything it has been asked before. -/
def Processor (c : Config) (K : Type) := List (Attempt K) → List UInt8 → K → Weight → Answer c K

/-- The processor that gives the same answer to every message. -/
def Processor.const {c : Config} {K : Type} (result : Except ProcessMessageError (Bool × Weight)) :
    Processor c K := fun _ _ _ _ => ⟨result, []⟩

inductive Error where
  | notReapable
  | noPage
  | noMessage
  | alreadyProcessed
  | queued
  | insufficientWeight
  deriving DecidableEq

inductive ExecuteOverweightError where
  | notFound
  | insufficientWeight
  deriving DecidableEq

/-- The status of a page after trying to execute its messages. -/
inductive PageExecutionStatus where
  | bailed
  | noMore
  deriving DecidableEq

/-- The status after trying to execute the next item of a page. -/
inductive ItemExecutionStatus where
  | bailed
  | noItem
  | executed (processed : Bool)
  deriving DecidableEq

/-- The status of an attempt to process a message. -/
inductive MessageExecutionStatus where
  | insufficientWeight
  | overweight
  | processed
  | unprocessable
  deriving DecidableEq

namespace Storage

variable {c : Config} {K : Type}

/-- The storage of a fresh chain. -/
def empty : Storage c K := ⟨fun _ => none, none, fun _ _ => none, []⟩

/-- `BookStateFor::get`. -/
def book (s : Storage c K) (origin : K) : BookState K := (s.bookStateFor origin).getD .default

variable [DecidableEq K]

variable (s : Storage c K)

/-- `BookStateFor::insert`. -/
def putBook (origin : K) (book : BookState K) : Storage c K :=
  { s with bookStateFor := Function.update s.bookStateFor origin (some book) }

/-- `Pages::insert`, or `Pages::remove` for no page. -/
def setPage (origin : K) (index : Nat) (page : Option (Page c.toSizing)) : Storage c K :=
  { s with pages := Function.update s.pages origin (Function.update (s.pages origin) index page) }

/-- `BookStateFor::mutate` of the neighbours, if there are any. -/
def mutateNeighbours (origin : K) (f : Neighbours K → Neighbours K) : Storage c K :=
  let book := s.book origin
  s.putBook origin { book with readyNeighbours := book.readyNeighbours.map f }

/-! ## The ready ring -/

/-- Knit `origin` into the ready ring right at the end. Returns its two neighbours; a broken ring
has none, but its head may have changed. -/
def readyRingKnit (origin : K) : Option (Neighbours K) × Storage c K :=
  match s.serviceHead with
  | none => (some ⟨origin, origin⟩, { s with serviceHead := some origin })
  | some head =>
    match (s.book head).readyNeighbours with
    | none => (none, s)
    | some headNeighbours =>
      let tail := headNeighbours.prev
      let s := s.mutateNeighbours head fun n => { n with prev := origin }
      match (s.book tail).readyNeighbours with
      | none => (none, s)
      | some _ => (some ⟨tail, head⟩, s.mutateNeighbours tail fun n => { n with next := origin })

def readyRingUnknit (origin : K) (neighbours : Neighbours K) : Storage c K :=
  if origin = neighbours.next then { s with serviceHead := none }
  else
    let s := s.mutateNeighbours neighbours.next fun n => { n with prev := neighbours.prev }
    let s := s.mutateNeighbours neighbours.prev fun n => { n with next := neighbours.next }
    if s.serviceHead = some origin then { s with serviceHead := some neighbours.next } else s

/-- Tries to bump the current head to the next ready queue. Returns the head if it got bumped. -/
def bumpServiceHead (s : Storage c K) (weight : WeightMeter) :
    Option K × WeightMeter × Storage c K :=
  match weight.checkAccrue c.weightInfo.bumpServiceHead with
  | none => (none, weight, s)
  | some weight =>
    match s.serviceHead with
    | none => (none, weight, s)
    | some head =>
      match (s.book head).readyNeighbours with
      | none => (none, weight, s)
      | some neighbours => (some head, weight, { s with serviceHead := some neighbours.next })

/-! ## Enqueueing -/

/-- Link in a new page. -/
def linkPage (origin : K) (book : BookState K) (message : Message c) : Storage c K :=
  let endPage := satAdd u32Max book.endPage 1
  let book := { book with
    endPage := endPage
    endPage_le := Nat.min_le_right ..
    count := satAdd u32Max book.count 1 }
  (s.setPage origin (endPage - 1) (some (.fromMessage c.toSizing message.val))).putBook origin book

def doEnqueueMessage (origin : K) (message : Message c) : Storage c K :=
  let book := { s.book origin with
    messageCount := satAdd u64Max (s.book origin).messageCount 1
    size := satAdd u64Max (s.book origin).size message.val.length }
  if book.beginPage < book.endPage then
    -- Already have a page in progress - attempt to append.
    match s.pages origin (book.endPage - 1) with
    | none => s
    | some page =>
      match page.tryAppendMessage message.val with
      | some page => (s.setPage origin (book.endPage - 1) (some page)).putBook origin book
      | none => s.linkPage origin book message
  else
    -- insert into ready queue.
    match s.readyRingKnit origin with
    | (some neighbours, s) =>
      s.linkPage origin { book with readyNeighbours := some neighbours } message
    | (none, s) => s.linkPage origin book message

/-! ## Processing -/

/-- Process a single message. The processor may enqueue messages before it returns. -/
def processMessagePayload (processor : Processor c K) (s : Storage c K) (origin : K)
    (pageIndex messageIndex : Nat) (message : List UInt8) (weight : WeightMeter)
    (overweightLimit : Weight) : MessageExecutionStatus × WeightMeter × Storage c K :=
  let answer := processor s.attempts message origin weight.remaining
  let attempt : Attempt K :=
    ⟨origin, pageIndex, messageIndex, message, weight.remaining, answer.result⟩
  let s := answer.enqueued.foldl (fun s m => s.doEnqueueMessage m.1 m.2) s
  let s := { s with attempts := s.attempts ++ [attempt] }
  match answer.result with
  | .error (.overweight w) =>
    if w.anyGt overweightLimit then (.overweight, weight, s) else (.insufficientWeight, weight, s)
  | .error _ => (.unprocessable, weight, s)
  | .ok (_, weightUsed) => (.processed, weight.defensiveSaturatingAccrue weightUsed, s)

/-- Try to execute a single message that was marked as overweight. -/
def doExecuteOverweight (processor : Processor c K) (origin : K) (pageIndex index : Nat)
    (weightLimit : Weight) : Except Error Weight × Storage c K :=
  let book := s.book origin
  match s.pages origin pageIndex with
  | none => (.error .noPage, s)
  | some page =>
    match page.peekIndex index with
    | none => (.error .noMessage, s)
    | some (pos, isProcessed, payload) =>
      if ¬ (pageIndex < book.beginPage ∨ pageIndex = book.beginPage ∧ pos < page.first) then
        (.error .queued, s)
      else if isProcessed then (.error .alreadyProcessed, s)
      else
        match processMessagePayload processor s origin pageIndex index payload
          (.fromLimit weightLimit) .top with
        | (.overweight, _, s) => (.error .insufficientWeight, s)
        | (.insufficientWeight, _, s) => (.error .insufficientWeight, s)
        | (_, weightCounter, s) =>
          let page := page.noteProcessedAtPos pos
          let book := { book with
            messageCount := book.messageCount - 1
            size := book.size - payload.length }
          if page.remaining = 0 then
            let book := { book with count := book.count - 1 }
            (.ok (weightCounter.consumed.saturatingAdd c.weightInfo.executeOverweightPageRemoved),
              (s.setPage origin pageIndex none).putBook origin book)
          else
            (.ok (weightCounter.consumed.saturatingAdd c.weightInfo.executeOverweightPageUpdated),
              (s.setPage origin pageIndex (some page)).putBook origin book)

/-! ## Reaping -/

/-- Whether a page is so far behind that it may be dropped although it has messages. The arithmetic
wraps around; a division by zero panics. -/
def cullable (maxStale : Nat) (book : BookState K) (pageIndex : Nat) : Option Bool :=
  let totalPages := book.count
  let readyPages := min (book.endPage - book.beginPage) totalPages
  let stalePages := totalPages - readyPages
  let allowed := (maxStale + 1) % 2 ^ 32
  if stalePages < allowed then some false
  else
    let overflow := (stalePages - allowed + 1) % 2 ^ 32
    if overflow = 0 then none
    else
      let backlog := max (maxStale * maxStale % 2 ^ 32 / overflow) maxStale
      some (decide (pageIndex < book.beginPage - backlog))

/-- Remove a stale page or one which has no more messages remaining to be processed. -/
def doReapPage (origin : K) (pageIndex : Nat) : Option (Except Error Unit × Storage c K) :=
  let book := s.book origin
  if ¬ pageIndex < book.beginPage then some (.error .notReapable, s)
  else
    match s.pages origin pageIndex with
    | none => some (.error .noPage, s)
    | some page =>
      let reapable := if page.remaining = 0 then some true else cullable c.maxStale book pageIndex
      reapable.map fun reap : Bool =>
        if ¬ reap then (.error .notReapable, s)
        else
          let book := { book with
            count := book.count - 1
            messageCount := book.messageCount - page.remaining
            size := book.size - page.remainingSize }
          (.ok (), (s.setPage origin pageIndex none).putBook origin book)

/-! ## Servicing a page -/

/-- The storage while a queue is serviced, with the copy of its book that is written back at the
end. -/
structure Serving (c : Config) (K : Type) where
  storage : Storage c K
  book : BookState K
  weight : WeightMeter

/-- The same, with a copy of the page that is serviced. -/
structure PageServing (c : Config) (K : Type) extends Serving c K where
  page : Page c.toSizing

section
variable (processor : Processor c K) (overweightLimit : Weight) (origin : K)

/-- Execute the next message of a page. -/
def servicePageItem (pageIndex : Nat) (v : PageServing c K) :
    ItemExecutionStatus × PageServing c K :=
  if v.page.isComplete then (.noItem, v)
  else
    match v.weight.checkAccrue c.weightInfo.servicePageItem with
    | none => (.bailed, v)
    | some weight =>
      match v.page.peekFirst with
      | none => (.noItem, { v with weight := weight })
      | some payload =>
        match processMessagePayload processor v.storage origin pageIndex v.page.firstIndex payload
          weight overweightLimit with
        | (.insufficientWeight, weight, storage) =>
          (.bailed, { v with storage := storage, weight := weight })
        | (.overweight, weight, storage) =>
          (.executed false,
            { v with storage := storage, weight := weight, page := v.page.skipFirst false })
        | (_, weight, storage) =>
          (.executed true,
            { storage := storage
              weight := weight
              book := { v.book with
                messageCount := v.book.messageCount - 1
                size := v.book.size - payload.length }
              page := v.page.skipFirst true })

/-- An item that was executed is skipped, so `first` moves on. -/
theorem servicePageItem_first_lt {pg : Nat} {v v' : PageServing c K} {b : Bool}
    (h : servicePageItem processor overweightLimit origin pg v = (.executed b, v')) :
    v'.page.heap.length - v'.page.first < v.page.heap.length - v.page.first := by
  unfold servicePageItem at h
  split at h
  · cases h
  split at h
  · cases h
  split at h
  · cases h
  rename_i pl hp
  have hs := Page.first_lt_skipFirst hp
  split at h
  · cases h
  · cases h
    exact hs false
  · cases h
    exact hs true

/-- Executes messages of a page until there is none left or no weight. -/
def servicePageLoop (pageIndex : Nat) (v : PageServing c K) (totalProcessed : Nat) :
    Nat × PageExecutionStatus × PageServing c K :=
  match h : servicePageItem processor overweightLimit origin pageIndex v with
  | (.bailed, v) => (totalProcessed, .bailed, v)
  | (.noItem, v) => (totalProcessed, .noMore, v)
  | (.executed processed, v') =>
    have := servicePageItem_first_lt processor overweightLimit origin h
    servicePageLoop pageIndex v'
      (if processed then satAdd u32Max totalProcessed 1 else totalProcessed)
termination_by v.page.heap.length - v.page.first

/-- Service as many messages of a page as possible. Returns how many messages were processed and
the page's status. -/
def servicePage (v : Serving c K) : Nat × PageExecutionStatus × Serving c K :=
  match v.weight.checkAccrue
    (c.weightInfo.servicePageBaseCompletion.max c.weightInfo.servicePageBaseNoCompletion) with
  | none => (0, .bailed, v)
  | some weight =>
    let pageIndex := v.book.beginPage
    match v.storage.pages origin pageIndex with
    | none => (0, .noMore, { v with weight := weight })
    | some page =>
      let r := servicePageLoop processor overweightLimit origin pageIndex
        { v with weight := weight, page := page } 0
      let v := r.2.2
      if v.page.isComplete then
        (r.1, r.2.1,
          { v.toServing with
            storage := v.storage.setPage origin pageIndex none
            book := { v.book with count := v.book.count - 1 } })
      else
        (r.1, r.2.1,
          { v.toServing with storage := v.storage.setPage origin pageIndex (some v.page) })

/-! ## Servicing a queue -/

theorem servicePageItem_window {pg : Nat} {v v' : PageServing c K} {st : ItemExecutionStatus}
    (h : servicePageItem processor overweightLimit origin pg v = (st, v')) :
    v'.book.beginPage = v.book.beginPage ∧ v'.book.endPage = v.book.endPage := by
  unfold servicePageItem at h
  split at h
  · cases h; exact ⟨rfl, rfl⟩
  split at h
  · cases h; exact ⟨rfl, rfl⟩
  · split at h
    · cases h; exact ⟨rfl, rfl⟩
    · split at h <;> (cases h; exact ⟨rfl, rfl⟩)

theorem servicePageLoop_window {pg : Nat} {v : PageServing c K} {t : Nat} :
    (servicePageLoop processor overweightLimit origin pg v t).2.2.book.beginPage =
        v.book.beginPage ∧
      (servicePageLoop processor overweightLimit origin pg v t).2.2.book.endPage =
        v.book.endPage := by
  fun_induction servicePageLoop processor overweightLimit origin pg v t with
  | case1 v t v' h => exact servicePageItem_window processor overweightLimit origin h
  | case2 v t v' h => exact servicePageItem_window processor overweightLimit origin h
  | case3 v t b v' h _ ih =>
    obtain ⟨hbeg, hend⟩ := servicePageItem_window processor overweightLimit origin h
    exact ⟨ih.1.trans hbeg, ih.2.trans hend⟩

/-- Servicing a page does not move the window of the queue. -/
theorem servicePage_window {v v' : Serving c K} {n : Nat} {st : PageExecutionStatus}
    (h : servicePage processor overweightLimit origin v = (n, st, v')) :
    v'.book.beginPage = v.book.beginPage ∧ v'.book.endPage = v.book.endPage := by
  unfold servicePage at h
  split at h
  · cases h; exact ⟨rfl, rfl⟩
  dsimp only at h
  split at h
  · cases h; exact ⟨rfl, rfl⟩
  · split at h <;>
    · cases h
      exact servicePageLoop_window processor overweightLimit origin

/-- The loop over the pages of a queue that are ready. -/
def serviceQueueLoop (v : Serving c K) (totalProcessed : Nat) : Nat × Serving c K :=
  if _ : v.book.beginPage < v.book.endPage then
    match h : servicePage processor overweightLimit origin v with
    -- Store the page progress and do not go to the next one.
    | (processed, .bailed, v) => (satAdd u32Max totalProcessed processed, v)
    -- Go to the next page if this one is at the end.
    | (processed, .noMore, v') =>
      have := servicePage_window processor overweightLimit origin h
      have := v.book.endPage_le
      serviceQueueLoop
        { v' with book := { v'.book with beginPage := satAdd u32Max v'.book.beginPage 1 } }
        (satAdd u32Max totalProcessed processed)
  else (totalProcessed, v)
termination_by v.book.endPage - v.book.beginPage
decreasing_by
  dsimp only [satAdd]
  omega

/-- Execute any messages remaining to be processed in the queue of `origin`. Returns whether some
message was processed, and the queue that comes next in the ready ring. -/
def serviceQueue (s : Storage c K) (weight : WeightMeter) :
    (Bool × Option K) × WeightMeter × Storage c K :=
  match weight.checkAccrue
    (c.weightInfo.serviceQueueBase.saturatingAdd c.weightInfo.readyRingUnknit) with
  | none => ((false, none), weight, s)
  | some weight =>
    let r := serviceQueueLoop processor overweightLimit origin ⟨s, s.book origin, weight⟩ 0
    let totalProcessed := r.1
    let v := r.2
    let nextReady := v.book.readyNeighbours.map (·.next)
    if v.book.endPage ≤ v.book.beginPage ∧ 0 < totalProcessed then
      -- No longer ready - unknit.
      match v.book.readyNeighbours with
      | none =>
        ((decide (0 < totalProcessed), nextReady), v.weight, v.storage.putBook origin v.book)
      | some neighbours =>
        ((decide (0 < totalProcessed), nextReady), v.weight,
          (v.storage.readyRingUnknit origin neighbours).putBook origin
            { v.book with readyNeighbours := none })
    else ((decide (0 < totalProcessed), nextReady), v.weight, v.storage.putBook origin v.book)

end

/-! ## Servicing all queues -/

/-- The state of the loop that goes around the ready ring. -/
structure Round (c : Config) (K : Type) where
  storage : Storage c K
  weight : WeightMeter
  next : K
  /-- The last queue that did not make any progress. -/
  lastNoProgress : Option K

/-- One round of the loop, and whether there is another one. -/
def serviceRound (processor : Processor c K) (overweightLimit : Weight) (v : Round c K) :
    Bool × Round c K :=
  let r := serviceQueue processor overweightLimit v.next v.storage v.weight
  let v' := { v with storage := r.2.2, weight := r.2.1 }
  match r.1 with
  | (_, none) => (false, v')
  | (true, some n) => (true, { v' with next := n, lastNoProgress := none })
  | (false, some n) =>
    if v.lastNoProgress = some n then (false, v')
    else
      let last := match v.lastNoProgress with
        | none => some v.next
        | some q => some q
      (true, { v' with next := n, lastNoProgress := last })

/-- The loop, for at most `fuel` rounds. -/
def serviceLoop (processor : Processor c K) (overweightLimit : Weight) :
    Nat → Round c K → Option (Round c K)
  | 0, _ => none
  | fuel + 1, v =>
    match serviceRound processor overweightLimit v with
    | (false, v) => some v
    | (true, v) => serviceLoop processor overweightLimit fuel v

/-- Services the ready queues. A loop that takes more than `fuel` rounds has no result. -/
def serviceQueues (processor : Processor c K) (fuel : Nat) (weightLimit : Weight) :
    Option (Weight × Storage c K) :=
  match s.bumpServiceHead (.fromLimit weightLimit) with
  | (none, weight, s) => some (weight.consumed, s)
  | (some next, weight, s) =>
    (serviceLoop processor weightLimit fuel ⟨s, weight, next, none⟩).map fun v =>
      (v.weight.consumed, v.storage)

/-- Execute a single overweight message, within a weight limit that has to cover the call too. -/
def executeOverweight (processor : Processor c K) (weightLimit : Weight) (origin : K)
    (page index : Nat) : Except ExecuteOverweightError Weight × Storage c K :=
  match (WeightMeter.fromLimit weightLimit).checkAccrue
    (c.weightInfo.executeOverweightPageRemoved.max c.weightInfo.executeOverweightPageUpdated) with
  | none => (.error .insufficientWeight, s)
  | some weight =>
    match s.doExecuteOverweight processor origin page index weight.remaining with
    | (.ok w, s) => (.ok w, s)
    | (.error .insufficientWeight, s) => (.error .insufficientWeight, s)
    | (.error _, s) => (.error .notFound, s)

/-- Marks every message of the queue as not waiting for service. -/
def sweepQueue (origin : K) : Storage c K :=
  match s.bookStateFor origin with
  | none => s
  | some book =>
    let book := { book with beginPage := book.endPage }
    match book.readyNeighbours with
    | none => s.putBook origin book
    | some neighbours =>
      (s.readyRingUnknit origin neighbours).putBook origin { book with readyNeighbours := none }

/-! ## Calls -/

/-- The calls of the pallet. Each may meet a message processor of its own. -/
inductive Call (c : Config) (K : Type) where
  | enqueueMessage (origin : K) (message : Message c)
  | serviceQueues (processor : Processor c K) (fuel : Nat) (weightLimit : Weight)
  | executeOverweight (processor : Processor c K) (weightLimit : Weight) (origin : K)
      (page index : Nat)
  /-- The transaction. What it did is undone if it fails. -/
  | submitExecuteOverweight (processor : Processor c K) (weightLimit : Weight) (origin : K)
      (page index : Nat)
  | reapPage (origin : K) (page : Nat)
  | sweepQueue (origin : K)

/-- The storage after a call, unless the call panics or does not end. -/
def call : Call c K → Option (Storage c K)
  | .enqueueMessage origin message => some (s.doEnqueueMessage origin message)
  | .serviceQueues processor fuel limit => (s.serviceQueues processor fuel limit).map (·.2)
  | .executeOverweight processor limit origin page index =>
    some (s.executeOverweight processor limit origin page index).2
  | .submitExecuteOverweight processor limit origin page index =>
    match s.doExecuteOverweight processor origin page index limit with
    | (.ok _, s') => some s'
    | (.error _, _) => some s
  | .reapPage origin page => (s.doReapPage origin page).map (·.2)
  | .sweepQueue origin => some (s.sweepQueue origin)

/-- The storage after a call, if every call so far has returned. -/
def step (s : Option (Storage c K)) (e : Call c K) : Option (Storage c K) := s.bind (·.call e)

end Storage

end MessageQueue
