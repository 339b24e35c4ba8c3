-- SUMMARY: Pages of the message queue: messages in one byte heap, and the accessors that parse it.
import SubstrateIpfs.Base.Memory
import SubstrateIpfs.Base.Scale

/-!
# Pages

A page keeps its messages in one heap of bytes, each behind a header with its
length and a flag. The type `Size` of the lengths and offsets is an unsigned
integer type of the runtime; it is given by the number of bytes of its encoding,
and its arithmetic saturates.
-/

namespace MessageQueue

/-- The types of a page: the width of `Size` in bytes, and the heap size, which is a `Size`. -/
structure Sizing where
  width : Nat
  heapSize : Nat
  heapSize_lt : heapSize < 256 ^ width

namespace Sizing

variable (c : Sizing)

/-- The largest `Size`. -/
def max : Nat := 256 ^ c.width - 1

theorem heapSize_le_max : c.heapSize ≤ c.max := by
  have := c.heapSize_lt
  unfold max
  omega

/-- Addition of the type `Size`, which saturates. -/
def add (a b : Nat) : Nat := min (a + b) c.max

/-- `ItemHeader::max_encoded_len`: the length and the flag. -/
def headerLen : Nat := c.width + 1

theorem headerLen_pos : 0 < c.headerLen := Nat.succ_pos c.width

/-- `MaxMessageLen`. -/
def maxMessageLen : Nat := c.heapSize - c.headerLen

end Sizing

/-- Data encoded and prefixed to the encoded message. -/
structure ItemHeader where
  payloadLen : Nat
  isProcessed : Bool

namespace ItemHeader

def encode (c : Sizing) (h : ItemHeader) : List UInt8 :=
  Scale.leBytes c.width h.payloadLen ++ [if h.isProcessed then 1 else 0]

/-- Reads a header from the front and returns what is left. A flag is one of two bytes. -/
def decode (c : Sizing) (bs : List UInt8) : Option (ItemHeader × List UInt8) :=
  match Scale.readLe c.width bs with
  | none => none
  | some (_, []) => none
  | some (n, b :: rest) =>
    if b = 0 then some (⟨n, false⟩, rest)
    else if b = 1 then some (⟨n, true⟩, rest)
    else none

end ItemHeader

/-- A page of messages. -/
structure Page (c : Sizing) where
  /-- Messages remaining to be processed, skipped overweight messages included. -/
  remaining : Nat
  /-- The size of all remaining messages. -/
  remainingSize : Nat
  /-- The number of items before the `first` item. -/
  firstIndex : Nat
  /-- The heap-offset of the header of the first item which is ready for processing. -/
  first : Nat
  /-- The heap-offset of the header of the last item. -/
  last : Nat
  heap : List UInt8
  heap_le : heap.length ≤ c.heapSize

namespace Page

variable {c : Sizing}

/-- `BoundedVec::defensive_truncate_from`: the page with the bytes as its heap, cut to the heap
size. -/
def withHeap (p : Page c) (heap : List UInt8) : Page c :=
  { p with heap := heap.take c.heapSize, heap_le := List.length_take_le .. }

/-- Create a page from one unprocessed message. -/
def fromMessage (c : Sizing) (message : List UInt8) : Page c :=
  let payloadLen := min message.length c.max
  let header : ItemHeader := ⟨payloadLen, false⟩
  { remaining := 1
    remainingSize := payloadLen
    firstIndex := 0
    first := 0
    last := 0
    heap := (header.encode c ++ message).take c.heapSize
    heap_le := List.length_take_le .. }

variable (self : Page c)

/-- Try to append one message to a page. -/
def tryAppendMessage (message : List UInt8) : Option (Page c) :=
  let pos := self.heap.length
  let dataLen := c.headerLen + message.length
  let payloadLen := min message.length c.max
  let header : ItemHeader := ⟨payloadLen, false⟩
  if c.heapSize - self.heap.length < dataLen then none
  else
    some { self.withHeap (self.heap ++ (header.encode c ++ message)) with
      last := min pos c.max
      remaining := c.add self.remaining 1
      remainingSize := c.add self.remainingSize payloadLen }

/-- Returns the first message in the page without removing it. -/
def peekFirst : Option (List UInt8) :=
  if self.first > self.last then none
  else
    let f := min self.first self.heap.length
    match ItemHeader.decode c (self.heap.drop f) with
    | none => none
    | some (h, slice) =>
      if h.payloadLen ≤ slice.length then some (slice.take h.payloadLen) else none

/-- Sets the flag of the item whose header was read at `pos`, if it is not set already. -/
def markProcessed (pos : Nat) (h : ItemHeader) : Page c :=
  if h.isProcessed then self
  else
    { self with
      heap := Records.overwrite self.heap pos (ItemHeader.encode c ⟨h.payloadLen, true⟩)
      heap_le := Records.length_overwrite.trans_le self.heap_le
      remaining := self.remaining - 1
      remainingSize := self.remainingSize - h.payloadLen }

/-- Point `first` at the next message, marking the first as processed if `isProcessed` is true. -/
def skipFirst (isProcessed : Bool) : Page c :=
  let f := min self.first self.heap.length
  match ItemHeader.decode c (self.heap.drop f) with
  | none => self
  | some (h, _) =>
    let marked := if isProcessed then self.markProcessed f h else self
    { marked with
      first := c.add (c.add self.first (min c.headerLen c.max)) h.payloadLen
      firstIndex := c.add self.firstIndex 1 }

/-- Skips `index` items of the slice, which starts at `pos`, and reads the next one. -/
def peekFrom (c : Sizing) : Nat → Nat → List UInt8 → Option (Nat × Bool × List UInt8)
  | index, pos, slice =>
    match ItemHeader.decode c slice with
    | none => none
    | some (h, slice) =>
      if slice.length < h.payloadLen then none
      else
        match index with
        | 0 => some (pos, h.isProcessed, slice.take h.payloadLen)
        | index + 1 =>
          peekFrom c index (pos + (c.headerLen + h.payloadLen)) (slice.drop h.payloadLen)

/-- Return the message with index `index` in the form of `(position, processed, message)`. -/
def peekIndex (index : Nat) : Option (Nat × Bool × List UInt8) := peekFrom c index 0 self.heap

/-- Set the flag for the item at `pos` if not already and decrement the `remaining` counter. -/
def noteProcessedAtPos (pos : Nat) : Page c :=
  match ItemHeader.decode c (self.heap.drop pos) with
  | none => self
  | some (h, _) => self.markProcessed pos h

/-- Returns whether the page is complete, which means that no messages remain. -/
def isComplete : Bool := self.remaining == 0

end Page

end MessageQueue
