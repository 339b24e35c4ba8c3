-- SUMMARY: The freeing-bump allocator of the host: orders, headers and free lists in guest memory.
import SubstrateIpfs.Base.Memory
import SubstrateIpfs.Base.Scale

/-!
# The freeing-bump allocator

Chunks are cut from a linear memory by a bump pointer and come back through one
free list per order. The links of the free lists are stored in the headers of the
chunks, in the memory itself. Machine words are `UInt32` and `UInt64`, so that
`+`, `-` and `<<<` wrap as they do in a release build.

A call changes the allocator and the memory also when it fails, so calls live in
`EStateM`, whose errors keep the state.
-/

namespace Allocator

open Nat Scale Bytes

/-- The errors of the allocator. -/
inductive Error where
  | requestedAllocationTooLarge
  | allocatorOutOfSpace
  | memoryShrinked
  | other (msg : String)
  deriving DecidableEq, Repr

/-- Create an allocator error. -/
def error (msg : String) : Error := .other msg

/-! ## Word operations -/

/-- `u32::next_power_of_two`; in a release build the result wraps to `0`. -/
def nextPowerOfTwo (n : UInt32) : UInt32 := UInt32.ofNat (2 ^ clog 2 n.toNat)

/-- `u32::trailing_zeros`. -/
def trailingZeros (n : UInt32) : UInt32 :=
  UInt32.ofNat (((List.range 32).find? n.toNat.testBit).getD 32)

theorem toNat_nextPowerOfTwo {n : UInt32} (h : clog 2 n.toNat < 32) :
    (nextPowerOfTwo n).toNat = 2 ^ clog 2 n.toNat := by
  have : 2 ^ clog 2 n.toNat < 2 ^ 32 := Nat.pow_lt_pow_right (by decide) h
  simpa [nextPowerOfTwo] using mod_eq_of_lt this

theorem toNat_trailingZeros {n : UInt32} {k : Nat} (hk : k < 32) (h : n.toNat = 2 ^ k) :
    (trailingZeros n).toNat = k := by
  have hf : (List.range 32).find? n.toNat.testBit = some k := by
    rw [List.find?_range_eq_some, h]
    refine ⟨testBit_two_pow_self, by simpa using hk, fun j hj => ?_⟩
    simp only [testBit_two_pow, Bool.not_eq_true', decide_eq_false_iff_not]
    omega
  simp only [trailingZeros, hf, Option.getD_some, UInt32.toNat_ofNat']
  omega

/-! ## Orders -/

/-- The minimal alignment guaranteed by this allocator. -/
def alignment : UInt32 := 8

/-- Each pointer is preceded by 8 bytes, which identify the list index to which it belongs. -/
def headerSize : UInt32 := 8

/-- The number of orders: the powers from `2^3` to `2^25`. -/
def nOrders : Nat := 23

def minPossibleAllocation : UInt32 := 8

def maxPossibleAllocation : UInt32 := 33554432

/-- The exponent of a power of two, counted from the minimum size. -/
structure Order where
  raw : UInt32
  raw_lt : raw.toNat < nOrders
  deriving DecidableEq

variable {o : Order} {ptr s : UInt32}

namespace Order

/-- Create an order from a raw one. -/
def fromRaw (order : UInt32) : Except Error Order :=
  if h : order.toNat < nOrders then .ok ⟨order, h⟩ else .error (error "invalid order")

/-- The size that is looked up: at least the minimum. -/
def clampedSize (size : UInt32) : UInt32 :=
  if size < minPossibleAllocation then minPossibleAllocation else size

/-- The order of a clamped size that is not too large. -/
def rawOfSize (size : UInt32) : UInt32 :=
  trailingZeros (nextPowerOfTwo (clampedSize size)) - trailingZeros minPossibleAllocation

/-- The size a request is rounded up to. -/
def rounded (size : Nat) : Nat := 2 ^ clog 2 (max 8 size)

theorem toNat_clampedSize (s : UInt32) : (clampedSize s).toNat = max 8 s.toNat := by
  have h8 : minPossibleAllocation.toNat = 8 := rfl
  unfold clampedSize
  split
  next h => rw [UInt32.lt_iff_toNat_lt] at h; omega
  next h => rw [UInt32.lt_iff_toNat_lt] at h; omega

theorem three_le_clog (n : Nat) : 3 ≤ clog 2 (max 8 n) := by
  have : clog 2 8 ≤ clog 2 (max 8 n) := clog_mono_right 2 (by omega)
  have h8 : clog 2 8 = 3 := by decide
  omega

theorem clog_le {n : Nat} (h : n ≤ 33554432) : clog 2 (max 8 n) ≤ 25 := by
  have : clog 2 (max 8 n) ≤ clog 2 (2 ^ 25) := clog_mono_right 2 (by omega)
  rwa [clog_pow 2 25 (by decide)] at this

theorem toNat_rawOfSize (h : ¬ s > maxPossibleAllocation) :
    (rawOfSize s).toNat = clog 2 (max 8 s.toNat) - 3 := by
  have hmax : maxPossibleAllocation.toNat = 33554432 := rfl
  have hle := clog_le (n := s.toNat) (by rw [gt_iff_lt, UInt32.lt_iff_toNat_lt] at h; omega)
  have hge := three_le_clog s.toNat
  have hc : clog 2 (clampedSize s).toNat < 32 := by rw [toNat_clampedSize]; omega
  have hpow := toNat_nextPowerOfTwo hc
  have hmin : trailingZeros minPossibleAllocation = 3 := by decide +kernel
  rw [rawOfSize, hmin, UInt32.toNat_sub, toNat_trailingZeros hc hpow, toNat_clampedSize]
  have : (3 : UInt32).toNat = 3 := rfl
  omega

theorem rawOfSize_lt (h : ¬ s > maxPossibleAllocation) :
    (rawOfSize s).toNat < nOrders := by
  have hmax : maxPossibleAllocation.toNat = 33554432 := rfl
  have hle := clog_le (n := s.toNat) (by rw [gt_iff_lt, UInt32.lt_iff_toNat_lt] at h; omega)
  rw [toNat_rawOfSize h, nOrders]
  omega

/-- Compute the order by the given size. -/
def fromSize (size : UInt32) : Except Error Order :=
  if h : size > maxPossibleAllocation then .error .requestedAllocationTooLarge
  else .ok ⟨rawOfSize size, rawOfSize_lt h⟩

/-- The size in bytes of this order. -/
def size (self : Order) : UInt32 := minPossibleAllocation <<< self.raw

theorem toNat_size (o : Order) : o.size.toNat = 2 ^ (o.raw.toNat + 3) := by
  have hraw := o.raw_lt
  have hpow : 2 ^ (o.raw.toNat + 3) < 2 ^ 32 :=
    Nat.pow_lt_pow_right (by decide) (by rw [nOrders] at hraw; omega)
  have hmod : o.raw.toNat % 32 = o.raw.toNat := by rw [nOrders] at hraw; omega
  have h8 : minPossibleAllocation.toNat = 8 := rfl
  rw [size, UInt32.toNat_shiftLeft, hmod, h8, shiftLeft_eq,
    show 8 * 2 ^ o.raw.toNat = 2 ^ (o.raw.toNat + 3) by rw [pow_add]; omega]
  exact mod_eq_of_lt hpow

theorem size_injective {o' : Order} (h : o.size.toNat = o'.size.toNat) : o = o' := by
  rw [toNat_size, toNat_size] at h
  have hraw : o.raw.toNat = o'.raw.toNat := by
    have := Nat.pow_right_injective (le_refl 2) h
    omega
  cases o
  cases o'
  simpa [UInt32.toNat_inj] using hraw

/-- The order of an accepted request has the size the request is rounded up to. -/
theorem size_of_fromSize (h : fromSize s = .ok o) :
    o.size.toNat = rounded s.toNat := by
  unfold fromSize at h
  split at h
  · cases h
  next hmax =>
    cases h
    have := three_le_clog s.toNat
    rw [toNat_size, toNat_rawOfSize hmax, rounded,
      show clog 2 (max 8 s.toNat) - 3 + 3 = clog 2 (max 8 s.toNat) by omega]

theorem size_le (o : Order) : o.size.toNat ≤ 2 ^ 25 := by
  have hraw := o.raw_lt
  rw [toNat_size]
  exact Nat.pow_le_pow_right (by decide) (by rw [nOrders] at hraw; omega)

theorem eight_dvd_size (o : Order) : 8 ∣ o.size.toNat := by
  rw [toNat_size, pow_add]
  exact dvd_mul_left 8 _

end Order

/-! ## Linear memory -/

/-- A linear memory. It has no holes and is accessible up to its size; what `bytes` says
beyond that is never looked at. -/
structure Memory where
  size : UInt32
  bytes : Nat → UInt8

namespace Memory

/-- The access of `length` bytes at `offset` stays in the address space and the memory. -/
def heapRange (offset length heapLen : UInt32) : Bool :=
  offset.toNat + length.toNat < 2 ^ 32 && offset.toNat + length.toNat ≤ heapLen.toNat

def readLeU64 (self : Memory) (ptr : UInt32) : Except Error UInt64 :=
  if heapRange ptr 8 self.size then
    .ok (UInt64.ofNat (ofLeBytes (slice self.bytes ptr.toNat 8)))
  else .error (error "read out of heap bounds")

def writeLeU64 (self : Memory) (ptr : UInt32) (val : UInt64) : Except Error Memory :=
  if heapRange ptr 8 self.size then
    .ok { self with bytes := splice self.bytes ptr.toNat (leBytes 8 val.toNat) }
  else .error (error "write out of heap bounds")

theorem heapRange_eight : heapRange ptr 8 s = true ↔ ptr.toNat + 8 ≤ s.toNat := by
  have := s.toNat_lt
  have h8 : (8 : UInt32).toNat = 8 := rfl
  simp only [heapRange, Bool.and_eq_true, decide_eq_true_eq]
  omega

end Memory

/-! ## Headers -/

/-- A special value of a link that denotes the end of the list. -/
def nilMarker : UInt32 := 0xFFFFFFFF

/-- A link between headers in the free list. -/
inductive Link where
  | nil
  | ptr (ptr : UInt32)
  deriving DecidableEq, Repr

namespace Link

def fromRaw (raw : UInt32) : Link := if raw ≠ nilMarker then .ptr raw else .nil

def intoRaw : Link → UInt32
  | .nil => nilMarker
  | .ptr p => p

end Link

/-- A header of an allocation. -/
inductive Header where
  | free (link : Link)
  | occupied (order : Order)
  deriving DecidableEq

variable {h : Header} {p : UInt32} {mem m' : Memory}

namespace Header

/-- The bit that tells an occupied header from a free one. -/
def occupiedMask : UInt64 := 0x0000000100000000

/-- The word that stands for a header. -/
def rawHeader : Header → UInt64
  | .occupied order => order.raw.toUInt64 ||| occupiedMask
  | .free link => link.intoRaw.toUInt64 ||| 0

/-- Write out this header to memory. -/
def writeInto (self : Header) (memory : Memory) (headerPtr : UInt32) : Except Error Memory :=
  memory.writeLeU64 headerPtr self.rawHeader

def intoOccupied : Header → Option Order
  | .occupied order => some order
  | .free _ => none

def intoFree : Header → Option Link
  | .free link => some link
  | .occupied _ => none

/-- A link is told apart from the end of the list. -/
def WellLinked : Header → Prop
  | .free (.ptr p) => p ≠ nilMarker
  | _ => True

theorem toUInt32_or_occupiedMask (d : UInt32) : (d.toUInt64 ||| occupiedMask).toUInt32 = d := by
  apply UInt32.toNat_inj.mp
  have hd := d.toNat_lt
  have hm : occupiedMask.toNat = 2 ^ 32 * 1 := rfl
  rw [UInt64.toNat_toUInt32, UInt64.toNat_or, UInt32.toNat_toUInt64, hm, Nat.or_comm,
    ← two_pow_add_eq_or_of_lt (by simpa using hd)]
  omega

theorem or_occupiedMask_and (d : UInt32) :
    (d.toUInt64 ||| occupiedMask) &&& occupiedMask = occupiedMask := by
  apply UInt64.toNat_inj.mp
  refine eq_of_testBit_eq fun i => ?_
  rw [UInt64.toNat_and, UInt64.toNat_or, testBit_and, testBit_or]
  cases occupiedMask.toNat.testBit i <;> simp

theorem toUInt64_and_occupiedMask (d : UInt32) : d.toUInt64 &&& occupiedMask = 0 := by
  apply UInt64.toNat_inj.mp
  have hd : d.toNat < 2 ^ 32 := d.toNat_lt
  have hm : occupiedMask.toNat = 2 ^ 32 := rfl
  refine eq_of_testBit_eq fun i => ?_
  rw [UInt64.toNat_and, hm, testBit_and, testBit_two_pow]
  by_cases hi : 32 = i
  · subst hi
    simp [testBit_lt_two_pow hd]
  · simp [hi]

/-- What a header's word is read as. -/
def ofRaw (rawHeader : UInt64) : Except Error Header :=
  let headerData := rawHeader.toUInt32
  if rawHeader &&& occupiedMask ≠ 0 then
    match Order.fromRaw headerData with
    | .error e => .error e
    | .ok order => .ok (.occupied order)
  else .ok (.free (Link.fromRaw headerData))

theorem ofRaw_rawHeader (hh : h.WellLinked) : ofRaw h.rawHeader = .ok h := by
  cases h with
  | occupied o =>
    have hraw : Order.fromRaw o.raw = .ok o := dif_pos o.raw_lt
    have hm : occupiedMask ≠ 0 := by decide
    simp only [ofRaw, rawHeader, toUInt32_or_occupiedMask, or_occupiedMask_and, hraw, if_pos hm]
  | free l =>
    have hl : Link.fromRaw l.intoRaw = l := by
      cases l with
      | nil => rfl
      | ptr p => exact if_pos hh
    simp [ofRaw, rawHeader, toUInt64_and_occupiedMask, hl]

/-- Reads a header from memory. -/
def readFrom (memory : Memory) (headerPtr : UInt32) : Except Error Header :=
  match memory.readLeU64 headerPtr with
  | .error e => .error e
  | .ok rawHeader => ofRaw rawHeader

/-- A header is read from its eight bytes alone. -/
theorem readFrom_congr (hp : p.toNat + 8 ≤ mem.size.toNat) (hs : mem.size.toNat ≤ m'.size.toNat)
    (h : ∀ x, p.toNat ≤ x → x < p.toNat + 8 → m'.bytes x = mem.bytes x) :
    readFrom m' p = readFrom mem p := by
  unfold readFrom Memory.readLeU64
  rw [if_pos (Memory.heapRange_eight.mpr hp),
    if_pos (Memory.heapRange_eight.mpr (hp.trans hs)), slice_congr h]

theorem writeInto_of_le (hp : p.toNat + 8 ≤ mem.size.toNat) : ∃ m', h.writeInto mem p = .ok m' :=
  ⟨_, if_pos (Memory.heapRange_eight.mpr hp)⟩

theorem writeInto_eq_ok (hw : h.writeInto mem p = .ok m') :
    p.toNat + 8 ≤ mem.size.toNat ∧ m' = { mem with
      bytes := splice mem.bytes p.toNat (leBytes 8 h.rawHeader.toNat) } := by
  unfold writeInto Memory.writeLeU64 at hw
  split at hw
  next hr => cases hw; exact ⟨Memory.heapRange_eight.mp hr, rfl⟩
  · cases hw

theorem size_writeInto (hw : h.writeInto mem p = .ok m') : m'.size = mem.size := by
  obtain ⟨-, rfl⟩ := writeInto_eq_ok hw
  rfl

/-- What was written is read back. -/
theorem readFrom_writeInto (hh : h.WellLinked) (hw : h.writeInto mem p = .ok m') :
    readFrom m' p = .ok h := by
  obtain ⟨hp, rfl⟩ := writeInto_eq_ok hw
  have hs : ∀ v, slice (splice mem.bytes p.toNat (leBytes 8 v)) p.toNat 8 =
      leBytes 8 v := fun v => by
    simpa using slice_splice_self (b := leBytes 8 v)
  have hval : UInt64.ofNat (h.rawHeader.toNat % 256 ^ 8) = h.rawHeader := by
    have hlt : h.rawHeader.toNat < 256 ^ 8 := h.rawHeader.toNat_lt
    rw [mod_eq_of_lt hlt, UInt64.ofNat_toNat]
  unfold readFrom Memory.readLeU64
  rw [if_pos (Memory.heapRange_eight.mpr hp), hs, ofLeBytes_leBytes, hval]
  exact ofRaw_rawHeader hh

end Header

/-! ## The free lists -/

/-- The heads of the free lists, one for each order. -/
structure FreeLists where
  heads : Order → Link

namespace FreeLists

/-- Creates the free empty lists. -/
def new : FreeLists := ⟨fun _ => .nil⟩

/-- Sets the head of the list of an order. -/
def set (self : FreeLists) (order : Order) (link : Link) : FreeLists :=
  ⟨Function.update self.heads order link⟩

@[simp] theorem heads_set_self (l : FreeLists) (o : Order) (li : Link) :
    (l.set o li).heads o = li := Function.update_self ..

@[simp] theorem heads_set_of_ne (l : FreeLists) {o' : Order} (li : Link) (h : o' ≠ o) :
    (l.set o li).heads o' = l.heads o' := Function.update_of_ne h ..

/-- Replaces a given link for the specified order and returns the old one. -/
def replace (self : FreeLists) (order : Order) (new : Link) : Link × FreeLists :=
  (self.heads order, self.set order new)

end FreeLists

/-! ## The allocator -/

/-- Memory allocation stats gathered during the lifetime of the allocator. -/
structure AllocationStats where
  bytesAllocated : UInt32
  bytesAllocatedPeak : UInt32
  bytesAllocatedSum : BitVec 128
  addressSpaceUsed : UInt32

def AllocationStats.default : AllocationStats := ⟨0, 0, 0, 0⟩

structure FreeingBumpHeapAllocator where
  originalHeapBase : UInt32
  bumper : UInt32
  freeLists : FreeLists
  poisoned : Bool
  lastObservedMemorySize : UInt32
  stats : AllocationStats

/-- The allocator together with the memory it is called on. -/
structure Heap where
  allocator : FreeingBumpHeapAllocator
  mem : Memory

/-- How a call can end without a value: it returns an error, or it panics. -/
inductive Abort where
  | err (e : Error)
  | panicked (msg : String)
  deriving DecidableEq

/-- The heap base rounded up to the alignment. -/
def alignedHeapBase (heapBase : UInt32) : UInt32 :=
  (heapBase + alignment - 1) / alignment * alignment

theorem eight_dvd_alignedHeapBase (b : UInt32) : 8 ∣ (alignedHeapBase b).toNat := by
  have h8 : alignment.toNat = 8 := rfl
  rw [alignedHeapBase, UInt32.toNat_mul, h8]
  omega

variable {heap heap' : Heap} {A : Type} {B : Type} {a : A} {order : Order} {header : Header}

variable (self : FreeingBumpHeapAllocator)

namespace FreeingBumpHeapAllocator

/-- Creates a new allocation heap which follows a freeing-bump strategy. -/
def new (heapBase : UInt32) : FreeingBumpHeapAllocator where
  originalHeapBase := alignedHeapBase heapBase
  bumper := alignedHeapBase heapBase
  freeLists := .new
  poisoned := false
  lastObservedMemorySize := 0
  stats := .default

/-- A call that may abort keeps what it has done to the allocator and the memory. -/
abbrev Call (A : Type) := EStateM Abort Heap A

/-- The `?` operator on a result. -/
def propagate {A : Type} : Except Error A → Call A
  | .ok a => pure a
  | .error e => throw (.err e)

/-- The error for a value that is missing. -/
def okOr {A : Type} (msg : String) : Option A → Except Error A
  | some a => .ok a
  | none => .error (error msg)

/-- Raises the poisoned flag unless the body returns a value. -/
def withPoisonBomb {A : Type} (body : Call A) : Call A := fun heap =>
  match body heap with
  | .ok a heap => .ok a heap
  | .error e heap => .error e { heap with allocator.poisoned := true }

/-- A call on a poisoned allocator is refused; any other runs with the bomb armed. -/
def guarded {A : Type} (body : Call A) : Call A := fun heap =>
  if heap.allocator.poisoned then .error (.err (error "the allocator has been poisoned")) heap
  else withPoisonBomb body heap

def observeMemorySize : Call Unit := fun heap =>
  if heap.mem.size < heap.allocator.lastObservedMemorySize then
    .error (.err .memoryShrinked) heap
  else .ok () { heap with allocator.lastObservedMemorySize := heap.mem.size }

/-- Increases the bumper by `size` and returns the bumper from before. -/
def bump (size : UInt32) : Call UInt32 := fun heap =>
  let bumper := heap.allocator.bumper
  if bumper + size > heap.mem.size then .error (.err .allocatorOutOfSpace) heap
  else .ok bumper { heap with allocator.bumper := bumper + size }

/-- The `assert!` of the source. -/
def assert (condition : Bool) (msg : String) : Call Unit :=
  if condition then pure () else throw (.panicked msg)

def setFreeLists (lists : FreeLists) : Call Unit :=
  modify fun heap => { heap with allocator.freeLists := lists }

/-- Removes the first header of the free list of an order. -/
def popFree (order : Order) (headerPtr : UInt32) : Call UInt32 := do
  assert (headerPtr + order.size + headerSize ≤ (← get).mem.size)
    "Pointer is looked up in list of free entries, into which
					only valid values are inserted; qed"
  let header ← propagate (Header.readFrom (← get).mem headerPtr)
  let nextFree ← propagate (okOr "free list points to a occupied header" header.intoFree)
  setFreeLists ((← get).allocator.freeLists.set order nextFree)
  return headerPtr

/-- The header a chunk of the given order is served from. -/
def takeHeader (order : Order) : Call UInt32 := fun heap =>
  match heap.allocator.freeLists.heads order with
  | .ptr headerPtr => popFree order headerPtr heap
  | .nil => bump (order.size + headerSize) heap

def writeHeader (header : Header) (headerPtr : UInt32) : Call Unit := do
  let mem ← propagate (header.writeInto (← get).mem headerPtr)
  modify fun heap => { heap with mem := mem }

/-- The stats after a chunk of the given order was handed out. -/
def countAllocation (order : Order) : AllocationStats :=
  let bytesAllocated := self.stats.bytesAllocated + (order.size + headerSize)
  { bytesAllocated := bytesAllocated
    bytesAllocatedSum :=
      self.stats.bytesAllocatedSum + BitVec.ofNat 128 (order.size + headerSize).toNat
    bytesAllocatedPeak := max self.stats.bytesAllocatedPeak bytesAllocated
    addressSpaceUsed := self.bumper - self.originalHeapBase }

/-- Gets requested number of bytes to allocate and returns a pointer. -/
def allocate (size : UInt32) : Call UInt32 := guarded do
  observeMemorySize
  let order ← propagate (Order.fromSize size)
  let headerPtr ← takeHeader order
  -- Write the order in the occupied header.
  writeHeader (.occupied order) headerPtr
  modify fun heap => { heap with allocator.stats := heap.allocator.countAllocation order }
  return headerPtr + headerSize

/-- `u32::checked_sub`. -/
def checkedSub (a b : UInt32) : Option UInt32 := if b ≤ a then some (a - b) else none

/-- Deallocates the space which was allocated for a pointer. -/
def deallocate (ptr : UInt32) : Call Unit := guarded do
  observeMemorySize
  let headerPtr ← propagate (okOr "Invalid pointer for deallocation" (checkedSub ptr headerSize))
  let header ← propagate (Header.readFrom (← get).mem headerPtr)
  let order ← propagate (okOr "the allocation points to an empty header" header.intoOccupied)
  -- Update the just freed header and knit it back to the free list.
  let replaced := (← get).allocator.freeLists.replace order (.ptr headerPtr)
  setFreeLists replaced.2
  writeHeader (.free replaced.1) headerPtr
  let bytesAllocated ← propagate (okOr "underflow of the currently allocated bytes count"
    (checkedSub (← get).allocator.stats.bytesAllocated (order.size + headerSize)))
  modify fun heap => { heap with allocator.stats.bytesAllocated := bytesAllocated }

/-! ## What a call can do

Each call is taken apart once; later proofs use these lemmas and do not unfold it. -/

variable {x b : Call A} {f : A → Call B}

theorem bind_eq_ok {b : B} (h : (x >>= f) heap = .ok b heap') :
    ∃ a heap1, x heap = .ok a heap1 ∧ f a heap1 = .ok b heap' := by
  change EStateM.bind x f heap = _ at h
  unfold EStateM.bind at h
  split at h
  next a heap1 hx => exact ⟨a, heap1, hx, h⟩
  · cases h

theorem bind_of_ok {heap1 : Heap} (h : x heap = .ok a heap1) :
    (x >>= f) heap = f a heap1 := by
  change EStateM.bind x f heap = _
  unfold EStateM.bind
  rw [h]

@[simp] theorem get_bind (f : Heap → Call A) (heap : Heap) :
    ((get : Call Heap) >>= f) heap = f heap heap := rfl

@[simp] theorem setFreeLists_bind (ls : FreeLists) (f : Unit → Call A) (heap : Heap) :
    (setFreeLists ls >>= f) heap = f () { heap with allocator.freeLists := ls } := rfl

@[simp] theorem propagate_ok_bind (a : A) (f : A → Call B) (heap : Heap) :
    (propagate (.ok a) >>= f) heap = f a heap := rfl

theorem propagate_eq_ok {r : Except Error A} (h : propagate r heap = .ok a heap') :
    r = .ok a ∧ heap' = heap := by
  cases r with
  | ok b => cases h; exact ⟨rfl, rfl⟩
  | error e => cases h

theorem assert_eq_ok {c : Bool} {msg : String}
    (h : assert c msg heap = .ok () heap') : heap' = heap := by
  cases c with
  | true => cases h; rfl
  | false => cases h

theorem guarded_eq_ok (h : guarded b heap = .ok a heap') :
    heap.allocator.poisoned = false ∧ b heap = .ok a heap' := by
  unfold guarded withPoisonBomb at h
  split at h
  · cases h
  next hp =>
    split at h
    next hb => cases h; exact ⟨by simpa using hp, hb⟩
    · cases h

theorem guarded_of_ok (hp : heap.allocator.poisoned = false)
    (h : b heap = .ok a heap') : guarded b heap = .ok a heap' := by
  unfold guarded withPoisonBomb
  rw [hp, h]
  rfl

/-- A call that aborts leaves the allocator poisoned. -/
theorem guarded_eq_error {e : Abort} (h : guarded b heap = .error e heap') :
    heap'.allocator.poisoned = true := by
  unfold guarded withPoisonBomb at h
  split at h
  next hp => cases h; exact hp
  · split at h
    · cases h
    · cases h; rfl

theorem guarded_of_poisoned (hp : heap.allocator.poisoned = true) :
    guarded b heap = .error (.err (error "the allocator has been poisoned")) heap := by
  unfold guarded
  rw [hp]
  rfl

/-- Where the header of an allocation comes from, with the free lists and the bumper after it. -/
inductive Served (heap : Heap) (order : Order) : UInt32 → FreeLists → UInt32 → Prop
  | reused {headerPtr : UInt32} {next : Link}
      (head : heap.allocator.freeLists.heads order = .ptr headerPtr)
      (link : Header.readFrom heap.mem headerPtr = .ok (.free next)) :
      Served heap order headerPtr (heap.allocator.freeLists.set order next) heap.allocator.bumper
  | bumped (head : heap.allocator.freeLists.heads order = .nil)
      (fits : ¬ heap.allocator.bumper + (order.size + headerSize) > heap.mem.size) :
      Served heap order heap.allocator.bumper heap.allocator.freeLists
        (heap.allocator.bumper + (order.size + headerSize))

theorem popFree_eq_ok {headerPtr : UInt32} (h : popFree order headerPtr heap = .ok p heap') :
    p = headerPtr ∧ ∃ next, Header.readFrom heap.mem headerPtr = .ok (.free next) ∧
      heap' = { heap with allocator.freeLists := heap.allocator.freeLists.set order next } := by
  unfold popFree at h
  rw [get_bind] at h
  obtain ⟨_, _, ha, h1⟩ := bind_eq_ok h
  obtain rfl := assert_eq_ok ha
  rw [get_bind] at h1
  obtain ⟨header, _, hr, h2⟩ := bind_eq_ok h1
  obtain ⟨hread, rfl⟩ := propagate_eq_ok hr
  obtain ⟨next, _, hf, h3⟩ := bind_eq_ok h2
  obtain ⟨hfr, rfl⟩ := propagate_eq_ok hf
  cases h3
  cases header with
  | occupied order => cases hfr
  | free link =>
    cases hfr
    exact ⟨rfl, next, hread, rfl⟩

theorem takeHeader_eq_ok (h : takeHeader order heap = .ok p heap') :
    ∃ ls b, Served heap order p ls b ∧
      heap' = { heap with allocator.freeLists := ls, allocator.bumper := b } := by
  unfold takeHeader at h
  split at h
  next headerPtr hh =>
    obtain ⟨rfl, next, hr, rfl⟩ := popFree_eq_ok h
    exact ⟨_, _, .reused hh hr, rfl⟩
  rename_i hh
  unfold bump at h
  dsimp only at h
  split at h
  · cases h
  next hf =>
    cases h
    exact ⟨_, _, .bumped hh hf, rfl⟩

theorem writeHeader_eq_ok (h : writeHeader header p heap = .ok () heap') :
    ∃ mem, header.writeInto heap.mem p = .ok mem ∧ heap' = { heap with mem := mem } := by
  unfold writeHeader at h
  rw [get_bind] at h
  obtain ⟨mem, _, hw, h1⟩ := bind_eq_ok h
  obtain ⟨hwr, rfl⟩ := propagate_eq_ok hw
  cases h1
  exact ⟨mem, hwr, rfl⟩

theorem writeHeader_bind (h : header.writeInto mem p = .ok m') (f : Unit → Call A)
    (al : FreeingBumpHeapAllocator) :
    (writeHeader header p >>= f) ⟨al, mem⟩ = f () ⟨al, m'⟩ := by
  refine bind_of_ok ?_
  unfold writeHeader
  rw [get_bind, h]
  rfl

/-- The allocator after an allocation of the given order. -/
def afterAllocation (memorySize : UInt32) (order : Order) (lists : FreeLists) (bumper : UInt32) :
    FreeingBumpHeapAllocator :=
  let served :=
    { self with lastObservedMemorySize := memorySize, freeLists := lists, bumper := bumper }
  { served with stats := served.countAllocation order }

/-- Everything an allocation that succeeds does. -/
theorem allocate_eq_ok (h : allocate s heap = .ok ptr heap') :
    heap.allocator.poisoned = false ∧ ∃ order p ls b mem,
      Order.fromSize s = .ok order ∧ Served heap order p ls b ∧
      (Header.occupied order).writeInto heap.mem p = .ok mem ∧ ptr = p + headerSize ∧
      heap' = ⟨heap.allocator.afterAllocation heap.mem.size order ls b, mem⟩ := by
  obtain ⟨hp, h1⟩ := guarded_eq_ok h
  obtain ⟨_, _, hobs, h2⟩ := bind_eq_ok h1
  unfold observeMemorySize at hobs
  split at hobs
  · cases hobs
  cases hobs
  obtain ⟨order, _, hs, h3⟩ := bind_eq_ok h2
  obtain ⟨hsize, rfl⟩ := propagate_eq_ok hs
  obtain ⟨p, _, ht, h4⟩ := bind_eq_ok h3
  obtain ⟨ls, b, hse, rfl⟩ := takeHeader_eq_ok ht
  obtain ⟨_, _, hw, h5⟩ := bind_eq_ok h4
  obtain ⟨mem, hwr, rfl⟩ := writeHeader_eq_ok hw
  cases h5
  refine ⟨hp, order, p, ls, b, mem, hsize, ?_, hwr, rfl, rfl⟩
  cases hse with
  | reused head l => exact .reused head l
  | bumped head fs => exact .bumped head fs

/-- The allocator after the chunk at `headerPtr` was knit back. -/
def afterDeallocation (memorySize : UInt32) (order : Order) (headerPtr bytesAllocated : UInt32) :
    FreeingBumpHeapAllocator :=
  { self with
    lastObservedMemorySize := memorySize
    freeLists := self.freeLists.set order (.ptr headerPtr)
    stats := { self.stats with bytesAllocated := bytesAllocated } }

/-- What a deallocation needs to succeed, and what it then does. -/
theorem deallocate_of_occupied (hp : heap.allocator.poisoned = false)
    (hobs : ¬ heap.mem.size < heap.allocator.lastObservedMemorySize) (hptr : headerSize ≤ ptr)
    (hr : Header.readFrom heap.mem (ptr - headerSize) = .ok (.occupied order))
    (hwr : (Header.free (heap.allocator.freeLists.heads order)).writeInto heap.mem
      (ptr - headerSize) = .ok mem)
    (hby : order.size + headerSize ≤ heap.allocator.stats.bytesAllocated) :
    deallocate ptr heap = .ok () ⟨heap.allocator.afterDeallocation heap.mem.size order
      (ptr - headerSize) (heap.allocator.stats.bytesAllocated - (order.size + headerSize)),
      mem⟩ := by
  refine guarded_of_ok hp ?_
  have ho : observeMemorySize heap =
      .ok () { heap with allocator.lastObservedMemorySize := heap.mem.size } := if_neg hobs
  have hhd : checkedSub ptr headerSize = some (ptr - headerSize) := if_pos hptr
  have hcnt : checkedSub heap.allocator.stats.bytesAllocated (order.size + headerSize) =
      some (heap.allocator.stats.bytesAllocated - (order.size + headerSize)) := if_pos hby
  rw [bind_of_ok ho]
  simp only [hhd, okOr, propagate_ok_bind, get_bind, hr, Header.intoOccupied,
    setFreeLists_bind, FreeLists.replace]
  rw [writeHeader_bind hwr]
  simp only [get_bind, hcnt]
  rfl

/-! ## What no call changes -/

/-- The size of the memory and the heap base are the same. -/
def Frame (heap heap' : Heap) : Prop :=
  heap'.mem.size = heap.mem.size ∧
    heap'.allocator.originalHeapBase = heap.allocator.originalHeapBase

theorem Frame.refl (heap : Heap) : Frame heap heap := ⟨rfl, rfl⟩

/-- The heap a call ends with. -/
def final {A : Type} : EStateM.Result Abort Heap A → Heap
  | .ok _ heap => heap
  | .error _ heap => heap

/-- The call leaves the frame, however it ends. -/
def Framed {A : Type} (x : Call A) : Prop := ∀ heap, Frame heap (final (x heap))

theorem framed_bind (hx : Framed x) (hf : ∀ a, Framed (f a)) :
    Framed (x >>= f) := by
  intro heap
  have hx := hx heap
  change Frame heap (final (EStateM.bind x f heap))
  unfold EStateM.bind
  cases hc : x heap with
  | error e heap1 =>
    rw [hc] at hx
    exact hx
  | ok a heap1 =>
    rw [hc] at hx
    have hf := hf a heap1
    exact ⟨hf.1.trans hx.1, hf.2.trans hx.2⟩

theorem framed_get : Framed (get : Call Heap) := Frame.refl

theorem framed_propagate (r : Except Error A) : Framed (propagate r) := by
  cases r <;> exact Frame.refl

theorem framed_assert (c : Bool) (msg : String) : Framed (assert c msg) := by
  cases c <;> exact Frame.refl

theorem framed_setFreeLists (ls : FreeLists) : Framed (setFreeLists ls) := fun _ => ⟨rfl, rfl⟩

theorem framed_observeMemorySize : Framed observeMemorySize := by
  intro heap
  unfold observeMemorySize
  split <;> exact ⟨rfl, rfl⟩

theorem framed_writeHeader (header : Header) (p : UInt32) : Framed (writeHeader header p) := by
  intro heap
  unfold writeHeader
  rw [get_bind]
  cases hwr : header.writeInto heap.mem p with
  | error e => exact Frame.refl heap
  | ok mem =>
    exact ⟨Header.size_writeInto hwr, rfl⟩

theorem framed_takeHeader (order : Order) : Framed (takeHeader order) := by
  intro heap
  unfold takeHeader
  split
  next p _ =>
    have hpop : Framed (popFree order p) :=
      framed_bind framed_get fun _ => framed_bind (framed_assert _ _) fun _ =>
        framed_bind framed_get fun _ => framed_bind (framed_propagate _) fun _ =>
        framed_bind (framed_propagate _) fun _ => framed_bind framed_get fun _ =>
        framed_bind (framed_setFreeLists _) fun _ => Frame.refl
    exact hpop heap
  · unfold bump
    dsimp only
    split <;> exact ⟨rfl, rfl⟩

theorem framed_guarded (h : Framed b) : Framed (guarded b) := by
  intro heap
  have h := h heap
  unfold guarded withPoisonBomb
  split
  · exact Frame.refl heap
  · cases hc : b heap with
    | ok | error => rwa [hc] at h

theorem framed_allocate (size : UInt32) : Framed (allocate size) :=
  framed_guarded <| framed_bind framed_observeMemorySize fun _ =>
    framed_bind (framed_propagate _) fun order => framed_bind (framed_takeHeader order) fun _ =>
    framed_bind (framed_writeHeader _ _) fun _ =>
    framed_bind (fun _ => ⟨rfl, rfl⟩) fun _ => Frame.refl

theorem framed_deallocate (ptr : UInt32) : Framed (deallocate ptr) :=
  framed_guarded <| framed_bind framed_observeMemorySize fun _ =>
    framed_bind (framed_propagate _) fun _ => framed_bind framed_get fun _ =>
    framed_bind (framed_propagate _) fun _ => framed_bind (framed_propagate _) fun _ =>
    framed_bind framed_get fun _ => framed_bind (framed_setFreeLists _) fun _ =>
    framed_bind (framed_writeHeader _ _) fun _ => framed_bind framed_get fun _ =>
    framed_bind (framed_propagate _) fun _ _ => ⟨rfl, rfl⟩

end FreeingBumpHeapAllocator

end Allocator
