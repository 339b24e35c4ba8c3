-- SUMMARY: Live allocations are disjoint, aligned, large enough and in bounds if no address wraps.
import SubstrateIpfs.Allocator.Layout

/-!
# Safety and accounting of the allocator

`bump` compares `bumper + size` with the end of the memory in 32-bit arithmetic,
and the heap base is rounded up in 32-bit arithmetic. A run is safe exactly when
neither of them wraps around for a chunk that is handed out.
-/

namespace Allocator.World

open List Run Chunk

open FreeingBumpHeapAllocator Segment

/-! ## Safety -/

/-- What the users of the live chunks rely on. -/
structure Safe (heapBase : UInt32) (w : World) : Prop where
  disjoint : w.live.Pairwise fun c d => c.extent.Apart d.extent
  aligned : ∀ c ∈ w.live, 8 ∣ c.pointer.toNat
  large : ∀ c ∈ w.live, c.requested.toNat ≤ c.size
  above : ∀ c ∈ w.live, heapBase.toNat ≤ c.extent.start
  inside : ∀ c ∈ w.live, c.extent.stop ≤ w.heap.mem.size.toNat

/-- Neither the heap base nor the end of a chunk that is handed out wraps around. -/
def NoWrap (heapBase : UInt32) (w : World) (e : Event) : Prop :=
  (∀ size ptr heap, e.request = .allocate size → allocate size (w.entered e) = .ok ptr heap →
    heapBase.toNat + 7 < 2 ^ 32) ∧ w.BumpFits e

variable {w : World} {e : Event} {b : UInt32}

theorem le_alignedHeapBase (h : b.toNat + 7 < 2 ^ 32) : b.toNat ≤ (alignedHeapBase b).toNat := by
  have h8 : alignment.toNat = 8 := rfl
  have h1 : (1 : UInt32).toNat = 1 := rfl
  rw [alignedHeapBase, UInt32.toNat_mul, UInt32.toNat_div, UInt32.toNat_sub, UInt32.toNat_add, h8]
  omega

/-- A tidy heap above the heap base is safe. -/
theorem Tidy.safe (h : w.Tidy) (hb : b.toNat ≤ w.heap.allocator.originalHeapBase.toNat) :
    w.Safe b where
  disjoint := (pairwise_append.mp h.laid.apart).1
  aligned c hc := by
    have hal := h.laid.chunk_aligned c (mem_chunks_of_live hc)
    rw [h.laid.toNat_pointer (mem_chunks_of_live hc)]
    omega
  large c _ := c.requested_le_size
  above c hc := hb.trans (h.laid.tiles.mem_bounds (mem_map_of_mem (mem_chunks_of_live hc))).1
  inside c hc := h.laid.inside c (mem_chunks_of_live hc)

/-- Fewer live chunks in a larger memory are still safe. -/
theorem Safe.mono {w' : World} (h : w.Safe b) (hl : w'.live.Sublist w.live)
    (hs : w.heap.mem.size.toNat ≤ w'.heap.mem.size.toNat) : w'.Safe b where
  disjoint := h.disjoint.sublist hl
  aligned c hc := h.aligned c (hl.subset hc)
  large c hc := h.large c (hl.subset hc)
  above c hc := h.above c (hl.subset hc)
  inside c hc := (h.inside c (hl.subset hc)).trans hs

/-- No aligned address lies above a heap base that cannot be rounded up. -/
theorem Safe.heapBase_lt (h : w.Safe b) {c : Chunk} (hc : c ∈ w.live) : b.toNat + 7 < 2 ^ 32 := by
  have hal := h.aligned c hc
  have habv : b.toNat ≤ (c.pointer - headerSize).toNat := h.above c hc
  have h8 : headerSize.toNat = 8 := rfl
  rw [UInt32.toNat_sub] at habv
  omega

/-- What a run keeps as long as nothing wraps around. -/
def Sound (heapBase : UInt32) (w : World) : Prop :=
  w.heap.allocator.originalHeapBase = alignedHeapBase heapBase ∧
    (w.heap.allocator.poisoned = true ∨ w.Tidy)

theorem Sound.step (h : w.Sound b) (he : w.Permitted e) (hf : w.BumpFits e) :
    (w.step e).Sound b := by
  obtain ⟨hb, hp | ht⟩ := h
  · refine ⟨(frame_step w e).2.trans hb, .inl ?_⟩
    rw [step_of_poisoned hp]
    exact hp
  · exact ⟨(frame_step w e).2.trans hb, ht.step he hf⟩

/-- A step that hands out no chunk keeps what was safe. -/
theorem Safe.step_of_live (hs : w.Safe b) (he : w.Permitted e)
    (hl : (w.step e).live.Sublist w.live) : (w.step e).Safe b := by
  refine hs.mono hl ?_
  rw [(frame_step w e).1]
  exact he.guest.grows

/-- A step that starts in a safe state ends in one exactly when nothing wraps around. -/
theorem safe_step_iff (h : w.Sound b) (hsa : w.Safe b) (he : w.Permitted e) :
    (w.step e).Safe b ↔ w.NoWrap b e := by
  cases hr : e.request with
  | deallocate c =>
    have hw : w.NoWrap b e := by simp [NoWrap, BumpFits, hr]
    refine iff_of_true (hsa.step_of_live he ?_) hw
    unfold step
    rw [hr]
    dsimp only
    split
    · exact erase_sublist
    · exact List.Sublist.refl _
  | allocate s =>
    cases hc : allocate s (w.entered e) with
    | error a heap =>
      have hw : w.NoWrap b e := by
        refine ⟨fun s' _ _ hr' hok => ?_, fun s' _ _ _ hr' hok => ?_⟩ <;>
        · cases hr.symm.trans hr'
          cases hc.symm.trans hok
      refine iff_of_true (hsa.step_of_live he ?_) hw
      rw [step_allocate_error hr hc]
    | ok ptr heap =>
      have hl : ⟨ptr, s⟩ ∈ (w.step e).live := by
        rw [step_allocate_ok hr hc]
        exact mem_cons_self
      constructor
      · intro hs'
        refine ⟨fun _ _ _ _ _ => hs'.heapBase_lt hl, fun s' _ _ o hr' _ ho hh => ?_⟩
        cases hr.symm.trans hr'
        -- the chunk starts at the bumper, and its end is inside of the memory
        have hin := hs'.inside _ hl
        have hlt := (w.step e).heap.mem.size.toNat_lt
        obtain ⟨-, o', p, lists, bumper, mem, hs, hse, -, rfl, -⟩ := allocate_eq_ok hc
        cases ho.symm.trans hs
        have hp : p = w.heap.allocator.bumper := by
          cases hse with
          | reused head _ => cases hh.symm.trans head
          | bumped _ _ => rfl
        subst hp
        have hsz : Chunk.size ⟨w.heap.allocator.bumper + headerSize, s⟩ = o.size.toNat :=
          (Order.size_of_fromSize hs).symm
        simp only [extent, header_mk] at hin
        omega
      · rintro ⟨hb, hf⟩
        obtain ⟨hb', hpo | ht⟩ := h.step he hf
        · -- a call that returns a chunk leaves the allocator as healthy as it was
          obtain ⟨hp, _, _, _, _, _, _, _, _, _, rfl⟩ := allocate_eq_ok hc
          rw [step_allocate_ok hr hc] at hpo
          cases hp.symm.trans hpo
        · refine ht.safe ?_
          rw [hb']
          exact le_alignedHeapBase (hb s ptr heap hr hc)

theorem safe_start (heapBase : UInt32) (mem : Memory) : (start heapBase mem).Safe heapBase where
  disjoint := List.Pairwise.nil
  aligned _ h := by cases h
  large _ h := by cases h
  above _ h := by cases h
  inside _ h := by cases h

/-- In every run in which the guest keeps to its chunks, the live chunks are safe in every state
exactly when no heap base and no end of a chunk wraps around. -/
theorem safe_iff_noWrap {heapBase : UInt32} {mem : Memory} {events : List Event}
    (h : Run.Each step Permitted (start heapBase mem) events) :
    Run.Always step (Safe heapBase) (start heapBase mem) events ↔
      Run.Each step (NoWrap heapBase) (start heapBase mem) events :=
  always_iff_each
    (fun _ _ hs _ he hn => hs.step he hn.2)
    (fun _ _ hs hsa he => safe_step_iff hs hsa he)
    ⟨rfl, .inr (tidy_start heapBase mem)⟩ (safe_start heapBase mem) h

theorem permitted_quiet {req : Request} (h : ∀ c, req = .deallocate c → c ∈ w.live) :
    w.Permitted (Event.quiet req) :=
  ⟨⟨le_rfl, fun _ _ _ => rfl⟩, h⟩

/-- Far from the end of the address space nothing wraps around. -/
theorem bumpFits_of_lt (hbump : w.heap.allocator.bumper.toNat < 2 ^ 31) : w.BumpFits e := by
  intro _ _ _ o _ _ _ _
  have := o.size_le
  omega

/-- One page of zeros. -/
def page : Memory := ⟨65536, fun _ => 0⟩

/-- Two chunks are handed out. The first is given back, and handed out again for another size. -/
def reuseRun : List Event :=
  [.quiet (.allocate 1), .quiet (.allocate 20), .quiet (.deallocate ⟨24, 1⟩), .quiet (.allocate 8)]

theorem permitted_reuseRun : Each step Permitted (start 13 page) reuseRun := by
  simp only [reuseRun, each_cons, each_nil, and_true]
  refine ⟨permitted_quiet ?_, permitted_quiet ?_, permitted_quiet ?_, permitted_quiet ?_⟩
  · simp
  · simp
  · rintro c ⟨⟩
    decide +kernel
  · simp

theorem safe_iff_noWrap_reuseRun : Run.Each step Permitted (start 13 page) reuseRun ∧
    Run.Always step (Safe 13) (start 13 page) reuseRun := by
  refine ⟨permitted_reuseRun, (safe_iff_noWrap permitted_reuseRun).mpr ?_⟩
  simp only [reuseRun, each_cons, each_nil, and_true]
  have hb : (13 : UInt32).toNat + 7 < 2 ^ 32 := by decide
  refine ⟨⟨fun _ _ _ _ _ => hb, bumpFits_of_lt ?_⟩, ⟨fun _ _ _ _ _ => hb, bumpFits_of_lt ?_⟩,
    ⟨fun _ _ _ _ _ => hb, bumpFits_of_lt ?_⟩, fun _ _ _ _ _ => hb, bumpFits_of_lt ?_⟩ <;>
  decide +kernel

/-- The largest memory of whole pages. -/
def lastPages : Memory := ⟨4294901760, fun _ => 0⟩

/-- Close to the end of the address space `bumper + size` wraps around: the chunk that is handed
out reaches beyond the end of the memory. -/
theorem unsafe_after_wrap :
    Run.Each step Permitted (start 4294901744 lastPages) [.quiet (.allocate 131072)] ∧
      ¬ Run.Always step (Safe 4294901744) (start 4294901744 lastPages)
        [.quiet (.allocate 131072)] := by
  constructor
  · simp only [each_cons, each_nil, and_true]
    exact permitted_quiet (by simp)
  · intro h
    have hin := h.last.inside ⟨4294901752, 131072⟩ (by decide +kernel)
    revert hin
    decide +kernel

/-! ## Accounting -/

/-- The call returns a value. -/
def Succeeds (w : World) (e : Event) : Prop :=
  match e.request with
  | .allocate size => ∃ ptr heap, allocate size (w.entered e) = .ok ptr heap
  | .deallocate c => ∃ heap, deallocate c.pointer (w.entered e) = .ok () heap

/-- Bytes, free lists and space agree with the chunks of the run. -/
structure Accounts (heapBase : UInt32) (w : World) : Prop where
  bytes : w.heap.allocator.stats.bytesAllocated.toNat = (w.live.map fun c => c.size + 8).sum
  lists : ∀ o, ∃ l, Chain w.heap.mem (w.heap.allocator.freeLists.heads o) l ∧ l.Nodup ∧
    l.Perm ((ofOrder o w.freed).map header)
  tiles : Tiles (alignedHeapBase heapBase).toNat ((w.live ++ w.freed).map extent)
    w.heap.allocator.bumper.toNat
  /-- Giving back a live chunk never fails: not with an underflow of the count, nor otherwise. -/
  deallocates : ∀ e c, w.Permitted e → e.request = .deallocate c →
    ∃ heap, deallocate c.pointer (w.entered e) = .ok () heap

/-- The allocator works and its heap is tidy. -/
def Working (heapBase : UInt32) (w : World) : Prop :=
  w.heap.allocator.originalHeapBase = alignedHeapBase heapBase ∧
    w.heap.allocator.poisoned = false ∧ w.Tidy

theorem Working.accounts (h : w.Working b) : w.Accounts b where
  bytes := h.2.2.counted
  lists o := by
    obtain ⟨l, hcha, hp⟩ := h.2.2.listed o
    refine ⟨l, hcha, hp.nodup_iff.mpr ?_, hp⟩
    have hnd := h.2.2.laid.nodup_headers
    rw [chunks, map_append] at hnd
    exact hnd.of_append_right.sublist (filter_sublist.map _)
  tiles := h.1 ▸ h.2.2.laid.tiles
  deallocates e c he hr := by
    obtain ⟨heap, hc, -⟩ := (h.2.2.guest he.guest).deallocate h.2.1 (he.live c hr)
    exact ⟨heap, hc⟩

/-- A call that returns a value does not poison the allocator. -/
theorem Working.poisoned_step (h : w.Working b) (he : w.Permitted e) (hok : w.Succeeds e) :
    (w.step e).heap.allocator.poisoned = false := by
  unfold Succeeds at hok
  cases hr : e.request with
  | allocate size =>
    rw [hr] at hok
    obtain ⟨ptr, heap, hc⟩ := hok
    rw [step_allocate_ok hr hc]
    obtain ⟨hp, _, _, _, _, _, _, _, _, _, rfl⟩ := allocate_eq_ok hc
    exact hp
  | deallocate c =>
    obtain ⟨heap, hc, hp, -⟩ := (h.2.2.guest he.guest).deallocate h.2.1 (he.live c hr)
    rw [step_deallocate_ok hr hc]
    exact hp

theorem Working.step (h : w.Working b) (he : w.Permitted e) (hok : w.Succeeds e)
    (hf : w.BumpFits e) : (w.step e).Working b := by
  have hp := h.poisoned_step he hok
  refine ⟨(frame_step w e).2.trans h.1, hp, (h.2.2.step he hf).resolve_left ?_⟩
  simp [hp]

/-- The accounts are kept along every run of calls that succeed while the bumper does not
overflow. -/
theorem accounts_run {heapBase : UInt32} {mem : Memory} {events : List Event}
    (h : Run.Each step (fun w e => w.Permitted e ∧ w.Succeeds e ∧ w.BumpFits e)
      (start heapBase mem) events) :
    Run.Always step (Accounts heapBase) (start heapBase mem) events := by
  have hwo : Always step (Working heapBase) (start heapBase mem) events :=
    Run.Each.always (fun _ _ hw he => hw.step he.1 he.2.1 he.2.2)
      ⟨rfl, rfl, tidy_start heapBase mem⟩ h
  exact fun pre hpre => (hwo pre hpre).accounts

theorem accounts_run_reuseRun :
    Run.Each step (fun w e => w.Permitted e ∧ w.Succeeds e ∧ w.BumpFits e)
      (start 13 page) reuseRun ∧
    Run.Always step (Accounts 13) (start 13 page) reuseRun := by
  have hrun : Each step (fun w e => w.Permitted e ∧ w.Succeeds e ∧ w.BumpFits e)
      (start 13 page) reuseRun := by
    have hp := permitted_reuseRun
    simp only [reuseRun, each_cons, each_nil, and_true] at hp ⊢
    obtain ⟨h1, h2, h3, h4⟩ := hp
    refine ⟨⟨h1, ⟨_, _, rfl⟩, bumpFits_of_lt ?_⟩, ⟨h2, ⟨_, _, rfl⟩, bumpFits_of_lt ?_⟩,
      ⟨h3, ⟨_, rfl⟩, bumpFits_of_lt ?_⟩, h4, ⟨_, _, rfl⟩, bumpFits_of_lt ?_⟩ <;> decide +kernel
  exact ⟨hrun, accounts_run hrun⟩

end Allocator.World

/-! ## A hostile guest

The links of the free lists are read from a memory that belongs to the guest. What is read
becomes the head of a free list without a check, and the next allocation asserts that it is
in bounds. In a build with overflow checks, the sums of an allocation can panic as well.
-/

namespace Allocator

open FreeingBumpHeapAllocator Run

/-! ## Overflow checks -/

namespace FreeingBumpHeapAllocator

/-- A sum that panics if it does not fit into the bits. -/
def checkSum (bits sum : Nat) : Call Unit :=
  assert (sum < 2 ^ bits) "attempt to add with overflow"

/-- `takeHeader` in a build with overflow checks. -/
def takeHeaderChecked (order : Order) : Call UInt32 := do
  match (← get).allocator.freeLists.heads order with
  | .ptr headerPtr =>
    checkSum 32 (headerPtr.toNat + order.size.toNat + headerSize.toNat)
    popFree order headerPtr
  | .nil =>
    checkSum 32 ((← get).allocator.bumper.toNat + order.size.toNat + headerSize.toNat)
    bump (order.size + headerSize)

/-- The arithmetic of `countAllocation` in a build with overflow checks. -/
def checkStats (order : Order) : Call Unit := do
  let self := (← get).allocator
  checkSum 32 (self.stats.bytesAllocated.toNat + order.size.toNat + headerSize.toNat)
  checkSum 128 (self.stats.bytesAllocatedSum.toNat + order.size.toNat + headerSize.toNat)
  assert (self.originalHeapBase ≤ self.bumper) "attempt to subtract with overflow"

/-- What `allocate` does with the header it has found, in a build with overflow checks. -/
def handOutChecked (order : Order) (headerPtr : UInt32) : Call UInt32 := do
  writeHeader (.occupied order) headerPtr
  checkStats order
  modify fun heap => { heap with allocator.stats := heap.allocator.countAllocation order }
  -- The source has disarmed the bomb here. The sum fits, as the header was written.
  checkSum 32 (headerPtr.toNat + headerSize.toNat)
  return headerPtr + headerSize

/-- `allocate` in a build with overflow checks. `deallocate` has no sum that can overflow. -/
def allocateChecked (size : UInt32) : Call UInt32 := guarded do
  observeMemorySize
  let order ← propagate (Order.fromSize size)
  handOutChecked order (← takeHeaderChecked order)

end FreeingBumpHeapAllocator

/-- A call, after the guest has done what it likes to the memory. -/
inductive GuestCall where
  | allocate (guest : Memory → Memory) (size : UInt32)
  | deallocate (guest : Memory → Memory) (ptr : UInt32)

/-- How a call ended, if not with a value, and the heap it left. -/
def outcome {A : Type} : EStateM.Result Abort Heap A → Option Abort × Heap
  | .ok _ heap => (none, heap)
  | .error e heap => (some e, heap)

def panicked : Option Abort → Bool
  | some (.panicked _) => true
  | _ => false

namespace Heap

def call (heap : Heap) : GuestCall → Option Abort × Heap
  | .allocate guest size => outcome (allocateChecked size { heap with mem := guest heap.mem })
  | .deallocate guest ptr => outcome (deallocate ptr { heap with mem := guest heap.mem })

def next (heap : Heap) (c : GuestCall) : Heap := (heap.call c).2

def Fails (heap : Heap) (c : GuestCall) : Prop := ∃ e, (heap.call c).1 = some (.err e)

def Returns (heap : Heap) (c : GuestCall) : Prop := panicked (heap.call c).1 = false

/-- A chunk fits into the memory where the free list of the order starts. If the list is empty, a
chunk behind the bumper fits into the address space. -/
def HeadFits (heap : Heap) (order : Order) : Prop :=
  match heap.allocator.freeLists.heads order with
  | .ptr p => p.toNat + order.size.toNat + 8 ≤ heap.mem.size.toNat
  | .nil => heap.allocator.bumper.toNat + order.size.toNat + 8 < 2 ^ 32

/-- The free list of the order starts with a free header. If it is empty, a chunk behind the bumper
fits into the memory. -/
def Supplied (heap : Heap) (order : Order) : Prop :=
  match heap.allocator.freeLists.heads order with
  | .ptr p => ∃ next, Header.readFrom heap.mem p = .ok (.free next)
  | .nil => heap.allocator.bumper.toNat + order.size.toNat + 8 ≤ heap.mem.size.toNat

/-- The bumper after an allocation. -/
def raised (heap : Heap) (order : Order) : Nat :=
  match heap.allocator.freeLists.heads order with
  | .ptr _ => heap.allocator.bumper.toNat
  | .nil => heap.allocator.bumper.toNat + order.size.toNat + 8

/-- The counters have room for one more chunk, and the bumper is not below the heap base. -/
def StatsFit (heap : Heap) (order : Order) : Prop :=
  heap.allocator.stats.bytesAllocated.toNat + order.size.toNat + 8 < 2 ^ 32 ∧
    heap.allocator.stats.bytesAllocatedSum.toNat + order.size.toNat + 8 < 2 ^ 128 ∧
    heap.allocator.originalHeapBase.toNat ≤ heap.raised order

/-- An allocation that gets as far as the free list finds a head that fits, and counters with room
if there is a chunk for it. -/
def Careful (heap : Heap) : GuestCall → Prop
  | .allocate guest size => heap.allocator.poisoned = false →
      ¬ (guest heap.mem).size < heap.allocator.lastObservedMemorySize →
      ∀ order, Order.fromSize size = .ok order →
        HeadFits { heap with mem := guest heap.mem } order ∧
          (Supplied { heap with mem := guest heap.mem } order → heap.StatsFit order)
  | .deallocate .. => True

end Heap

variable {heap heap' : Heap} {A B : Type} {x b : Call A} {f : A → Call B} {g : Unit → Call A}
  {bits n : Nat} {c : Bool} {msg : String}

/-! ## Calls that do not panic -/

/-- From this heap the call does not panic. -/
def Calm (x : Call A) (heap : Heap) : Prop := panicked (outcome (x heap)).1 = false

theorem bind_of_error {e : Abort} (h : x heap = .error e heap') :
    (x >>= f) heap = .error e heap' := by
  change EStateM.bind x f heap = _
  rw [EStateM.bind, h]

theorem calm_of_ok {a : A} (h : x heap = .ok a heap') :
    Calm (x >>= f) heap ↔ Calm (f a) heap' := by
  rw [Calm, bind_of_ok h, Calm]

theorem calm_bind_iff : Calm (x >>= f) heap ↔
    Calm x heap ∧ ∀ a heap', x heap = .ok a heap' → Calm (f a) heap' := by
  cases hc : x heap with
  | ok a heap1 =>
    have hx : Calm x heap := by
      rw [Calm, hc]
      rfl
    rw [calm_of_ok hc]
    exact ⟨fun h => ⟨hx, fun _ _ ho => by cases ho; exact h⟩, fun h => h.2 a heap1 rfl⟩
  | error e heap1 =>
    rw [Calm, Calm, bind_of_error hc, hc]
    exact ⟨fun h => ⟨h, nofun⟩, fun h => h.1⟩

theorem calm_bind (hx : Calm x heap) (hf : ∀ a heap, Calm (f a) heap) :
    Calm (x >>= f) heap := calm_bind_iff.mpr ⟨hx, fun a heap' _ => hf a heap'⟩

theorem calm_pure (a : A) : Calm (pure a) heap := rfl

theorem calm_get : Calm (get : Call Heap) heap := rfl

theorem calm_modify (f : Heap → Heap) : Calm (modify f) heap := rfl

theorem calm_propagate (r : Except Error A) : Calm (propagate r) heap := by
  cases r <;> rfl

theorem calm_writeHeader (hdr : Header) (p : UInt32) : Calm (writeHeader hdr p) heap :=
  calm_bind calm_get fun _ _ => calm_bind (calm_propagate _) fun _ _ => calm_modify _

theorem assert_bind (h : c = true) : (assert c msg >>= g) heap = g () heap := by
  rw [h]
  rfl

theorem calm_assert_iff : Calm (assert c msg) heap ↔ c = true := by
  cases c with
  | true => exact iff_of_true rfl rfl
  | false => exact iff_of_false nofun nofun

theorem calm_assert_bind : Calm (assert c msg >>= g) heap ↔ c = true ∧ Calm (g ()) heap := by
  cases c with
  | true => exact ⟨fun h => ⟨rfl, h⟩, And.right⟩
  | false => exact ⟨nofun, nofun⟩

theorem checkSum_bind (h : n < 2 ^ bits) : (checkSum bits n >>= g) heap = g () heap :=
  assert_bind (decide_eq_true h)

theorem calm_checkSum_bind :
    Calm (checkSum bits n >>= g) heap ↔ n < 2 ^ bits ∧ Calm (g ()) heap := by
  rw [checkSum, calm_assert_bind, decide_eq_true_iff]

theorem calm_popFree_iff {o : Order} {p : UInt32} :
    Calm (popFree o p) heap ↔ p + o.size + headerSize ≤ heap.mem.size := by
  refine calm_assert_bind.trans ?_
  rw [decide_eq_true_iff]
  exact and_iff_left <| calm_bind calm_get fun _ _ => calm_bind (calm_propagate _) fun _ _ =>
    calm_bind (calm_propagate _) fun _ _ => calm_bind calm_get fun _ _ =>
    calm_bind (calm_modify _) fun _ _ => calm_pure p

theorem calm_bump (size : UInt32) : Calm (bump size) heap := by
  unfold Calm bump
  dsimp only
  split <;> rfl

theorem calm_guarded_iff :
    Calm (guarded b) heap ↔ (heap.allocator.poisoned = false → Calm b heap) := by
  unfold Calm guarded withPoisonBomb
  cases heap.allocator.poisoned with
  | true => exact iff_of_true rfl nofun
  | false =>
    cases b heap with
    | ok | error => exact ⟨fun h _ => h, fun h => h rfl⟩

/-- A call of the allocator first looks at the size of the memory. -/
theorem calm_observe_iff : Calm (observeMemorySize >>= g) heap ↔
      (¬ heap.mem.size < heap.allocator.lastObservedMemorySize →
        Calm (g ()) { heap with allocator.lastObservedMemorySize := heap.mem.size }) := by
  by_cases hlt : heap.mem.size < heap.allocator.lastObservedMemorySize
  · rw [Calm, bind_of_error (if_pos hlt)]
    exact iff_of_true rfl fun hle => absurd hlt hle
  · rw [calm_of_ok (if_neg hlt)]
    exact ⟨fun h _ => h, fun h => h hlt⟩

section Checked

variable {o : Order} {p : UInt32}

theorem toNat_headerSize : headerSize.toNat = 8 := rfl

/-- A sum that is checked is the sum of the numbers. -/
theorem toNat_add_chunk (h : p.toNat + o.size.toNat + 8 < 2 ^ 32) :
    (p + (o.size + headerSize)).toNat = p.toNat + o.size.toNat + 8 := by
  have := o.size_le
  rw [UInt32.toNat_add, UInt32.toNat_add, toNat_headerSize]
  omega

/-- Finding a header panics only on the head of the free list, or on the bumper. -/
theorem calm_takeHeaderChecked_iff : Calm (takeHeaderChecked o) heap ↔ heap.HeadFits o := by
  unfold takeHeaderChecked Heap.HeadFits
  rw [Calm, get_bind, ← Calm]
  cases heap.allocator.freeLists.heads o with
  | ptr p =>
    refine calm_checkSum_bind.trans ?_
    rw [calm_popFree_iff, UInt32.le_iff_toNat_le, toNat_headerSize, add_assoc p]
    have hlt := heap.mem.size.toNat_lt
    constructor
    · rintro ⟨hs, hf⟩
      rwa [toNat_add_chunk hs] at hf
    · intro hf
      have hs : p.toNat + o.size.toNat + 8 < 2 ^ 32 := by omega
      rw [toNat_add_chunk hs]
      exact ⟨hs, hf⟩
  | nil =>
    dsimp only
    rw [Calm, get_bind, ← Calm, calm_checkSum_bind, toNat_headerSize]
    exact and_iff_left (calm_bump _)

/-- A check that passes changes nothing. -/
theorem checkSum_bind_eq_ok {a : A} (h : (checkSum bits n >>= g) heap = .ok a heap') :
    g () heap = .ok a heap' := by
  obtain ⟨_, _, hc, h1⟩ := bind_eq_ok h
  obtain rfl := assert_eq_ok hc
  exact h1

/-- Checks that pass do not change what is found. -/
theorem takeHeaderChecked_eq_ok (h : takeHeaderChecked o heap = .ok p heap') :
    takeHeader o heap = .ok p heap' := by
  unfold takeHeaderChecked at h
  rw [get_bind] at h
  unfold takeHeader
  cases hh : heap.allocator.freeLists.heads o with
  | ptr q =>
    rw [hh] at h
    exact checkSum_bind_eq_ok h
  | nil =>
    rw [hh] at h
    exact checkSum_bind_eq_ok h

/-- Checks that pass do not change what an allocation does. -/
theorem allocateChecked_eq_ok {s : UInt32} (h : allocateChecked s heap = .ok p heap') :
    allocate s heap = .ok p heap' := by
  obtain ⟨hp, h1⟩ := guarded_eq_ok h
  obtain ⟨_, _, hobs, h2⟩ := bind_eq_ok h1
  obtain ⟨order, _, hs, h3⟩ := bind_eq_ok h2
  obtain ⟨_, _, ht, h4⟩ := bind_eq_ok h3
  obtain ⟨_, _, hw, h5⟩ := bind_eq_ok h4
  obtain ⟨_, _, hc, h6⟩ := bind_eq_ok h5
  obtain rfl := assert_eq_ok (checkSum_bind_eq_ok (checkSum_bind_eq_ok hc))
  refine guarded_of_ok hp ?_
  rw [bind_of_ok hobs, bind_of_ok hs, bind_of_ok (takeHeaderChecked_eq_ok ht), bind_of_ok hw]
  exact checkSum_bind_eq_ok h6

/-- The end of a chunk that is found, and the bumper after it. -/
theorem served_bounds {ls : FreeLists} {b : UInt32} (hf : heap.HeadFits o)
    (h : Served heap o p ls b) :
    p.toNat + 8 ≤ heap.mem.size.toNat ∧ b.toNat = heap.raised o := by
  unfold Heap.HeadFits at hf
  unfold Heap.raised
  cases h with
  | reused head _ =>
    rw [head] at hf ⊢
    exact ⟨by omega, rfl⟩
  | bumped head fits =>
    rw [head] at hf ⊢
    have ha := toNat_add_chunk hf
    rw [gt_iff_lt, UInt32.not_lt, UInt32.le_iff_toNat_le, ha] at fits
    exact ⟨by omega, ha⟩

/-- If nothing panics, a header is found exactly if there is one. -/
theorem supplied_iff (hf : heap.HeadFits o) :
    heap.Supplied o ↔ ∃ p heap', takeHeaderChecked o heap = .ok p heap' := by
  constructor
  · intro hs
    have hlt := heap.mem.size.toNat_lt
    unfold Heap.HeadFits at hf
    unfold Heap.Supplied at hs
    unfold takeHeaderChecked
    rw [get_bind]
    cases hh : heap.allocator.freeLists.heads o with
    | ptr q =>
      rw [hh] at hs hf
      obtain ⟨next, hnext⟩ := hs
      have hsum : q.toNat + o.size.toNat + 8 < 2 ^ 32 := by omega
      have hfit : q + o.size + headerSize ≤ heap.mem.size := by
        rwa [add_assoc, UInt32.le_iff_toNat_le, toNat_add_chunk hsum]
      have hpop : popFree o q heap =
          .ok q { heap with allocator.freeLists := heap.allocator.freeLists.set o next } := by
        rw [popFree, get_bind, assert_bind (decide_eq_true hfit), get_bind, hnext]
        rfl
      exact ⟨_, _, (checkSum_bind hsum).trans hpop⟩
    | nil =>
      rw [hh] at hs hf
      have hfit : ¬ heap.allocator.bumper + (o.size + headerSize) > heap.mem.size := by
        rwa [gt_iff_lt, UInt32.not_lt, UInt32.le_iff_toNat_le, toNat_add_chunk hf]
      exact ⟨_, _, (checkSum_bind hf).trans (if_neg hfit)⟩
  · rintro ⟨p, heap', h⟩
    obtain ⟨ls, b, hse, -⟩ := takeHeader_eq_ok (takeHeaderChecked_eq_ok h)
    unfold Heap.HeadFits at hf
    unfold Heap.Supplied
    cases hse with
    | reused head link =>
      rw [head]
      exact ⟨_, link⟩
    | bumped head fits =>
      rw [head] at hf ⊢
      rwa [gt_iff_lt, UInt32.not_lt, UInt32.le_iff_toNat_le, toNat_add_chunk hf] at fits

/-- Handing out a chunk panics only on the counters. -/
theorem calm_handOutChecked_iff (hp : p.toNat + 8 ≤ heap.mem.size.toNat) :
    Calm (handOutChecked o p) heap ↔
      heap.allocator.stats.bytesAllocated.toNat + o.size.toNat + 8 < 2 ^ 32 ∧
        heap.allocator.stats.bytesAllocatedSum.toNat + o.size.toNat + 8 < 2 ^ 128 ∧
        heap.allocator.originalHeapBase.toNat ≤ heap.allocator.bumper.toNat := by
  obtain ⟨mem, hw⟩ := (Header.occupied o).writeInto_of_le hp
  have hlt : p.toNat + headerSize.toNat < 2 ^ 32 := hp.trans_lt heap.mem.size.toNat_lt
  unfold handOutChecked
  rw [Calm, writeHeader_bind hw, ← Calm, calm_bind_iff]
  refine (and_iff_left fun _ _ _ => calm_bind (calm_modify _) fun _ _ =>
    calm_checkSum_bind.mpr ⟨hlt, calm_pure (p + headerSize)⟩).trans ?_
  refine calm_checkSum_bind.trans (and_congr_right fun _ => calm_checkSum_bind.trans
    (and_congr_right fun _ => ?_))
  rw [← UInt32.le_iff_toNat_le]
  exact calm_assert_iff.trans decide_eq_true_iff

/-- Serving an allocation panics only on the place of the chunk, and on the counters. -/
theorem calm_serve_iff : Calm (takeHeaderChecked o >>= handOutChecked o) heap ↔
      heap.HeadFits o ∧ (heap.Supplied o → heap.StatsFit o) := by
  rw [calm_bind_iff, calm_takeHeaderChecked_iff]
  refine and_congr_right fun hf => ?_
  have hout : ∀ p heap', takeHeaderChecked o heap = .ok p heap' →
      (Calm (handOutChecked o p) heap' ↔ heap.StatsFit o) := by
    intro p heap' ht
    obtain ⟨ls, b, hse, rfl⟩ := takeHeader_eq_ok (takeHeaderChecked_eq_ok ht)
    obtain ⟨hp, hb⟩ := served_bounds hf hse
    rw [Heap.StatsFit, ← hb]
    exact calm_handOutChecked_iff hp
  rw [supplied_iff hf]
  constructor
  · rintro h ⟨p, heap', ht⟩
    exact (hout p heap' ht).mp (h p heap' ht)
  · intro h p heap' ht
    exact (hout p heap' ht).mpr (h ⟨p, heap', ht⟩)

theorem calm_allocateChecked_iff {s : UInt32} : Calm (allocateChecked s) heap ↔
    (heap.allocator.poisoned = false → ¬ heap.mem.size < heap.allocator.lastObservedMemorySize →
      ∀ o, Order.fromSize s = .ok o → heap.HeadFits o ∧ (heap.Supplied o → heap.StatsFit o)) := by
  refine calm_guarded_iff.trans (imp_congr_right fun _ => calm_observe_iff.trans
    (imp_congr_right fun _ => ?_))
  cases Order.fromSize s with
  | error e => exact iff_of_true rfl nofun
  | ok o =>
    rw [Calm, propagate_ok_bind, ← Calm]
    exact calm_serve_iff.trans ⟨fun h _ ho => Except.ok.inj ho ▸ h, fun h => h o rfl⟩

end Checked

namespace Heap

variable {c : GuestCall}

/-- A call returns exactly if it is careful. -/
theorem returns_iff : heap.Returns c ↔ heap.Careful c := by
  cases c with
  | allocate g s => exact calm_allocateChecked_iff
  | deallocate g ptr =>
    refine iff_of_true (calm_guarded_iff.mpr fun _ => calm_observe_iff.mpr fun _ => ?_) trivial
    exact calm_bind (calm_propagate _) fun _ _ => calm_bind calm_get fun _ _ =>
      calm_bind (calm_propagate _) fun _ _ => calm_bind (calm_propagate _) fun _ _ =>
      calm_bind calm_get fun _ _ => calm_bind (calm_modify _) fun _ _ =>
      calm_bind (calm_writeHeader _ _) fun _ _ => calm_bind calm_get fun _ _ =>
      calm_bind (calm_propagate _) fun _ _ => calm_modify _

/-! ## After an error -/

theorem outcome_of_poisoned (hp : heap.allocator.poisoned = true) :
    ∃ e, (outcome (guarded b heap)).1 = some (.err e) := by
  rw [guarded_of_poisoned hp]
  exact ⟨_, rfl⟩

theorem poisoned_of_outcome {e : Abort} (he : (outcome (guarded b heap)).1 = some e) :
    (outcome (guarded b heap)).2.allocator.poisoned = true := by
  cases hc : guarded b heap with
  | ok =>
    rw [hc] at he
    cases he
  | error => exact guarded_eq_error hc

theorem Fails.poisoned (h : heap.Fails c) : (heap.next c).allocator.poisoned = true := by
  obtain ⟨e, he⟩ := h
  cases c with
  | allocate | deallocate => exact poisoned_of_outcome he

/-- After an error every call fails. -/
theorem Fails.each (h : heap.Fails c) (cs : List GuestCall) : Each next Fails (heap.next c) cs := by
  induction cs generalizing heap c with
  | nil => exact each_nil
  | cons d cs ih =>
    have hf : (heap.next c).Fails d := by
      cases d with
      | allocate | deallocate => exact outcome_of_poisoned h.poisoned
    exact each_cons.mpr ⟨hf, ih hf⟩

/-- A chunk is handed out and given back. The guest writes a link into its header, which two more
allocations follow. -/
def hostileRun : List GuestCall :=
  [.allocate id 8, .deallocate id 8,
    .allocate (fun mem => { mem with bytes := fun i => if i = 3 then 255 else 0 }) 8,
    .allocate id 8]

end Heap

end Allocator
