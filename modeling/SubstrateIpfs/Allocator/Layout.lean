-- SUMMARY: The chunks that an allocator run has handed out: every call keeps their layout.
import SubstrateIpfs.Allocator.FreeingBump
import SubstrateIpfs.Base.Run
import SubstrateIpfs.Base.Vec

/-!
# The layout of the heap

A run records the chunks that are live and those that were freed. `Tidy` says how these chunks are
laid out: side by side from the heap base to the bumper, the live ones under occupied headers, the
freed ones on the list of their order. The guest may write in the payloads of live chunks and grow
the memory between two calls.
-/

namespace Allocator

open List Header FreeLists Allocator.Order

open FreeingBumpHeapAllocator Segment

/-! ## Chunks -/

/-- A chunk: the pointer that was returned and the size that was asked for. -/
structure Chunk where
  pointer : UInt32
  requested : UInt32
  deriving DecidableEq

namespace Chunk

variable (c : Chunk)

/-- The address of the header, which lies right before the payload. -/
def header : UInt32 := c.pointer - headerSize

/-- The size of the payload: the request rounded up. -/
def size : Nat := Order.rounded c.requested.toNat

/-- The bytes of the chunk, its header included. -/
def extent : Segment := ⟨c.header.toNat, c.header.toNat + 8 + c.size, by omega⟩

/-- The bytes the guest may write to. -/
def Payload (address : Nat) : Prop := c.header.toNat + 8 ≤ address ∧ address < c.extent.stop

theorem requested_le_size : c.requested.toNat ≤ c.size :=
  (le_max_right 8 _).trans (Nat.le_pow_clog (by decide) _)

/-- The chunk that starts at a header. -/
theorem header_mk (p s : UInt32) : header ⟨p + headerSize, s⟩ = p := by simp [header]

end Chunk

/-! ## Runs -/

/-- The allocator and its memory, with the chunks that are live and those that were freed. -/
structure World where
  heap : Heap
  live : List Chunk
  freed : List Chunk

inductive Request where
  | allocate (size : UInt32)
  | deallocate (chunk : Chunk)

/-- What the guest does to the memory, and the call it then makes. -/
structure Event where
  guest : Memory → Memory
  request : Request

/-- A call of a guest that leaves the memory alone. -/
def Event.quiet (request : Request) : Event := ⟨id, request⟩

namespace World

/-- A new allocator on some memory. -/
def start (heapBase : UInt32) (mem : Memory) : World := ⟨⟨.new heapBase, mem⟩, [], []⟩

/-- The chunks that were cut from the memory. -/
def chunks (w : World) : List Chunk := w.live ++ w.freed

/-- The heap a call finds. -/
def entered (w : World) (e : Event) : Heap := ⟨w.heap.allocator, e.guest w.heap.mem⟩

/-- A call, and what its result says about the chunks. -/
def step (w : World) (e : Event) : World :=
  match e.request with
  | .allocate size =>
    match allocate size (w.entered e) with
    | .ok ptr heap => ⟨heap, ⟨ptr, size⟩ :: w.live, w.freed.filter fun c => c.pointer ≠ ptr⟩
    | .error _ heap => { w with heap := heap }
  | .deallocate chunk =>
    match deallocate chunk.pointer (w.entered e) with
    | .ok _ heap => ⟨heap, w.live.erase chunk, chunk :: w.freed⟩
    | .error _ heap => { w with heap := heap }

/-- The memory only grows, and of the bytes it had only payloads of live chunks changed. -/
structure GuestWrites (w : World) (mem : Memory) : Prop where
  grows : w.heap.mem.size.toNat ≤ mem.size.toNat
  keeps : ∀ x < w.heap.mem.size.toNat, (∀ c ∈ w.live, ¬ c.Payload x) →
    mem.bytes x = w.heap.mem.bytes x

/-- The guest keeps to its chunks and gives back only live ones. -/
structure Permitted (w : World) (e : Event) : Prop where
  guest : w.GuestWrites (e.guest w.heap.mem)
  live : ∀ c, e.request = .deallocate c → c ∈ w.live

end World

/-! ## The free lists in memory -/

/-- The links from `link` on lead through free headers, in this order, to the end. -/
inductive Chain (mem : Memory) : Link → List UInt32 → Prop
  | nil : Chain mem .nil []
  | cons {p : UInt32} {next : Link} {l : List UInt32}
      (free : readFrom mem p = .ok (.free next)) (tail : Chain mem next l) :
      Chain mem (.ptr p) (p :: l)

theorem Chain.frame {mem m' : Memory} {link : Link} {l : List UInt32} (h : Chain mem link l)
    (hr : ∀ p ∈ l, readFrom m' p = readFrom mem p) : Chain m' link l := by
  induction h with
  | nil => exact .nil
  | @cons p next l f _ ih =>
    refine .cons ((hr p (by simp)).trans f) (ih fun q hq => hr q ?_)
    exact mem_cons_of_mem p hq

/-- The chunks of an order. -/
def ofOrder (o : Order) (cs : List Chunk) : List Chunk := cs.filter fun c => c.size = o.size.toNat

theorem ofOrder_cons_self {o : Order} {c : Chunk} (h : c.size = o.size.toNat) (cs : List Chunk) :
    ofOrder o (c :: cs) = c :: ofOrder o cs := filter_cons_of_pos (by simpa using h)

theorem ofOrder_cons_of_ne {o o' : Order} {c : Chunk} (h : c.size = o.size.toNat) (hne : o' ≠ o)
    (cs : List Chunk) : ofOrder o' (c :: cs) = ofOrder o' cs := by
  refine filter_cons_of_neg ?_
  simp only [decide_eq_true_eq]
  exact fun heq => hne (size_injective (heq.symm.trans h))

theorem mem_of_mem_ofOrder {o : Order} {c : Chunk} {cs : List Chunk} (h : c ∈ ofOrder o cs) :
    c ∈ cs := mem_of_mem_filter h

/-- The links from `link` on lead through the headers of exactly these chunks. -/
def Listed (mem : Memory) (link : Link) (cs : List Chunk) : Prop :=
  ∃ l, Chain mem link l ∧ l.Perm (cs.map Chunk.header)

variable {p : UInt32} {heap : Heap}

namespace Listed

variable {mem mem' : Memory} {link : Link} {cs cs' : List Chunk}

theorem empty : Listed mem .nil [] := ⟨[], .nil, .nil⟩

theorem perm (h : Listed mem link cs) (hp : cs.Perm cs') : Listed mem link cs' := by
  obtain ⟨l, hl, hpe⟩ := h
  exact ⟨l, hl, hpe.trans (hp.map _)⟩

theorem frame (h : Listed mem link cs)
    (hr : ∀ c ∈ cs, readFrom mem' c.header = readFrom mem c.header) :
    Listed mem' link cs := by
  obtain ⟨l, hl, hpe⟩ := h
  refine ⟨l, hl.frame fun p hp => ?_, hpe⟩
  obtain ⟨c, hc, rfl⟩ := mem_map.mp (hpe.mem_iff.mp hp)
  exact hr c hc

theorem push (h : Listed mem link cs) {c : Chunk} (hc : readFrom mem c.header = .ok (.free link)) :
    Listed mem (.ptr c.header) (c :: cs) := by
  obtain ⟨l, hl, hp⟩ := h
  exact ⟨c.header :: l, .cons hc hl, hp.cons _⟩

/-- The first link leads to one of the chunks. -/
theorem head_mem (h : Listed mem (.ptr p) cs) : ∃ c ∈ cs, c.header = p := by
  obtain ⟨l, hl, hp⟩ := h
  cases hl with
  | cons free tail => exact mem_map.mp (hp.mem_iff.mp mem_cons_self)

theorem pop {c : Chunk} (h : Listed mem (.ptr c.header) (c :: cs))
    (hr : readFrom mem c.header = .ok (.free link)) : Listed mem link cs := by
  obtain ⟨l, hl, hp⟩ := h
  cases hl with
  | cons f tail =>
    rw [hr] at f
    cases f
    exact ⟨_, tail, List.Perm.cons_inv hp⟩

end Listed

/-- Each list leads through the freed chunks of its order. -/
def AllListed (mem : Memory) (lists : FreeLists) (freed : List Chunk) : Prop :=
  ∀ o, Listed mem (lists.heads o) (ofOrder o freed)

namespace AllListed

variable {mem mem' : Memory} {ls : FreeLists} {f r : List Chunk} {c : Chunk} {o : Order}

section
variable (h : AllListed mem ls f)

include h

theorem frame (hr : ∀ c ∈ f, readFrom mem' c.header = readFrom mem c.header) :
    AllListed mem' ls f := fun o =>
  (h o).frame fun c hc => hr c (mem_of_mem_ofOrder hc)

theorem push (hc : c.size = o.size.toNat) (hr : readFrom mem c.header = .ok (.free (ls.heads o))) :
    AllListed mem (ls.set o (.ptr c.header)) (c :: f) := by
  intro o'
  by_cases hoo : o' = o
  · subst hoo
    rw [heads_set_self, ofOrder_cons_self hc]
    exact (h o').push hr
  · rw [heads_set_of_ne _ _ hoo, ofOrder_cons_of_ne hc hoo]
    exact h o'

theorem pop {next : Link} (hp : f.Perm (c :: r)) (hc : c.size = o.size.toNat)
    (hh : ls.heads o = .ptr c.header) (hr : readFrom mem c.header = .ok (.free next)) :
    AllListed mem (ls.set o next) r := by
  intro o'
  have hl := (h o').perm (hp.filter _)
  change Listed _ _ (ofOrder o' (c :: r)) at hl
  by_cases hoo : o' = o
  · subst hoo
    rw [hh, ofOrder_cons_self hc] at hl
    rw [heads_set_self]
    exact hl.pop hr
  · rw [heads_set_of_ne _ _ hoo]
    rwa [ofOrder_cons_of_ne hc hoo] at hl

end

end AllListed

/-! ## Chunks side by side -/

/-- The chunks lie side by side from the heap base to the bumper, inside of the memory. -/
structure Laid (base bumper size : UInt32) (cs : List Chunk) : Prop where
  tiles : Tiles base.toNat (cs.map Chunk.extent) bumper.toNat
  aligned : 8 ∣ bumper.toNat
  chunk_aligned : ∀ c ∈ cs, 8 ∣ c.header.toNat
  inside : ∀ c ∈ cs, c.extent.stop ≤ size.toNat
  accepted : ∀ c ∈ cs, ∃ o, Order.fromSize c.requested = .ok o

namespace Laid

variable {base b size : UInt32} {cs cs' : List Chunk} {c d : Chunk}

theorem perm (h : Laid base b size cs) (hp : cs.Perm cs') : Laid base b size cs' where
  tiles := h.tiles.perm (hp.map _)
  aligned := h.aligned
  chunk_aligned c hc := h.chunk_aligned c (hp.mem_iff.mpr hc)
  inside c hc := h.inside c (hp.mem_iff.mpr hc)
  accepted c hc := h.accepted c (hp.mem_iff.mpr hc)

theorem grow {s' : UInt32} (h : Laid base b size cs) (hs : size.toNat ≤ s'.toNat) :
    Laid base b s' cs :=
  { h with inside := fun c hc => (h.inside c hc).trans hs }

/-- Another chunk takes the place of one. -/
theorem replace (h : Laid base b size (c :: cs)) (hhd : d.header = c.header)
    (hs : d.size = c.size) (hd : ∃ o, fromSize d.requested = .ok o) :
    Laid base b size (d :: cs) := by
  have hext : d.extent = c.extent := by simp only [Chunk.extent, hhd, hs]
  refine ⟨?_, h.aligned, ?_, ?_, ?_⟩
  · rw [map_cons, hext]
    exact h.tiles
  · exact forall_mem_cons.mpr ⟨hhd ▸ h.chunk_aligned c mem_cons_self,
      fun x hx => h.chunk_aligned x (mem_cons_of_mem c hx)⟩
  · exact forall_mem_cons.mpr ⟨hext ▸ h.inside c mem_cons_self,
      fun x hx => h.inside x (mem_cons_of_mem c hx)⟩
  · exact forall_mem_cons.mpr ⟨hd, fun x hx => h.accepted x (mem_cons_of_mem c hx)⟩

section
variable (h : Laid base b size cs)

include h

/-- A chunk is cut off at the bumper. -/
theorem cut {b' : UInt32} (hhd : c.header = b)
    (hc : ∃ o, fromSize c.requested = .ok o) (hs : b'.toNat = c.extent.stop)
    (hin : b'.toNat ≤ size.toNat) : Laid base b' size (c :: cs) := by
  obtain ⟨o, ho⟩ := hc
  have hsize : c.size = o.size.toNat := (size_of_fromSize ho).symm
  refine ⟨?_, ?_, ?_, ?_, ?_⟩
  · rw [hs]
    exact h.tiles.cons (congrArg UInt32.toNat hhd)
  · have h1 := h.aligned
    have h2 := o.eight_dvd_size
    simp only [Chunk.extent, hhd] at hs
    omega
  · exact forall_mem_cons.mpr ⟨hhd ▸ h.aligned, h.chunk_aligned⟩
  · exact forall_mem_cons.mpr ⟨hs ▸ hin, h.inside⟩
  · exact forall_mem_cons.mpr ⟨⟨o, ho⟩, h.accepted⟩

theorem apart : cs.Pairwise fun c d => c.extent.Apart d.extent := pairwise_map.mp h.tiles.pairwise

/-- Different chunks do not overlap. -/
theorem extent_apart (hc : c ∈ cs) (hd : d ∈ cs) (hne : c ≠ d) : c.extent.Apart d.extent := by
  have : Std.Symm fun c d : Chunk => c.extent.Apart d.extent := ⟨fun _ _ hcd => hcd.symm⟩
  exact h.apart.forall hc hd hne

theorem nodup_headers : (cs.map Chunk.header).Nodup := by
  refine pairwise_map.mpr (h.apart.imp fun {c d} hcd heq => ?_)
  simp only [Apart, Chunk.extent, heq] at hcd
  omega

theorem nodup_pointers : (cs.map Chunk.pointer).Nodup := by
  have hn := h.nodup_headers
  rw [show cs.map Chunk.header = (cs.map Chunk.pointer).map (· - headerSize) by
    rw [map_map]; rfl] at hn
  exact hn.of_map

theorem header_inside (hc : c ∈ cs) : c.header.toNat + 8 ≤ size.toNat := by
  have := h.inside c hc
  simp only [Chunk.extent] at this
  omega

/-- The pointer of a chunk lies right after its header. -/
theorem toNat_pointer (hc : c ∈ cs) : c.pointer.toNat = c.header.toNat + 8 := by
  have hin := h.header_inside hc
  have hlt := size.toNat_lt
  have hp : c.pointer = c.header + headerSize := by simp [Chunk.header]
  have h8 : headerSize.toNat = 8 := rfl
  rw [hp, UInt32.toNat_add]
  omega

end

/-- Writing the header of one chunk leaves the headers of the others. -/
theorem readFrom_write {mem m' : Memory} (h : Laid base b mem.size (c :: cs)) (hd : d ∈ cs)
    {hdr : Header} (hw : hdr.writeInto mem c.header = .ok m') :
    readFrom m' d.header = readFrom mem d.header := by
  have hmem : d ∈ c :: cs := mem_cons_of_mem c hd
  have hcd := (pairwise_cons.mp h.apart).1 d hd
  simp only [Apart, Chunk.extent] at hcd
  obtain ⟨-, rfl⟩ := writeInto_eq_ok hw
  have hlen := Scale.length_leBytes 8 hdr.rawHeader.toNat
  exact readFrom_congr (h.header_inside hmem) le_rfl fun x _ _ => Bytes.splice_of_apart (by omega)

/-- The lengths of the chunks add up to what was cut. -/
theorem sum_eq (h : Laid base b size cs) :
    base.toNat + (cs.map fun c => c.size + 8).sum = b.toNat := by
  have hsum := h.tiles.sum
  have hlen : (fun s => s.stop - s.start) ∘ Chunk.extent = fun c => c.size + 8 := by
    funext c
    simp only [Function.comp, Chunk.extent]
    omega
  rwa [map_map, hlen] at hsum

end Laid

/-! ## The layout -/

namespace World

/-- How the chunks are laid out and recorded. -/
structure Tidy (w : World) : Prop where
  laid : Laid w.heap.allocator.originalHeapBase w.heap.allocator.bumper w.heap.mem.size w.chunks
  occupied : ∀ c ∈ w.live, ∀ o, Order.fromSize c.requested = .ok o →
    readFrom w.heap.mem c.header = .ok (.occupied o)
  listed : AllListed w.heap.mem w.heap.allocator.freeLists w.freed
  counted : w.heap.allocator.stats.bytesAllocated.toNat = (w.live.map fun c => c.size + 8).sum
  observed : w.heap.allocator.lastObservedMemorySize.toNat ≤ w.heap.mem.size.toNat

variable {w : World} {c : Chunk} {mem : Memory} {o : Order}

theorem mem_chunks_of_live (h : c ∈ w.live) : c ∈ w.chunks := mem_append_left _ h

theorem mem_chunks_of_freed (h : c ∈ w.freed) : c ∈ w.chunks := mem_append_right _ h

theorem tidy_start (b : UInt32) (mem : Memory) : (start b mem).Tidy where
  laid := {
    tiles := tiles_nil
    aligned := eight_dvd_alignedHeapBase b
    chunk_aligned := fun _ h => by cases h
    inside := fun _ h => by cases h
    accepted := fun _ h => by cases h }
  occupied _ h := by cases h
  listed _ := .empty
  counted := rfl
  observed := Nat.zero_le _

namespace Tidy

/-- What the guest is permitted to do leaves every header. -/
theorem readFrom_guest (h : w.Tidy) (hg : w.GuestWrites mem) (hc : c ∈ w.chunks) :
    readFrom mem c.header = readFrom w.heap.mem c.header := by
  have hin := h.laid.header_inside hc
  refine readFrom_congr hin hg.grows fun x hx hx' => hg.keeps x (by omega) fun d hd => ?_
  -- the header of a chunk is outside of every payload
  rintro ⟨h1, h2⟩
  by_cases hcd : c = d
  · subst hcd
    omega
  · have := h.laid.extent_apart hc (mem_chunks_of_live hd) hcd
    simp only [Apart, Chunk.extent] at this h2
    omega

/-- The layout survives what the guest does. -/
theorem guest (h : w.Tidy) (hg : w.GuestWrites mem) : Tidy { w with heap.mem := mem } where
  laid := h.laid.grow hg.grows
  occupied c hc o ho := (h.readFrom_guest hg (mem_chunks_of_live hc)).trans (h.occupied c hc o ho)
  listed := h.listed.frame fun _ hc => h.readFrom_guest hg (mem_chunks_of_freed hc)
  counted := h.counted
  observed := h.observed.trans hg.grows

/-- A chunk joins the live ones once its header says that it is occupied. -/
theorem allocated (h : w.Tidy) {s b : UInt32} {ls : FreeLists} {r : List Chunk}
    (hs : fromSize s = .ok o) (hl : Laid w.heap.allocator.originalHeapBase b w.heap.mem.size
      (⟨p + headerSize, s⟩ :: (w.live ++ r))) (hli : AllListed w.heap.mem ls r)
    (hwr : (Header.occupied o).writeInto w.heap.mem p = .ok mem) :
    Tidy ⟨⟨w.heap.allocator.afterAllocation w.heap.mem.size o ls b, mem⟩,
      ⟨p + headerSize, s⟩ :: w.live, r⟩ := by
  have hmem : mem.size = w.heap.mem.size := size_writeInto hwr
  rw [← Chunk.header_mk p s] at hwr
  refine ⟨?_, ?_, ?_, ?_, ?_⟩
  · rw [hmem]
    exact hl
  · refine forall_mem_cons.mpr ⟨fun o' ho' => ?_, fun d hd o' ho' => ?_⟩
    · cases hs.symm.trans ho'
      exact readFrom_writeInto trivial hwr
    · rw [hl.readFrom_write (mem_append_left _ hd) hwr]
      exact h.occupied d hd o' ho'
  · exact hli.frame fun d hd => hl.readFrom_write (mem_append_right _ hd) hwr
  · -- the count does not overflow
    have hsum := hl.sum_eq
    have hlt := b.toNat_lt
    have h8 : headerSize.toNat = 8 := rfl
    have hcnt := h.counted
    have ho : o.size.toNat = (⟨p + headerSize, s⟩ : Chunk).size := size_of_fromSize hs
    simp only [map_cons, map_append, sum_cons, sum_append] at hsum ⊢
    change (_ + (o.size + headerSize)).toNat = _
    rw [UInt32.toNat_add, UInt32.toNat_add, hcnt]
    omega
  · exact le_of_eq (congrArg UInt32.toNat hmem.symm)

/-- The chunk at the head of the free list is handed out again. -/
theorem reuse (h : w.Tidy) {s : UInt32} {next : Link} (hs : fromSize s = .ok o)
    (hh : w.heap.allocator.freeLists.heads o = .ptr p)
    (hr : readFrom w.heap.mem p = .ok (.free next))
    (hwr : (Header.occupied o).writeInto w.heap.mem p = .ok mem) :
    Tidy ⟨⟨w.heap.allocator.afterAllocation w.heap.mem.size o
        (w.heap.allocator.freeLists.set o next) w.heap.allocator.bumper, mem⟩,
      ⟨p + headerSize, s⟩ :: w.live, w.freed.filter fun c => c.pointer ≠ p + headerSize⟩ := by
  have hl := h.listed o
  rw [hh] at hl
  obtain ⟨c, hc, rfl⟩ := hl.head_mem
  have hcf : c ∈ w.freed := mem_of_mem_ofOrder hc
  have hcsz : c.size = o.size.toNat := by simpa [ofOrder, hcf] using hc
  have hp : c.header + headerSize = c.pointer := by simp [Chunk.header]
  have hnd : (w.freed.map Chunk.pointer).Nodup := by
    have := h.laid.nodup_pointers
    rw [chunks, map_append] at this
    exact this.of_append_right
  -- `c` leaves the freed chunks, the others stay
  have hfrd := Vec.perm_cons_filter_key hnd hcf
  rw [← hp] at hfrd
  have hla := h.laid.perm ((hfrd.append_left w.live).trans perm_middle)
  have hns : Chunk.size ⟨c.header + headerSize, s⟩ = c.size :=
    (size_of_fromSize hs).symm.trans hcsz.symm
  exact h.allocated hs (hla.replace (Chunk.header_mk c.header s) hns ⟨o, hs⟩)
    (h.listed.pop hfrd hcsz hh hr) hwr

/-- A new chunk is cut off at the bumper. -/
theorem bump (h : w.Tidy) {s : UInt32} (hs : fromSize s = .ok o)
    (hf : ¬ w.heap.allocator.bumper + (o.size + headerSize) > w.heap.mem.size)
    (hwrap : w.heap.allocator.bumper.toNat + o.size.toNat + 8 < 2 ^ 32)
    (hwr : (Header.occupied o).writeInto w.heap.mem w.heap.allocator.bumper = .ok mem) :
    Tidy ⟨⟨w.heap.allocator.afterAllocation w.heap.mem.size o w.heap.allocator.freeLists
        (w.heap.allocator.bumper + (o.size + headerSize)), mem⟩,
      ⟨w.heap.allocator.bumper + headerSize, s⟩ :: w.live,
      w.freed.filter fun c => c.pointer ≠ w.heap.allocator.bumper + headerSize⟩ := by
  have hhd := Chunk.header_mk w.heap.allocator.bumper s
  have hns : Chunk.size ⟨w.heap.allocator.bumper + headerSize, s⟩ = o.size.toNat :=
    (size_of_fromSize hs).symm
  have hb : (w.heap.allocator.bumper + (o.size + headerSize)).toNat =
      w.heap.allocator.bumper.toNat + 8 + o.size.toNat := by
    have h8 : headerSize.toNat = 8 := rfl
    rw [UInt32.toNat_add, UInt32.toNat_add]
    omega
  have hl : Laid w.heap.allocator.originalHeapBase
      (w.heap.allocator.bumper + (o.size + headerSize)) w.heap.mem.size
      (⟨w.heap.allocator.bumper + headerSize, s⟩ :: w.chunks) := by
    refine h.laid.cut hhd ⟨o, hs⟩ ?_ ?_
    · simp only [Chunk.extent, hhd, hns, hb]
    · rwa [gt_iff_lt, UInt32.lt_iff_toNat_lt, not_lt] at hf
  -- no freed chunk starts at the bumper
  have hfrd : w.freed.filter
      (fun c => c.pointer ≠ w.heap.allocator.bumper + headerSize) = w.freed := by
    refine filter_eq_self.mpr fun c hc => decide_eq_true fun heq => ?_
    have hnd := hl.nodup_pointers
    rw [map_cons, nodup_cons] at hnd
    exact hnd.1 (mem_map.mpr ⟨c, mem_chunks_of_freed hc, heq⟩)
  rw [hfrd]
  exact h.allocated hs hl h.listed hwr

/-- The links of the free lists are told apart from their ends. -/
theorem wellLinked (h : w.Tidy) (o : Order) :
    (free (w.heap.allocator.freeLists.heads o)).WellLinked := by
  have hl := h.listed o
  cases hh : w.heap.allocator.freeLists.heads o with
  | nil => trivial
  | ptr p =>
    rw [hh] at hl
    obtain ⟨c, hc, rfl⟩ := hl.head_mem
    intro heq
    have hal := h.laid.chunk_aligned c (mem_chunks_of_freed (mem_of_mem_ofOrder hc))
    rw [heq] at hal
    revert hal
    decide

/-- A live chunk is given back: the call succeeds, and the chunk is freed. -/
theorem deallocate (h : w.Tidy) (hp : w.heap.allocator.poisoned = false) (hc : c ∈ w.live) :
    ∃ heap, deallocate c.pointer w.heap = .ok () heap ∧
      heap.allocator.poisoned = false ∧ Tidy ⟨heap, w.live.erase c, c :: w.freed⟩ := by
  obtain ⟨o, ho⟩ := h.laid.accepted c (mem_chunks_of_live hc)
  have hcsz : c.size = o.size.toNat := (size_of_fromSize ho).symm
  have hin := h.laid.header_inside (mem_chunks_of_live hc)
  have hli : w.live.Perm (c :: w.live.erase c) := perm_cons_erase hc
  have hl := h.laid.perm (hli.append_right w.freed)
  have hsum : (w.live.map fun c => c.size + 8).sum =
      c.size + 8 + ((w.live.erase c).map fun c => c.size + 8).sum := by
    rw [(hli.map _).sum_eq, map_cons, sum_cons]
  have h8 : headerSize.toNat = 8 := rfl
  have hlen : (o.size + headerSize).toNat = c.size + 8 := by
    have := o.size_le
    rw [UInt32.toNat_add]
    omega
  have hptr : headerSize ≤ c.pointer := by
    rw [UInt32.le_iff_toNat_le, h.laid.toNat_pointer (mem_chunks_of_live hc)]
    omega
  have hby : o.size + headerSize ≤ w.heap.allocator.stats.bytesAllocated := by
    rw [UInt32.le_iff_toNat_le, h.counted]
    omega
  have hob : ¬ w.heap.mem.size < w.heap.allocator.lastObservedMemorySize := by
    rw [UInt32.lt_iff_toNat_lt, not_lt]
    exact h.observed
  obtain ⟨mem, hwr⟩ := writeInto_of_le hin
  have hmem : mem.size = w.heap.mem.size := size_writeInto hwr
  refine ⟨_, deallocate_of_occupied hp hob hptr (h.occupied c hc o ho) hwr hby, hp, ?_⟩
  refine ⟨?_, fun d hd o' ho' => ?_, ?_, ?_, ?_⟩
  · rw [hmem]
    exact hl.perm perm_middle.symm
  · rw [hl.readFrom_write (mem_append_left _ hd) hwr]
    exact h.occupied d (mem_of_mem_erase hd) o' ho'
  · refine AllListed.push (h.listed.frame fun d hd => ?_) hcsz ?_
    · exact hl.readFrom_write (mem_append_right _ hd) hwr
    · exact readFrom_writeInto (h.wellLinked o) hwr
  · change (w.heap.allocator.stats.bytesAllocated - (o.size + headerSize)).toNat =
      ((w.live.erase c).map fun c => c.size + 8).sum
    rw [UInt32.toNat_sub_of_le _ _ hby, hlen, h.counted, hsum, Nat.add_sub_cancel_left]
  · exact le_of_eq (congrArg UInt32.toNat hmem.symm)

end Tidy

/-! ## Steps -/

variable {e : Event}

theorem step_allocate_ok {s ptr : UInt32} (he : e.request = .allocate s)
    (h : allocate s (w.entered e) = .ok ptr heap) :
    w.step e = ⟨heap, ⟨ptr, s⟩ :: w.live, w.freed.filter fun c => c.pointer ≠ ptr⟩ := by
  simp only [step, he, h]

theorem step_allocate_error {s : UInt32} {a : Abort} (he : e.request = .allocate s)
    (h : allocate s (w.entered e) = .error a heap) : w.step e = { w with heap := heap } := by
  simp only [step, he, h]

theorem step_deallocate_ok (he : e.request = .deallocate c)
    (h : deallocate c.pointer (w.entered e) = .ok () heap) :
    w.step e = ⟨heap, w.live.erase c, c :: w.freed⟩ := by
  simp only [step, he, h]

/-- An allocator that was poisoned serves nothing. -/
theorem step_of_poisoned (h : w.heap.allocator.poisoned = true) :
    w.step e = { w with heap := w.entered e } := by
  cases hr : e.request with
  | allocate size => exact step_allocate_error hr (guarded_of_poisoned h)
  | deallocate c =>
    have hc : deallocate c.pointer (w.entered e) = _ := guarded_of_poisoned h
    simp only [step, hr, hc]

/-- A chunk that is cut off ends within the address space. -/
def BumpFits (w : World) (e : Event) : Prop :=
  ∀ size ptr heap o, e.request = .allocate size → allocate size (w.entered e) = .ok ptr heap →
    Order.fromSize size = .ok o → w.heap.allocator.freeLists.heads o = .nil →
    w.heap.allocator.bumper.toNat + o.size.toNat + 8 < 2 ^ 32

/-- A step keeps the layout unless it poisons the allocator. -/
theorem Tidy.step (h : w.Tidy) (he : w.Permitted e) (hf : w.BumpFits e) :
    (w.step e).heap.allocator.poisoned = true ∨ (w.step e).Tidy := by
  cases hp : w.heap.allocator.poisoned with
  | true =>
    rw [step_of_poisoned hp]
    exact .inl hp
  | false =>
    have hgst := h.guest he.guest
    cases hr : e.request with
    | deallocate c =>
      obtain ⟨heap, hc, -, ht⟩ := hgst.deallocate hp (he.live c hr)
      rw [step_deallocate_ok hr hc]
      exact .inr ht
    | allocate s =>
      cases hc : allocate s (w.entered e) with
      | error a heap =>
        rw [step_allocate_error hr hc]
        exact .inl (guarded_eq_error hc)
      | ok ptr heap =>
        rw [step_allocate_ok hr hc]
        obtain ⟨-, o, p, lists, bumper, mem, hs, hse, hwr, rfl, rfl⟩ := allocate_eq_ok hc
        refine .inr ?_
        cases hse with
        | reused head link => exact hgst.reuse hs head link hwr
        | bumped head fits =>
          exact hgst.bump hs fits (hf s _ _ o hr hc hs head) hwr

/-- No step moves the heap base or changes the size of the memory the guest gave. -/
theorem frame_step (w : World) (e : Event) : Frame (w.entered e) (w.step e).heap := by
  unfold step
  cases e.request with
  | allocate s =>
    have h := framed_allocate s (w.entered e)
    dsimp only
    split
    next hc => rwa [hc] at h
    next hc => rwa [hc] at h
  | deallocate c =>
    have h := framed_deallocate c.pointer (w.entered e)
    dsimp only
    split
    next hc => rwa [hc] at h
    next hc => rwa [hc] at h

end World

end Allocator
