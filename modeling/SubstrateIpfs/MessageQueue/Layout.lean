-- SUMMARY: The layout of a page: the items a heap stands for, and what every accessor does to them.
import SubstrateIpfs.MessageQueue.Page

/-!
# Layout of a page

A page stands for a list of items, each a message and a flag. The heap is the
items back to back, `first` and `last` are offsets of items, and the counters of
the page are those of its unprocessed items. Every accessor is described by what
it reads from the list or does to it.
-/

namespace MessageQueue

open List Records Scale ItemHeader Nat Sizing

variable {c : Sizing}

/-! ## Headers -/

namespace ItemHeader

variable {h : ItemHeader} {r : List UInt8}

@[simp] theorem length_encode : (h.encode c).length = c.headerLen := by
  simp [encode, headerLen]

theorem decode_encode_append (hlen : h.payloadLen ≤ c.max) :
    decode c (h.encode c ++ r) = some (h, r) := by
  have hpos : 0 < 256 ^ c.width := Nat.pow_pos (by decide)
  have hr : readLe c.width (h.encode c ++ r) =
      some (h.payloadLen, (if h.isProcessed then 1 else 0) :: r) := by
    refine readLe_eq_some.mpr ⟨?_, by simp [encode]⟩
    unfold Sizing.max at hlen
    omega
  unfold decode
  rw [hr]
  obtain ⟨n, b⟩ := h
  cases b <;> rfl

theorem length_of_decode {bs : List UInt8} (hdec : decode c bs = some (h, r)) :
    bs.length = c.headerLen + r.length := by
  unfold decode at hdec
  split at hdec
  · cases hdec
  · cases hdec
  rename_i n b r' hre
  have hbs := (readLe_eq_some.mp hre).2
  have hr : r' = r := by
    split at hdec
    · cases hdec; rfl
    · split at hdec
      · cases hdec; rfl
      · cases hdec
  subst hr
  rw [hbs, length_append, length_leBytes, length_cons, headerLen]
  omega

@[simp] theorem decode_nil : decode c [] = none := by
  cases hdec : decode c [] with
  | none => rfl
  | some r =>
    have hlen := length_of_decode (show decode c [] = some (r.1, r.2) from hdec)
    have hpos := c.headerLen_pos
    rw [length_nil] at hlen
    omega

end ItemHeader

/-! ## Items -/

/-- A message in a page and its flag. -/
structure Item where
  payload : List UInt8
  isProcessed : Bool
  deriving DecidableEq

namespace Item

/-- The header and the message. -/
def encode (c : Sizing) (it : Item) : List UInt8 :=
  ItemHeader.encode c ⟨it.payload.length, it.isProcessed⟩ ++ it.payload

/-- The item after an attempt to process it. -/
def mark (it : Item) (isProcessed : Bool) : Item := ⟨it.payload, it.isProcessed || isProcessed⟩

@[simp] theorem length_encode {it : Item} :
    (it.encode c).length = c.headerLen + it.payload.length := by
  simp [encode]

theorem encode_ne_nil (it : Item) : it.encode c ≠ [] := by
  intro h
  have hlen := congrArg length h
  have hpos := c.headerLen_pos
  rw [length_encode, length_nil] at hlen
  omega

@[simp] theorem mark_false {it : Item} : it.mark false = it := by simp [mark]

end Item

/-- The number of items that are not flagged. -/
def unprocessed (items : List Item) : Nat := items.countP fun it => !it.isProcessed

/-- The total length of the messages of the items that are not flagged. -/
def unprocessedSize (items : List Item) : Nat :=
  ((items.filter fun it => !it.isProcessed).map fun it => it.payload.length).sum

variable {l : List Item} {l' : List Item} {pos : Nat} {hd : ItemHeader}

theorem unprocessed_append : unprocessed (l ++ l') = unprocessed l + unprocessed l' := countP_append

theorem unprocessedSize_append :
    unprocessedSize (l ++ l') = unprocessedSize l + unprocessedSize l' := by
  simp [unprocessedSize]

/-- The messages that are not flagged are in the layout. -/
theorem unprocessedSize_le : unprocessedSize l ≤ (layout (Item.encode c) l).length := by
  induction l with
  | nil => exact le_refl 0
  | cons it l ih =>
    have hc : unprocessedSize ([it] ++ l) = unprocessedSize [it] + unprocessedSize l :=
      unprocessedSize_append
    have hone : unprocessedSize [it] ≤ it.payload.length := by
      unfold unprocessedSize
      cases hit : it.isProcessed <;> simp [hit]
    rw [singleton_append] at hc
    rw [layout_cons, length_append, Item.length_encode]
    omega

/-- Flagging an item that was not flagged takes it from the counts. -/
theorem unprocessed_set_mark {i : Nat} {it : Item} (h : l[i]? = some it)
    (hit : it.isProcessed = false) :
    unprocessed l = unprocessed (l.set i (it.mark true)) + 1 ∧
      unprocessedSize l = unprocessedSize (l.set i (it.mark true)) + it.payload.length := by
  obtain ⟨hi, hget⟩ := List.getElem?_eq_some_iff.mp h
  have hspl : l = l.take i ++ it :: l.drop (i + 1) := by
    rw [← hget, getElem_cons_drop, take_append_drop]
  rw [set_eq_take_append_cons_drop, if_pos hi]
  have hone : unprocessed [it] = 1 ∧ unprocessed [it.mark true] = 0 ∧
      unprocessedSize [it] = it.payload.length ∧ unprocessedSize [it.mark true] = 0 := by
    simp [unprocessed, unprocessedSize, Item.mark, hit]
  constructor
  · conv_lhs => rw [hspl]
    rw [← singleton_append, unprocessed_append, unprocessed_append,
      ← singleton_append (x := it.mark true), unprocessed_append, unprocessed_append]
    omega
  · conv_lhs => rw [hspl]
    rw [← singleton_append, unprocessedSize_append, unprocessedSize_append,
      ← singleton_append (x := it.mark true), unprocessedSize_append, unprocessedSize_append]
    omega

namespace Page

/-- The items of a page, as `peekIndex` finds them. -/
def items (p : Page c) : List Item :=
  (List.range p.heap.length).filterMap fun i => (p.peekIndex i).map fun r => ⟨r.2.2, r.2.1⟩

/-- The page stands for the items. -/
structure Holds (p : Page c) (items : List Item) : Prop where
  heap : p.heap = layout (Item.encode c) items
  nonempty : items ≠ []
  firstIndex_le : p.firstIndex ≤ items.length
  first : p.first = offset (Item.encode c) items p.firstIndex
  last : p.last = offset (Item.encode c) items (items.length - 1)
  remaining : p.remaining = unprocessed items
  remainingSize : p.remainingSize = unprocessedSize items

variable {p p' : Page c} {its : List Item} {it : Item} {i : Nat} {m : List UInt8}

/-! ## Reading -/

theorem peekFrom_layout (pos : Nat) (hlen : ∀ it ∈ its, it.payload.length ≤ c.max) :
    peekFrom c i pos (layout (Item.encode c) its) =
      its[i]?.map fun it =>
        (pos + offset (Item.encode c) its i, it.isProcessed, it.payload) := by
  induction i generalizing its pos with
  | zero =>
    cases its with
    | nil => simp [peekFrom]
    | cons it its =>
      unfold peekFrom
      rw [layout_cons, Item.encode, append_assoc,
        ItemHeader.decode_encode_append (hlen it mem_cons_self)]
      simp
  | succ i ih =>
    cases its with
    | nil => unfold peekFrom; simp
    | cons it its =>
      unfold peekFrom
      rw [layout_cons, Item.encode, append_assoc,
        ItemHeader.decode_encode_append (hlen it mem_cons_self)]
      have hr := ih (pos + (c.headerLen + it.payload.length))
        fun it' h => hlen it' (mem_cons_of_mem _ h)
      simp only [length_append, not_lt.mpr (le_add_right _ _), if_false,
        drop_left, hr, getElem?_cons_succ, offset_cons_succ,
        Item.length_encode, add_assoc]

/-- Skipping a message that can be read moves `first` on, in whatever state the page is. -/
theorem first_lt_skipFirst (hp : p.peekFirst = some m) (b : Bool) :
    (p.skipFirst b).heap.length - (p.skipFirst b).first < p.heap.length - p.first := by
  unfold peekFirst at hp
  split at hp
  · cases hp
  dsimp only at hp
  split at hp
  · cases hp
  rename_i hd slice hdec
  have hlen := length_of_decode hdec
  have hpos := c.headerLen_pos
  have hheap := p.heap_le
  have hmax := c.heapSize_le_max
  rw [length_drop] at hlen
  unfold skipFirst
  dsimp only
  rw [hdec]
  dsimp only
  have hmark : (if b then p.markProcessed (min p.first p.heap.length) hd
      else p).heap.length = p.heap.length := by
    split
    · unfold markProcessed
      split
      · rfl
      · exact length_overwrite
    · rfl
  unfold add
  omega

section
variable (h : p.Holds its)

include h

/-- Every offset is within the heap, and so is every message. -/
theorem Holds.offset_add_le (hit : its[i]? = some it) :
    offset (Item.encode c) its i + (c.headerLen + it.payload.length) ≤ p.heap.length := by
  have hle : offset (Item.encode c) its i + (it.encode c).length ≤ _ := Records.offset_add_le hit
  rwa [Item.length_encode, ← h.heap] at hle

theorem Holds.payload_le (hit : it ∈ its) : it.payload.length ≤ c.max := by
  obtain ⟨i, hi⟩ := mem_iff_getElem?.mp hit
  have hle := h.offset_add_le hi
  have hheap := p.heap_le
  have hmax := c.heapSize_le_max
  omega

theorem Holds.peekIndex (i : Nat) : p.peekIndex i = its[i]?.map fun it =>
      (offset (Item.encode c) its i, it.isProcessed, it.payload) := by
  rw [Page.peekIndex, h.heap, peekFrom_layout 0 fun it hit => h.payload_le hit]
  simp only [zero_add]

theorem Holds.items_eq : p.items = its := by
  have hlen : its.length ≤ p.heap.length := by
    rw [h.heap]
    exact length_le_layout Item.encode_ne_nil
  have hr : (fun i => (p.peekIndex i).map fun r => (⟨r.2.2, r.2.1⟩)) = fun i => its[i]? := by
    funext i
    rw [h.peekIndex, Option.map_map]
    exact Option.map_id'
  rw [Page.items, hr]
  exact filterMap_getElem?_range hlen

/-- What is parsed at the offset of an item. -/
theorem Holds.decode (hit : its[i]? = some it) :
    decode c (p.heap.drop (offset (Item.encode c) its i)) =
      some (⟨it.payload.length, it.isProcessed⟩,
        it.payload ++ layout (Item.encode c) (its.drop (i + 1))) := by
  rw [h.heap, drop_offset, layout_drop hit, Item.encode, append_assoc]
  exact decode_encode_append (h.payload_le (mem_of_getElem? hit))

theorem Holds.first_le : p.first ≤ p.heap.length := by
  rw [h.first, h.heap]
  exact offset_le

/-- `first` is behind the last item when every item has been visited. -/
theorem Holds.last_lt_first : p.last < p.first ↔ p.firstIndex = its.length := by
  have hpos := length_pos_of_ne_nil h.nonempty
  have hle := h.firstIndex_le
  rw [h.first, h.last]
  constructor
  · intro hlt
    by_contra hne
    have hmono : offset (Item.encode c) its p.firstIndex ≤ _ :=
      offset_mono (show p.firstIndex ≤ its.length - 1 by omega)
    omega
  · intro heq
    exact offset_lt Item.encode_ne_nil (by omega) (by omega)

theorem Holds.peekFirst : p.peekFirst = its[p.firstIndex]?.map (·.payload) := by
  unfold Page.peekFirst
  rw [min_eq_left h.first_le]
  split
  next hlt =>
    rw [h.last_lt_first.mp hlt, getElem?_eq_none (le_refl _)]
    rfl
  rename_i hlt
  have hlt : p.firstIndex < its.length :=
    lt_of_le_of_ne h.firstIndex_le (mt h.last_lt_first.mpr hlt)
  have hit := getElem?_eq_getElem hlt
  dsimp only
  rw [h.first, h.decode hit, hit]
  simp

theorem Holds.isComplete : p.isComplete = true ↔ ∀ it ∈ its, it.isProcessed = true := by
  simp [Page.isComplete, h.remaining, unprocessed]

/-! ## Flagging -/

theorem Holds.markProcessed (hit : its[i]? = some it) :
    (p.markProcessed (offset (Item.encode c) its i)
      ⟨it.payload.length, it.isProcessed⟩).Holds (its.set i (it.mark true)) := by
  unfold Page.markProcessed
  split
  next hf =>
    have hs : its.set i (it.mark true) = its := by
      obtain ⟨hi, hget⟩ := List.getElem?_eq_some_iff.mp hit
      have hm : it.mark true = its[i] := by
        rw [hget, Item.mark, ← hf]
        simp
      rw [hm, set_getElem_self]
    rwa [hs]
  rename_i hf
  have hcnts := unprocessed_set_mark hit (by simpa using hf)
  have ho : ∀ j, offset (Item.encode c) (its.set i (it.mark true)) j =
      offset (Item.encode c) its j := fun j =>
    offset_set_of_length_eq hit (by simp [Item.mark])
  have henc : (it.mark true).encode c = encode c ⟨it.payload.length, true⟩ ++ it.payload := by
    simp [Item.encode, Item.mark]
  refine ⟨?_, ?_, ?_, ?_, ?_, ?_, ?_⟩
  · dsimp only
    rw [h.heap]
    exact overwrite_layout hit rfl henc (by simp)
  · simpa using h.nonempty
  · simpa using h.firstIndex_le
  · rw [ho]
    exact h.first
  · rw [ho, length_set]
    exact h.last
  · have := h.remaining
    dsimp only
    omega
  · have := h.remainingSize
    dsimp only
    omega

theorem Holds.noteProcessedAtPos (hit : its[i]? = some it) :
    (p.noteProcessedAtPos (offset (Item.encode c) its i)).Holds (its.set i (it.mark true)) := by
  unfold Page.noteProcessedAtPos
  rw [h.decode hit]
  exact h.markProcessed hit

end

theorem firstIndex_noteProcessedAtPos : (p.noteProcessedAtPos pos).firstIndex = p.firstIndex := by
  unfold noteProcessedAtPos
  split
  · rfl
  · unfold markProcessed
    split <;> rfl

/-- The page with the item flagged or not, before `first` moves on. -/
theorem Holds.mark (h : p.Holds its) (hit : its[i]? = some it) (b : Bool) :
    (if b then p.markProcessed (offset (Item.encode c) its i)
      ⟨it.payload.length, it.isProcessed⟩ else p).Holds (its.set i (it.mark b)) := by
  cases b with
  | false =>
    obtain ⟨hi, rfl⟩ := List.getElem?_eq_some_iff.mp hit
    simpa using h
  | true => simpa using h.markProcessed hit

theorem Holds.skipFirst (h : p.Holds its) (hit : its[p.firstIndex]? = some it) (b : Bool) :
    (p.skipFirst b).Holds (its.set p.firstIndex (it.mark b)) ∧
      (p.skipFirst b).firstIndex = p.firstIndex + 1 := by
  have hi := (List.getElem?_eq_some_iff.mp hit).1
  have hn : offset (Item.encode c) its (p.firstIndex + 1) = _ := offset_succ hit
  have hend := h.offset_add_le hit
  have hcnt : its.length ≤ p.heap.length := by
    rw [h.heap]
    exact length_le_layout Item.encode_ne_nil
  have hheap := p.heap_le
  have hmax := c.heapSize_le_max
  have hm := h.mark hit b
  have ho : ∀ j, offset (Item.encode c) (its.set p.firstIndex (it.mark b)) j =
      offset (Item.encode c) its j := fun j =>
    offset_set_of_length_eq hit (by simp [Item.mark])
  rw [Item.length_encode] at hn
  have hfst : c.add (c.add p.first (min c.headerLen c.max)) it.payload.length =
      offset (Item.encode c) its (p.firstIndex + 1) := by
    have := h.first
    unfold add
    omega
  have hidx : c.add p.firstIndex 1 = p.firstIndex + 1 := by
    unfold add
    omega
  have hdec := h.decode hit
  rw [← h.first] at hdec hm
  unfold Page.skipFirst
  dsimp only
  rw [min_eq_left h.first_le, hdec]
  refine ⟨⟨hm.heap, hm.nonempty, ?_, ?_, ?_, hm.remaining, hm.remainingSize⟩, hidx⟩
  · rw [length_set]
    dsimp only
    omega
  · dsimp only
    rw [hidx, ho, hfst]
  · exact hm.last

/-! ## Appending -/

theorem holds_fromMessage (hheap : c.headerLen ≤ c.heapSize) (hm : m.length ≤ c.maxMessageLen) :
    (fromMessage c m).Holds [⟨m, false⟩] := by
  have hmax := c.heapSize_le_max
  have hlen : m.length ≤ c.max := by
    unfold maxMessageLen at hm
    omega
  have hfit : (encode c ⟨m.length, false⟩ ++ m).length ≤ c.heapSize := by
    rw [length_append, length_encode]
    unfold maxMessageLen at hm
    omega
  refine ⟨?_, cons_ne_nil _ _, zero_le _, rfl, rfl, rfl, ?_⟩
  · dsimp only [fromMessage]
    rw [min_eq_left hlen, take_of_length_le hfit]
    simp [Item.encode]
  · dsimp only [fromMessage]
    rw [min_eq_left hlen]
    simp [unprocessedSize]

theorem Holds.tryAppendMessage (h : p.Holds its) (happ : p.tryAppendMessage m = some p') :
    p'.Holds (its ++ [⟨m, false⟩]) ∧ p'.firstIndex = p.firstIndex := by
  unfold Page.tryAppendMessage at happ
  dsimp only at happ
  split at happ
  · cases happ
  have hheap := p.heap_le
  have hmax := c.heapSize_le_max
  have hlen : min m.length c.max = m.length := min_eq_left (by omega)
  have hr : (p.heap ++ (encode c ⟨m.length, false⟩ ++ m)).length ≤ c.heapSize := by
    rw [length_append, length_append, length_encode]
    omega
  have hheap' : (p.withHeap (p.heap ++ (encode c ⟨m.length, false⟩ ++ m))).heap =
      layout (Item.encode c) (its ++ [⟨m, false⟩]) := by
    dsimp only [withHeap]
    rw [take_of_length_le hr, h.heap]
    simp [Item.encode]
  have hcnt : unprocessed its ≤ p.heap.length := by
    rw [h.heap]
    exact le_trans countP_le_length (length_le_layout Item.encode_ne_nil)
  have hsize : unprocessedSize its ≤ p.heap.length := by
    rw [h.heap]
    exact unprocessedSize_le
  cases happ
  refine ⟨⟨?_, by simp, ?_, ?_, ?_, ?_, ?_⟩, rfl⟩
  · dsimp only
    rw [hlen]
    exact hheap'
  · rw [length_append]
    exact le_add_right_of_le h.firstIndex_le
  · exact h.first.trans (offset_append_left h.firstIndex_le).symm
  · rw [length_append, length_singleton, Nat.add_sub_cancel,
      offset_append_left (le_refl _), offset_length, ← h.heap]
    exact min_eq_left (by omega)
  · rw [unprocessed_append, ← h.remaining]
    have := h.remaining
    have := c.headerLen_pos
    exact min_eq_left (by omega)
  · rw [unprocessedSize_append, ← h.remainingSize]
    have := h.remainingSize
    rw [hlen]
    exact min_eq_left (by omega)

end Page

end MessageQueue
