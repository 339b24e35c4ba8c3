-- SUMMARY: Transactions of the pool, and the queue of those that wait for tags nobody provides yet.
import SubstrateIpfs.Base.FinMap
import SubstrateIpfs.Base.Worklist

/-!
# The future queue

A transaction that requires a tag which is neither provided nor was provided
recently waits. The queue indexes the waiting transactions by the tags they miss;
a tag that is satisfied is taken out of the index, and whoever misses no tag
any more leaves the queue.

Hash sets are lists without repetition, hash maps are finite maps. The order in
which a hash table is walked is not specified; a call takes it as an argument.
-/

namespace TransactionPool

open List FinMap

variable {H T : Type} {hash : H} {ts : List T} {wanted : FinMap T (List H)}

/-- A transaction, with the fields the pool looks at. -/
structure Transaction (H T : Type) where
  bytes : Nat
  hash : H
  priority : UInt64
  validTill : UInt64
  requires : List T
  provides : List T
  deriving DecidableEq

/-- The walks over a hash table that a call can make. -/
inductive Walk (H T : Type) where
  /-- The hashes that want a tag. -/
  | wanted (tag : T)
  /-- The hashes a transaction replaces. -/
  | replaced (hash : H)
  /-- The ready transactions, when there are this many. -/
  | ready (count : Nat)
  /-- The waiting transactions, when there are this many. -/
  | waiting (count : Nat)

/-- The order in which a call walks over hash tables. -/
structure HashOrder (H T : Type) where
  walk : Walk H T → {A : Type} → List A → List A
  perm : ∀ (w : Walk H T) {A : Type} (l : List A), (walk w l).Perm l

/-- The order of the lists themselves. -/
def HashOrder.given : HashOrder H T := ⟨fun _ _ l => l, fun _ _ _ => .refl _⟩

/-- Transaction with partially satisfied dependencies. -/
structure WaitingTransaction (H T : Type) where
  transaction : Transaction H T
  missingTags : List T
  importedAt : Nat

variable {w tx : WaitingTransaction H T} {ready : List (WaitingTransaction H T)}
  {o : HashOrder H T} {t : T} {h : H}

namespace WaitingTransaction

variable [DecidableEq T]

/-- Computes the set of missing tags based on the requirements and the tags that are provided or
were pruned recently. -/
def new (transaction : Transaction H T) (provided : FinMap T H) (recentlyPruned : List (List T))
    (now : Nat) : WaitingTransaction H T where
  transaction := transaction
  missingTags := (transaction.requires.filter fun tag =>
    ¬ ((provided.get? tag).isSome ∨ recentlyPruned.any fun x => x.contains tag)).dedup
  importedAt := now

/-- Marks the tag as satisfied. -/
def satisfyTag (self : WaitingTransaction H T) (tag : T) : WaitingTransaction H T :=
  { self with missingTags := self.missingTags.filter (· ≠ tag) }

/-- Returns true if transaction has all requirements satisfied. -/
def isReady (self : WaitingTransaction H T) : Bool := self.missingTags.isEmpty

theorem satisfyTag_of_notMem {tag : T} (h : tag ∉ w.missingTags) : w.satisfyTag tag = w := by
  have : w.missingTags.filter (· ≠ tag) = w.missingTags :=
    filter_eq_self.mpr fun t ht => decide_eq_true fun heq => h (heq ▸ ht)
  simp only [satisfyTag, this]

end WaitingTransaction

/-- A pool of transactions that are not yet ready to be included in the block. -/
structure FutureTransactions (H T : Type) where
  wantedTags : FinMap T (List H)
  waiting : FinMap H (WaitingTransaction H T)

/-- The queue and the transactions that have left it. -/
abbrev Unlocking (H T : Type) := FutureTransactions H T × List (WaitingTransaction H T)

variable (self : FutureTransactions H T)

namespace FutureTransactions

def default : FutureTransactions H T := ⟨.empty, .empty⟩

/-- The transactions that wait. -/
def transactions : List (Transaction H T) := self.waiting.values.map (·.transaction)

/-- Returns number of transactions in the Future queue. -/
def len : Nat := self.waiting.size

/-- Returns sum of encoding lengths of all transactions in this queue. -/
def bytes : Nat := self.waiting.values.foldl (fun acc tx => acc + tx.transaction.bytes) 0

/-- Removes and returns all future transactions. -/
def clear : List (Transaction H T) × FutureTransactions H T := (self.transactions, default)

variable [DecidableEq H] [DecidableEq T]

def contains (self : FutureTransactions H T) (hash : H) : Bool := (self.waiting.get? hash).isSome

/-- The hashes that want a tag. -/
def wantedBy (wanted : FinMap T (List H)) (tag : T) : List H := (wanted.get? tag).getD []

/-- Notes that a hash wants a tag. -/
def want (hash : H) (wanted : FinMap T (List H)) (tag : T) : FinMap T (List H) :=
  wanted.insert tag ((wantedBy wanted tag).insert hash)

/-- Import transaction to Future queue. -/
def importTx (self : FutureTransactions H T) (tx : WaitingTransaction H T) :
    Option (FutureTransactions H T) :=
  -- assert: "Transaction is ready.", then "Transaction is already imported."
  if tx.isReady then none
  else if self.contains tx.transaction.hash then none
  else some {
    wantedTags := tx.missingTags.foldl (want tx.transaction.hash) self.wantedTags
    waiting := self.waiting.insert tx.transaction.hash tx }

/-- Satisfies a tag in one of the transactions that want it, which leaves the queue if it was the
last one. -/
def satisfyHash (tag : T) (acc : Unlocking H T) (hash : H) :
    Option (Unlocking H T) :=
  match acc.1.waiting.get? hash with
  | none => none
  | some tx =>
    let tx := tx.satisfyTag tag
    if tx.isReady then some ({ acc.1 with waiting := acc.1.waiting.erase hash }, acc.2 ++ [tx])
    else some ({ acc.1 with waiting := acc.1.waiting.insert hash tx }, acc.2)

/-- Satisfies a tag in all transactions that want it. -/
def satisfyOneTag (order : HashOrder H T)
    (acc : Unlocking H T) (tag : T) :
    Option (Unlocking H T) :=
  match acc.1.wantedTags.get? tag with
  | none => some acc
  | some hashes =>
    (order.walk (.wanted tag) hashes).foldlM (satisfyHash tag)
      ({ acc.1 with wantedTags := acc.1.wantedTags.erase tag }, acc.2)

/-- Satisfies provided tags in transactions that are waiting for them. Returns (and removes)
transactions that became ready. -/
def satisfyTags (order : HashOrder H T) (self : FutureTransactions H T) (tags : List T) :
    Option (Unlocking H T) :=
  tags.foldlM (satisfyOneTag order) (self, [])

/-- Notes that a hash does not want a tag any more. -/
def dropWanted (hash : H) (wanted : FinMap T (List H)) (tag : T) : FinMap T (List H) :=
  match wanted.get? tag with
  | none => wanted
  | some hashes =>
    if (hashes.erase hash).isEmpty then wanted.erase tag
    else wanted.insert tag (hashes.erase hash)

/-- Removes one transaction. -/
def removeHash (acc : FutureTransactions H T × List (Transaction H T)) (hash : H) :
    FutureTransactions H T × List (Transaction H T) :=
  match acc.1.waiting.get? hash with
  | none => acc
  | some waitingTx =>
    ({ wantedTags := waitingTx.missingTags.foldl (dropWanted hash) acc.1.wantedTags
       waiting := acc.1.waiting.erase hash }, acc.2 ++ [waitingTx.transaction])

/-- Removes transactions for given list of hashes. Returns a list of actually removed
transactions. -/
def remove (self : FutureTransactions H T) (hashes : List H) :
    FutureTransactions H T × List (Transaction H T) :=
  hashes.foldl removeHash (self, [])

theorem size_satisfyHash {tag : T} {acc a' : Unlocking H T}
    (h : satisfyHash tag acc hash = some a') :
    a'.1.waiting.size + a'.2.length = acc.1.waiting.size + acc.2.length := by
  unfold satisfyHash at h
  split at h
  · cases h
  rename_i tx hget
  have hsize := size_erase_add_one hget
  dsimp only at h
  split at h
  · cases h
    simp only [length_append, length_singleton]
    omega
  · cases h
    simp only [size_insert]
    omega

/-- Whoever becomes ready leaves the queue. -/
theorem size_satisfyTags {f f' : FutureTransactions H T}
    (h : f.satisfyTags o ts = some (f', ready)) :
    f'.waiting.size + ready.length = f.waiting.size := by
  have hhs : ∀ {tag : T} {hashes : List H}
      {acc acc' : Unlocking H T},
      hashes.foldlM (satisfyHash tag) acc = some acc' →
      acc'.1.waiting.size + acc'.2.length = acc.1.waiting.size + acc.2.length := by
    intro tag hashes acc acc' h
    exact foldlM_const (fun _ _ _ h => size_satisfyHash h) h
  have htag : ∀ {tag : T} {acc acc' : Unlocking H T},
      satisfyOneTag o acc tag = some acc' →
      acc'.1.waiting.size + acc'.2.length = acc.1.waiting.size + acc.2.length := by
    intro tag acc acc' h
    unfold satisfyOneTag at h
    split at h
    · cases h
      rfl
    · exact (hhs h).trans rfl
  exact foldlM_const (fun _ _ _ h => htag h) h

/-! ## What the queue keeps -/

/-- The index agrees with the transactions that wait. -/
structure Sound (f : FutureTransactions H T) : Prop where
  keyed : ∀ {h w}, f.waiting.get? h = some w → w.transaction.hash = h
  missing : ∀ {h w}, f.waiting.get? h = some w → w.isReady = false
  wanted : ∀ t h, h ∈ wantedBy f.wantedTags t ↔ ∃ w, f.waiting.get? h = some w ∧ t ∈ w.missingTags
  nodup : ∀ t, (wantedBy f.wantedTags t).Nodup

variable {f f' : FutureTransactions H T}

theorem sound_default : (default : FutureTransactions H T).Sound where
  keyed h := by cases h
  missing h := by cases h
  wanted t h := by simp [default, wantedBy]
  nodup t := by simp [default, wantedBy]

omit [DecidableEq T] in
theorem mem_transactions {tx : Transaction H T} :
    tx ∈ f.transactions ↔ ∃ h w, f.waiting.get? h = some w ∧ w.transaction = tx := by
  constructor
  · intro h
    obtain ⟨w, hw, rfl⟩ := mem_map.mp h
    obtain ⟨k, hk⟩ := mem_values.mp hw
    exact ⟨k, w, hk, rfl⟩
  · rintro ⟨k, w, hk, rfl⟩
    exact mem_map.mpr ⟨w, mem_values.mpr ⟨k, hk⟩, rfl⟩

/-- A waiting transaction is found under its hash. -/
theorem Sound.mem_transactions (h : f.Sound) {tx : Transaction H T} :
    tx ∈ f.transactions ↔ ∃ w, f.waiting.get? tx.hash = some w ∧ w.transaction = tx := by
  rw [FutureTransactions.mem_transactions]
  constructor
  · rintro ⟨k, w, hk, rfl⟩
    exact ⟨w, by rwa [h.keyed hk], rfl⟩
  · rintro ⟨w, hw, rfl⟩
    exact ⟨_, w, hw, rfl⟩

theorem wantedBy_want {tag : T} :
    wantedBy (want hash wanted tag) t =
      if t = tag then (wantedBy wanted tag).insert hash else wantedBy wanted t := by
  unfold want
  rw [wantedBy, get?_insert]
  split <;> rfl

theorem mem_wantedBy_foldl_want :
    h ∈ wantedBy (ts.foldl (want hash) wanted) t ↔ h ∈ wantedBy wanted t ∨ (h = hash ∧ t ∈ ts) := by
  induction ts generalizing wanted with
  | nil => simp
  | cons tag ts ih =>
    rw [foldl_cons, ih, wantedBy_want]
    split
    next heq =>
      subst heq
      simp only [mem_insert_iff]
      tauto
    next hne =>
      simp only [mem_cons, hne, false_or]

theorem nodup_wantedBy_foldl_want (h : ∀ t, (wantedBy wanted t).Nodup) (t : T) :
    (wantedBy (ts.foldl (want hash) wanted) t).Nodup := by
  induction ts generalizing wanted with
  | nil => exact h t
  | cons tag ts ih =>
    refine ih fun t => ?_
    rw [wantedBy_want]
    split
    · exact (h tag).insert
    · exact h t

/-- What an import into the queue does. -/
theorem importTx_eq_some (h : f.importTx tx = some f') :
    tx.isReady = false ∧ f.waiting.get? tx.transaction.hash = none ∧
      f' = ⟨tx.missingTags.foldl (want tx.transaction.hash) f.wantedTags,
        f.waiting.insert tx.transaction.hash tx⟩ := by
  unfold importTx contains at h
  split at h
  · cases h
  next hrdy =>
    split at h
    · cases h
    next hnew =>
      cases h
      exact ⟨by simpa using hrdy, by simpa using hnew, rfl⟩

theorem Sound.importTx (hf : f.Sound) (h : f.importTx tx = some f') : f'.Sound := by
  obtain ⟨hrdy, hnew, rfl⟩ := importTx_eq_some h
  refine ⟨fun {h w} hw => ?_, fun {h w} hw => ?_, fun t h => ?_, ?_⟩
  · rw [get?_insert] at hw
    split at hw
    next heq => cases hw; exact heq.symm
    · exact hf.keyed hw
  · rw [get?_insert] at hw
    split at hw
    · cases hw; exact hrdy
    · exact hf.missing hw
  · rw [mem_wantedBy_foldl_want, hf.wanted, get?_insert]
    split
    next heq =>
      subst heq
      simp [hnew]
    next hne => simp [hne]
  · exact nodup_wantedBy_foldl_want hf.nodup

theorem transactions_importTx (h : f.importTx tx = some f') :
    f'.transactions = tx.transaction :: f.transactions := by
  obtain ⟨-, hnew, rfl⟩ := importTx_eq_some h
  rw [transactions, values_insert, erase_of_none hnew]
  rfl

/-! ## Satisfying tags -/

/-- What becomes of an entry of the queue when a tag is satisfied. -/
def satisfied (tag : T) (entry : Option (WaitingTransaction H T)) :
    Option (WaitingTransaction H T) :=
  entry.bind fun w => if (w.satisfyTag tag).isReady then none else some (w.satisfyTag tag)

omit [DecidableEq H] in
theorem satisfied_eq_some {tag : T} {e : Option (WaitingTransaction H T)}
    {w' : WaitingTransaction H T} :
    satisfied tag e = some w' ↔
      ∃ w, e = some w ∧ (w.satisfyTag tag).isReady = false ∧ w.satisfyTag tag = w' := by
  unfold satisfied
  cases e with
  | none => simp
  | some w =>
    simp only [Option.bind_some]
    split <;> simp_all

omit [DecidableEq H] in
theorem satisfied_of_notMem {tag : T} (hrdy : w.isReady = false) (h : tag ∉ w.missingTags) :
    satisfied tag (some w) = some w := by
  refine satisfied_eq_some.mpr ⟨w, rfl, ?_⟩
  rw [WaitingTransaction.satisfyTag_of_notMem h]
  exact ⟨hrdy, rfl⟩

/-- The transactions of the queue and those that became ready. -/
def held (acc : Unlocking H T) : List (Transaction H T) :=
  acc.1.transactions ++ acc.2.map (·.transaction)

/-- The loop over the hashes that want a tag, with these hashes left. -/
structure Satisfying (tag : T) (start : Unlocking H T)
    (rest : List H) (acc : Unlocking H T) : Prop where
  nodup : rest.Nodup
  wants : ∀ h ∈ rest, ∃ w, start.1.waiting.get? h = some w
  wanted : acc.1.wantedTags = start.1.wantedTags.erase tag
  waiting : ∀ h, acc.1.waiting.get? h =
    if h ∈ rest then start.1.waiting.get? h else satisfied tag (start.1.waiting.get? h)
  held : (held acc).Perm (held start)
  ready : ∀ w ∈ acc.2, w ∈ start.2 ∨ w.isReady = true

variable {tag : T} {a acc : Unlocking H T}

omit [DecidableEq H] in
theorem mem_wantedBy_erase :
    h ∈ wantedBy (wanted.erase tag) t ↔ t ≠ tag ∧ h ∈ wantedBy wanted t := by
  rw [wantedBy, get?_erase]
  split
  next heq => simp [heq]
  next hne => simp [hne, wantedBy]

theorem Satisfying.step {rest : List H} (h : Satisfying tag a (hash :: rest) acc) :
    ∃ acc', satisfyHash tag acc hash = some acc' ∧ Satisfying tag a rest acc' := by
  obtain ⟨hh, hr⟩ := nodup_cons.mp h.nodup
  obtain ⟨tx, htx⟩ := h.wants hash mem_cons_self
  have hget : acc.1.waiting.get? hash = some tx := by
    rw [h.waiting, if_pos mem_cons_self, htx]
  have hv := values_erase hget
  -- the entry of `hash` changes, the others do not
  have hoth : ∀ k ≠ hash, (if k ∈ hash :: rest then a.1.waiting.get? k
      else satisfied tag (a.1.waiting.get? k)) =
      if k ∈ rest then a.1.waiting.get? k else satisfied tag (a.1.waiting.get? k) := by
    intro k hk
    simp only [mem_cons, hk, false_or]
  unfold satisfyHash
  simp only [hget]
  split
  next hrdy =>
    refine ⟨_, rfl, ⟨hr, fun k hk => h.wants k (mem_cons_of_mem _ hk), h.wanted,
      fun k => ?_, ?_, ?_⟩⟩
    · rw [get?_erase]
      split
      next heq =>
        subst heq
        rw [if_neg hh, htx]
        simp [satisfied, hrdy]
      next hne => rw [h.waiting, hoth k hne]
    · refine trans ?_ h.held
      simp only [FutureTransactions.held, map_append]
      refine .trans ?_ ((hv.map _).append_right _).symm
      rw [← append_assoc]
      exact perm_append_singleton _ _
    · intro w hw
      rcases mem_append.mp hw with hw | hw
      · exact h.ready w hw
      · cases mem_singleton.mp hw
        exact .inr hrdy
  next hrdy =>
    refine ⟨_, rfl, ⟨hr, fun k hk => h.wants k (mem_cons_of_mem _ hk), h.wanted,
      fun k => ?_, ?_, h.ready⟩⟩
    · rw [get?_insert]
      split
      next heq =>
        subst heq
        rw [if_neg hh, htx]
        simp [satisfied, hrdy]
      next hne => rw [h.waiting, hoth k hne]
    · refine trans ?_ h.held
      have hs := (hv.map (·.transaction)).append_right (acc.2.map (·.transaction))
      exact hs.symm

/-- Satisfying a tag: nothing panics, entries change as `satisfied` says, and no transaction is
lost. -/
theorem satisfyOneTag_spec (order : HashOrder H T) (tag : T) (hf : a.1.Sound) :
    ∃ acc, satisfyOneTag order a tag = some acc ∧ acc.1.Sound ∧
      (∀ h, acc.1.waiting.get? h = satisfied tag (a.1.waiting.get? h)) ∧
      (held acc).Perm (held a) ∧ (∀ w ∈ acc.2, w ∈ a.2 ∨ w.isReady = true) := by
  unfold satisfyOneTag
  cases hwan : a.1.wantedTags.get? tag with
  | none =>
    refine ⟨a, rfl, hf, fun h => ?_, .refl _, fun w hw => .inl hw⟩
    cases hget : a.1.waiting.get? h with
    | none => rfl
    | some w =>
      refine (satisfied_of_notMem (hf.missing hget) fun hmem => ?_).symm
      have := (hf.wanted tag h).mpr ⟨w, hget, hmem⟩
      simp [wantedBy, hwan] at this
  | some hashes =>
    have hby : wantedBy a.1.wantedTags tag = hashes := by simp [wantedBy, hwan]
    have hp := order.perm (.wanted tag) hashes
    have hi : Satisfying tag a (order.walk (.wanted tag) hashes)
        ({ a.1 with wantedTags := a.1.wantedTags.erase tag }, a.2) := by
      refine ⟨hp.nodup_iff.mpr (hby ▸ hf.nodup tag), fun h hh => ?_, rfl, fun h => ?_, .refl _,
        fun w hw => .inl hw⟩
      · obtain ⟨w, hw, -⟩ := (hf.wanted tag h).mp (hby ▸ hp.mem_iff.mp hh)
        exact ⟨w, hw⟩
      split
      · rfl
      next hh =>
        cases hget : a.1.waiting.get? h with
        | none => rfl
        | some w =>
          refine (satisfied_of_notMem (hf.missing hget) fun hmem => hh ?_).symm
          exact hp.mem_iff.mpr (hby ▸ (hf.wanted tag h).mpr ⟨w, hget, hmem⟩)
    obtain ⟨acc, hacc, hdo⟩ := foldlM_inv (fun _ _ _ h => h.step) hi
    have hwa : ∀ h, acc.1.waiting.get? h = satisfied tag (a.1.waiting.get? h) := fun h => by
      rw [hdo.waiting, if_neg not_mem_nil]
    refine ⟨acc, hacc, ⟨?_, ?_, ?_, ?_⟩, hwa, hdo.held, hdo.ready⟩
    · intro h w hw
      rw [hwa] at hw
      obtain ⟨w0, hw0, -, rfl⟩ := satisfied_eq_some.mp hw
      have hkey : w0.transaction.hash = h := hf.keyed hw0
      exact hkey
    · intro h w hw
      rw [hwa] at hw
      obtain ⟨w0, hw0, hrdy, rfl⟩ := satisfied_eq_some.mp hw
      exact hrdy
    · intro t h
      rw [hdo.wanted, hwa, mem_wantedBy_erase, hf.wanted]
      constructor
      · rintro ⟨hne, w, hw, hmem⟩
        have hm' : t ∈ (w.satisfyTag tag).missingTags := by
          simp [WaitingTransaction.satisfyTag, hmem, hne]
        refine ⟨w.satisfyTag tag, satisfied_eq_some.mpr ⟨w, hw, ?_, rfl⟩, hm'⟩
        exact isEmpty_eq_false_iff_exists_mem.mpr ⟨t, hm'⟩
      · rintro ⟨w', hw', hmem⟩
        obtain ⟨w, hw, -, rfl⟩ := satisfied_eq_some.mp hw'
        simp only [WaitingTransaction.satisfyTag, mem_filter, decide_eq_true_eq] at hmem
        exact ⟨hmem.2, w, hw, hmem.1⟩
    · intro t
      rw [hdo.wanted, wantedBy, get?_erase]
      split
      · exact nodup_nil
      · exact hf.nodup t

/-- What becomes of an entry when tags are satisfied one after the other. -/
def satisfiedAll (tags : List T) (entry : Option (WaitingTransaction H T)) :
    Option (WaitingTransaction H T) :=
  tags.foldl (fun entry tag => satisfied tag entry) entry

omit [DecidableEq H] in
@[simp] theorem satisfiedAll_none (tags : List T) :
    satisfiedAll tags (none : Option (WaitingTransaction H T)) = none := by
  induction tags with
  | nil => rfl
  | cons tag tags ih => exact ih

omit [DecidableEq H] in
/-- An entry goes exactly when all the tags it misses are satisfied. -/
theorem satisfiedAll_eq_none (hrdy : w.isReady = false) :
    satisfiedAll ts (some w) = none ↔ ∀ t ∈ w.missingTags, t ∈ ts := by
  induction ts generalizing w with
  | nil =>
    have hne : w.missingTags ≠ [] := by simpa [WaitingTransaction.isReady] using hrdy
    obtain ⟨t, ht⟩ := exists_mem_of_ne_nil _ hne
    exact iff_of_false (by simp [satisfiedAll]) fun hall => not_mem_nil (hall t ht)
  | cons tag ts ih =>
    have hmem : ∀ t, t ∈ (w.satisfyTag tag).missingTags ↔ t ∈ w.missingTags ∧ t ≠ tag := by
      simp [WaitingTransaction.satisfyTag]
    have hall : (∀ t ∈ w.missingTags, t ∈ tag :: ts) ↔
        ∀ t ∈ (w.satisfyTag tag).missingTags, t ∈ ts := by
      simp only [hmem, mem_cons]
      constructor
      · exact fun h t ht => (h t ht.1).resolve_left ht.2
      · exact fun h t ht => or_iff_not_imp_left.mpr fun hne => h t ⟨ht, hne⟩
    rw [hall]
    change satisfiedAll ts (satisfied tag (some w)) = none ↔ _
    cases hr : (w.satisfyTag tag).isReady with
    | false => rw [satisfied_eq_some.mpr ⟨w, rfl, hr, rfl⟩, ih hr]
    | true =>
      have hnil : (w.satisfyTag tag).missingTags = [] := isEmpty_iff.mp hr
      have hn : satisfied tag (some w) = none := by simp [satisfied, hr]
      rw [hn, hnil]
      simp

/-- Satisfying tags: nothing panics, and the transactions that became ready left the queue. -/
theorem satisfyTags_spec (order : HashOrder H T) (hf : f.Sound) (tags : List T) :
    ∃ f' ready, f.satisfyTags order tags = some (f', ready) ∧ f'.Sound ∧
      (∀ h, f'.waiting.get? h = satisfiedAll tags (f.waiting.get? h)) ∧
      (f'.transactions ++ ready.map (·.transaction)).Perm f.transactions ∧
      ∀ w ∈ ready, w.isReady = true := by
  have hl : ∀ (tags : List T) a,
      a.1.Sound → (∀ w ∈ a.2, w.isReady = true) →
      ∃ acc, tags.foldlM (satisfyOneTag order) a = some acc ∧ acc.1.Sound ∧
        (∀ h, acc.1.waiting.get? h = satisfiedAll tags (a.1.waiting.get? h)) ∧
        (held acc).Perm (held a) ∧ ∀ w ∈ acc.2, w.isReady = true := by
    intro tags
    induction tags with
    | nil => exact fun a hs hr => ⟨a, rfl, hs, fun _ => rfl, .refl _, hr⟩
    | cons tag tags ih =>
      intro a hs hr
      obtain ⟨acc', h1, hs1, hg', hh', hr1⟩ := satisfyOneTag_spec order tag hs
      obtain ⟨acc, h, hs', hget, hh, hr'⟩ := ih acc' hs1 fun w hw =>
        (hr1 w hw).elim (hr w) id
      refine ⟨acc, ?_, hs', fun k => ?_, hh.trans hh', hr'⟩
      · rw [foldlM_cons, h1]
        exact h
      · rw [hget, hg']
        rfl
  obtain ⟨acc, h, hs, hget, hh, hrdy⟩ := hl tags (f, []) hf (by simp)
  exact ⟨acc.1, acc.2, h, hs, hget, by simpa [held] using hh, hrdy⟩

theorem Sound.satisfyTags (hf : f.Sound) (h : f.satisfyTags o ts = some (f', ready)) :
    f'.Sound ∧ (f'.transactions ++ ready.map (·.transaction)).Perm f.transactions := by
  obtain ⟨f1, ready', h1, hf', -, hp, -⟩ := satisfyTags_spec o hf ts
  cases h.symm.trans h1
  exact ⟨hf', hp⟩

/-- Some transaction becomes ready exactly if there is one that misses no other tag. -/
theorem Sound.unlocked_ne_nil_iff (hf : f.Sound) (h : f.satisfyTags o ts = some (f', ready)) :
    ready ≠ [] ↔ ∃ k w, f.waiting.get? k = some w ∧ ∀ t ∈ w.missingTags, t ∈ ts := by
  obtain ⟨f1, ready', h1, hf', hget, hp, -⟩ := satisfyTags_spec o hf ts
  cases h.symm.trans h1
  constructor
  · intro hne
    by_contra hs
    -- every entry is still there, so the sizes agree and nothing has left the queue
    have hke : ∀ k, (f'.waiting.get? k).map (fun _ => ()) = (f.waiting.get? k).map fun _ => () := by
      intro k
      rw [hget]
      cases hk : f.waiting.get? k with
      | none => rw [satisfiedAll_none]
      | some w =>
        cases hall : satisfiedAll ts (some w) with
        | none => exact absurd ⟨k, w, hk, (satisfiedAll_eq_none (hf.missing hk)).mp hall⟩ hs
        | some w' => rfl
    have hsi := (values_map_perm hke).length_eq
    rw [length_map, length_map, length_values, length_values] at hsi
    have hleft := size_satisfyTags h
    exact hne (eq_nil_of_length_eq_zero (by omega))
  · rintro ⟨k, w, hk, hall⟩ rfl
    have hg : f'.waiting.get? k = none := by
      rw [hget, hk, (satisfiedAll_eq_none (hf.missing hk)).mpr hall]
    have hmem : w.transaction ∈ f'.transactions := by
      rw [map_nil, append_nil] at hp
      exact hp.mem_iff.mpr (FutureTransactions.mem_transactions.mpr ⟨k, w, hk, rfl⟩)
    obtain ⟨w', hw', -⟩ := hf'.mem_transactions.mp hmem
    rw [hf.keyed hk, hg] at hw'
    cases hw'

/-! ## Removal -/

theorem wantedBy_dropWanted :
    wantedBy (dropWanted hash wanted tag) t =
      if t = tag then (wantedBy wanted tag).erase hash else wantedBy wanted t := by
  unfold dropWanted
  cases hget : wanted.get? tag with
  | none =>
    by_cases heq : t = tag
    · simp [heq, wantedBy, hget]
    · simp [heq]
  | some hashes =>
    dsimp only
    split
    next hemp =>
      rw [wantedBy, get?_erase]
      split
      · simp [wantedBy, hget, isEmpty_iff.mp hemp]
      · rfl
    · rw [wantedBy, get?_insert]
      split
      · simp [wantedBy, hget]
      · rfl

theorem nodup_wantedBy_foldl_dropWanted (tags : List T) (h : ∀ t, (wantedBy wanted t).Nodup)
    (t : T) :
    (wantedBy (tags.foldl (dropWanted hash) wanted) t).Nodup := by
  induction tags generalizing wanted with
  | nil => exact h t
  | cons tag tags ih =>
    refine ih fun t => ?_
    rw [wantedBy_dropWanted]
    split
    · exact (h tag).erase hash
    · exact h t

theorem mem_wantedBy_foldl_dropWanted (hnd : ∀ t, (wantedBy wanted t).Nodup) :
    h ∈ wantedBy (ts.foldl (dropWanted hash) wanted) t ↔
      h ∈ wantedBy wanted t ∧ (h = hash → t ∉ ts) := by
  induction ts generalizing wanted with
  | nil => simp
  | cons tag ts ih =>
    have hnd' : ∀ t, (wantedBy (dropWanted hash wanted tag) t).Nodup := fun t =>
      nodup_wantedBy_foldl_dropWanted [tag] hnd t
    rw [foldl_cons, ih hnd', wantedBy_dropWanted]
    split
    next heq =>
      subst heq
      rw [(hnd t).mem_erase_iff]
      tauto
    next hne => simp only [mem_cons, hne, false_or]

/-- Removing one transaction from the queue. -/
theorem removeHash_spec {acc : FutureTransactions H T × List (Transaction H T)} (hash : H)
    (hf : acc.1.Sound) : (removeHash acc hash).1.Sound ∧
      ((removeHash acc hash).1.transactions ++ (removeHash acc hash).2).Perm
        (acc.1.transactions ++ acc.2) := by
  unfold removeHash
  cases hget : acc.1.waiting.get? hash with
  | none => exact ⟨hf, .refl _⟩
  | some w =>
    refine ⟨⟨fun {h w'} hw => ?_, fun {h w'} hw => ?_, fun t h => ?_, ?_⟩, ?_⟩
    · rw [get?_erase] at hw
      split at hw
      · cases hw
      · exact hf.keyed hw
    · rw [get?_erase] at hw
      split at hw
      · cases hw
      · exact hf.missing hw
    · rw [mem_wantedBy_foldl_dropWanted hf.nodup, hf.wanted, get?_erase]
      split
      next heq =>
        subst heq
        simp [hget]
      next hne => simp [hne]
    · exact nodup_wantedBy_foldl_dropWanted _ hf.nodup
    · have hv := ((values_erase hget).map (·.transaction)).append_right acc.2
      refine .trans ?_ hv.symm
      rw [← append_assoc]
      exact perm_append_singleton _ _

/-- Removal returns what it takes from the queue. -/
theorem remove_spec (hf : f.Sound) (xs : List H) : (f.remove xs).1.Sound ∧
    ((f.remove xs).1.transactions ++ (f.remove xs).2).Perm f.transactions := by
  have hl : ∀ (xs : List H) (acc : FutureTransactions H T × List (Transaction H T)),
      acc.1.Sound → (xs.foldl removeHash acc).1.Sound ∧
        ((xs.foldl removeHash acc).1.transactions ++ (xs.foldl removeHash acc).2).Perm
          (acc.1.transactions ++ acc.2) := by
    intro xs
    induction xs with
    | nil => exact fun acc hs => ⟨hs, .refl _⟩
    | cons hash xs ih =>
      intro acc hs
      obtain ⟨hs1, hp⟩ := removeHash_spec hash hs
      obtain ⟨hs', hperm'⟩ := ih _ hs1
      exact ⟨hs', hperm'.trans hp⟩
  simpa [remove] using hl xs (f, []) hf

end FutureTransactions

end TransactionPool
