-- SUMMARY: The command queue with provenance: identifiers, files, and no request lost.
import SubstrateIpfs.Knowledge.Pallet

/-!
# Provenance

The queue does not say which call an entry comes from. The ledger does: it runs the chain and keeps
a ticket for every pending request, with the call that queued it and the block that call was in. It
also keeps, for every file of pallet-tds-ipfs, what was pending when the file was written.

The identifier of a request is a hash of values that do not change within a block. Two requests have
one identifier exactly when they were queued in the same block.
-/

namespace Ipfs

open List Scale Run Vec Chain

open Offchain

variable {A : Type}

/-! ## The ledger -/

/-- Where a request comes from. -/
structure Ticket (A : Type) where
  blockNumber : BlockNumber
  action : Action A

/-- The calls that queue a request. -/
def Action.Queueing : Action A → Prop
  | .addBytes .. => True
  | .create .. => True
  | .modifyContent .. => True
  | _ => False

/-- The meta data argument, if the call is `addBytes`. -/
def Ticket.metaData (ticket : Ticket A) : Option Bytes :=
  match ticket.action with
  | .addBytes _ _ _ metaData => some metaData
  | _ => none

structure Ledger (A : Type) where
  chain : Chain A
  tickets : List (CommandRequest A × Ticket A)
  metasAtWrite : Bytes → List Bytes

variable {entry : CommandRequest A × Ticket A} {s s' : Chain A}

namespace Ledger

def genesis (A : Type) : Ledger A where
  chain := Chain.genesis A
  tickets := []
  metasAtWrite := fun _ => []

/-- The meta data of the `addBytes` calls whose requests are pending. -/
def pendingMetas (l : Ledger A) : List Bytes := l.tickets.filterMap fun entry => entry.2.metaData

/-- The entry the callback for an identifier completes, and the others. -/
def complete (l : Ledger A) (identifier : Identifier) :
    Option ((CommandRequest A × Ticket A) × List (CommandRequest A × Ticket A)) :=
  swapRemoveFirst (fun entry => entry.1.identifier == identifier) l.tickets

def queue (H : Hashing) (l : Ledger A) (who : A) (version : UInt8) (action : Action A) :
    List (CommandRequest A × Ticket A) :=
  l.tickets ++ [(⟨l.chain.generateId H, who, [.addBytes version]⟩, ⟨l.chain.blockNumber, action⟩)]

/-- The tickets after a call that succeeds. -/
def ticketsAfter (H : Hashing) (l : Ledger A) (action : Action A) :
    List (CommandRequest A × Ticket A) :=
  match action with
  | .addBytes who _ version _ => l.queue H who version action
  | .create who _ _ => l.queue H who 1 action
  | .modifyContent _ who _ _ _ => l.queue H who 1 action
  | .ocwCallback _ _ identifier _ _ => ((l.complete identifier).map Prod.snd).getD l.tickets
  | _ => l.tickets

/-- The cid and the meta data of the file of pallet-tds-ipfs that a call writes:
a callback does, if it completes an upload and comes with data. -/
def fileWritten (l : Ledger A) (action : Action A) : Option (Bytes × Bytes) :=
  match action with
  | .ocwCallback .tdsIpfs _ identifier data (some offchainData) =>
    match l.complete identifier with
    | some (entry, _) =>
      if containsValueOfTypeInVector (.addBytes 0) entry.1.ipfsCommands then
        some (data, offchainData.metaData)
      else none
    | none => none
  | _ => none

/-- The records about the files after a call that succeeds. -/
def metasAfter (l : Ledger A) (action : Action A) : Bytes → List Bytes :=
  match l.fileWritten action with
  | some (cid, _) => Function.update l.metasAtWrite cid l.pendingMetas
  | none => l.metasAtWrite

/-- Every pending request has a ticket, in the order of the queue. -/
def Coupled (l : Ledger A) : Prop := l.tickets.map Prod.fst = l.chain.pending

/-- The callback completes the same request in the queue and in the ledger. -/
theorem complete_eq {l : Ledger A} {i : Identifier}
    {cs r : List (CommandRequest A)} {req : CommandRequest A} (h : l.Coupled)
    (hcm : l.chain.commands = some cs)
    (hfnd : swapRemoveFirst (fun cmd => cmd.identifier == i) cs = some (req, r)) :
    ∃ t tks, l.complete i = some ((req, t), tks) ∧ tks.map Prod.fst = r := by
  have ht : cs = l.tickets.map Prod.fst := by
    rw [show l.tickets.map Prod.fst = l.chain.pending from h, pending, hcm]
    rfl
  rw [ht, swapRemoveFirst_map, Option.map_eq_some_iff] at hfnd
  obtain ⟨⟨⟨req', t⟩, tks⟩, hc, heq⟩ := hfnd
  obtain ⟨rfl, rfl⟩ := Prod.mk.inj heq
  exact ⟨t, tks, hc, rfl⟩

/-- The identifiers of the queue are distinct, and so a callback with the
identifier of a request removes that very request. -/
def UniqueIdentifiers (s : Chain A) : Prop :=
  (s.pending.map CommandRequest.identifier).Nodup ∧
    ∀ request ∈ s.pending, ∃ rest,
      swapRemoveFirst (fun cmd => cmd.identifier == request.identifier) s.pending =
        some (request, rest)

theorem uniqueIdentifiers_iff :
    UniqueIdentifiers s ↔ (s.pending.map CommandRequest.identifier).Nodup := by
  refine ⟨fun h => h.1, fun hnd => ⟨hnd, ?_⟩⟩
  intro rq hmem
  obtain ⟨f, r, hfnd⟩ := swapRemoveFirst_isSome
    (p := fun cmd => cmd.identifier == rq.identifier) hmem (by simp)
  obtain ⟨hid, hp⟩ := swapRemoveFirst_eq_some hfnd
  have hf : f ∈ s.pending := hp.mem_iff.mpr (by simp)
  have hs : f = rq := inj_on_of_nodup_map hnd hf hmem (by simpa using hid)
  exact ⟨r, hs ▸ hfnd⟩

variable [DecidableEq A]

def step (H : Hashing) (l : Ledger A) (action : Action A) : Ledger A :=
  match l.chain.dispatch H action with
  | .ok s => { chain := s, tickets := l.ticketsAfter H action, metasAtWrite := l.metasAfter action }
  | .error _ => l

/-- The ledger runs the chain. -/
theorem step_chain (H : Hashing) (l : Ledger A) (a : Action A) :
    (l.step H a).chain = l.chain.step H a := by
  unfold step Chain.step
  cases l.chain.dispatch H a with
  | ok | error => rfl

theorem Coupled.step {l : Ledger A} (h : l.Coupled) (H : Hashing) (a : Action A) :
    (l.step H a).Coupled := by
  have heff := l.chain.dispatch_effect H a
  unfold Ledger.step
  generalize l.chain.dispatch H a = result at heff
  cases heff with
  | @initializeBlock bn ph =>
    obtain ⟨mat, hi⟩ := l.chain.initializeBlock_eq bn ph
    simp only [hi]
    exact h
  | addBytes => simpa [Coupled, ticketsAfter, queue, pending] using h
  | ocwCallback hcm hfnd =>
    obtain ⟨ticket, tks, hc, hr⟩ := complete_eq h hcm hfnd
    simp [Coupled, ticketsAfter, hc, hr, pending]
  | create | modifyContent => simpa [Coupled, ticketsAfter, queue, pending] using h
  | _ => exact h

/-! ## Queueing and completing -/

/-- The call is one that queues a request, and it succeeds. -/
def Queues (H : Hashing) (l : Ledger A) (action : Action A) : Prop :=
  action.Queueing ∧ ∃ s, l.chain.dispatch H action = .ok s

/-- What a step does to the tickets. -/
inductive QueueEffect (H : Hashing) (l l' : Ledger A) (action : Action A) : Prop where
  | started {blockNumber : BlockNumber} {parentHash : Hash}
      (haction : action = .initializeBlock blockNumber parentHash)
      (htickets : l'.tickets = l.tickets) (hblock : l'.chain.blockNumber = blockNumber)
  | queued {who : A} {version : UInt8} (hqueues : l.Queues H action)
      (htickets : l'.tickets = l.queue H who version action)
      (hblock : l'.chain.blockNumber = l.chain.blockNumber)
      (hid : l'.chain.generateId H = l.chain.generateId H)
  | completed (entry : CommandRequest A × Ticket A)
      (hno : ¬ l.Queues H action) (htickets : l.tickets.Perm (entry :: l'.tickets))
      (hblock : l'.chain.blockNumber = l.chain.blockNumber)
      (hid : l'.chain.generateId H = l.chain.generateId H)
  | idle (hno : ¬ l.Queues H action) (htickets : l'.tickets = l.tickets)
      (hblock : l'.chain.blockNumber = l.chain.blockNumber)
      (hid : l'.chain.generateId H = l.chain.generateId H)

theorem Coupled.queueEffect {l : Ledger A} (h : l.Coupled) (H : Hashing) (a : Action A) :
    QueueEffect H l (l.step H a) a := by
  have heff := l.chain.dispatch_effect H a
  unfold Ledger.step
  cases hres : l.chain.dispatch H a with
  | error fault =>
    have hno : ¬ l.Queues H a := by
      rintro ⟨-, s, hs⟩
      simp [hs] at hres
    exact .idle hno rfl rfl rfl
  | ok s =>
    rw [hres] at heff
    cases heff with
    | @initializeBlock bn ph =>
      obtain ⟨mat, hi⟩ := l.chain.initializeBlock_eq bn ph
      exact .started rfl rfl (by simp [hi])
    | addBytes => exact .queued ⟨trivial, _, hres⟩ rfl rfl rfl
    | @ocwCallback _ _ _ _ _ _ _ req _ hcm hfnd =>
      obtain ⟨t, tks, hc, hrest⟩ := complete_eq h hcm hfnd
      refine .completed (req, t) (fun hqs => hqs.1) ?_ rfl rfl
      simpa [ticketsAfter, hc] using (swapRemoveFirst_eq_some hc).2
    | create | modifyContent => exact .queued ⟨trivial, _, hres⟩ rfl rfl rfl
    | transfer => exact .idle (fun hqs => hqs.1) rfl rfl rfl

/-! ## Identifiers -/

/-- A new block has a greater number than the one before. -/
def BlocksIncrease (l : Ledger A) (action : Action A) : Prop :=
  ∀ blockNumber parentHash, action = .initializeBlock blockNumber parentHash →
    l.chain.blockNumber < blockNumber

/-- A request is queued only while no request of the same block is pending. -/
def QueuesOncePerBlock (H : Hashing) (l : Ledger A) (action : Action A) : Prop :=
  l.Queues H action → ∀ entry ∈ l.tickets, entry.2.blockNumber ≠ l.chain.blockNumber

/-- What is known about the identifier of a pending request, where `S` are the
payloads that get hashed: it is the hash of some seed and the block it was
queued in, and within that block the chain would give it out again. -/
structure GoodEntry (H : Hashing) (S : Set (List UInt8)) (s : Chain A)
    (entry : CommandRequest A × Ticket A) : Prop where
  block_le : entry.2.blockNumber ≤ s.blockNumber
  hashed : ∃ seed : Hash, encode seed ++ encode entry.2.blockNumber ∈ S ∧
    entry.1.identifier = H.blake2 (encode seed ++ encode entry.2.blockNumber)
  current : entry.2.blockNumber = s.blockNumber → entry.1.identifier = s.generateId H

structure IdentifierInv (H : Hashing) (S : Set (List UInt8)) (l : Ledger A) : Prop where
  coupled : l.Coupled
  entries : ∀ entry ∈ l.tickets, GoodEntry H S l.chain entry

variable {H : Hashing} {S : Set (List UInt8)} {l : Ledger A} {a : Action A}

omit [DecidableEq A] in
/-- Within a block nothing changes for an entry. -/
theorem GoodEntry.congr (h : GoodEntry H S s entry) (hblk : s'.blockNumber = s.blockNumber)
    (hid : s'.generateId H = s.generateId H) : GoodEntry H S s' entry :=
  ⟨hblk ▸ h.block_le, h.hashed, by rw [hblk, hid]; exact h.current⟩

omit [DecidableEq A] in
/-- In a later block an entry is not current. -/
theorem GoodEntry.later (h : GoodEntry H S s entry) (hlt : s.blockNumber < s'.blockNumber) :
    GoodEntry H S s' entry := by
  have hent : entry.2.blockNumber < s'.blockNumber := UInt32.lt_of_le_of_lt h.block_le hlt
  refine ⟨UInt32.le_of_lt hent, h.hashed, ?_⟩
  intro heq
  exact absurd (heq ▸ hent) (UInt32.lt_irrefl _)

theorem IdentifierInv.step (h : IdentifierInv H S l) (hinc : BlocksIncrease l a)
    (hpay : l.chain.idPayload H ∈ S) : IdentifierInv H S (l.step H a) := by
  refine ⟨h.coupled.step H a, ?_⟩
  cases h.coupled.queueEffect H a with
  | started hact ht hblk =>
    rw [ht]
    exact fun entry hmem => (h.entries entry hmem).later (hblk ▸ hinc _ _ hact)
  | queued hqs ht hblk hid =>
    rw [ht]
    intro entry hmem
    obtain hold | rfl := by simpa [queue] using hmem
    · exact (h.entries entry hold).congr hblk hid
    · exact ⟨hblk ▸ UInt32.le_refl _, ⟨l.chain.random H requestIdSubject, hpay, rfl⟩,
        fun _ => hid.symm⟩
  | completed done hno ht hblk hid =>
    intro entry hmem
    have hold : entry ∈ l.tickets := ht.mem_iff.mpr (mem_cons_of_mem _ hmem)
    exact (h.entries entry hold).congr hblk hid
  | idle hno ht hblk hid =>
    rw [ht]
    exact fun entry hmem => (h.entries entry hmem).congr hblk hid

omit [DecidableEq A] in
/-- The next identifier is that of a pending request exactly when the request
was queued in this block. -/
theorem GoodEntry.identifier_eq_iff (h : GoodEntry H S s entry) (hinj : Set.InjOn H.blake2 S)
    (hpay : s.idPayload H ∈ S) :
    entry.1.identifier = s.generateId H ↔ entry.2.blockNumber = s.blockNumber := by
  refine ⟨?_, h.current⟩
  intro hid
  obtain ⟨se, hs, hh⟩ := h.hashed
  have hsa : encode se ++ encode entry.2.blockNumber = s.idPayload H :=
    hinj hs hpay (hh.symm.trans hid)
  have hlen : (encode se).length = (encode (s.random H requestIdSubject)).length := by
    simp only [encode, List.Vector.toList_length]
  exact encode_inj.mp (append_inj hsa hlen).2

/-- One step keeps the identifiers distinct exactly when it queues no second
request of a block. -/
theorem uniqueIdentifiers_step_iff (h : IdentifierInv H S l) (hinj : Set.InjOn H.blake2 S)
    (hpay : l.chain.idPayload H ∈ S) (hu : UniqueIdentifiers l.chain) :
    UniqueIdentifiers (l.step H a).chain ↔ QueuesOncePerBlock H l a := by
  have hcoup' := h.coupled.step H a
  rw [uniqueIdentifiers_iff, ← h.coupled, map_map] at hu
  rw [uniqueIdentifiers_iff, ← hcoup', map_map]
  cases h.coupled.queueEffect H a with
  | started hact ht hblk =>
    rw [ht]
    refine iff_of_true hu ?_
    subst hact
    exact fun hqs => absurd hqs.1 id
  | queued hqs ht hblk hid =>
    have hnew : ∀ entry ∈ l.tickets, entry.1.identifier = l.chain.generateId H ↔
        entry.2.blockNumber = l.chain.blockNumber :=
      fun entry hmem => (h.entries entry hmem).identifier_eq_iff hinj hpay
    rw [ht, queue, map_append, nodup_append]
    constructor
    · rintro ⟨-, -, hdi⟩ _ entry hmem hb
      have hin : entry.1.identifier ∈ l.tickets.map (CommandRequest.identifier ∘ Prod.fst) :=
        mem_map_of_mem hmem
      exact hdi _ hin _ (by simp) ((hnew entry hmem).mpr hb)
    · intro ho
      refine ⟨hu, by simp, ?_⟩
      intro ident hin i' hin' heq
      obtain ⟨entry, hmem, rfl⟩ := mem_map.mp hin
      obtain rfl : i' = l.chain.generateId H := by simpa using hin'
      exact ho hqs entry hmem ((hnew entry hmem).mp heq)
  | completed done hno ht hblk hid =>
    refine iff_of_true ?_ fun hqs => absurd hqs hno
    exact ((ht.map _).nodup_iff.mp hu).of_cons
  | idle hno ht hblk hid =>
    rw [ht]
    exact iff_of_true hu fun hqs => absurd hqs hno

end Ledger

variable [DecidableEq A]

/-- The payloads hashed along a run, whether or not a call needs them. -/
def idPayloads (H : Hashing) (actions : List (Action A)) : Set (List UInt8) :=
  { payload | ∃ pre, pre <+: actions ∧
    payload = (exec (Chain.step H) (Chain.genesis A) pre).idPayload H }

/-- Along every run from empty storage, with the hash injective on the payloads
of the run, the pending identifiers are distinct in every state exactly when a
request is queued only while no request of the same block is pending. -/
theorem unique_identifiers_iff (H : Hashing) (actions : List (Action A))
    (hinj : Set.InjOn H.blake2 (idPayloads H actions))
    (hincrease : Run.Each (Ledger.step H) Ledger.BlocksIncrease (Ledger.genesis A) actions) :
    Run.Always (Chain.step H) Ledger.UniqueIdentifiers (Chain.genesis A) actions ↔
      Run.Each (Ledger.step H) (Ledger.QueuesOncePerBlock H) (Ledger.genesis A) actions := by
  have hv : Always (Ledger.step H) (fun l => Ledger.UniqueIdentifiers l.chain)
      (Ledger.genesis A) actions ↔
      Always (step H) Ledger.UniqueIdentifiers (genesis A) actions :=
    always_view (Ledger.step_chain H)
  refine hv.symm.trans ?_
  apply always_iff_each (I := Ledger.IdentifierInv H (idPayloads H actions))
    (E := fun l a => Ledger.BlocksIncrease l a ∧ l.chain.idPayload H ∈ idPayloads H actions)
  · intro l a hinv _ hs _
    exact hinv.step hs.1 hs.2
  · intro l a hinv hu hs
    exact Ledger.uniqueIdentifiers_step_iff hinv hinj hs.2 hu
  · exact ⟨rfl, by simp [Ledger.genesis]⟩
  · simp [Ledger.UniqueIdentifiers, Ledger.genesis, genesis, pending]
  · intro pre a hpre
    refine ⟨hincrease pre a hpre, pre, (prefix_append pre [a]).trans hpre, ?_⟩
    rw [exec_view (Ledger.step_chain H)]
    rfl

/-! ### Two uploads -/

/-- A hash that keeps the end of its input, and no randomness: injective on the
payloads, which then differ in the block number at the end. -/
def Hashing.suffix : Hashing where
  blake2 bytes := ⟨(bytes.reverse ++ List.replicate 32 0).take 32, by simp⟩
  tripletMix _ := .replicate 32 0

omit [DecidableEq A] in
theorem Hashing.suffix_random (s : Chain A) :
    s.random .suffix requestIdSubject = .replicate 32 0 := by
  unfold random
  cases s.randomMaterial with
  | nil | cons => rfl

theorem Hashing.suffix_injOn (acts : List (Action A)) :
    Set.InjOn suffix.blake2 (idPayloads .suffix acts) := by
  rintro _ ⟨pre, -, rfl⟩ _ ⟨p', -, rfl⟩ hh
  simp only [idPayload, suffix_random] at hh ⊢
  generalize (exec (step .suffix) (genesis A) pre).blockNumber = b at hh ⊢
  generalize (exec (step .suffix) (genesis A) p').blockNumber = b' at hh ⊢
  have hfr := congrArg (fun v => v.toList.take 4) hh
  simp only [suffix, List.Vector.toList_mk, reverse_append, append_assoc, take_take] at hfr
  have hl : ∀ (n : BlockNumber) r, ((encode n).reverse ++ r).take 4 = (encode n).reverse :=
    fun n r => take_left' (by simp)
  rw [show min 4 32 = 4 from rfl, hl, hl, reverse_inj] at hfr
  rw [hfr]

/-- An upload by account 0. -/
def uploadX : Action ℕ := .addBytes 0 ⟨[120], by decide⟩ 1 ⟨[109], by decide⟩

/-- Uploads in two blocks. -/
def uploadsInTwoBlocks : List (Action ℕ) :=
  [.initializeBlock 1 (.replicate 32 0), uploadX,
    .initializeBlock 2 (.replicate 32 0), uploadX]

theorem unique_identifiers_uploadsInTwoBlocks :
    Run.Always (Chain.step .suffix) Ledger.UniqueIdentifiers (Chain.genesis ℕ)
      uploadsInTwoBlocks := by
  apply (unique_identifiers_iff .suffix uploadsInTwoBlocks (Hashing.suffix_injOn _) ?_).mpr
  · simp only [uploadsInTwoBlocks, each_cons, each_nil, and_true]
    refine ⟨fun hqs => absurd hqs.1 id, ?_, fun hqs => absurd hqs.1 id, ?_⟩
    · intro _ entry hmem
      exact absurd hmem not_mem_nil
    · intro _ entry hmem
      obtain rfl := mem_singleton.mp hmem
      decide
  · simp only [uploadsInTwoBlocks, uploadX, each_cons]
    refine ⟨?_, by simp [Ledger.BlocksIncrease], ?_, by simp [Ledger.BlocksIncrease]⟩
    · rintro bn ph heq
      obtain ⟨rfl, -⟩ := Action.initializeBlock.inj heq
      decide
    · rintro bn ph heq
      obtain ⟨rfl, -⟩ := Action.initializeBlock.inj heq
      decide

/-- Uploads in one block. -/
def uploadsInOneBlock : List (Action ℕ) :=
  [.initializeBlock 1 (.replicate 32 0), uploadX, uploadX]

/-- The two requests have one identifier, whatever the hash. -/
theorem identifiers_collide_uploadsInOneBlock :
    Set.InjOn Hashing.suffix.blake2 (idPayloads .suffix uploadsInOneBlock) ∧
    Run.Each (Ledger.step .suffix) Ledger.BlocksIncrease (Ledger.genesis ℕ) uploadsInOneBlock ∧
    ¬ Run.Always (Chain.step .suffix) Ledger.UniqueIdentifiers (Chain.genesis ℕ)
      uploadsInOneBlock := by
  refine ⟨Hashing.suffix_injOn _, ?_, ?_⟩
  · simp only [uploadsInOneBlock, uploadX, each_cons]
    refine ⟨?_, by simp [Ledger.BlocksIncrease], by simp [Ledger.BlocksIncrease]⟩
    rintro bn ph heq
    obtain ⟨rfl, -⟩ := Action.initializeBlock.inj heq
    decide
  · intro halw
    have hnd := halw.last.1
    have hids : ∃ i,
        (exec (step .suffix) (genesis ℕ) uploadsInOneBlock).pending.map
          CommandRequest.identifier = [i, i] := ⟨_, rfl⟩
    obtain ⟨i, hids⟩ := hids
    simp [hids] at hnd

/-! ## Conservation of requests -/

namespace Chain

/-- The request that a call queues, and the identifier that it completes, if it succeeds. -/
def traffic (H : Hashing) (s : Chain A) (action : Action A) :
    List (CommandRequest A) × List Identifier :=
  match s.dispatch H action, action with
  | .ok _, .addBytes who _ version _ => ([⟨s.generateId H, who, [.addBytes version]⟩], [])
  | .ok _, .create who _ _ | .ok _, .modifyContent _ who _ _ _ =>
    ([⟨s.generateId H, who, [.addBytes 1]⟩], [])
  | .ok _, .ocwCallback _ _ identifier _ _ => ([], [identifier])
  | _, _ => ([], [])

/-- A step, beside what has been queued and completed so far. -/
def record (H : Hashing) (r : Chain A × List (CommandRequest A) × List Identifier)
    (action : Action A) :=
  (r.1.step H action, r.2.1 ++ (r.1.traffic H action).1, r.2.2 ++ (r.1.traffic H action).2)

theorem pending_step (H : Hashing) (s : Chain A) (a : Action A) :
    ∃ done : List (CommandRequest A), done.map (·.identifier) = (s.traffic H a).2 ∧
      ((s.step H a).pending ++ done).Perm (s.pending ++ (s.traffic H a).1) := by
  have heff := s.dispatch_effect H a
  unfold step traffic
  generalize s.dispatch H a = res at heff
  cases heff with
  | @initializeBlock n ph =>
    obtain ⟨mat, hi⟩ := s.initializeBlock_eq n ph
    exact ⟨[], rfl, by simp [hi, pending]⟩
  | ocwCallback hcm hfnd =>
    obtain ⟨hid, hperm⟩ := swapRemoveFirst_eq_some hfnd
    refine ⟨[_], by simpa using hid, ?_⟩
    simpa [pending, hcm] using (perm_append_singleton _ _).trans hperm.symm
  | _ => exact ⟨[], rfl, by simp [pending, after]⟩

/-- At any time the requests that were queued are those that are pending and those that callbacks
have completed, one each. -/
theorem requests_conserved (H : Hashing) (actions : List (Action A)) :
    Always (record H) (fun r => ∃ done : List (CommandRequest A),
      done.map (·.identifier) = r.2.2 ∧ (r.1.pending ++ done).Perm r.2.1)
      (genesis A, [], []) actions := by
  refine Each.always (G := fun _ _ => True) (fun r a hr _ => ?_) ⟨[], rfl, .refl _⟩
    fun _ _ _ => trivial
  obtain ⟨done, hid, hperm⟩ := hr
  obtain ⟨new, hids, hperms⟩ := pending_step H r.1 a
  refine ⟨done ++ new, by simp [record, hid, hids], perm_iff_count.mpr fun q => ?_⟩
  have h1 := hperm.count_eq q
  have h2 := hperms.count_eq q
  simp only [record, count_append] at h1 h2 ⊢
  omega

end Chain

end Ipfs

/-! ## The file index

The index of pallet-tds-ipfs maps a cid to the meta data of the file. The meta
data is an argument of `addBytes`, but it is not stored with the request: the
callback brings it again, and the index takes what the callback says.
-/

namespace Ipfs

open Offchain Ledger

variable {A : Type} {l : Ledger A}

namespace Ledger

/-- Every entry is under its own cid, and its meta data is that of an `addBytes`
call whose request was pending when the entry was written. -/
def Authentic (l : Ledger A) : Prop :=
  ∀ cid file, (l.chain.ipfsFileStorage .tdsIpfs).lookup cid = some file →
    file.cid = cid ∧ file.metaData ∈ l.metasAtWrite cid

/-- A callback that writes a file brings the meta data of a pending upload. -/
def WritesPendingMeta (l : Ledger A) (action : Action A) : Prop :=
  ∀ cid metaData, l.fileWritten action = some (cid, metaData) → metaData ∈ l.pendingMetas

/-- A callback for what is not pending completes nothing. -/
theorem complete_eq_none (h : l.Coupled) {i : Identifier}
    (hnot : ¬ l.chain.Pending i) : l.complete i = none := by
  apply Vec.swapRemoveFirst_eq_none.mpr
  intro e hmem
  have hp : e.1 ∈ l.chain.pending := h ▸ List.mem_map_of_mem hmem
  simpa using fun hid => hnot ⟨e.1, hp, hid⟩

/-- The file a callback writes, in terms of the entry it completes. -/
theorem indexFile_eq {pal : PalletId} {who : A} {i : Identifier} {d : Bytes}
    {od : Option OffchainData} {req : CommandRequest A} {t : Ticket A}
    {tks : List (CommandRequest A × Ticket A)} (hc : l.complete i = some ((req, t), tks)) :
    Chain.indexFile pal req d od l.chain.ipfsFileStorage .tdsIpfs =
      match l.fileWritten (.ocwCallback pal who i d od) with
      | some (cid, md) => (l.chain.ipfsFileStorage .tdsIpfs).insert cid ⟨cid, md⟩
      | none => l.chain.ipfsFileStorage .tdsIpfs := by
  cases pal with
  | knowledge =>
    simp only [Chain.indexFile, fileWritten]
    cases containsValueOfTypeInVector (.addBytes 0) req.ipfsCommands with
    | false => rfl
    | true =>
      cases od with
      | none => rfl
      | some od => simp
  | tdsIpfs =>
    simp only [Chain.indexFile, fileWritten]
    cases od with
    | none =>
      cases containsValueOfTypeInVector (.addBytes 0) req.ipfsCommands with
      | false | true => rfl
    | some od =>
      simp only [hc]
      cases containsValueOfTypeInVector (.addBytes 0) req.ipfsCommands with
      | false => rfl
      | true => simp

variable [DecidableEq A]

/-- A step writes the file the ledger says, and no other. -/
theorem step_files (h : l.Coupled) (H : Hashing) (a : Action A) :
    (l.step H a).chain.ipfsFileStorage .tdsIpfs =
      match l.fileWritten a with
      | some (cid, md) => (l.chain.ipfsFileStorage .tdsIpfs).insert cid ⟨cid, md⟩
      | none => l.chain.ipfsFileStorage .tdsIpfs := by
  have heff := l.chain.dispatch_effect H a
  unfold step
  generalize l.chain.dispatch H a = result at heff
  cases heff with
  | @initializeBlock bn ph =>
    obtain ⟨mat, hi⟩ := l.chain.initializeBlock_eq bn ph
    simp only [hi]
    rfl
  | addBytes => rfl
  | ocwCallback hcm hfnd =>
    obtain ⟨ticket, tks, hc, -⟩ := complete_eq h hcm hfnd
    exact indexFile_eq hc
  | create | modifyContent | transfer => rfl
  | @callbackRefused pal _ _ _ od hnot =>
    cases pal with
    | knowledge => rfl
    | tdsIpfs =>
      cases od with
      | none => rfl
      | some od => simp [fileWritten, complete_eq_none h hnot]
  | modifyRefused => rfl

theorem step_metas (h : l.Coupled) (H : Hashing) (a : Action A) :
    (l.step H a).metasAtWrite = l.metasAfter a := by
  have heff := l.chain.dispatch_effect H a
  unfold step
  cases hres : l.chain.dispatch H a with
  | ok s => rfl
  | error fault =>
    rw [hres] at heff
    cases heff with
    | @callbackRefused pal _ _ _ od hnot =>
      cases pal with
      | knowledge => rfl
      | tdsIpfs =>
        cases od with
        | none => rfl
        | some od => simp [metasAfter, fileWritten, complete_eq_none h hnot]
    | modifyRefused => rfl

/-- One step keeps the index authentic exactly when it writes no foreign meta
data. -/
theorem authentic_step_iff {H : Hashing} {a : Action A} (h : l.Coupled)
    (ha : l.Authentic) : (l.step H a).Authentic ↔ l.WritesPendingMeta a := by
  unfold Authentic WritesPendingMeta
  rw [step_files h, step_metas h, metasAfter]
  cases hwrit : l.fileWritten a with
  | none => exact iff_of_true ha (by simp)
  | some w =>
    obtain ⟨cid, md⟩ := w
    constructor
    · intro hall c' md' heq
      obtain ⟨rfl, rfl⟩ := Prod.mk.inj (Option.some.inj heq)
      simpa using (hall cid ⟨cid, md⟩ (AList.lookup_insert _)).2
    intro hp c' f hl
    by_cases hcid : c' = cid
    · subst hcid
      obtain rfl : ⟨c', md⟩ = f := by simpa using hl
      exact ⟨rfl, by simpa using hp c' md rfl⟩
    · rw [AList.lookup_insert_ne hcid] at hl
      simpa [hcid] using ha c' f hl

end Ledger

variable [DecidableEq A]

/-- Along every run from empty storage, the file index is authentic in every
state exactly when every callback that writes a file brings the meta data of a
pending upload. -/
theorem file_index_authentic_iff (H : Hashing) (actions : List (Action A)) :
    Run.Always (step H) Ledger.Authentic (genesis A) actions ↔
      Run.Each (step H) Ledger.WritesPendingMeta (genesis A) actions := by
  apply Run.always_iff_each (I := Coupled) (E := fun _ _ => True)
  · intro l a hc _ _ _
    exact hc.step H a
  · intro l a hc ha _
    exact authentic_step_iff hc ha
  · rfl
  · intro cid file hl
    simp [genesis, Chain.genesis] at hl
  · exact fun _ _ _ => trivial

/-- Account 0 uploads with meta data 109, and account 1 calls back with 101. -/
def forgedCallback : List (Action ℕ) :=
  [.initializeBlock 1 (.replicate 32 0),
    .addBytes 0 ⟨[120], by decide⟩ 1 ⟨[109], by decide⟩,
    .ocwCallback .tdsIpfs 1 (.replicate 32 0) ⟨[99], by decide⟩
      (some ⟨⟨[120], by decide⟩, ⟨[101], by decide⟩⟩)]

theorem file_index_forged :
    ¬ Run.Always (step .trivial) Ledger.Authentic (genesis ℕ) forgedCallback := by
  intro halw
  have hent := halw.last ⟨[99], by decide⟩ ⟨⟨[99], by decide⟩, [101], by decide⟩ rfl
  have hm : (Run.exec (step .trivial) (genesis ℕ) forgedCallback).metasAtWrite
      ⟨[99], by decide⟩ = [⟨[109], by decide⟩] := rfl
  rw [hm] at hent
  simp at hent

end Ipfs
