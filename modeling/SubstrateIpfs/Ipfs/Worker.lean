-- SUMMARY: The offchain worker of pallet-tds-ipfs, executed alone against a node.
import SubstrateIpfs.Ipfs.Pallet

/-!
# The offchain worker

For every block the worker goes over the whole queue. For each request it reads
the slot of the block, processes the request, and submits the result in a signed
callback. The second part executes it against a node and cuts what it sends into
one segment for each request.
-/

namespace Ipfs

open List Function

open Offchain

/-! ## The worker -/

def processedCommandsKey : Key := "ipfs::processed_commands".toUTF8.data.toList

variable {p : Purpose} {bn : BlockNumber}
  {res : Except IpfsError (List IpfsResponse)} {db' : Db} {command : IpfsCommand}

section
variable {A : Type} {identifier : Identifier} {request : CommandRequest A}

def allAccounts : Worker A (List A) :=
  Prog.perform (I := interface (workerHost A)) (.inr .allAccounts)

def submitSigned (account : A) (call : WorkerCall) : Worker A Bool :=
  Prog.perform (I := interface (workerHost A)) (.inr (.submitSigned account call))

def sendSignedTransaction (call : WorkerCall) : List A → Worker A Unit
  | [] => return ()
  | account :: accounts => do
    let _ ← submitSigned account call
    sendSignedTransaction call accounts

/-- Callback to the on-chain validators, signed by every local account. -/
def signedCallback (commandRequest : CommandRequest A) (data : List UInt8)
    (offchainData : Option OffchainData) : Worker A (Except IpfsError Unit) := do
  let accounts ← allAccounts
  if accounts.isEmpty then
    return .error .requestFailed
  else
    sendSignedTransaction (.ocwCallback commandRequest.identifier data offchainData) accounts
    return .ok ()

/-- The data to call back with: an undecodable slot counts as empty. -/
def callbackData : Except StorageRetrievalError (Option OffchainData) → Option OffchainData
  | .ok data => data
  | .error _ => none

/-- The body of the loop over the queue. -/
def processCommandRequest (blockNumber : BlockNumber) (commandRequest : CommandRequest A) :
    Worker A Unit := do
  let stored ← readCidDataForBlockNumber blockNumber
  let offchainData := callbackData stored
  match ← ocwProcessCommand blockNumber commandRequest processedCommandsKey with
  | .ok responses =>
    let _ ← signedCallback commandRequest (ocwParseIpfsResponse responses) offchainData
    return ()
  | .error _ => return ()

/-- Iterate over all of the active requests calling them. -/
def ocwProcessCommandRequests (blockNumber : BlockNumber) : List (CommandRequest A) → Worker A Unit
  | [] => return ()
  | commandRequest :: commandRequests => do
    processCommandRequest blockNumber commandRequest
    ocwProcessCommandRequests blockNumber commandRequests

/-- Ask for the peers, for the log. -/
def printMetadata : Worker A (Except IpfsError Unit) := do
  match ← ipfsRequest none .peers with
  | .ok _ => return .ok ()
  | .error error => return .error error

/-- The hook of the pallet, with the queue it reads. -/
def offchainWorker (blockNumber : BlockNumber) (commands : Option (List (CommandRequest A))) :
    Worker A Unit := do
  let _ ← printMetadata
  ocwProcessCommandRequests blockNumber (commands.getD [])

/-! ## Executing it -/

/-- What leaves the worker. -/
inductive WorkerEvent (A : Type) where
  | node (request : IpfsRequest)
  | signed (account : A) (call : WorkerCall)
  | unsigned (call : WorkerCall)

/-- The surroundings of a worker: the node, which may answer by what happened so
far, the accounts in the keystore, and the transaction pool. -/
structure World (A : Type) where
  node : List (WorkerEvent A) → IpfsRequest → NodeAnswer
  accounts : List A
  submits : WorkerCall → Bool

def World.answer (w : World A) (trace : List (WorkerEvent A)) :
    (o : WorkerOp A) → o.Ret × List (WorkerEvent A)
  | .ipfs _ request => (w.node trace request, trace ++ [.node request])
  | .allAccounts => (w.accounts, trace)
  | .submitSigned account call => (w.submits call, trace ++ [.signed account call])
  | .submitUnsigned call => (w.submits call, trace ++ [.unsigned call])

/-- Execute a program of the worker on a database, after what happened so far. -/
def World.run {α : Type} (w : World A) (p : Worker A α) (db : Db) (trace : List (WorkerEvent A)) :
    Option α × Db × List (WorkerEvent A) :=
  Prog.run (handle w.answer) p (db, trace)

/-! ### Processing a request -/

variable {w : World A} {db : Db} {trace : List (WorkerEvent A)}

theorem World.run_bind {α B : Type} {p : Worker A α} {f : α → Worker A B} {a : α}
    {t' : List (WorkerEvent A)} (h : w.run p db trace = (some a, db', t')) :
    w.run (p >>= f) db trace = w.run (f a) db' t' :=
  Prog.run_bind_of_some h

theorem run_readCidDataForBlockNumber (n : BlockNumber) :
    w.run (readCidDataForBlockNumber n) db trace =
      (some (decodeStored OffchainData (db (offchainDataKey n))), db, trace) := rfl

/-- The data of the block. -/
def slotOf (blockNumber : BlockNumber) (db : Db) :
    Except StorageRetrievalError (Option OffchainData) :=
  decodeStored OffchainData (db (offchainDataKey blockNumber))

theorem run_readCidForBlockNumber (w : World A) (n : BlockNumber) (db : Db)
    (t : List (WorkerEvent A)) :
    w.run (readCidForBlockNumber n) db t =
      match slotOf n db with
      | .ok (some d) => (some (.ok d), db, t)
      | .ok none => (none, db, t)
      | .error error => (some (.error error), db, t) := by
  rw [readCidForBlockNumber, World.run_bind (run_readCidDataForBlockNumber n), ← slotOf]
  cases slotOf n db with
  | error error => rfl
  | ok d =>
    cases d with
    | none | some => rfl

/-- The command has what it needs: for `addBytes` this is the data of the block. -/
def Readable (blockNumber : BlockNumber) (db : Db) : IpfsCommand → Bool
  | .addBytes _ => match slotOf blockNumber db with
    | .ok (some _) => true
    | _ => false
  | _ => true

/-- The bytes that `addBytes` sends. -/
def slotBytes (blockNumber : BlockNumber) (db : Db) : Bytes :=
  match slotOf blockNumber db with
  | .ok (some data) => data.data
  | _ => .empty

/-- The requests of the commands, as they leave the worker. -/
def sent (A : Type) (bytes : Bytes) (commands : List IpfsCommand) : List (WorkerEvent A) :=
  commands.map fun command => .node (command.request bytes)

theorem run_processCommand_readable (h : Readable p.blockNumber db command = true) :
    w.run (processCommand p command) db trace =
      (some (.ok (command.check
        (w.node trace (command.request (slotBytes p.blockNumber db))).result)), db,
        trace ++ [.node (command.request (slotBytes p.blockNumber db))]) := by
  cases command with
  | addBytes version =>
    cases hs : slotOf p.blockNumber db with
    | error error => simp [Readable, hs] at h
    | ok d =>
      cases d with
      | none => simp [Readable, hs] at h
      | some d =>
        have hr : w.run (readCidForBlockNumber p.blockNumber) db trace =
            (some (.ok d), db, trace) := by
          rw [run_readCidForBlockNumber, hs]
        rw [processCommand, World.run_bind hr]
        simp only [slotBytes, hs]
        rfl
  | _ => rfl

/-- Without its data, `addBytes` ends the loop. It does so with a panic if there is nothing in the
slot. -/
theorem run_processCommand_unreadable (t : List (WorkerEvent A))
    (h : Readable p.blockNumber db command = false) :
    w.run (processCommand p command) db t = (some (.error .requestFailed), db, t) ∨
      w.run (processCommand p command) db t = (none, db, t) ∧
        db (offchainDataKey p.blockNumber) = none := by
  cases command with
  | addBytes version =>
    have hr := run_readCidForBlockNumber w p.blockNumber db t
    cases hs : slotOf p.blockNumber db with
    | error error =>
      rw [hs] at hr
      exact .inl (World.run_bind hr)
    | ok d =>
      cases d with
      | none =>
        rw [hs] at hr
        exact .inr ⟨Prog.run_bind_of_none hr, decodeStored_eq_none.mp hs⟩
      | some d => simp [Readable, hs] at h
  | _ => cases h

/-- The requests are sent up to the first command that lacks its data. -/
theorem run_processCommands (w : World A) (pu : Purpose) (db : Db) (cs : List IpfsCommand)
    (rs : List IpfsResponse) (t : List (WorkerEvent A)) :
    ∃ res, w.run (processCommands pu cs rs) db t =
        (res, db, t ++ sent A (slotBytes pu.blockNumber db)
          (cs.takeWhile (Readable pu.blockNumber db))) ∧
      (db (offchainDataKey pu.blockNumber) ≠ none → res.isSome) := by
  induction cs generalizing rs t with
  | nil => exact ⟨some (.ok rs), by simp [processCommands, World.run, sent], fun _ => rfl⟩
  | cons command cs ih =>
    rw [processCommands]
    cases hr : Readable pu.blockNumber db command with
    | true =>
      rw [World.run_bind (run_processCommand_readable hr), takeWhile_cons_of_pos hr,
        sent, map_cons, append_cons t _ (map _ _)]
      cases command.check _ with
      | ok r => exact ih (rs ++ [r]) _
      | error error => exact ih rs _
    | false =>
      simp only [hr, takeWhile_cons, sent, Bool.false_eq_true, if_false, map_nil, append_nil]
      rcases run_processCommand_unreadable t hr with hrun | ⟨hrun, hn⟩
      · exact ⟨_, World.run_bind hrun, fun _ => rfl⟩
      · exact ⟨none, Prog.run_bind_of_none hrun, absurd hn⟩

/-! ### The lock and the list of processed requests -/

/-- The worker of the block gets the lock: no other block is in the entry. -/
def LockFree (blockNumber : BlockNumber) (db : Db) (identifier : Identifier) : Prop :=
  ∀ block, decodeStored BlockNumber (db identifier.toList) = .ok (some block) → block = blockNumber

/-- The storage with the lock of a request taken. -/
def lockTaken (blockNumber : BlockNumber) (db : Db) (request : CommandRequest A) : Db :=
  update db request.identifier.toList (some (Scale.encode blockNumber))

theorem lockFree_empty (n : BlockNumber) (i : Identifier) : LockFree n (fun _ => none) i := by
  intro block hblk
  cases hblk

theorem lockFor_of_free (hf : LockFree bn db identifier) :
    lockFor bn (decodeStored _ (db identifier.toList)) = .ok bn := by
  cases hdec : decodeStored BlockNumber (db identifier.toList) with
  | error error => rfl
  | ok e =>
    cases e with
    | none => rfl
    | some b =>
      obtain rfl := hf b hdec
      simp [lockFor]

theorem lockFor_of_not_free (hlkd : ¬ LockFree bn db identifier) :
    lockFor bn (decodeStored _ (db identifier.toList)) = .error .failedToAcquireLock := by
  simp only [LockFree, not_forall] at hlkd
  obtain ⟨block, hdec, hne⟩ := hlkd
  rw [hdec]
  exact if_pos (symm hne)

theorem run_acquire_free (hf : LockFree bn db request.identifier) :
    w.run (acquireCommandRequestLock bn request) db trace =
      (some (.ok bn), lockTaken bn db request, trace) :=
  run_mutate_ok (congrArg Prog.ret (lockFor_of_free hf))

/-- How many identifiers the list of processed requests has. -/
def processedCount (db : Db) : ℕ :=
  match decodeStored (Scale.Vec Identifier) (db processedCommandsKey) with
  | .ok (some identifiers) => identifiers.1.length
  | _ => 0

/-- The list of processed requests grows by one, unless it is full. -/
theorem addProcessed_eq_some (i : Identifier) (hr : processedCount db + 1 < 2 ^ 32) :
    ∃ ids, ids.1.length = processedCount db + 1 ∧
      addProcessed i (decodeStored _ (db processedCommandsKey)) = some ids := by
  unfold processedCount at hr ⊢
  cases hdec : decodeStored (Scale.Vec Identifier) (db processedCommandsKey) with
  | error error => exact ⟨_, rfl, rfl⟩
  | ok e =>
    cases e with
    | none => exact ⟨_, rfl, rfl⟩
    | some ids =>
      simp only [hdec] at hr
      have hlen : (ids.1 ++ [i]).length < 2 ^ 32 := by simpa using hr
      exact ⟨⟨ids.1 ++ [i], hlen⟩, by simp, dif_pos hlen⟩

theorem run_sendSignedTransaction (c : WorkerCall) (acs : List A) (t : List (WorkerEvent A)) :
    w.run (sendSignedTransaction c acs) db t =
      (some (), db, t ++ acs.map fun acc => .signed acc c) := by
  induction acs generalizing t with
  | nil => simp [sendSignedTransaction, World.run]
  | cons acc acs ih =>
    have hs : w.run (submitSigned acc c) db t =
        (some (w.submits c), db, t ++ [.signed acc c]) := rfl
    rw [sendSignedTransaction, World.run_bind hs, ih]
    simp

theorem run_signedCallback (rq : CommandRequest A) (d : List UInt8) (od : Option OffchainData) :
    ∃ res, w.run (signedCallback rq d od) db trace =
      (some res, db, trace ++ w.accounts.map fun acc =>
        .signed acc (.ocwCallback rq.identifier d od)) := by
  have ha : w.run allAccounts db trace = (some w.accounts, db, trace) := rfl
  rw [signedCallback, World.run_bind ha]
  cases hemp : w.accounts with
  | nil => exact ⟨.error .requestFailed, by simp [World.run]⟩
  | cons acc accounts =>
    refine ⟨.ok (), ?_⟩
    simp only [isEmpty_cons, Bool.false_eq_true, if_false]
    rw [World.run_bind (run_sendSignedTransaction _ _ _)]
    rfl

/-! ### The body of the loop

The slot, the locks and the list of processed requests have keys of different
lengths, so writing one leaves the others alone. -/

theorem length_offchainDataKey (n : BlockNumber) : (offchainDataKey n).length = 25 := by
  have hpre : (offchainKeyPrefix ++ "/".toUTF8.data.toList).length = 21 := by decide
  rw [offchainDataKey, length_append, hpre, Scale.length_encode_u32]

theorem length_processedCommandsKey : processedCommandsKey.length = 24 := by decide

theorem offchainDataKey_ne_identifier (n : BlockNumber) (i : Identifier) :
    offchainDataKey n ≠ i.toList := by
  intro heq
  simpa [length_offchainDataKey] using congrArg length heq

theorem offchainDataKey_ne_processedCommandsKey (n : BlockNumber) :
    offchainDataKey n ≠ processedCommandsKey := by
  intro heq
  simpa [length_offchainDataKey, length_processedCommandsKey] using congrArg length heq

theorem processedCommandsKey_ne_identifier (i : Identifier) : processedCommandsKey ≠ i.toList := by
  intro heq
  simpa [length_processedCommandsKey] using congrArg length heq

/-- What processing `n` requests does to the storage: the slot of the block
stays, the same requests are open to the worker of the block, and the list of
processed requests has grown by at most `n`. -/
structure Advanced (blockNumber : BlockNumber) (n : ℕ) (db db' : Db) : Prop where
  slot : db' (offchainDataKey blockNumber) = db (offchainDataKey blockNumber)
  lock : ∀ identifier, LockFree blockNumber db' identifier ↔ LockFree blockNumber db identifier
  count : processedCount db' ≤ processedCount db + n

theorem Advanced.refl (bn : BlockNumber) (n : ℕ) (db : Db) : Advanced bn n db db :=
  ⟨rfl, fun _ => Iff.rfl, Nat.le_add_right _ _⟩

theorem Advanced.trans {m n : ℕ} {db db'' : Db} (h : Advanced bn m db db')
    (h' : Advanced bn n db' db'') : Advanced bn (m + n) db db'' := by
  refine ⟨h'.slot.trans h.slot, fun id => (h'.lock id).trans (h.lock id), ?_⟩
  have hcnt := h.count
  have hcnt' := h'.count
  omega

/-- Taking a lock that is free. -/
theorem LockFree.update (hf : LockFree bn db request.identifier) (i : Identifier) :
    LockFree bn (lockTaken bn db request) i ↔
      LockFree bn db i := by
  by_cases hs : i = request.identifier
  · subst hs
    refine iff_of_true ?_ hf
    intro block hdec
    simpa [lockTaken] using hdec.symm
  · have hkey : i.toList ≠ request.identifier.toList := fun heq => hs (Subtype.ext heq)
    unfold LockFree lockTaken
    rw [update_of_ne hkey]

theorem lockTaken_slot (n : BlockNumber) (db : Db) (rq : CommandRequest A) :
    lockTaken n db rq (offchainDataKey n) = db (offchainDataKey n) :=
  update_of_ne (offchainDataKey_ne_identifier _ _) _ _

theorem slotOf_lockTaken (n : BlockNumber) (db : Db) (rq : CommandRequest A) :
    slotOf n (lockTaken n db rq) = slotOf n db := by
  rw [slotOf, lockTaken_slot, slotOf]

section
variable (hf : LockFree bn db request.identifier)

include hf

theorem Advanced.lockTaken : Advanced bn 1 db (lockTaken bn db request) := by
  refine ⟨lockTaken_slot _ _ _, hf.update, ?_⟩
  unfold processedCount Ipfs.lockTaken
  rw [update_of_ne (processedCommandsKey_ne_identifier _)]
  exact Nat.le_succ _

/-- Taking the lock and then listing the request as processed. -/
theorem Advanced.processed {ids : Scale.Vec Identifier}
    (hlen : ids.1.length = processedCount db + 1) :
    Advanced bn 1 db (update (Ipfs.lockTaken bn db request)
      processedCommandsKey (some (Scale.encode ids))) := by
  refine ⟨?_, ?_, ?_⟩
  · rw [update_of_ne (offchainDataKey_ne_processedCommandsKey _), lockTaken_slot]
  · intro identifier
    rw [← hf.update identifier]
    unfold LockFree
    rw [update_of_ne (processedCommandsKey_ne_identifier identifier).symm]
  · simp [processedCount, hlen]

/-- With the lock free, the commands are processed and their result is returned. -/
theorem run_ocwProcessCommand_free {s : List (WorkerEvent A)} (hr : processedCount db + 1 < 2 ^ 32)
    (hc : w.run (processCommands ⟨bn, request.identifier⟩ request.ipfsCommands [])
      (lockTaken bn db request) trace = (some res, lockTaken bn db request, trace ++ s)) :
    ∃ db', w.run (ocwProcessCommand bn request processedCommandsKey) db trace =
      (some res, db', trace ++ s) ∧ Advanced bn 1 db db' := by
  rw [ocwProcessCommand, processIpfsCommand, World.run_bind (run_acquire_free hf)]
  rw [World.run_bind hc]
  cases res with
  | error error => exact ⟨_, rfl, .lockTaken hf⟩
  | ok resps =>
    have hcnt : processedCount (lockTaken bn db request) = processedCount db := by
      unfold processedCount lockTaken
      rw [update_of_ne (processedCommandsKey_ne_identifier _)]
    obtain ⟨ids, hlen, hadd⟩ := addProcessed_eq_some request.identifier (hcnt ▸ hr)
    refine ⟨_, World.run_bind (run_mutate_ok ?_), .processed hf (hcnt ▸ hlen)⟩
    simp only [StorageValueRef.persistent, hadd]
    rfl

end

theorem run_ocwProcessCommand_locked (hlkd : ¬ LockFree bn db request.identifier) :
    w.run (ocwProcessCommand bn request processedCommandsKey) db trace =
      (some (.error .failedToAcquireLock), db, trace) := by
  exact World.run_bind (run_mutate_error (congrArg Prog.ret (lockFor_of_not_free hlkd)))

/-- The callbacks for the result of a request. -/
def callbacks (w : World A) (request : CommandRequest A) (offchainData : Option OffchainData) :
    Except IpfsError (List IpfsResponse) → List (WorkerEvent A)
  | .ok responses => w.accounts.map fun account =>
    .signed account (.ocwCallback request.identifier (ocwParseIpfsResponse responses) offchainData)
  | .error _ => []

/-- The body of the loop: what processing sends, and the callbacks. -/
theorem run_processCommandRequest_of {sent : List (WorkerEvent A)}
    (hp : w.run (ocwProcessCommand bn request processedCommandsKey) db trace =
      (some res, db', trace ++ sent)) :
    w.run (processCommandRequest bn request) db trace =
      (some (), db', trace ++ (sent ++ callbacks w request
        (callbackData (decodeStored _ (db (offchainDataKey bn)))) res)) := by
  rw [processCommandRequest, World.run_bind (run_readCidDataForBlockNumber bn), World.run_bind hp]
  cases res with
  | error error => simp [callbacks, World.run]
  | ok resps =>
    obtain ⟨_, hcb⟩ : ∃ res, w.run (signedCallback request (ocwParseIpfsResponse resps)
        (callbackData (decodeStored _ (db (offchainDataKey bn))))) db' (trace ++ sent) = _ :=
      run_signedCallback _ _ _
    rw [World.run_bind hcb]
    simp [callbacks, World.run]

/-- With something in the slot, the body does not panic. -/
theorem run_processCommandRequest (request : CommandRequest A)
    (hslot : db (offchainDataKey bn) ≠ none) (hr : processedCount db + 1 < 2 ^ 32) :
    ∃ db' sent, w.run (processCommandRequest bn request) db trace =
      (some (), db', trace ++ sent) ∧ Advanced bn 1 db db' := by
  by_cases hf : LockFree bn db request.identifier
  · have htk : lockTaken bn db request (offchainDataKey bn) ≠ none := by
      rwa [lockTaken_slot]
    obtain ⟨res, hc, hs⟩ := run_processCommands w ⟨bn, request.identifier⟩
      (lockTaken bn db request) request.ipfsCommands [] trace
    obtain ⟨res, rfl⟩ := Option.isSome_iff_exists.mp (hs htk)
    obtain ⟨db', hp, hadv⟩ := run_ocwProcessCommand_free hf hr hc
    exact ⟨db', _, run_processCommandRequest_of hp, hadv⟩
  · have hp : w.run (ocwProcessCommand bn request processedCommandsKey) db trace =
        (some (.error .failedToAcquireLock), db, trace ++ []) := by
      rw [run_ocwProcessCommand_locked hf, append_nil]
    exact ⟨db, _, run_processCommandRequest_of hp, .refl _ _ _⟩

end

end Ipfs
