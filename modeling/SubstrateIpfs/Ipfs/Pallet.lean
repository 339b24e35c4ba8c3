-- SUMMARY: The dispatchables of pallet-tds-ipfs, and the callback that both pallets share.
import SubstrateIpfs.Base.Vec
import SubstrateIpfs.Ipfs.Core

/-!
# The IPFS pallet

`addBytes` queues an upload. `ocwCallback` takes the result from an offchain
worker: it takes the request off the queue, indexes the file, and deposits one
event for each command. `pallet-knowledge` has a copy of the callback which
differs in the storage and in the events it uses, so there is one definition
with the pallet as a parameter.
-/

namespace Ipfs

open Offchain Chain Vec

section
variable {A : Type}

/-! ## Queueing -/

namespace Chain

/-- Writes cid and meta data to the offchain index, uses the block number to
create the key. -/
def storeCidDataForValues (s : Chain A) (blockNumber : BlockNumber) (cid metaData : Bytes) :
    Chain A :=
  s.setOffchainIndex (offchainDataKey blockNumber) (Scale.encode (OffchainData.mk cid metaData))

/-- Append to the queue, which is created if it is not there. -/
def appendCommand (s : Chain A) (request : CommandRequest A) : Chain A :=
  { s with commands := some (s.pending ++ [request]) }

end Chain

/-- Adds arbitrary bytes to the IPFS repository. -/
def addBytes (H : Hashing) (origin : Origin A) (receivedBytes : Bytes) (version : UInt8)
    (metaData : Bytes) (s : Chain A) : Except Fault (Chain A) := do
  let requester ← ensureSigned origin
  let s := s.storeCidDataForValues s.blockNumber receivedBytes metaData
  let s := s.appendCommand
    { identifier := s.generateId H, requester := requester, ipfsCommands := [.addBytes version] }
  return s.depositEvent (.ipfs .tdsIpfs (.queuedDataToAdd requester requester))

theorem Chain.depositEvent_eq (s : Chain A) (e : Event A) :
    ∃ es, s.depositEvent e = { s with events := es } := by
  unfold depositEvent
  split
  · exact ⟨s.events, rfl⟩
  · split
    · exact ⟨_, rfl⟩
    · exact ⟨s.events, rfl⟩

theorem addBytes_signed (H : Hashing) (who : A) (bs : Bytes) (v : UInt8)
    (md : Bytes) (s : Chain A) :
    ∃ es, addBytes H (.signed who) bs v md s =
      .ok { s with
        offchainIndex := s.offchainIndex ++
          [(offchainDataKey s.blockNumber, Scale.encode (OffchainData.mk bs md))]
        commands := some (s.pending ++ [⟨s.generateId H, who, [.addBytes v]⟩])
        events := es } := by
  obtain ⟨es, hdep⟩ := depositEvent_eq
    ((s.storeCidDataForValues s.blockNumber bs md).appendCommand
      ⟨s.generateId H, who, [.addBytes v]⟩)
    (.ipfs .tdsIpfs (.queuedDataToAdd who who))
  exact ⟨es, congrArg Except.ok hdep⟩

/-! ## The callback -/

/-- The event a command is reported with. -/
def IpfsCommand.event (requester : A) (data : Bytes) : IpfsCommand → IpfsEvent A
  | .connectTo address => .connectedTo requester address
  | .disconnectFrom address => .disconnectedFrom requester address
  | .addBytes _ => .addedCid requester data
  | .catBytes cid => .catBytes requester cid data
  | .insertPin cid => .insertedPin requester cid
  | .removeBlock cid => .removedBlock requester cid
  | .removePin cid => .removedPin requester cid
  | .findPeer _ => .foundPeers requester data
  | .getProviders cid => .cidProviders requester cid data

namespace Chain

def storeIpfsFileInfo (pallet : PalletId) (ipfsFile : IpfsFile) (s : Chain A) : Chain A :=
  { s with
    ipfsFileStorage := Function.update s.ipfsFileStorage pallet
      ((s.ipfsFileStorage pallet).insert ipfsFile.cid ipfsFile) }

def handleAddBytesCompleted (pallet : PalletId) (cid : Bytes) (offchainData : Option OffchainData)
    (s : Chain A) : Chain A :=
  match offchainData with
  | some offchainData => s.storeIpfsFileInfo pallet ⟨cid, offchainData.metaData⟩
  | none => s

def handleDataForOcwCallback (pallet : PalletId) (data : Bytes) (offchainData : Option OffchainData)
    (callbackCommand : Option (CommandRequest A)) (s : Chain A) : Chain A :=
  match callbackCommand with
  | some request =>
    if containsValueOfTypeInVector (.addBytes 0) request.ipfsCommands then
      s.handleAddBytesCompleted pallet data offchainData
    else s
  | none => s

/-- Report every command of the request. -/
def commandCallback (pallet : PalletId) (request : CommandRequest A) (data : Bytes) (s : Chain A) :
    Except Unit (Chain A) :=
  .ok (request.ipfsCommands.foldl
    (fun s command => s.depositEvent (.ipfs pallet (command.event request.requester data))) s)

end Chain

/-- The callback of a pallet. The request is taken off the queue, the event is
deposited and the file is indexed before it is known that there is a request. -/
def ocwCallbackOf (pallet : PalletId) (origin : Origin A) (identifier : Identifier) (data : Bytes)
    (offchainData : Option OffchainData) (s : Chain A) : Except Fault (Chain A) := do
  let signer ← ensureSigned origin
  let commands ← unwrap s.commands
  let (callbackCommand, commands) :=
    match swapRemoveFirst (fun cmd => cmd.identifier == identifier) commands with
    | some (request, commands) => (some request, commands)
    | none => (none, commands)
  let s := { s with commands := some commands }
  let s := s.depositEvent (.ipfs pallet (.ocwCallback signer))
  let s := s.handleDataForOcwCallback pallet data offchainData callbackCommand
  let request ← unwrap callbackCommand
  match s.commandCallback pallet request data with
  | .ok s => return s
  | .error _ => .error (.err .corruption)

/-- The callback of pallet-tds-ipfs. -/
def ocwCallback (origin : Origin A) (identifier : Identifier) (data : Bytes)
    (offchainData : Option OffchainData) (s : Chain A) : Except Fault (Chain A) :=
  ocwCallbackOf .tdsIpfs origin identifier data offchainData s

/-! ## What the callback does -/

namespace Chain

theorem commandCallback_eq (p : PalletId) (req : CommandRequest A) (d : Bytes) (s : Chain A) :
    ∃ es, s.commandCallback p req d = .ok { s with events := es } := by
  unfold commandCallback
  induction req.ipfsCommands generalizing s with
  | nil => exact ⟨s.events, rfl⟩
  | cons cmd cmds ih =>
    obtain ⟨es, hdep⟩ := s.depositEvent_eq (.ipfs p (cmd.event req.requester d))
    obtain ⟨events', hrest⟩ := ih { s with events := es }
    refine ⟨events', ?_⟩
    rw [List.foldl_cons, hdep]
    exact hrest

/-- What the callback of a request does to the files. -/
def indexFile (pallet : PalletId) (request : CommandRequest A) (data : Bytes)
    (offchainData : Option OffchainData) (files : PalletId → AList (fun _ : Bytes => IpfsFile)) :
    PalletId → AList (fun _ : Bytes => IpfsFile) :=
  match containsValueOfTypeInVector (.addBytes 0) request.ipfsCommands, offchainData with
  | true, some offchainData =>
    Function.update files pallet ((files pallet).insert data ⟨data, offchainData.metaData⟩)
  | _, _ => files

theorem handleDataForOcwCallback_eq (s : Chain A) (p : PalletId) (req : CommandRequest A)
    (d : Bytes) (od : Option OffchainData) :
    s.handleDataForOcwCallback p d od (some req) =
      { s with ipfsFileStorage := indexFile p req d od s.ipfsFileStorage } := by
  simp only [handleDataForOcwCallback, indexFile]
  cases containsValueOfTypeInVector (.addBytes 0) req.ipfsCommands with
  | false => rfl
  | true =>
    cases od with
    | none | some => rfl

end Chain

variable (pallet : PalletId) (who : A) {i : Identifier} (data : Bytes)
  (offchainData : Option OffchainData) {s : Chain A}

/-- The callback of a request that is not pending panics. -/
theorem ocwCallbackOf_not_found (h : ∀ req ∈ s.pending, req.identifier ≠ i) :
    ocwCallbackOf pallet (.signed who) i data offchainData s = .error .panic := by
  cases hc : s.commands with
  | none => simp only [ocwCallbackOf, ensureSigned, unwrap, hc, bind, Except.bind]
  | some cs =>
    have hn : swapRemoveFirst (fun cmd => cmd.identifier == i) cs = none := by
      apply swapRemoveFirst_eq_none.mpr
      intro req hmem
      have hne := h req (by simpa [pending, hc] using hmem)
      simpa using hne
    simp only [ocwCallbackOf, ensureSigned, unwrap, hc, bind, Except.bind, hn]

/-- A request with the identifier is in the queue. -/
def Chain.Pending (s : Chain A) (identifier : Identifier) : Prop :=
  ∃ request ∈ s.pending, request.identifier = identifier

/-- The callback of a pending request takes a request with that identifier off
the queue. -/
theorem ocwCallbackOf_pending (h : s.Pending i) :
    ∃ cs req r es, s.commands = some cs ∧
      swapRemoveFirst (fun cmd => cmd.identifier == i) cs = some (req, r) ∧
      ocwCallbackOf pallet (.signed who) i data offchainData s =
        .ok { s with
          commands := some r
          events := es
          ipfsFileStorage := indexFile pallet req data offchainData s.ipfsFileStorage } := by
  obtain ⟨req, hmem, hid⟩ := h
  cases hc : s.commands with
  | none => simp [pending, hc] at hmem
  | some cs =>
    have hmem : req ∈ cs := by simpa [pending, hc] using hmem
    obtain ⟨f, r, hfnd⟩ := swapRemoveFirst_isSome
      (p := fun cmd => cmd.identifier == i) hmem (by simpa using hid)
    obtain ⟨es, hdep⟩ :=
      depositEvent_eq { s with commands := some r } (.ipfs pallet (.ocwCallback who))
    obtain ⟨es', hcb⟩ := commandCallback_eq pallet f data
      { s with
        commands := some r
        events := es
        ipfsFileStorage := indexFile pallet f data offchainData s.ipfsFileStorage }
    refine ⟨cs, f, r, es', rfl, hfnd, ?_⟩
    simp only [ocwCallbackOf, ensureSigned, unwrap, hc, bind, Except.bind, hfnd, hdep,
      handleDataForOcwCallback_eq, hcb]
    rfl

/-- The callback of either pallet is total, and refuses what is not pending
without a trace, exactly when the identifier is pending. -/
theorem ocwCallbackOf_total_iff (identifier : Identifier) (s : Chain A) :
    (ocwCallbackOf pallet (.signed who) identifier data offchainData s ≠ .error .panic ∧
      (¬ s.Pending identifier →
        (∃ error, ocwCallbackOf pallet (.signed who) identifier data offchainData s =
          .error (.err error)) ∧
        let s' := s.after (ocwCallbackOf pallet (.signed who) identifier data offchainData s)
        s'.commands = s.commands ∧ s'.ipfsFileStorage = s.ipfsFileStorage ∧ s'.events = s.events)) ↔
      s.Pending identifier := by
  constructor
  · intro ⟨hpan, _⟩
    by_contra hnot
    apply hpan
    apply ocwCallbackOf_not_found
    intro req hmem hid
    exact hnot ⟨req, hmem, hid⟩
  · intro hp
    obtain ⟨cmds, req, rest, evs, -, -, hok⟩ :=
      ocwCallbackOf_pending pallet who data offchainData hp
    refine ⟨by simp [hok], ?_⟩
    intro hnot
    exact absurd hp hnot

/-- After genesis nothing is pending, and every callback panics. -/
theorem ocwCallbackOf_genesis_panics :
    ocwCallbackOf .tdsIpfs (.signed 0) (.replicate 32 0) ⟨[], by decide⟩ none
      (genesis ℕ) = .error .panic := by
  apply ocwCallbackOf_not_found
  intro req hmem
  simp [pending, genesis] at hmem

end

end Ipfs
