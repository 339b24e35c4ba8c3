-- SUMMARY: The IPFS core of the runtime: commands, node requests, processing, state on chain.
import SubstrateIpfs.Offchain.Storage

/-!
# IPFS core

What the pallets share. On chain, a `CommandRequest` is queued and the data it
is about is written to the offchain index under a key made of the block number.
Off chain, `processIpfsCommand` locks the request, reads the data back, and
sends one request to the IPFS node for each command.
-/

namespace Ipfs

open Offchain

/-! ## Data -/

abbrev Bytes := Scale.Vec UInt8

/-- A block hash, and the output of `blake2_256`. -/
abbrev Hash := List.Vector UInt8 32

abbrev Identifier := List.Vector UInt8 32

/-- The file data to upload to IPFS and referring meta data. -/
structure OffchainData where
  data : Bytes
  metaData : Bytes
  deriving DecidableEq

def OffchainData.equiv : OffchainData ≃ Bytes × Bytes where
  toFun d := (d.data, d.metaData)
  invFun p := ⟨p.1, p.2⟩

instance : Scale OffchainData := Scale.ofEquiv OffchainData.equiv

/-- Infos of a file within IPFS which had been uploaded by the node. -/
structure IpfsFile where
  cid : Bytes
  metaData : Bytes
  deriving DecidableEq

inductive IpfsCommand where
  | connectTo (address : Bytes)
  | disconnectFrom (address : Bytes)
  | addBytes (version : UInt8)
  | catBytes (cid : Bytes)
  | insertPin (cid : Bytes)
  | removeBlock (cid : Bytes)
  | removePin (cid : Bytes)
  | findPeer (peerId : Bytes)
  | getProviders (cid : Bytes)
  deriving DecidableEq

/-- Same constructor, whatever the arguments. -/
def IpfsCommand.eqType : IpfsCommand → IpfsCommand → Bool
  | .connectTo _, .connectTo _ => true
  | .disconnectFrom _, .disconnectFrom _ => true
  | .addBytes _, .addBytes _ => true
  | .catBytes _, .catBytes _ => true
  | .insertPin _, .insertPin _ => true
  | .removeBlock _, .removeBlock _ => true
  | .removePin _, .removePin _ => true
  | .findPeer _, .findPeer _ => true
  | .getProviders _, .getProviders _ => true
  | _, _ => false

def findValueOfTypeInVector (value : IpfsCommand) (vector : List IpfsCommand) :
    Option IpfsCommand :=
  vector.find? fun currValue => value.eqType currValue

def containsValueOfTypeInVector (value : IpfsCommand) (vector : List IpfsCommand) : Bool :=
  match findValueOfTypeInVector value vector with
  | some _ => true
  | none => false

/-- A request to an offchain worker that has IPFS within its runtime. -/
structure CommandRequest (A : Type) where
  identifier : Identifier
  requester : A
  ipfsCommands : List IpfsCommand
  deriving DecidableEq

/-! ## The IPFS node -/

/-- The requests the core sends to the IPFS node. -/
inductive IpfsRequest where
  | addBytes (bytes : Bytes) (version : UInt8)
  | catBytes (cid : Bytes)
  | connect (address : Bytes)
  | disconnect (address : Bytes)
  | findPeer (peerId : Bytes)
  | getProviders (cid : Bytes)
  | insertPin (cid : Bytes) (recursive : Bool)
  | peers
  | removeBlock
  | removePin (cid : Bytes) (recursive : Bool)
  deriving DecidableEq

/-- A response that can be returned from the IPFS node. -/
inductive IpfsResponse where
  | addrs (peers : List (Bytes × List Bytes))
  | addBytes (cid : Bytes)
  | bitswapStats (blocksSent dataSent blocksReceived dataReceived dupBlksReceived
      dupDataReceived : UInt64) (peers : List Bytes) (wantlist : List (Bytes × Int32))
  | catBytes (bytesReceived : Bytes)
  | findPeer (addresses : List Bytes)
  | getClosestPeers (peerIds : List Bytes)
  | getProviders (peerIds : List Bytes)
  | identity (publicKey : Bytes) (addresses : List Bytes)
  | localAddrs (addresses : List Bytes)
  | localRefs (refs : List Bytes)
  | peers (addresses : List Bytes)
  | removeBlock (cid : Bytes)
  | success
  deriving DecidableEq

inductive IpfsRequestStatus where
  | deadlineReached
  | ioError (message : Bytes)
  | invalid
  | finished (response : IpfsResponse)
  deriving DecidableEq

/-- What comes back for a request: it is not accepted, or it has a status at the
deadline. -/
inductive NodeAnswer where
  | notStarted
  | status (status : IpfsRequestStatus)
  deriving DecidableEq

inductive IpfsError where
  | cannotCreateRequest
  | requestTimeout
  | requestFailed
  | failedToAcquireLock
  deriving DecidableEq

/-! ## Host functions of the offchain worker -/

/-- The command request a node request is issued for, and the block of the
worker that issues it. The node does not get to see it. -/
structure Purpose where
  blockNumber : BlockNumber
  identifier : Identifier
  deriving DecidableEq

/-- The calls the offchain workers submit. -/
inductive WorkerCall where
  | ocwCallback (identifier : Identifier) (data : List UInt8) (offchainData : Option OffchainData)
  | storeOffchainData (blockNumber : BlockNumber) (cidData : OffchainData)
  deriving DecidableEq

inductive WorkerOp (A : Type) where
  | ipfs (purpose : Option Purpose) (request : IpfsRequest)
  | allAccounts
  | submitSigned (account : A) (call : WorkerCall)
  | submitUnsigned (call : WorkerCall)

abbrev WorkerOp.Ret {A : Type} : WorkerOp A → Type
  | .ipfs _ _ => NodeAnswer
  | .allAccounts => List A
  | .submitSigned _ _ => Bool
  | .submitUnsigned _ => Bool

abbrev workerHost (A : Type) : Interface where
  Op := WorkerOp A
  Ret := WorkerOp.Ret

/-- Programs of the offchain worker. -/
abbrev Worker (A α : Type) := Prog (interface (workerHost A)) α

/-! ## The offchain data slot of a block -/

def offchainKeyPrefix : Key := "ipfs_core::indexing1".toUTF8.data.toList

/-- The storage key for the data of a block: `OFFCHAIN_KEY_PREFIX`, a slash, and
the encoded block number. -/
def offchainDataKey (blockNumber : BlockNumber) : Key :=
  offchainKeyPrefix ++ "/".toUTF8.data.toList ++ Scale.encode blockNumber

section
variable {X : Interface}

/-- Returns cid data for the given block number. -/
def readCidDataForBlockNumber (blockNumber : BlockNumber) :
    Prog (interface X) (Except StorageRetrievalError (Option OffchainData)) :=
  (StorageValueRef.persistent (offchainDataKey blockNumber)).get OffchainData

/-- Returns stored offchain data for the given block number. Nothing stored is a
failed `expect`. -/
def readCidForBlockNumber (blockNumber : BlockNumber) :
    Prog (interface X) (Except StorageRetrievalError OffchainData) := do
  match ← readCidDataForBlockNumber blockNumber with
  | .ok (some data) => return .ok data
  | .ok none => .panic
  | .error error => return .error error

end

/-! ## Processing a command request -/

section
variable {A : Type}

/-- The response, or why there is none. -/
def NodeAnswer.result : NodeAnswer → Except IpfsError IpfsResponse
  | .notStarted => .error .cannotCreateRequest
  | .status .deadlineReached => .error .requestTimeout
  | .status (.ioError _) => .error .requestFailed
  | .status .invalid => .error .requestFailed
  | .status (.finished response) => .ok response

/-- Send a request to the local IPFS node. -/
def ipfsRequest (purpose : Option Purpose) (request : IpfsRequest) :
    Worker A (Except IpfsError IpfsResponse) := do
  let answer ← Prog.perform (I := interface (workerHost A)) (.inr (.ipfs purpose request))
  return NodeAnswer.result answer

/-- The response a command takes from the node, any other being a failure. -/
def IpfsCommand.accepts : IpfsCommand → IpfsResponse → Bool
  | .connectTo _, .success => true
  | .disconnectFrom _, .success => true
  | .addBytes _, .addBytes _ => true
  | .catBytes _, .catBytes _ => true
  | .insertPin _, .success => true
  | .removePin _, .success => true
  | .removeBlock _, .success => true
  | .findPeer _, .findPeer _ => true
  | .getProviders _, .getProviders _ => true
  | _, _ => false

/-- The node request of a command. Only `addBytes` needs more than the command:
the bytes come from the slot of the worker's block. -/
def IpfsCommand.request (bytesToAdd : Bytes) : IpfsCommand → IpfsRequest
  | .connectTo address => .connect address
  | .disconnectFrom address => .disconnect address
  | .addBytes version => .addBytes bytesToAdd version
  | .catBytes cid => .catBytes cid
  | .insertPin cid => .insertPin cid false
  | .removePin cid => .removePin cid false
  | .removeBlock _ => .removeBlock
  | .findPeer peerId => .findPeer peerId
  | .getProviders cid => .getProviders cid

/-- A command takes one kind of response from the node. -/
def IpfsCommand.check (command : IpfsCommand) :
    Except IpfsError IpfsResponse → Except IpfsError IpfsResponse
  | .ok response => if command.accepts response then .ok response else .error .requestFailed
  | .error _ => .error .requestFailed

/-- Send the node request of a command and check the response. -/
def sendCommand (purpose : Purpose) (bytesToAdd : Bytes) (command : IpfsCommand) :
    Worker A (Except IpfsError IpfsResponse) := do
  let response ← ipfsRequest (some purpose) (command.request bytesToAdd)
  return command.check response

/-- Execute one command. The outer error ends the processing of the whole
request, the inner one is only logged. -/
def processCommand (purpose : Purpose) (command : IpfsCommand) :
    Worker A (Except IpfsError (Except IpfsError IpfsResponse)) := do
  match command with
  | .addBytes version =>
    match ← readCidForBlockNumber purpose.blockNumber with
    | .ok data => return .ok (← sendCommand purpose data.data (.addBytes version))
    | .error _ => return .error .requestFailed
  | command => return .ok (← sendCommand purpose .empty command)

/-- Execute the commands one after the other, collecting the responses. -/
def processCommands (purpose : Purpose) :
    List IpfsCommand → List IpfsResponse → Worker A (Except IpfsError (List IpfsResponse))
  | [], result => return .ok result
  | command :: commands, result => do
    match ← processCommand purpose command with
    | .ok (.ok response) => processCommands purpose commands (result ++ [response])
    | .ok (.error _) => processCommands purpose commands result
    | .error error => return .error error

variable (blockNumber : BlockNumber) (commandRequest : CommandRequest A)

/-- The lock a worker leaves behind, by what it finds. -/
def lockFor : Except StorageRetrievalError (Option BlockNumber) → Except IpfsError BlockNumber
  | .ok (some block) => if blockNumber ≠ block then .error .failedToAcquireLock else .ok block
  | _ => .ok blockNumber

/-- Attempt to create a lock under the identifier of the request, leaving behind
the block number of when the lock was formed. -/
def acquireCommandRequestLock :
    Worker A (Except (MutateStorageError BlockNumber IpfsError) BlockNumber) :=
  (StorageValueRef.persistent commandRequest.identifier.toList).mutate fun commandIdentifier =>
    return lockFor blockNumber commandIdentifier

/-- The list of processed identifiers with one more. `none` is an allocation that
fails. -/
def addProcessed (identifier : Identifier) :
    Except StorageRetrievalError (Option (Scale.Vec Identifier)) → Option (Scale.Vec Identifier)
  | .ok (some commands) => commands.push identifier
  | _ => some ⟨[identifier], by simp⟩

/-- Store a list of command identifiers to remove the lock in a following block. -/
def processedCommands (commandRequest : CommandRequest A) (persistenceKey : Key) :
    Worker A (Except (MutateStorageError (Scale.Vec Identifier) Unit) (Scale.Vec Identifier)) :=
  (StorageValueRef.persistent persistenceKey).mutate fun processedCommands =>
    match addProcessed commandRequest.identifier processedCommands with
    | some commands => return .ok commands
    | none => .panic

def processIpfsCommand (persistenceKey : Key) :
    Worker A (Except IpfsError (List IpfsResponse)) := do
  match ← acquireCommandRequestLock blockNumber commandRequest with
  | .ok _ =>
    let purpose : Purpose := ⟨blockNumber, commandRequest.identifier⟩
    match ← processCommands purpose commandRequest.ipfsCommands [] with
    | .ok result =>
      let _ ← processedCommands commandRequest persistenceKey
      return .ok result
    | .error error => return .error error
  | .error _ => return .error .failedToAcquireLock

def ocwProcessCommand (persistenceKey : Key) : Worker A (Except IpfsError (List IpfsResponse)) :=
  processIpfsCommand blockNumber commandRequest persistenceKey

/-! ## Parsing the responses -/

/-- Flatten byte vectors into a comma separated one, leaving out what is not
UTF-8. -/
def multipleBytesToUtf8SafeBytes (response : List (List UInt8)) : List UInt8 :=
  response.foldl (fun bytes res =>
    if (ByteArray.mk res.toArray).validateUTF8 then
      if bytes.length = 0 then res else bytes ++ ", ".toUTF8.data.toList ++ res
    else bytes) []

def addressesToUtf8SafeBytes (addresses : List Bytes) : List UInt8 :=
  multipleBytesToUtf8SafeBytes (addresses.map (·.1))

/-- What one response makes of the bytes to call back with. -/
def parseIpfsResponse (callbackResponse : List UInt8) : IpfsResponse → List UInt8
  | .catBytes bytesReceived =>
    if bytesReceived.1.length > 1 then bytesReceived.1 else callbackResponse
  | .addBytes cid => cid.1
  | .removeBlock cid => cid.1
  | .getClosestPeers peerIds => multipleBytesToUtf8SafeBytes (peerIds.map (·.1))
  | .getProviders peerIds => multipleBytesToUtf8SafeBytes (peerIds.map (·.1))
  | .findPeer addresses => addressesToUtf8SafeBytes addresses
  | .localAddrs addresses => addressesToUtf8SafeBytes addresses
  | .peers addresses => addressesToUtf8SafeBytes addresses
  | .localRefs refs => multipleBytesToUtf8SafeBytes (refs.map (·.1))
  | .addrs _ => callbackResponse
  | .bitswapStats .. => callbackResponse
  | .identity _ _ => callbackResponse
  | .success => callbackResponse

/-- Parse each response. If there are several, the last one with bytes counts. -/
def ocwParseIpfsResponse (responses : List IpfsResponse) : List UInt8 :=
  responses.foldl parseIpfsResponse []

end

/-! ## Chain state

The storage items of the pallets involved, with the system functions they call:
the event log, the randomness of the last blocks, the offchain index. Storage is
passed explicitly. A dispatchable returns the new storage, or it fails, and a
failure is either an error or a panic.
-/

open Scale

/-- The two pallets that have a callback for the offchain worker. -/
inductive PalletId where
  | tdsIpfs
  | knowledge
  deriving DecidableEq

/-- The events both pallets have. -/
inductive IpfsEvent (A : Type) where
  | queuedDataToAdd (requester requester' : A)
  | ocwCallback (signer : A)
  | connectedTo (requester : A) (address : Bytes)
  | disconnectedFrom (requester : A) (address : Bytes)
  | addedCid (requester : A) (cid : Bytes)
  | catBytes (requester : A) (cid bytes : Bytes)
  | insertedPin (requester : A) (cid : Bytes)
  | removedPin (requester : A) (cid : Bytes)
  | removedBlock (requester : A) (cid : Bytes)
  | foundPeers (requester : A) (peers : Bytes)
  | cidProviders (requester : A) (cid providers : Bytes)
  deriving DecidableEq

inductive Event (A : Type) where
  | ipfs (pallet : PalletId) (event : IpfsEvent A)
  | created (creator : A) (blockNumber : BlockNumber) (title text : Bytes)
  | modified (creator owner : A) (blockNumber : BlockNumber) (title text : Bytes)
  deriving DecidableEq

/-- Storage. `offchainIndex` are the writes of the block to the offchain index, oldest first; they
reach the offchain database when the block is imported. -/
structure Chain (A : Type) where
  blockNumber : BlockNumber
  randomMaterial : List Hash
  events : List (Event A)
  offchainIndex : List (Key × Raw)
  commands : Option (List (CommandRequest A))
  ipfsFileStorage : PalletId → AList (fun _ : Bytes => IpfsFile)
  knowledge : AList (fun _ : BlockNumber × A => List BlockNumber)
  account : AList (fun _ : A × BlockNumber => UInt8)

/-- Storage after genesis: the queue is there and empty. -/
def Chain.genesis (A : Type) : Chain A where
  blockNumber := 0
  randomMaterial := []
  events := []
  offchainIndex := []
  commands := some []
  ipfsFileStorage := fun _ => ∅
  knowledge := ∅
  account := ∅

/-- The requests that wait for a callback. -/
def Chain.pending {A : Type} (s : Chain A) : List (CommandRequest A) := s.commands.getD []

inductive DispatchError where
  | badOrigin
  | corruption
  | knowledgeNotExist
  deriving DecidableEq

/-- How a dispatchable fails. An error rolls its storage changes back. A panic
aborts the execution, and the extrinsic does not make it into a block. -/
inductive Fault where
  | panic
  | err (error : DispatchError)
  deriving DecidableEq

inductive Origin (A : Type) where
  | signed (who : A)
  | none
  | root

section
variable {A : Type}

def ensureSigned : Origin A → Except Fault A
  | .signed who => .ok who
  | .none => .error (.err .badOrigin)
  | .root => .error (.err .badOrigin)

/-- The value, or a panic. -/
def unwrap {α : Type} : Option α → Except Fault α
  | some a => .ok a
  | none => .error .panic

/-- Storage after a dispatch. -/
def Chain.after (s : Chain A) : Except Fault (Chain A) → Chain A
  | .ok s' => s'
  | .error _ => s

@[simp] theorem Chain.after_ok (s s' : Chain A) : s.after (.ok s') = s' := rfl

/-! ## System -/

namespace Chain

/-- Deposit an event: not in the genesis block, and not past the maximal count. -/
def depositEvent (s : Chain A) (event : Event A) : Chain A :=
  if s.blockNumber = 0 then s
  else if s.events.length + 1 < UInt32.size then { s with events := s.events ++ [event] }
  else s

/-- Write to the offchain index. -/
def setOffchainIndex (s : Chain A) (key : Key) (value : Raw) : Chain A :=
  { s with offchainIndex := s.offchainIndex ++ [(key, value)] }

end Chain

/-- Write the offchain index of a block to the offchain database. -/
def importOffchainIndex (db : Db) (writes : List (Key × Raw)) : Db :=
  writes.foldl (fun db write => Function.update db write.1 (some write.2)) db

/-! ## Randomness -/

/-- The hash functions: `blake2_256`, and the mixing of a series of hashes into
one. -/
structure Hashing where
  blake2 : List UInt8 → Hash
  tripletMix : List Hash → Hash

/-- Hash functions that forget their input, for runs in which no hash matters. -/
def Hashing.trivial : Hashing where
  blake2 _ := .replicate 32 0
  tripletMix _ := .replicate 32 0

def randomMaterialLen : Nat := 81

def blockNumberToIndex (blockNumber : BlockNumber) : Nat := ((blockNumber - 1) % 81).toNat

/-- The subject, as a byte string. -/
def requestIdSubject : Bytes := ⟨"ipfs-request-id".toUTF8.data.toList, by decide⟩

variable (H : Hashing) (s : Chain A)

namespace Chain

/-- Remember the parent hash in the ring of the last 81. -/
def onInitialize (parentHash : Hash) : Chain A :=
  if s.randomMaterial.length < randomMaterialLen then
    { s with randomMaterial := s.randomMaterial ++ [parentHash] }
  else
    { s with randomMaterial := s.randomMaterial.set (blockNumberToIndex s.blockNumber) parentHash }

/-- Start a block. -/
def initializeBlock (blockNumber : BlockNumber) (parentHash : Hash) : Chain A :=
  { s with blockNumber := blockNumber, events := [], offchainIndex := [] }.onInitialize parentHash

theorem initializeBlock_eq (s : Chain A) (n : BlockNumber) (ph : Hash) :
    ∃ mat, s.initializeBlock n ph =
      { s with
        blockNumber := n
        events := []
        offchainIndex := []
        randomMaterial := mat } := by
  unfold initializeBlock onInitialize
  split
  · exact ⟨_, rfl⟩
  · exact ⟨_, rfl⟩

/-- A hash drawn from the hashes of the last blocks, oldest first. -/
def random (subject : Bytes) (s : Chain A) : Hash :=
  let index := blockNumberToIndex s.blockNumber
  match s.randomMaterial with
  | [] => .replicate 32 0
  | first :: _ =>
    let series := (List.range randomMaterialLen).map fun i =>
      s.randomMaterial.getD ((index + i) % s.randomMaterial.length) first
    H.tripletMix (series.mapIdx fun i h =>
      H.blake2 (encode (UInt8.ofNat i) ++ encode subject ++ encode h))

/-- What the identifier of a request is the hash of. -/
def idPayload : List UInt8 := encode (s.random H requestIdSubject) ++ encode s.blockNumber

/-- Create a "unique" id for each command. -/
def generateId : Identifier := H.blake2 (s.idPayload H)

end Chain

end

end Ipfs
