-- SUMMARY: The dispatchables of pallet-knowledge, and the chain as a state machine of all calls.
import SubstrateIpfs.Ipfs.Pallet

/-!
# The knowledge pallet

Knowledge is a text with a title, named by the block it was created in. Its
content goes through the IPFS queue. Two maps say who has what: `account` by
owner and `knowledge` by block, the latter with the blocks of all versions.
-/

namespace Knowledge

open Offchain Ipfs Scale OffchainData

section
variable {A : Type} [DecidableEq A]

/-- Create knowledge with title and text. -/
def create (H : Hashing) (origin : Origin A) (title text : Bytes) (s : Chain A) :
    Except Fault (Chain A) := do
  let creator ← ensureSigned origin
  let blockNumber := s.blockNumber
  let s := { s with
    account := s.account.insert (creator, blockNumber) 1
    knowledge := s.knowledge.insert (blockNumber, creator) [blockNumber] }
  let s := s.storeCidDataForValues blockNumber text title
  let s := s.appendCommand
    { identifier := s.generateId H, requester := creator, ipfsCommands := [.addBytes 1] }
  -- the same key again, with the block number for the offchain worker of this pallet
  let s := s.setOffchainIndex (offchainDataKey blockNumber) (encode blockNumber)
  return s.depositEvent (.created creator blockNumber title text)

/-- Read the slot of a block on chain. The extension for the offchain database is not registered for
block execution in the client: then the host function panics. -/
def readCidOnChain (offchainDb : Option Db) (blockNumber : BlockNumber) :
    Except Fault (Except StorageRetrievalError OffchainData) := do
  let db ← unwrap offchainDb
  unwrap (runStorage (readCidForBlockNumber blockNumber) db).1

/-- Every owner of the knowledge can modify it: a new version is queued. -/
def modifyContent (H : Hashing) (offchainDb : Option Db) (origin : Origin A)
    (blockNumber : BlockNumber) (title text : Bytes) (s : Chain A) : Except Fault (Chain A) := do
  let owner ← ensureSigned origin
  let newBlockNumber := s.blockNumber
  let s := s.storeCidDataForValues newBlockNumber text title
  let s := s.appendCommand
    { identifier := s.generateId H, requester := owner, ipfsCommands := [.addBytes 1] }
  let blockNumbers ← unwrap (s.knowledge.lookup (blockNumber, owner))
  let s := { s with
    knowledge := s.knowledge.insert (blockNumber, owner) (blockNumbers ++ [newBlockNumber]) }
  match ← readCidOnChain offchainDb blockNumber with
  | .ok data => return s.depositEvent (.modified owner owner blockNumber data.metaData data.data)
  | .error _ => .error (.err .knowledgeNotExist)

/-- Transfer the knowledge to a new account. The content is not copied. -/
def innerTransfer (blockNumber : BlockNumber) (_seller buyer : A) (s : Chain A) : Chain A :=
  { s with account := s.account.insert (buyer, blockNumber) 1 }

/-- `Sellable::transfer`, for the market. -/
def transfer (blockNumber : BlockNumber) (seller buyer : A) (s : Chain A) : Chain A :=
  innerTransfer blockNumber seller buyer s

/-- The callback of pallet-knowledge. -/
def ocwCallback (origin : Origin A) (identifier : Identifier) (data : Bytes)
    (offchainData : Option OffchainData) (s : Chain A) : Except Fault (Chain A) :=
  ocwCallbackOf .knowledge origin identifier data offchainData s

/-! ## What the calls do -/

theorem create_signed (H : Hashing) (who : A) (t te : Bytes) (s : Chain A) :
    ∃ es, create H (.signed who) t te s =
      .ok { s with
        account := s.account.insert (who, s.blockNumber) 1
        knowledge := s.knowledge.insert (s.blockNumber, who) [s.blockNumber]
        offchainIndex := s.offchainIndex ++
          [(offchainDataKey s.blockNumber, encode (mk te t))] ++
          [(offchainDataKey s.blockNumber, encode s.blockNumber)]
        commands := some (s.pending ++ [⟨s.generateId H, who, [.addBytes 1]⟩])
        events := es } := by
  obtain ⟨es, hdep⟩ := Chain.depositEvent_eq
    ((({ s with
        account := s.account.insert (who, s.blockNumber) 1
        knowledge := s.knowledge.insert (s.blockNumber, who) [s.blockNumber] :
        Chain A }.storeCidDataForValues s.blockNumber te t).appendCommand
      ⟨s.generateId H, who, [.addBytes 1]⟩).setOffchainIndex (offchainDataKey s.blockNumber)
        (encode s.blockNumber))
    (.created who s.blockNumber t te)
  exact ⟨es, congrArg Except.ok hdep⟩

/-- The request is queued before anything is checked. -/
theorem modifyContent_signed (H : Hashing) (odb : Option Db) (who : A)
    (bn : BlockNumber) (t te : Bytes) (s : Chain A) :
    modifyContent H odb (.signed who) bn t te s = (do
      let blockNumbers ← unwrap (s.knowledge.lookup (bn, who))
      match ← readCidOnChain odb bn with
      | .ok d =>
        return { s with
          knowledge := s.knowledge.insert (bn, who) (blockNumbers ++ [s.blockNumber])
          offchainIndex := s.offchainIndex ++ [(offchainDataKey s.blockNumber, encode (mk te t))]
          commands := some (s.pending ++ [⟨s.generateId H, who, [.addBytes 1]⟩]) : Chain A
          }.depositEvent (.modified who who bn d.metaData d.data)
      | .error _ => .error (.err .knowledgeNotExist)) := rfl

end

end Knowledge

/-! ## The machine -/

namespace Ipfs

open Offchain Scale

/-- What happens on chain: a block starts, or a signed call is executed. -/
inductive Action (A : Type) where
  | initializeBlock (blockNumber : BlockNumber) (parentHash : Hash)
  | addBytes (who : A) (receivedBytes : Bytes) (version : UInt8) (metaData : Bytes)
  | ocwCallback (pallet : PalletId) (who : A) (identifier : Identifier) (data : Bytes)
      (offchainData : Option OffchainData)
  | create (who : A) (title text : Bytes)
  | modifyContent (offchainDb : Option Db) (who : A) (blockNumber : BlockNumber)
      (title text : Bytes)
  | transfer (blockNumber : BlockNumber) (seller buyer : A)

namespace Chain

variable {A : Type} [DecidableEq A]

/-- What a call returns. -/
def dispatch (H : Hashing) (s : Chain A) : Action A → Except Fault (Chain A)
  | .initializeBlock blockNumber parentHash => .ok (s.initializeBlock blockNumber parentHash)
  | .addBytes who receivedBytes version metaData =>
    Ipfs.addBytes H (.signed who) receivedBytes version metaData s
  | .ocwCallback pallet who identifier data offchainData =>
    ocwCallbackOf pallet (.signed who) identifier data offchainData s
  | .create who title text => Knowledge.create H (.signed who) title text s
  | .modifyContent offchainDb who blockNumber title text =>
    Knowledge.modifyContent H offchainDb (.signed who) blockNumber title text s
  | .transfer blockNumber seller buyer => .ok (Knowledge.transfer blockNumber seller buyer s)

def step (H : Hashing) (s : Chain A) (action : Action A) : Chain A := s.after (s.dispatch H action)

/-- Everything a call can do. The events are left open. -/
inductive Effect (H : Hashing) (s : Chain A) : Action A → Except Fault (Chain A) → Prop where
  | initializeBlock {blockNumber : BlockNumber} {parentHash : Hash} :
      Effect H s (.initializeBlock blockNumber parentHash)
        (.ok (s.initializeBlock blockNumber parentHash))
  | addBytes {who : A} {receivedBytes : Bytes} {version : UInt8} {metaData : Bytes}
      {events : List (Event A)} :
      Effect H s (.addBytes who receivedBytes version metaData)
        (.ok { s with
          offchainIndex := s.offchainIndex ++
            [(offchainDataKey s.blockNumber, encode (OffchainData.mk receivedBytes metaData))]
          commands := some (s.pending ++ [⟨s.generateId H, who, [.addBytes version]⟩])
          events := events })
  | ocwCallback {pallet : PalletId} {who : A} {identifier : Identifier} {data : Bytes}
      {offchainData : Option OffchainData} {commands rest : List (CommandRequest A)}
      {request : CommandRequest A} {events : List (Event A)}
      (hcommands : s.commands = some commands)
      (hfound : Vec.swapRemoveFirst (fun cmd => cmd.identifier == identifier) commands =
        some (request, rest)) :
      Effect H s (.ocwCallback pallet who identifier data offchainData)
        (.ok { s with
          commands := some rest
          events := events
          ipfsFileStorage := indexFile pallet request data offchainData s.ipfsFileStorage })
  | create {who : A} {title text : Bytes} {events : List (Event A)} :
      Effect H s (.create who title text)
        (.ok { s with
          account := s.account.insert (who, s.blockNumber) 1
          knowledge := s.knowledge.insert (s.blockNumber, who) [s.blockNumber]
          offchainIndex := s.offchainIndex ++
            [(offchainDataKey s.blockNumber, encode (OffchainData.mk text title))] ++
            [(offchainDataKey s.blockNumber, encode s.blockNumber)]
          commands := some (s.pending ++ [⟨s.generateId H, who, [.addBytes 1]⟩])
          events := events })
  | modifyContent {offchainDb : Option Db} {who : A} {blockNumber : BlockNumber}
      {title text : Bytes} {versions : List BlockNumber} {events : List (Event A)}
      (hlookup : s.knowledge.lookup (blockNumber, who) = some versions) :
      Effect H s (.modifyContent offchainDb who blockNumber title text)
        (.ok { s with
          knowledge := s.knowledge.insert (blockNumber, who) (versions ++ [s.blockNumber])
          offchainIndex := s.offchainIndex ++
            [(offchainDataKey s.blockNumber, encode (OffchainData.mk text title))]
          commands := some (s.pending ++ [⟨s.generateId H, who, [.addBytes 1]⟩])
          events := events })
  | transfer {blockNumber : BlockNumber} {seller buyer : A} :
      Effect H s (.transfer blockNumber seller buyer)
        (.ok { s with account := s.account.insert (buyer, blockNumber) 1 })
  | callbackRefused {pallet : PalletId} {who : A} {identifier : Identifier} {data : Bytes}
      {offchainData : Option OffchainData} (hnot : ¬ s.Pending identifier) :
      Effect H s (.ocwCallback pallet who identifier data offchainData) (.error .panic)
  | modifyRefused {offchainDb : Option Db} {who : A} {blockNumber : BlockNumber}
      {title text : Bytes} {fault : Fault} :
      Effect H s (.modifyContent offchainDb who blockNumber title text) (.error fault)

theorem dispatch_effect (H : Hashing) (s : Chain A) (act : Action A) :
    s.Effect H act (s.dispatch H act) := by
  cases act with
  | initializeBlock bn ph => exact .initializeBlock
  | addBytes who bs v md =>
    obtain ⟨evs, h⟩ := addBytes_signed H who bs v md s
    rw [dispatch, h]
    exact .addBytes
  | ocwCallback pal who i d od =>
    by_cases hp : s.Pending i
    · obtain ⟨_, _, _, _, hc, hfnd, h⟩ := ocwCallbackOf_pending pal who d od hp
      rw [dispatch, h]
      exact .ocwCallback hc hfnd
    · rw [dispatch, ocwCallbackOf_not_found pal who d od fun req hmem hid => hp ⟨req, hmem, hid⟩]
      exact .callbackRefused hp
  | create who t te =>
    obtain ⟨evs, h⟩ := Knowledge.create_signed H who t te s
    rw [dispatch, h]
    exact .create
  | modifyContent odb who bn t te =>
    rw [dispatch, Knowledge.modifyContent_signed]
    cases hl : s.knowledge.lookup (bn, who) with
    | none => exact .modifyRefused
    | some vers =>
      cases Knowledge.readCidOnChain odb bn with
      | error fault => exact .modifyRefused
      | ok res =>
        cases res with
        | error _ => exact .modifyRefused
        | ok d =>
          change Effect H s _ (.ok (depositEvent _ _))
          rw [(depositEvent_eq _ _).choose_spec]
          exact .modifyContent hl
  | transfer bn seller buyer => exact .transfer

end Chain

end Ipfs
