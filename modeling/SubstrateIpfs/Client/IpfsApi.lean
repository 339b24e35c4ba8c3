-- SUMMARY: The client side of IPFS requests: IpfsApi, IpfsWorker, and the channels between them.
import SubstrateIpfs.Base.Vec
import SubstrateIpfs.Ipfs.Core

/-!
# The IPFS API of the client

`IpfsApi` gives every request an id and sends it to `IpfsWorker`. The worker
holds a future for every request it has taken, polls them all each time it is
polled itself, and sends back what a finished one returned. `responseWait` takes
these messages in until every id it waits for has a result or the deadline is
reached.
-/

namespace Client

open Function

open Ipfs (Bytes IpfsResponse IpfsRequestStatus)

/-! ## Responses of the node -/

/-- The types of the IPFS library, and what is read off them. -/
structure NodeTypes where
  PeerId : Type
  Multiaddr : Type
  Cid : Type
  PublicKey : Type
  Block : Type
  Connection : Type
  SubscriptionStream : Type
  Error : Type
  peerIdToBytes : PeerId → Bytes
  peerIdToString : PeerId → Bytes
  multiaddrToString : Multiaddr → Bytes
  cidToBytes : Cid → Bytes
  cidToString : Cid → Bytes
  publicKeyToPeerId : PublicKey → PeerId
  connectionAddr : Connection → Multiaddr
  errorToString : Error → Bytes

/-- A library whose values do not matter. -/
def NodeTypes.trivial : NodeTypes where
  PeerId := Unit
  Multiaddr := Unit
  Cid := Unit
  PublicKey := Unit
  Block := Unit
  Connection := Unit
  SubscriptionStream := Unit
  Error := Unit
  peerIdToBytes _ := .empty
  peerIdToString _ := .empty
  multiaddrToString _ := .empty
  cidToBytes _ := .empty
  cidToString _ := .empty
  publicKeyToPeerId _ := ()
  connectionAddr _ := ()
  errorToString _ := .empty

inductive IpfsNativeResponse (N : NodeTypes) where
  | addrs (peers : List (N.PeerId × List N.Multiaddr))
  | addBytes (cid : N.Cid)
  | addListeningAddr (addr : N.Multiaddr)
  | bitswapStats (blocksSent dataSent blocksReceived dataReceived dupBlksReceived
      dupDataReceived : UInt64) (peers : List N.PeerId) (wantlist : List (N.Cid × Int32))
  | catBytes (data : Bytes)
  | connect
  | disconnect
  | findPeer (addrs : List N.Multiaddr)
  | getBlock (block : N.Block)
  | getClosestPeers (peerIds : List N.PeerId)
  | getProviders (peerIds : List N.PeerId)
  | identity (publicKey : N.PublicKey) (addrs : List N.Multiaddr)
  | insertPin
  | localAddrs (addrs : List N.Multiaddr)
  | localRefs (cids : List N.Cid)
  | peers (conns : List N.Connection)
  | publish
  | removeListeningAddr
  | removeBlock
  | removePin
  | subscribe (stream : N.SubscriptionStream)
  | subscriptionList (topics : List Bytes)
  | unsubscribe (unsubscribed : Bool)
  /-- A technical placeholder for a response that has been handed out. -/
  | success

/-- What the runtime gets to see of a response. -/
def IpfsNativeResponse.toResponse {N : NodeTypes} : IpfsNativeResponse N → IpfsResponse
  | .addrs resp => .addrs (resp.map fun (peerId, multiaddrs) =>
    (N.peerIdToBytes peerId, multiaddrs.map N.multiaddrToString))
  | .addBytes cid => .addBytes (N.cidToString cid)
  | .bitswapStats blocksSent dataSent blocksReceived dataReceived dupBlksReceived dupDataReceived
      peerIds wantlist =>
    .bitswapStats blocksSent dataSent blocksReceived dataReceived dupBlksReceived dupDataReceived
      (peerIds.map N.peerIdToBytes) (wantlist.map fun (cid, prio) => (N.cidToBytes cid, prio))
  | .catBytes data => .catBytes data
  | .getClosestPeers peerIds => .getClosestPeers (peerIds.map N.peerIdToString)
  | .getProviders peerIds => .getProviders (peerIds.map N.peerIdToString)
  | .findPeer multiaddrs => .findPeer (multiaddrs.map N.multiaddrToString)
  | .identity publicKey multiaddrs =>
    .identity (N.peerIdToBytes (N.publicKeyToPeerId publicKey)) (multiaddrs.map N.multiaddrToString)
  | .localAddrs multiaddrs => .localAddrs (multiaddrs.map N.multiaddrToString)
  | .localRefs cids => .localRefs (cids.map N.cidToBytes)
  | .peers conns => .peers (conns.map fun conn => N.multiaddrToString (N.connectionAddr conn))
  | .removeBlock => .removeBlock .empty
  | _ => .success

/-- The calls of the IPFS library behind the requests of the runtime. Each of them parses its
arguments, which may fail as well. -/
structure Node (N : NodeTypes) where
  addBytes : Bytes → UInt8 → Except N.Error N.Cid
  catBytes : Bytes → Except N.Error Bytes
  connect : Bytes → Except N.Error Unit
  disconnect : Bytes → Except N.Error Unit
  findPeer : Bytes → Except N.Error (List N.Multiaddr)
  getProviders : Bytes → Except N.Error (List N.PeerId)
  insertPin : Bytes → Bool → Except N.Error Unit
  peers : Except N.Error (List N.Connection)
  removePin : Bytes → Bool → Except N.Error Unit

/-- Carry out a request of the runtime. Removing a block does nothing. -/
def ipfsRequest {N : NodeTypes} (node : Node N) :
    Ipfs.IpfsRequest → Except N.Error (IpfsNativeResponse N)
  | .addBytes data version => (node.addBytes data version).map .addBytes
  | .catBytes cid => (node.catBytes cid).map .catBytes
  | .connect addr => (node.connect addr).map fun _ => .connect
  | .disconnect addr => (node.disconnect addr).map fun _ => .disconnect
  | .findPeer peerId => (node.findPeer peerId).map .findPeer
  | .getProviders cid => (node.getProviders cid).map .getProviders
  | .insertPin cid recursive => (node.insertPin cid recursive).map fun _ => .insertPin
  | .peers => node.peers.map .peers
  | .removeBlock => .ok .removeBlock
  | .removePin cid recursive => (node.removePin cid recursive).map fun _ => .removePin

/-! ## The API -/

abbrev IpfsRequestId := UInt16

/-- One active request. -/
inductive IpfsApiRequest (N : NodeTypes) where
  | dispatched
  | response (value : IpfsNativeResponse N)
  | fail (error : N.Error)

/-- Message sent from the API to the worker. -/
structure ApiToWorker (Q : Type) where
  id : IpfsRequestId
  request : Q

/-- Message sent from the worker to the API: a request has succeeded, or failed. -/
inductive WorkerToApi (N : NodeTypes) where
  | response (id : IpfsRequestId) (value : IpfsNativeResponse N)
  | fail (id : IpfsRequestId) (error : N.Error)

namespace WorkerToApi

variable {N : NodeTypes}

def id : WorkerToApi N → IpfsRequestId
  | .response id _ => id
  | .fail id _ => id

/-- What the API keeps of it. -/
def entry : WorkerToApi N → IpfsApiRequest N
  | .response _ value => .response value
  | .fail _ error => .fail error

/-- The message about a future that has returned. -/
def ofResult (id : IpfsRequestId) : Except N.Error (IpfsNativeResponse N) → WorkerToApi N
  | .ok value => .response id value
  | .error error => .fail id error

@[simp] theorem id_ofResult (id : IpfsRequestId) (res : Except N.Error (IpfsNativeResponse N)) :
    (ofResult id res).id = id := by
  cases res with
  | ok => rfl
  | error => rfl

end WorkerToApi

structure IpfsApi (N : NodeTypes) where
  nextId : IpfsRequestId
  requests : IpfsRequestId → Option (IpfsApiRequest N)

/-- A call of `responseWait` that is waiting for the worker, with or without a
deadline. -/
structure Wait where
  ids : List IpfsRequestId
  output : List IpfsRequestStatus
  deadline : Bool
  length_output : output.length = ids.length

namespace IpfsApi

variable {N : NodeTypes}

/-- Start a request: its id, and the message to the worker. There are no more ids
when they overflow. -/
def requestStart {Q : Type} (self : IpfsApi N) (request : Q) :
    Except Unit IpfsRequestId × IpfsApi N × List (ApiToWorker Q) :=
  if self.nextId.toNat + 1 < UInt16.size then
    (.ok self.nextId,
      { nextId := self.nextId + 1
        requests := update self.requests self.nextId (some .dispatched) },
      [⟨self.nextId, request⟩])
  else
    (.error (), self, [])

variable (self : IpfsApi N)

/-- Look at one id: its status, by the one it had, and whether to wait for it. A
response is handed out once. -/
def look (id : IpfsRequestId) (status : IpfsRequestStatus) : IpfsApi N × IpfsRequestStatus × Bool :=
  match self.requests id with
  | none => (self, .invalid, false)
  | some .dispatched => (self, status, true)
  | some (.fail error) => (self, .ioError (N.errorToString error), false)
  | some (.response .success) => (self, status, false)
  | some (.response resp) =>
    ({ self with requests := update self.requests id (some (.response .success)) },
      .finished resp.toResponse, false)

/-- Look at all ids in turn. -/
def scan (self : IpfsApi N) :
    List (IpfsRequestId × IpfsRequestStatus) → IpfsApi N × List IpfsRequestStatus × Bool
  | [] => (self, [], false)
  | (id, status) :: rest =>
    let (self, status, mustWait) := self.look id status
    let (self, output, mustWaitMore) := self.scan rest
    (self, status :: output, mustWait || mustWaitMore)

theorem length_scan (self : IpfsApi N) (out : List (IpfsRequestId × IpfsRequestStatus)) :
    (self.scan out).2.1.length = out.length := by
  induction out generalizing self with
  | nil => rfl
  | cons slot out ih => simp [scan, ih]

/-- Requests in "fail" mode are purged before returning. -/
def purge (output : List (IpfsRequestId × IpfsRequestStatus)) : IpfsApi N :=
  output.reverse.foldl (fun self (id, status) =>
    match status with
    | .ioError _ => { self with requests := update self.requests id none }
    | _ => self) self

/-- The first half of the loop of `responseWait`: either it returns, or it goes on
to wait for a message. -/
def waitTop (wait : Wait) (deadlineDone : Bool) :
    IpfsApi N × Except (List IpfsRequestStatus) Wait :=
  let scanned := self.scan (wait.ids.zip wait.output)
  if deadlineDone || !scanned.2.2 then
    (scanned.1.purge (wait.ids.zip scanned.2.1), .error scanned.2.1)
  else
    (scanned.1, .ok { wait with
      output := scanned.2.1
      length_output := by rw [length_scan, List.length_zip, wait.length_output, Nat.min_self] })

/-- The state of a call at its start. -/
def waitStart (ids : List IpfsRequestId) (deadline : Bool) : Wait :=
  { ids := ids
    output := List.replicate ids.length .deadlineReached
    deadline := deadline
    length_output := List.length_replicate }

/-- Update the state on a message. The entry is removed, and inserted anew if it was dispatched;
otherwise there is a state mismatch. -/
def receive (message : WorkerToApi N) : IpfsApi N × Bool :=
  match self.requests message.id with
  | some .dispatched =>
    ({ self with requests := update self.requests message.id (some message.entry) }, true)
  | _ => ({ self with requests := update self.requests message.id none }, false)

end IpfsApi

/-! ## The machine -/

/-- What polling a future gives. -/
inductive PollOutcome (N : NodeTypes) where
  | pending
  | ready (result : Except N.Error (IpfsNativeResponse N))

/-- A poll of the worker on its way through the held requests: how many are left,
and, for the books, what was held at the start and what has been polled. -/
structure Polling (Q : Type) where
  remaining : ℕ
  before : List (IpfsRequestId × Q)
  polled : List (IpfsRequestId × Q)

/-- Both ends and the channels. `held` are the requests of the worker. The rest are books: what was
started, completed, taken in and returned, and the state mismatches. -/
structure System (N : NodeTypes) (Q : Type) where
  api : IpfsApi N
  wait : Option Wait
  toWorker : List (ApiToWorker Q)
  held : List (IpfsRequestId × Q)
  polling : Option (Polling Q)
  toApi : List (WorkerToApi N)
  started : List IpfsRequestId
  completed : List (WorkerToApi N)
  delivered : List (WorkerToApi N)
  returned : List (List IpfsRequestStatus)
  mismatches : ℕ

/-- What happens in the system. The API has one caller, so a request is started
only while nothing is waited for. -/
inductive Action (N : NodeTypes) (Q : Type) where
  | requestStart (request : Q)
  | responseWait (ids : List IpfsRequestId) (deadline : Bool)
  | receive
  | deadlineReached
  | pollBegin
  | pollNext (outcome : PollOutcome N)
  | pollEnd

namespace System

variable {N : NodeTypes} {Q : Type}

/-- A new pair of API and worker. The first id is random. -/
def start (N : NodeTypes) (Q : Type) (nextId : IpfsRequestId) : System N Q where
  api := { nextId := nextId, requests := fun _ => none }
  wait := none
  toWorker := []
  held := []
  polling := none
  toApi := []
  started := []
  completed := []
  delivered := []
  returned := []
  mismatches := 0

variable (s : System N Q)

def requestStart (request : Q) : System N Q :=
  let (result, api, sent) := s.api.requestStart request
  { s with
    api := api
    toWorker := s.toWorker ++ sent
    started := s.started ++ result.toOption.toList }

/-- The API goes through the top of its loop. -/
def loopTop (wait : Wait) (deadlineDone : Bool) : System N Q :=
  match s.api.waitTop wait deadlineDone with
  | (api, .error output) =>
    { s with api := api, wait := none, returned := s.returned ++ [output] }
  | (api, .ok wait) => { s with api := api, wait := some wait }

/-- The API takes a message in. -/
def receive (s : System N Q) (message : WorkerToApi N) (rest : List (WorkerToApi N)) : System N Q :=
  match s.api.receive message with
  | (api, true) => { s with api := api, toApi := rest, delivered := s.delivered ++ [message] }
  | (api, false) => { s with api := api, toApi := rest, mismatches := s.mismatches + 1 }

/-- The worker polls the request at the next index from the back. It is put back
if it is pending. -/
def pollNext (outcome : PollOutcome N) (n : ℕ) (p : Polling Q) : System N Q :=
  match Vec.swapRemove s.held n with
  | none => s
  | some ((id, request), rest) =>
    let polling := some { p with remaining := n, polled := p.polled ++ [(id, request)] }
    match outcome with
    | .pending => { s with held := rest ++ [(id, request)], polling := polling }
    | .ready result =>
      { s with
        held := rest
        polling := polling
        toApi := s.toApi ++ [.ofResult id result]
        completed := s.completed ++ [.ofResult id result] }

/-- At the end of its poll the worker takes one message from the API. -/
def pollEnd : System N Q :=
  match s.toWorker with
  | [] => { s with polling := none }
  | message :: rest =>
    { s with
      toWorker := rest
      held := s.held ++ [(message.id, message.request)]
      polling := none }

/-- Actions that are not enabled do nothing. The wait prefers a message over the
deadline. -/
def step : Action N Q → System N Q
  | .requestStart request =>
    match s.wait with
    | none => s.requestStart request
    | some _ => s
  | .responseWait ids deadline =>
    match s.wait with
    | none => s.loopTop (IpfsApi.waitStart ids deadline) false
    | some _ => s
  | .receive =>
    match s.wait, s.toApi with
    | some wait, message :: rest => (s.receive message rest).loopTop wait false
    | _, _ => s
  | .deadlineReached =>
    match s.wait, s.toApi with
    | some wait, [] => if wait.deadline then s.loopTop wait true else s
    | _, _ => s
  | .pollBegin =>
    match s.polling with
    | none => { s with polling := some ⟨s.held.length, s.held, []⟩ }
    | some _ => s
  | .pollNext outcome =>
    match s.polling with
    | some ⟨n + 1, before, polled⟩ => s.pollNext outcome n ⟨n + 1, before, polled⟩
    | _ => s
  | .pollEnd =>
    match s.polling with
    | some ⟨0, _, _⟩ => s.pollEnd
    | _ => s

end System

end Client
