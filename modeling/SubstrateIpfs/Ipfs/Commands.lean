-- SUMMARY: What one command request makes of the node: requests sent and responses returned.
import SubstrateIpfs.Client.IpfsApi
import SubstrateIpfs.Ipfs.Worker

/-!
# Command by command

The loop over the commands of a request sends one request for each of them. A failure is logged,
and the next command is sent as if nothing had happened; only an `addBytes` without readable data
ends the loop.
-/

namespace Ipfs

open List IpfsCommand World

open Offchain

variable {A : Type} {w : World A} {db : Db} {trace : List (WorkerEvent A)} {bs : Bytes}
  {blockNumber : BlockNumber} {request : CommandRequest A} {commands : List IpfsCommand}

/-! ## The loop -/

/-- What the commands get, when the request of each of them is sent. -/
def replies (w : World A) (bytes : Bytes) :
    List (WorkerEvent A) → List IpfsCommand → List (Except IpfsError IpfsResponse)
  | _, [] => []
  | trace, command :: commands =>
    command.check (w.node trace (command.request bytes)).result ::
      replies w bytes (trace ++ [.node (command.request bytes)]) commands

theorem length_replies : (replies w bs trace commands).length = commands.length := by
  induction commands generalizing trace with
  | nil => rfl
  | cons cmd commands ih => simp [replies, ih]

/-- With all the data, the responses that are accepted are collected. -/
theorem run_processCommands_readable (w : World A) (p : Purpose)
    (h : ∀ cmd ∈ commands, Readable p.blockNumber db cmd = true)
    (rs : List IpfsResponse) (t : List (WorkerEvent A)) :
    (w.run (processCommands p commands rs) db t).1 =
      some (.ok (rs ++ (replies w (slotBytes p.blockNumber db) t commands).filterMap
        Except.toOption)) := by
  induction commands generalizing rs t with
  | nil => simp [processCommands, run, replies]
  | cons cmd commands ih =>
    obtain ⟨hc, hcm⟩ := forall_mem_cons.mp h
    rw [processCommands, run_bind (run_processCommand_readable hc), replies]
    cases cmd.check _ with
    | ok resp => simp [ih hcm, Except.toOption]
    | error error => exact ih hcm rs _

/-! ## The request -/

theorem readable_lockTaken (n : BlockNumber) (db : Db) (rq : CommandRequest A) :
    Readable n (lockTaken n db rq) = Readable n db := by
  funext cmd
  cases cmd with
  | addBytes version => simp only [Readable, slotOf_lockTaken]
  | _ => rfl

/-- The list of processed requests can take one more. -/
def HasRoom (blockNumber : BlockNumber) (request : CommandRequest A) (persistenceKey : Key)
    (db : Db) : Prop :=
  (addProcessed request.identifier
    (decodeStored _ (lockTaken blockNumber db request persistenceKey))).isSome

/-- Listing the request as processed sends nothing. It returns if there is room. -/
theorem run_processedCommands_of (w : World A) (n : BlockNumber) (rq : CommandRequest A)
    (pk : Key) (db : Db) (t : List (WorkerEvent A)) :
    ∃ res db', w.run (processedCommands rq pk)
        (lockTaken n db rq) t = (res, db', t) ∧
      (res.isSome ↔ HasRoom n rq pk db) := by
  unfold HasRoom
  cases hadd : addProcessed rq.identifier (decodeStored _ (lockTaken n db rq pk)) with
  | some ids =>
    refine ⟨some (.ok ids), _, run_mutate_ok ?_, by simp⟩
    simp only [StorageValueRef.persistent, hadd]
    rfl
  | none =>
    refine ⟨none, lockTaken n db rq, ?_, by simp⟩
    refine run_mutate_panic ?_
    simp only [StorageValueRef.persistent, hadd]

/-- Once the lock is acquired, the commands are processed. What they return is returned if the
request can then be listed as processed. -/
theorem run_processIpfsCommand (hf : LockFree blockNumber db request.identifier)
    (pk : Key) (t : List (WorkerEvent A)) :
    (w.run (processIpfsCommand blockNumber request pk) db t).2.2 =
        t ++ sent A (slotBytes blockNumber db)
          (request.ipfsCommands.takeWhile (Readable blockNumber db)) ∧
      ∀ rs, (w.run (processIpfsCommand blockNumber request pk) db t).1 =
        some (.ok rs) ↔
          (w.run (processCommands ⟨blockNumber, request.identifier⟩ request.ipfsCommands [])
            (lockTaken blockNumber db request) t).1 = some (.ok rs) ∧
          HasRoom blockNumber request pk db := by
  obtain ⟨res, hrun, -⟩ := run_processCommands w ⟨blockNumber, request.identifier⟩
    (lockTaken blockNumber db request) request.ipfsCommands [] t
  simp only [slotBytes, slotOf_lockTaken, readable_lockTaken] at hrun ⊢
  rw [processIpfsCommand, run_bind (run_acquire_free hf), hrun]
  cases res with
  | none =>
    rw [run, Prog.run_bind_of_none hrun]
    exact ⟨rfl, by simp⟩
  | some res =>
    rw [run_bind hrun]
    cases res with
    | error error => exact ⟨rfl, by simp [run]⟩
    | ok rs =>
      obtain ⟨res, db', hp, hr⟩ := run_processedCommands_of w blockNumber request
        pk db
        (t ++ sent A _ (request.ipfsCommands.takeWhile (Readable blockNumber db)))
      rw [← hr]
      cases res with
      | none =>
        rw [run, Prog.run_bind_of_none hp]
        exact ⟨rfl, by simp⟩
      | some res =>
        rw [run_bind hp]
        exact ⟨rfl, by simp [run]⟩

/-! ## The order of the commands -/

/-- The requests of the first commands are sent, and none after a command that has failed. -/
def Sequenced (w : World A) (bytes : Bytes) (commands : List IpfsCommand)
    (trace trace' : List (WorkerEvent A)) : Prop :=
  ∃ n ≤ commands.length, trace' = trace ++ sent A bytes (commands.take n) ∧
    ∀ k < n, ∀ error, (replies w bytes trace commands)[k]? = some (.error error) → n ≤ k + 1

/-- The commands are carried out in sequence exactly if each of them succeeds, but for the last one
whose request can be sent. -/
theorem sequenced_iff (hfree : LockFree blockNumber db request.identifier) (persistenceKey : Key)
    (trace : List (WorkerEvent A)) :
    Sequenced w (slotBytes blockNumber db) request.ipfsCommands trace
        (w.run (processIpfsCommand blockNumber request persistenceKey) db trace).2.2 ↔
      ∀ k, k + 1 < (request.ipfsCommands.takeWhile (Readable blockNumber db)).length →
        ∀ error, (replies w (slotBytes blockNumber db) trace request.ipfsCommands)[k]? ≠
          some (.error error) := by
  rw [(run_processIpfsCommand hfree persistenceKey trace).1]
  have hpre := takeWhile_prefix (Readable blockNumber db) (l := request.ipfsCommands)
  constructor
  · rintro ⟨n, hn, htra, hstp⟩ k hk error herr
    have hlen := congrArg length (append_cancel_left htra)
    simp only [sent, length_map, length_take] at hlen
    have hle := hstp k (by omega) error herr
    omega
  · intro hs
    refine ⟨_, hpre.length_le, ?_, fun k hk error herr => ?_⟩
    · rw [← prefix_iff_eq_take.mp hpre]
    · by_contra hlt
      exact hs k (by omega) error herr

/-! ## Nodes on which the requests succeed -/

/-- The node carries out the request of every command, and its response is converted for the
runtime. -/
def Succeeds (N : Client.NodeTypes) (w : World A) (bytes : Bytes) (commands : List IpfsCommand) :
    Prop :=
  ∀ trace, ∀ command ∈ commands, ∃ (node : Client.Node N) (response : Client.IpfsNativeResponse N),
    Client.ipfsRequest node (command.request bytes) = .ok response ∧
      w.node trace (command.request bytes) = .status (.finished response.toResponse)

theorem exists_of_map_eq_ok {E α B : Type} {x : Except E α} {f : α → B} {b : B}
    (h : x.map f = .ok b) : ∃ a, f a = b := by
  cases x with
  | error => cases h
  | ok a => exact ⟨a, Except.ok.inj h⟩

/-- Every response is of the kind that its command accepts, except that of `removeBlock`. -/
theorem accepts_toResponse {N : Client.NodeTypes} {n : Client.Node N}
    {r : Client.IpfsNativeResponse N} {cmd : IpfsCommand}
    (h : Client.ipfsRequest n (cmd.request bs) = .ok r) :
    cmd.accepts r.toResponse = true ↔ ∀ cid, cmd ≠ .removeBlock cid := by
  cases cmd with
  | removeBlock cid =>
    cases h
    exact iff_of_false nofun fun hne => hne cid rfl
  | _ =>
    obtain ⟨_, rfl⟩ := exists_of_map_eq_ok h
    exact iff_of_true rfl nofun

theorem replies_isSome_iff {N : Client.NodeTypes} (h : Succeeds N w bs commands)
    (t : List (WorkerEvent A)) :
    (∀ r ∈ replies w bs t commands, r.toOption.isSome) ↔ ∀ cid, .removeBlock cid ∉ commands := by
  induction commands generalizing t with
  | nil => simp [replies]
  | cons cmd commands ih =>
    obtain ⟨node, re, hreq, hans⟩ := h t cmd mem_cons_self
    have hh : (cmd.check (w.node t (cmd.request bs)).result).toOption.isSome ↔
        ∀ cid, cmd ≠ .removeBlock cid := by
      rw [← accepts_toResponse hreq, hans]
      cases hacc : cmd.accepts re.toResponse with
      | true | false => simp [NodeAnswer.result, check, hacc, Except.toOption]
    rw [replies, forall_mem_cons, hh,
      ih fun t cmd hmem => h t cmd (mem_cons_of_mem _ hmem), ← forall_and]
    refine forall_congr' fun cid => ?_
    rw [mem_cons, not_or, ne_comm]

/-- The response is one of the node to the request of the command. -/
def Answers (w : World A) (bytes : Bytes) (command : IpfsCommand) (response : IpfsResponse) :
    Prop :=
  ∃ trace, w.node trace (command.request bytes) = .status (.finished response)

/-- If every command succeeds, there is one response of the node for each of them. -/
theorem forall₂_answers (h : ∀ reply ∈ replies w bs trace commands, reply.toOption.isSome) :
    Forall₂ (Answers w bs) commands ((replies w bs trace commands).filterMap Except.toOption) := by
  induction commands generalizing trace with
  | nil => exact .nil
  | cons cmd commands ih =>
    obtain ⟨hh, hr⟩ := forall_mem_cons.mp h
    rw [replies]
    cases hans : w.node trace (cmd.request bs) with
    | notStarted => simp [hans, NodeAnswer.result, check, Except.toOption] at hh
    | status status =>
      cases status with
      | finished resp =>
        simp only [hans, NodeAnswer.result, check] at hh ⊢
        split
        · exact .cons ⟨trace, hans⟩ (ih hr)
        next hnot => simp [hnot, Except.toOption] at hh
      | _ => simp [hans, NodeAnswer.result, check, Except.toOption] at hh

/-- On a node on which every request succeeds, and with the data of the block there, the commands
are answered one by one exactly if none of them is `removeBlock`, as long as the list of processed
requests has room. -/
theorem responses_complete_iff {N : Client.NodeTypes}
    (hfree : LockFree blockNumber db request.identifier)
    (hreadable : ∀ command ∈ request.ipfsCommands, Readable blockNumber db command = true)
    (hnode : Succeeds N w (slotBytes blockNumber db) request.ipfsCommands) (persistenceKey : Key)
    (trace : List (WorkerEvent A)) :
    (∃ responses, (w.run (processIpfsCommand blockNumber request persistenceKey) db trace).1 =
        some (.ok responses) ∧
      List.Forall₂ (Answers w (slotBytes blockNumber db)) request.ipfsCommands responses) ↔
    (∀ cid, .removeBlock cid ∉ request.ipfsCommands) ∧
      HasRoom blockNumber request persistenceKey db := by
  rw [← readable_lockTaken blockNumber db request] at hreadable
  have hrun := run_processCommands_readable w ⟨blockNumber, request.identifier⟩ hreadable [] trace
  simp only [slotBytes, slotOf_lockTaken, nil_append] at hrun
  simp only [(run_processIpfsCommand hfree persistenceKey trace).2, slotBytes] at hnode ⊢
  rw [hrun, ← replies_isSome_iff hnode trace]
  constructor
  · rintro ⟨responses, ⟨heq, hr⟩, hall⟩
    obtain rfl := Except.ok.inj (Option.some.inj heq)
    refine ⟨?_, hr⟩
    -- a reply that fails has no response
    rw [← filterMap_length_eq_length, ← hall.length_eq, length_replies]
  · rintro ⟨hs, hr⟩
    exact ⟨_, ⟨rfl, hr⟩, forall₂_answers hs⟩

/-! ## Two nodes -/

/-- A node that succeeds at everything. -/
def obligingNode : Client.Node .trivial where
  addBytes _ _ := .ok ()
  catBytes _ := .ok .empty
  connect _ := .ok ()
  disconnect _ := .ok ()
  findPeer _ := .ok []
  getProviders _ := .ok []
  insertPin _ _ := .ok ()
  peers := .ok []
  removePin _ _ := .ok ()

def obliging : World Unit where
  node _ request := match Client.ipfsRequest obligingNode request with
    | .ok response => .status (.finished response.toResponse)
    | .error _ => .notStarted
  accounts := []
  submits _ := true

/-- A node that does not take any request. -/
def refusing : World Unit where
  node _ _ := .notStarted
  accounts := []
  submits _ := true

/-- A request of the given commands. -/
def requestOf (commands : List IpfsCommand) : CommandRequest Unit :=
  ⟨.replicate 32 0, (), commands⟩

def someCid : Bytes := ⟨[18, 32], by decide⟩

/-- The first command succeeds and the last one fails. -/
theorem sequenced_obliging :
    Sequenced obliging (slotBytes 1 fun _ => none) [.catBytes someCid, .removeBlock someCid] []
      (obliging.run (processIpfsCommand 1 (requestOf [.catBytes someCid, .removeBlock someCid])
        processedCommandsKey) (fun _ => none) []).2.2 := by
  refine (sequenced_iff (lockFree_empty 1 (requestOf _).identifier) processedCommandsKey []).mpr ?_
  intro k hk error herr
  have hlen : k + 1 < 2 := hk
  obtain rfl : k = 0 := by omega
  cases herr

/-- The second command is sent after the first one has failed. -/
theorem not_sequenced_refusing :
    ¬ Sequenced refusing (slotBytes 1 fun _ => none)
      [.catBytes ⟨[], by decide⟩, .catBytes ⟨[], by decide⟩] []
      (refusing.run (processIpfsCommand 1
        (requestOf [.catBytes ⟨[], by decide⟩, .catBytes ⟨[], by decide⟩])
        processedCommandsKey) (fun _ => none) []).2.2 := by
  rintro ⟨n, hn, htra, hstp⟩
  have hlen : 2 = _ := congrArg length htra
  simp only [sent, nil_append, length_map, length_take] at hlen
  have hstop := hstp 0 (by omega) .requestFailed rfl
  omega

theorem responses_complete_obliging :
    ∃ responses, (obliging.run (processIpfsCommand 1
        (requestOf [.catBytes someCid, .insertPin someCid, .findPeer someCid])
        processedCommandsKey) (fun _ => none) []).1 = some (.ok responses) ∧
      List.Forall₂ (Answers obliging (slotBytes 1 fun _ => none))
        [.catBytes someCid, .insertPin someCid, .findPeer someCid] responses := by
  have hn : Succeeds .trivial obliging (slotBytes 1 fun _ => none)
      [.catBytes someCid, .insertPin someCid, .findPeer someCid] := by
    intro trace command hmem
    fin_cases hmem <;> exact ⟨obligingNode, _, rfl, rfl⟩
  exact (responses_complete_iff (lockFree_empty 1 (requestOf _).identifier) (by decide) hn
    processedCommandsKey []).mpr ⟨fun cid => by simp [requestOf], rfl⟩

/-- The node has removed the block, and the command counts as failed. -/
theorem responses_incomplete_obliging :
    ¬ ∃ responses, (obliging.run (processIpfsCommand 1 (requestOf [.removeBlock ⟨[], by decide⟩])
        processedCommandsKey) (fun _ => none) []).1 = some (.ok responses) ∧
      List.Forall₂ (Answers obliging (slotBytes 1 fun _ => none)) [.removeBlock ⟨[], by decide⟩]
        responses := by
  rintro ⟨responses, hrun, hall⟩
  have hn : (some (.ok []) : Option (Except IpfsError _)) = some (.ok responses) := hrun
  cases hn
  cases hall

end Ipfs
