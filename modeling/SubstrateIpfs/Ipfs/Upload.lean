-- SUMMARY: From the extrinsic to the node: what the offchain worker sends for each upload.
import SubstrateIpfs.Ipfs.Worker
import SubstrateIpfs.Knowledge.Pallet

/-!
# Uploads

What the worker sends is cut into segments, one for each request of the queue. The bytes of an
upload are not in its request but in the slot of the block, and a block has one slot: every upload
of a block is sent with the data of the last one.
-/

namespace Ipfs

open List World Chain Run

open Offchain

variable {i : Identifier} {d : OffchainData} {ws : List (Key × Raw)}

section
variable {A : Type}

/-! ## Segments -/

/-- What the loop over the queue sends, request by request. A panic ends it. -/
def World.segments (w : World A) (blockNumber : BlockNumber) :
    List (CommandRequest A) → Db → List (WorkerEvent A) → List (List (WorkerEvent A))
  | [], _, _ => []
  | request :: requests, db, trace =>
    match w.run (processCommandRequest blockNumber request) db trace with
    | (some (), db', trace') =>
      trace'.drop trace.length :: w.segments blockNumber requests db' trace'
    | (none, _, trace') => [trace'.drop trace.length]

/-- The segments of the hook, which asks for the peers first. -/
def World.workerSegments (w : World A) (blockNumber : BlockNumber)
    (commands : Option (List (CommandRequest A))) (db : Db) : List (List (WorkerEvent A)) :=
  w.segments blockNumber (commands.getD []) db [.node .peers]

variable {w : World A}

/-- Executing a program only adds to the trace. -/
theorem World.run_trace {α : Type} (p : Worker A α) (db : Db) (t : List (WorkerEvent A)) :
    t <+: (w.run p db t).2.2 := by
  induction p generalizing db t with
  | ret | panic => exact prefix_rfl
  | op o k ih =>
    cases o with
    | inl o => exact ih _ _ _
    | inr o =>
      cases o with
      | ipfs purp request => exact (prefix_append _ _).trans (ih _ _ _)
      | allAccounts => exact ih _ _ _
      | submitSigned | submitUnsigned => exact (prefix_append _ _).trans (ih _ _ _)

/-- The segments are all that the loop sends. -/
theorem run_ocwProcessCommandRequests_trace (n : BlockNumber)
    (rs : List (CommandRequest A)) (db : Db) (t : List (WorkerEvent A)) :
    (w.run (ocwProcessCommandRequests n rs) db t).2.2 = t ++ (w.segments n rs db t).flatten := by
  induction rs generalizing db t with
  | nil => simp [ocwProcessCommandRequests, segments, run]
  | cons rq rs ih =>
    have hgr := run_trace (w := w) (processCommandRequest n rq) db t
    rw [segments]
    generalize hrun : w.run (processCommandRequest n rq) db t = res at hgr
    obtain ⟨res, db', trace'⟩ := res
    obtain ⟨sent, rfl⟩ := hgr
    cases res with
    | some u =>
      rw [ocwProcessCommandRequests, run_bind hrun, ih]
      simp
    | none =>
      have hpan : w.run (ocwProcessCommandRequests n (rq :: rs)) db t =
          (none, db', t ++ sent) := Prog.run_bind_of_none hrun
      simp [hpan]

/-- The segments are all that the hook sends after asking for the peers. -/
theorem run_offchainWorker_trace (n : BlockNumber)
    (cmds : Option (List (CommandRequest A))) (db : Db) :
    (w.run (offchainWorker n cmds) db []).2.2 =
      .node .peers :: (w.workerSegments n cmds db).flatten := by
  obtain ⟨res, hm⟩ : ∃ res, w.run printMetadata db [] = (some res, db, [.node .peers]) := by
    have hreq : w.run (ipfsRequest none .peers) db [] =
        (some (w.node [] .peers).result, db, [.node .peers]) := rfl
    rw [printMetadata, run_bind hreq]
    cases (w.node [] .peers).result with
    | ok | error => exact ⟨_, rfl⟩
  rw [offchainWorker, run_bind hm, run_ocwProcessCommandRequests_trace]
  rfl

section
variable {n : BlockNumber} {db : Db} (hs : db (offchainDataKey n) ≠ none)

include hs

/-- The segments of the front of the queue, and the storage after them. -/
theorem segments_append (f rs : List (CommandRequest A))
    (hr : processedCount db + f.length < 2 ^ 32) (t : List (WorkerEvent A)) :
    ∃ ss db' t', ss.length = f.length ∧
      Advanced n f.length db db' ∧
      w.segments n (f ++ rs) db t = ss ++ w.segments n rs db' t' := by
  induction f generalizing db t with
  | nil => exact ⟨[], db, t, rfl, .refl _ _ _, rfl⟩
  | cons rq f ih =>
    simp only [length_cons] at hr
    obtain ⟨db1, s, hrun, hadv⟩ : ∃ db' s,
        w.run (processCommandRequest n rq) db t = (some (), db', t ++ s) ∧
          Advanced n 1 db db' := run_processCommandRequest rq hs (by omega)
    have hcnt := hadv.count
    obtain ⟨ss, db', t', hlen, ha', hre⟩ := ih (hadv.slot ▸ hs) (by omega) (t ++ s)
    refine ⟨s :: ss, db', t', by simp [hlen], ?_, ?_⟩
    · rw [length_cons, add_comm]
      exact hadv.trans ha'
    · rw [cons_append, segments, hrun]
      simp [hre]

/-- The segment of one request of the queue. -/
theorem segments_getElem {rqs : List (CommandRequest A)} {i : ℕ} {rq : CommandRequest A}
    (hget : rqs[i]? = some rq) (hroom : processedCount db + rqs.length < 2 ^ 32)
    (t : List (WorkerEvent A)) :
    ∃ db' t', Advanced n i db db' ∧
      (w.segments n rqs db t)[i]? =
        some ((w.run (processCommandRequest n rq) db' t').2.2.drop t'.length) := by
  obtain ⟨hi, rfl⟩ := List.getElem?_eq_some_iff.mp hget
  have hlen : (rqs.take i).length = i := length_take_of_le hi.le
  have hspl : rqs.take i ++ rqs[i] :: rqs.drop (i + 1) = rqs := by
    rw [← drop_eq_getElem_cons hi, take_append_drop]
  obtain ⟨segs, db', t', hse, hadv, heq⟩ := segments_append hs
    (rqs.take i) (rqs[i] :: rqs.drop (i + 1)) (by omega) t
  rw [hlen] at hse hadv
  rw [hspl] at heq
  refine ⟨db', t', hadv, ?_⟩
  rw [heq, getElem?_append_right hse.le, hse, Nat.sub_self, segments]
  obtain ⟨res, db'', trace''⟩ := w.run (processCommandRequest n rqs[i]) db' t'
  cases res with
  | some u => rfl
  | none => rfl

end

/-! ## One upload -/

/-- A node on which every upload succeeds. -/
def World.Uploads (w : World A) : Prop :=
  ∀ trace bytes version, ∃ cid,
    w.node trace (.addBytes bytes version) = .status (.finished (.addBytes cid))

/-- What is sent for an upload with the given data: one node request, and one
callback from every account. -/
def uploadSegment (w : World A) (identifier : Identifier) (version : UInt8) (data : OffchainData)
    (cid : Bytes) : List (WorkerEvent A) :=
  .node (.addBytes data.data version) ::
    w.accounts.map fun account => .signed account (.ocwCallback identifier cid.1 (some data))

variable {n : BlockNumber} {db : Db}

section
variable {t : List (WorkerEvent A)} {rq : CommandRequest A} {v : UInt8}

/-- An upload whose lock is free is sent with the data in the slot. -/
theorem run_upload_free (hupl : w.Uploads) (hreq : rq.ipfsCommands = [.addBytes v])
    (hf : LockFree n db rq.identifier) (hr : processedCount db + 1 < 2 ^ 32)
    (hs : decodeStored OffchainData (db (offchainDataKey n)) = .ok (some d)) :
    ∃ db' cid, w.run (processCommandRequest n rq) db t =
      (some (), db', t ++ uploadSegment w rq.identifier v d cid) ∧
      Advanced n 1 db db' := by
  obtain ⟨cid, hcid⟩ := hupl t d.data v
  have htk : slotOf n (lockTaken n db rq) = .ok (some d) := (slotOf_lockTaken n db rq).trans hs
  have hse : w.run (processCommand ⟨n, rq.identifier⟩ (.addBytes v)) (lockTaken n db rq) t = _ :=
    run_processCommand_readable (by simp only [Readable, htk])
  simp only [slotBytes, htk, IpfsCommand.request] at hse
  have hc : w.run (processCommands ⟨n, rq.identifier⟩ rq.ipfsCommands [])
      (lockTaken n db rq) t =
        (some (.ok [.addBytes cid]), lockTaken n db rq, t ++ [.node (.addBytes d.data v)]) := by
    rw [hreq, processCommands, run_bind hse, hcid]
    rfl
  obtain ⟨db', hp, hadv⟩ := run_ocwProcessCommand_free hf hr hc
  refine ⟨db', cid, ?_, hadv⟩
  rw [run_processCommandRequest_of hp, hs]
  rfl

/-- An upload that is locked by another block sends nothing. -/
theorem run_upload_locked (hlkd : ¬ LockFree n db rq.identifier) :
    w.run (processCommandRequest n rq) db t = (some (), db, t) := by
  have hp : w.run (ocwProcessCommand n rq processedCommandsKey) db t =
      (some (.error .failedToAcquireLock), db, t ++ []) := by
    rw [run_ocwProcessCommand_locked hlkd, append_nil]
  rw [run_processCommandRequest_of hp]
  simp [callbacks]

end

/-! ## The slot of a block -/

/-- Writes to other keys do not matter. -/
theorem importOffchainIndex_of_ne {db : Db} {key : Key} (h : ∀ write ∈ ws, write.1 ≠ key) :
    importOffchainIndex db ws key = db key := by
  induction ws generalizing db with
  | nil => rfl
  | cons write ws ih =>
    simp only [forall_mem_cons] at h
    refine (ih h.2).trans ?_
    exact Function.update_of_ne h.1.symm _ _

/-- The last write to a key counts. -/
theorem importOffchainIndex_last (db : Db) (wrs : List (Key × Raw)) (key : Key) (v : Raw) :
    importOffchainIndex db (wrs ++ [(key, v)]) key = some v := by
  rw [importOffchainIndex, foldl_append]
  exact Function.update_self _ _ _

/-- Writes to the slot of a block touch neither the locks nor the list of
processed requests. -/
theorem importOffchainIndex_slot {bn : BlockNumber} (db : Db)
    (h : ∀ write ∈ ws, write.1 = offchainDataKey bn) :
    processedCount (importOffchainIndex db ws) = processedCount db ∧
      ∀ i, LockFree bn (importOffchainIndex db ws) i ↔
        LockFree bn db i := by
  constructor
  · have hkey : ∀ write ∈ ws, write.1 ≠ processedCommandsKey := by
      intro write hmem
      rw [h write hmem]
      exact offchainDataKey_ne_processedCommandsKey _
    unfold processedCount
    rw [importOffchainIndex_of_ne hkey]
  · intro i
    have hkey : ∀ write ∈ ws, write.1 ≠ i.toList := by
      intro write hmem
      rw [h write hmem]
      exact offchainDataKey_ne_identifier _ _
    unfold LockFree
    rw [importOffchainIndex_of_ne hkey]

/-! ## The uploads of a block -/

/-- A signed call of `addBytes`. -/
structure Upload (A : Type) where
  who : A
  receivedBytes : Bytes
  version : UInt8
  metaData : Bytes

namespace Upload

def action (u : Upload A) : Action A := .addBytes u.who u.receivedBytes u.version u.metaData

def offchainData (u : Upload A) : OffchainData := ⟨u.receivedBytes, u.metaData⟩

/-- The request an upload queues. -/
def request (identifier : Identifier) (u : Upload A) : CommandRequest A :=
  ⟨identifier, u.who, [.addBytes u.version]⟩

/-- The upload is sent as it was asked for: its bytes and its version in one
node request, its bytes and its meta data in the callback from every account. -/
def SentAs (w : World A) (identifier : Identifier) (u : Upload A) (segment : List (WorkerEvent A)) :
    Prop :=
  ∃ cid, segment = uploadSegment w identifier u.version u.offchainData cid

end Upload

/-- Every upload of a block queues one request and overwrites the slot. -/
theorem exec_uploads [DecidableEq A] (H : Hashing) (s : Chain A) (ups : List (Upload A)) :
    (exec (step H) s (ups.map Upload.action)).pending =
        s.pending ++ ups.map (Upload.request (s.generateId H)) ∧
      (exec (step H) s (ups.map Upload.action)).offchainIndex =
        s.offchainIndex ++ ups.map fun u =>
          (offchainDataKey s.blockNumber, Scale.encode u.offchainData) := by
  induction ups generalizing s with
  | nil => simp
  | cons u ups ih =>
    obtain ⟨evs, hadd⟩ := addBytes_signed H u.who u.receivedBytes u.version u.metaData s
    have hs : s.step H u.action = _ := congrArg s.after hadd
    obtain ⟨hp, hidx⟩ := ih (s.step H u.action)
    simp only [map_cons, exec_cons]
    rw [hp, hidx, hs]
    constructor
    · exact append_assoc _ [_] _
    · exact append_assoc _ [_] _

theorem length_segments_le (bn : BlockNumber) (rs : List (CommandRequest A)) (db : Db)
    (t : List (WorkerEvent A)) :
    (w.segments bn rs db t).length ≤ rs.length := by
  induction rs generalizing db t with
  | nil => rfl
  | cons request rs ih =>
    rw [segments]
    split
    · exact Nat.succ_le_succ (ih _ _)
    · simp

/-- With the lock free, every upload is sent with the data in the slot. -/
theorem segments_uploads_free (hupl : w.Uploads) (hf : LockFree n db i)
    (hs : decodeStored OffchainData (db (offchainDataKey n)) = .ok (some d))
    (ups : List (Upload A)) (hr : processedCount db + ups.length < 2 ^ 32)
    (t : List (WorkerEvent A)) :
    Forall₂ (fun u s => ∃ cid, s = uploadSegment w i u.version d cid)
      ups (w.segments n (ups.map (Upload.request i)) db t) := by
  induction ups generalizing db t with
  | nil => exact .nil
  | cons u ups ih =>
    simp only [length_cons] at hr
    obtain ⟨db', cid, hrun, hadv⟩ : ∃ db' cid,
        w.run (processCommandRequest n (u.request i)) db t =
          (some (), db', t ++ uploadSegment w i u.version d cid) ∧
        Advanced n 1 db db' :=
      run_upload_free hupl rfl hf (by omega) hs
    have hcnt := hadv.count
    rw [map_cons, segments, hrun]
    refine .cons ⟨cid, drop_left⟩ (ih ?_ ?_ ?_ _)
    · exact (hadv.lock i).mpr hf
    · rwa [hadv.slot]
    · omega

section
variable [DecidableEq A]

/-- The worker of the block sends every upload of the block as it was asked for. -/
def UploadsSent (H : Hashing) (w : World A) (s : Chain A) (db : Db) (uploads : List (Upload A)) :
    Prop :=
  let s' := exec (step H) s (uploads.map Upload.action)
  List.Forall₂ (Upload.SentAs w (s.generateId H)) uploads
    ((w.workerSegments s.blockNumber s'.commands (importOffchainIndex db s'.offchainIndex)).drop
      s.pending.length)

/-- What the worker finds when it gets to the uploads of the block: the data of
the last one in the slot, and the locks as they were. -/
theorem workerSegments_uploads (H : Hashing) (db : Db) {s s' : Chain A}
    (hst : s.offchainIndex = []) (ups : List (Upload A)) (l : Upload A)
    (hex : exec (step H) s ((ups ++ [l]).map Upload.action) = s')
    (hr : processedCount db + s.pending.length < 2 ^ 32) :
    ∃ db' t',
      (w.workerSegments s.blockNumber s'.commands (importOffchainIndex db s'.offchainIndex)).drop
        s.pending.length = w.segments s.blockNumber
          ((ups ++ [l]).map (Upload.request (s.generateId H))) db' t' ∧
      decodeStored OffchainData (db' (offchainDataKey s.blockNumber)) = .ok (some l.offchainData) ∧
      (∀ i, LockFree s.blockNumber db' i ↔ LockFree s.blockNumber db i) ∧
      processedCount db' ≤ processedCount db + s.pending.length := by
  obtain ⟨hp, hidx⟩ := exec_uploads H s (ups ++ [l])
  rw [hex, hst] at hidx
  rw [hex] at hp
  have hk : ∀ write ∈ s'.offchainIndex, write.1 = offchainDataKey s.blockNumber := by
    rw [hidx]
    exact forall_mem_map.mpr fun _ _ => rfl
  obtain ⟨hcnt, hl⟩ := importOffchainIndex_slot db hk
  have hs : importOffchainIndex db s'.offchainIndex (offchainDataKey s.blockNumber) =
      some (Scale.encode l.offchainData) := by
    rw [hidx, map_append]
    exact importOffchainIndex_last _ _ _ _
  obtain ⟨segs, db', t', hlen, hadv, hse⟩ := segments_append
    (hs ▸ Option.some_ne_none _) s.pending
    ((ups ++ [l]).map (Upload.request (s.generateId H))) (hcnt ▸ hr) [.node .peers]
  refine ⟨db', t', ?_, ?_, ?_, ?_⟩
  · unfold workerSegments
    rw [show s'.commands.getD [] = _ from hp, hse, ← hlen]
    exact drop_left
  · rw [hadv.slot, hs, decodeStored_encode]
  · exact fun i => (hadv.lock i).trans (hl i)
  · exact hcnt ▸ hadv.count

omit [DecidableEq A] in
/-- With the lock taken by another block, the first upload is not sent. -/
theorem not_sent_of_locked (hlkd : ¬ LockFree n db i)
    {ups : List (Upload A)} (hne : ups ≠ []) (t : List (WorkerEvent A)) :
    ¬ Forall₂ (Upload.SentAs w i) ups (w.segments n (ups.map (Upload.request i)) db t) := by
  obtain ⟨u, ups, rfl⟩ := exists_cons_of_ne_nil hne
  have hrun : w.run (processCommandRequest n (u.request i)) db t =
      (some (), db, t) := run_upload_locked hlkd
  rw [map_cons, segments, hrun]
  intro hs
  obtain ⟨⟨cid, hseg⟩, -⟩ := forall₂_cons.mp hs
  simp [uploadSegment] at hseg

omit [DecidableEq A] in
/-- Uploads that are all sent with the data of one of them. -/
theorem sent_iff_of_last {l : Upload A} {ups : List (Upload A)}
    {ss : List (List (WorkerEvent A))} (ha : w.accounts ≠ []) (hmem : l ∈ ups)
    (hl : Forall₂ (fun u s => ∃ cid, s = uploadSegment w i u.version l.offchainData cid) ups ss) :
    Forall₂ (Upload.SentAs w i) ups ss ↔ ∀ u ∈ ups, ∀ v ∈ ups, u.offchainData = v.offchainData := by
  have hs : Forall₂ (Upload.SentAs w i) ups ss ↔ ∀ u ∈ ups, u.offchainData = l.offchainData := by
    clear hmem
    induction hl with
    | nil => simp
    | @cons u s ups ss hseg _ ih =>
      rw [forall₂_cons, ih, forall_mem_cons]
      refine and_congr_left fun _ => ?_
      obtain ⟨cid, rfl⟩ := hseg
      constructor
      · rintro ⟨cid', heq⟩
        obtain ⟨acc, accounts, hc⟩ := exists_cons_of_ne_nil ha
        simp only [uploadSegment, hc, map_cons, cons.injEq, WorkerEvent.signed.injEq,
          WorkerCall.ocwCallback.injEq, Option.some.injEq] at heq
        exact heq.2.1.2.2.2.symm
      · intro heq
        exact ⟨cid, by rw [heq]⟩
  rw [hs]
  constructor
  · intro h u hu v hv
    rw [h u hu, h v hv]
  · exact fun h u hu => h u hu l hmem

/-- At the start of a block. -/
theorem uploadsSent_iff (H : Hashing) (w : World A) {s : Chain A} (hst : s.offchainIndex = [])
    (db : Db) (ups : List (Upload A)) (ha : w.accounts ≠ []) (hn : w.Uploads)
    (hr : processedCount db + s.pending.length + ups.length < 2 ^ 32) :
    UploadsSent H w s db ups ↔
      (ups ≠ [] → LockFree s.blockNumber db (s.generateId H)) ∧
      ∀ u ∈ ups, ∀ v ∈ ups, u.offchainData = v.offchainData := by
  induction ups using reverseRecOn with
  | nil =>
    refine iff_of_true ?_ (by simp)
    have hlen := length_segments_le (w := w) s.blockNumber s.pending
      (importOffchainIndex db s.offchainIndex) [.node .peers]
    have hdrop : (w.workerSegments s.blockNumber s.commands
        (importOffchainIndex db s.offchainIndex)).drop s.pending.length = [] :=
      drop_of_length_le hlen
    unfold UploadsSent
    simp only [map_nil, exec_nil, hdrop]
    exact .nil
  | append_singleton ups l _ =>
    rw [length_append, length_singleton] at hr
    obtain ⟨db', t', hdrop, hs, hl, hcnt⟩ :=
      workerSegments_uploads (w := w) H db hst ups l rfl (by omega)
    unfold UploadsSent
    simp only [hdrop]
    by_cases hf : LockFree s.blockNumber db (s.generateId H)
    · have hla := segments_uploads_free hn ((hl _).mpr hf) hs (ups ++ [l])
        (by rw [length_append, length_singleton]; omega) t'
      refine trans ?_ (and_iff_right fun _ => hf).symm
      exact sent_iff_of_last ha (by simp) hla
    · have hlkd := fun hf' => hf ((hl _).mp hf')
      exact iff_of_false (not_sent_of_locked hlkd (by simp) _) fun h => hf (h.1 (by simp))

/-- The uploads of a block are sent as they were asked for exactly if they all
have the same data, and no other block has the lock of their identifier. -/
theorem uploads_sent_iff (H : Hashing) (w : World A) (s : Chain A) (blockNumber : BlockNumber)
    (parentHash : Hash) (db : Db) (uploads : List (Upload A)) (haccounts : w.accounts ≠ [])
    (hnode : w.Uploads) (hroom : processedCount db + s.pending.length + uploads.length < 2 ^ 32) :
    UploadsSent H w (s.initializeBlock blockNumber parentHash) db uploads ↔
      (uploads ≠ [] →
        LockFree blockNumber db ((s.initializeBlock blockNumber parentHash).generateId H)) ∧
      ∀ u ∈ uploads, ∀ v ∈ uploads, u.offchainData = v.offchainData := by
  obtain ⟨mat, hblk⟩ := s.initializeBlock_eq blockNumber parentHash
  generalize s.initializeBlock blockNumber parentHash = a at hblk ⊢
  obtain rfl : a.blockNumber = blockNumber := by rw [hblk]
  have hst : a.offchainIndex = [] := by rw [hblk]
  have hp : a.pending = s.pending := by rw [hblk]; rfl
  exact uploadsSent_iff H w hst db uploads haccounts hnode (hp ▸ hroom)

end

/-- A node that does whatever it is asked to, with one account in the keystore. -/
def World.willing : World Unit where
  node
    | _, .addBytes bytes _ => .status (.finished (.addBytes bytes))
    | _, _ => .status (.finished .success)
  accounts := [()]
  submits _ := true

theorem World.willing_uploads : willing.Uploads := fun _ bs _ => ⟨bs, rfl⟩

def firstUpload : Upload Unit := ⟨(), ⟨[1], by decide⟩, 1, .empty⟩

def secondUpload : Upload Unit := ⟨(), ⟨[2], by decide⟩, 1, .empty⟩

theorem uploads_sent_twice_the_same :
    UploadsSent Hashing.trivial willing
      ((genesis Unit).initializeBlock 1 (.replicate 32 0)) (fun _ => none)
      [firstUpload, firstUpload] :=
  (uploads_sent_iff _ _ _ 1 _ _ _ (by decide) willing_uploads (by decide)).mpr
    ⟨fun _ => lockFree_empty _ _, by simp⟩

/-- Two different uploads in one block: the second one is sent twice. -/
theorem uploads_mixed_up :
    ¬ UploadsSent Hashing.trivial willing
      ((genesis Unit).initializeBlock 1 (.replicate 32 0)) (fun _ => none)
      [firstUpload, secondUpload] := by
  intro hs
  obtain ⟨-, hsa⟩ := (uploadsSent_iff Hashing.trivial willing rfl (fun _ => none) _
    (by decide) willing_uploads (by decide)).mp hs
  have heq : firstUpload.offchainData = secondUpload.offchainData :=
    hsa firstUpload (by simp) secondUpload (by simp)
  exact absurd heq (by decide)

end

end Ipfs
