-- SUMMARY: What offchain workers read of knowledge, and how asking for it destroys it.
import SubstrateIpfs.Ipfs.Upload

/-!
# The content of knowledge

`create` writes to the slot of its block twice: the content, for the worker of
pallet-tds-ipfs, and then the block number, for the worker of pallet-knowledge.
The second write wins, and both workers go on to decode it as content.
-/

namespace Knowledge

open List Scale Run

open Offchain Ipfs

variable {d : OffchainData}

section
variable {A : Type}

def submitUnsigned (call : WorkerCall) : Worker A Bool :=
  Prog.perform (I := interface (workerHost A)) (.inr (.submitUnsigned call))

/-- The offchain worker of pallet-knowledge: it takes a block number from the slot
of the block, and submits the content of that block. -/
def offchainWorker (blockNumber : BlockNumber) : Worker A Unit := do
  match ← (StorageValueRef.persistent (offchainDataKey blockNumber)).get BlockNumber with
  | .ok (some blockNumber) =>
    match ← readCidForBlockNumber blockNumber with
    | .ok cidData =>
      let _ ← submitUnsigned (.storeOffchainData blockNumber cidData)
      return ()
    | .error _ => return ()
  | .ok none => return ()
  | .error _ => return ()

/-! ## The slot after `create` -/

/-- The extrinsics that have no content. -/
def KeepsContent : Action A → Prop
  | .initializeBlock _ _ => False
  | .addBytes _ _ _ _ => False
  | .ocwCallback _ _ _ _ _ => True
  | .create _ _ _ => False
  | .modifyContent _ _ _ _ _ => False
  | .transfer _ _ _ => True

/-- What the slot and the identifiers of a block depend on. -/
def contentView (s : Chain A) : BlockNumber × List Hash × List (Key × Raw) :=
  (s.blockNumber, s.randomMaterial, s.offchainIndex)

variable [DecidableEq A]

theorem contentView_step (H : Hashing) (s : Chain A) {act : Action A} (h : KeepsContent act) :
    contentView (s.step H act) = contentView s := by
  have heff := s.dispatch_effect H act
  unfold Chain.step
  generalize s.dispatch H act = result at heff ⊢
  cases heff with
  | ocwCallback | transfer | callbackRefused => rfl
  | initializeBlock | addBytes | create | modifyContent => exact h.elim
  | modifyRefused => rfl

theorem contentView_exec (H : Hashing) (s : Chain A) {acts : List (Action A)}
    (h : ∀ act ∈ acts, KeepsContent act) :
    contentView (exec (Chain.step H) s acts) = contentView s := by
  induction acts generalizing s with
  | nil => rfl
  | cons act acts ih =>
    rw [forall_mem_cons] at h
    rw [exec_cons, ih _ h.2, contentView_step H s h.1]

/-- A block in which nothing but `create` has content makes two writes. -/
theorem offchainIndex_create (H : Hashing) {s : Chain A} (hst : s.offchainIndex = [])
    (who : A) (t te : Bytes) {b a : List (Action A)} (hoth : ∀ act ∈ b ++ a, KeepsContent act) :
    (exec (Chain.step H) s (b ++ .create who t te :: a)).offchainIndex =
      [(offchainDataKey s.blockNumber, encode (OffchainData.mk te t))] ++
      [(offchainDataKey s.blockNumber, encode s.blockNumber)] := by
  rw [forall_mem_append] at hoth
  have hbef := contentView_exec H s hoth.1
  rw [exec_append, exec_cons]
  generalize exec (Chain.step H) s b = m at hbef ⊢
  simp only [contentView, Prod.mk.injEq] at hbef
  obtain ⟨evs, hcre⟩ := create_signed H who t te m
  have hs : m.step H (.create who t te) = _ := congrArg m.after hcre
  have haft := contentView_exec H (m.step H (.create who t te)) hoth.2
  simp only [contentView, Prod.mk.injEq] at haft
  rw [haft.2.2, hs]
  simp [hbef, hst]

/-! ## What the workers make of it -/

variable {w : World A} {n : BlockNumber} {db : Db}

section
omit [DecidableEq A]

theorem run_readCid_eq_iff {t : List (WorkerEvent A)} :
    (w.run (readCidForBlockNumber n) db t).1 = some (.ok d) ↔
      decodeStored OffchainData (db (offchainDataKey n)) = .ok (some d) := by
  rw [run_readCidForBlockNumber, slotOf]
  cases decodeStored OffchainData (db (offchainDataKey n)) with
  | error error => simp
  | ok s =>
    cases s with
    | none | some => simp

/-- The worker of pallet-knowledge gets its block number, and submits what the
slot decodes to. -/
theorem run_offchainWorker (hs : db (offchainDataKey n) = some (encode n))
    (hda : decodeStored OffchainData (db (offchainDataKey n)) = .ok (some d)) :
    w.run (offchainWorker n) db [] = (some (), db, [.unsigned (.storeOffchainData n d)]) := by
  have hget : w.run ((StorageValueRef.persistent (offchainDataKey n)).get BlockNumber) db [] =
      (some (.ok (some n)), db, []) := by
    refine (run_get _ _ _).trans ?_
    simp only [StorageValueRef.persistent, hs, decodeStored_encode]
  have hr : w.run (readCidForBlockNumber n) db [] = (some (.ok d), db, []) := by
    rw [run_readCidForBlockNumber, slotOf, hda]
  rw [offchainWorker, World.run_bind hget]
  rw [World.run_bind hr]
  rfl

end

/-- The content of a request reaches both workers of the block: it is what they
read, what the worker of pallet-tds-ipfs uploads for the request, and what the
worker of pallet-knowledge submits. -/
structure ContentKept (w : World A) (blockNumber : BlockNumber) (request : CommandRequest A)
    (data : OffchainData) (s : Chain A) (db : Db) : Prop where
  read : (w.run (readCidForBlockNumber blockNumber) db []).1 = some (.ok data)
  uploaded : ∀ i : ℕ, s.pending[i]? = some request →
    ∃ cid, (w.workerSegments blockNumber s.commands db)[i]? =
      some (uploadSegment w request.identifier 1 data cid)
  submitted : (w.run (offchainWorker blockNumber) db []).2.2 =
    [.unsigned (.storeOffchainData blockNumber data)]

omit [DecidableEq A] in
/-- With a block number in the slot. -/
theorem contentKept_iff {req : CommandRequest A} {s : Chain A}
    (hs : db (offchainDataKey n) = some (encode n))
    (hreq : req.ipfsCommands = [.addBytes 1]) (hw : req ∈ s.pending)
    (hno : w.Uploads) (hr : processedCount db + s.pending.length < 2 ^ 32) :
    ContentKept w n req d s db ↔ LockFree n db req.identifier ∧ encode d <+: encode n := by
  -- a block number in the slot reads as content if it happens to begin with its encoding
  have hre : decodeStored OffchainData (db (offchainDataKey n)) = .ok (some d) ↔
      encode d <+: encode n := by
    rw [hs, decodeStored_eq_some]
    simp
  rw [← hre]
  have hso : db (offchainDataKey n) ≠ none := hs ▸ Option.some_ne_none _
  constructor
  · intro hk
    refine ⟨?_, run_readCid_eq_iff.mp hk.read⟩
    obtain ⟨i, hget⟩ := mem_iff_getElem?.mp hw
    obtain ⟨cid, hseg⟩ := hk.uploaded i hget
    obtain ⟨db', trace', hadv, hat⟩ := segments_getElem hso hget hr [.node .peers]
    by_contra hlkd
    have hrun : w.run (processCommandRequest n req) db' trace' = (some (), db', trace') :=
      run_upload_locked fun hf => hlkd ((hadv.lock _).mp hf)
    have hn : some [] = some (uploadSegment w req.identifier 1 d cid) := by
      rw [← hseg, World.workerSegments, ← Chain.pending, hat, hrun, drop_length]
    simp [uploadSegment] at hn
  · rintro ⟨hf, hda⟩
    refine ⟨run_readCid_eq_iff.mpr hda, ?_, by rw [run_offchainWorker hs hda]⟩
    intro i hget
    obtain ⟨db', trace', hadv, hat⟩ := segments_getElem hso hget hr [.node .peers]
    have hcnt := hadv.count
    have hi : i < s.pending.length := (List.getElem?_eq_some_iff.mp hget).1
    obtain ⟨db'', cid, hrun, -⟩ : ∃ db'' cid,
        w.run (processCommandRequest n req) db' trace' =
          (some (), db'', trace' ++ uploadSegment w req.identifier 1 d cid) ∧
        Advanced n 1 db' db'' :=
      run_upload_free hno hreq ((hadv.lock _).mpr hf) (by omega) (hadv.slot ▸ hda)
    refine ⟨cid, ?_⟩
    rw [World.workerSegments, ← Chain.pending, hat, hrun, drop_left]

/-- The request `create` queues in a block. -/
def createRequest (H : Hashing) (s : Chain A) (who : A) : CommandRequest A :=
  ⟨s.generateId H, who, [.addBytes 1]⟩

/-- The request is in the queue after the call. -/
theorem createRequest_mem (H : Hashing) (s : Chain A) (who : A) (t te : Bytes)
    (b : List (Action A)) (hoth : ∀ act ∈ b, KeepsContent act) :
    createRequest H s who ∈ (exec (Chain.step H) s (b ++ [.create who t te])).pending := by
  have hbef := contentView_exec H s hoth
  rw [exec_append, exec_cons]
  generalize exec (Chain.step H) s b = m at hbef ⊢
  simp only [contentView, Prod.mk.injEq] at hbef
  obtain ⟨evs, hcre⟩ := create_signed H who t te m
  have hs : m.step H (.create who t te) = _ := congrArg m.after hcre
  have hid : s.generateId H = m.generateId H := by
    simp only [Chain.generateId, Chain.idPayload, Chain.random, hbef]
  rw [hs, createRequest, hid]
  exact mem_append_right _ (mem_singleton.mpr rfl)

/-- At the start of a block. -/
theorem contentKept_create_iff (H : Hashing) (w : World A) {s : Chain A}
    (hst : s.offchainIndex = []) (db : Db) (who : A) (t te : Bytes)
    (b a : List (Action A)) {s' : Chain A}
    (hex : exec (Chain.step H) s (b ++ .create who t te :: a) = s')
    (hoth : ∀ act ∈ b ++ a, KeepsContent act)
    (hw : createRequest H s who ∈ s'.pending) (hn : w.Uploads)
    (hr : processedCount db + s'.pending.length < 2 ^ 32) :
    ContentKept w s.blockNumber (createRequest H s who) ⟨te, t⟩ s'
        (importOffchainIndex db s'.offchainIndex) ↔
      LockFree s.blockNumber db (s.generateId H) ∧
        encode (OffchainData.mk te t) <+: encode s.blockNumber := by
  have hidx := offchainIndex_create H hst who t te hoth
  rw [hex] at hidx
  have hk : ∀ write ∈ s'.offchainIndex, write.1 = offchainDataKey s.blockNumber := by
    simp [hidx]
  obtain ⟨hcnt, hl⟩ := importOffchainIndex_slot db hk
  have hs : importOffchainIndex db s'.offchainIndex (offchainDataKey s.blockNumber) =
      some (encode s.blockNumber) := by
    rw [hidx]
    exact importOffchainIndex_last _ _ _ _
  rw [contentKept_iff hs rfl hw hn (hcnt ▸ hr), hl]
  rfl

/-- After `create` as the only extrinsic with content, the workers of the block
get the content exactly if the block number begins with its encoding, and no
other block has the lock of the request. -/
theorem content_kept_iff (H : Hashing) (w : World A) (s : Chain A) (blockNumber : BlockNumber)
    (parentHash : Hash) (db : Db) (who : A) (title text : Bytes) (before after : List (Action A))
    (hothers : ∀ action ∈ before ++ after, KeepsContent action) (s' : Chain A)
    (hexec : exec (Chain.step H) (s.initializeBlock blockNumber parentHash)
      (before ++ .create who title text :: after) = s')
    (hwaiting : createRequest H (s.initializeBlock blockNumber parentHash) who ∈ s'.pending)
    (hnode : w.Uploads) (hroom : processedCount db + s'.pending.length < 2 ^ 32) :
    ContentKept w blockNumber (createRequest H (s.initializeBlock blockNumber parentHash) who)
        ⟨text, title⟩ s' (importOffchainIndex db s'.offchainIndex) ↔
      LockFree blockNumber db ((s.initializeBlock blockNumber parentHash).generateId H) ∧
        encode (OffchainData.mk text title) <+: encode blockNumber := by
  obtain ⟨mat, hblk⟩ := s.initializeBlock_eq blockNumber parentHash
  generalize s.initializeBlock blockNumber parentHash = a at *
  obtain rfl : a.blockNumber = blockNumber := by rw [hblk]
  have hst : a.offchainIndex = [] := by rw [hblk]
  exact contentKept_create_iff H w hst db who title text before after hexec hothers hwaiting
    hnode hroom

/-- The first block of a chain, with a number of its own. -/
def startOf (blockNumber : BlockNumber) : Chain Unit :=
  (Chain.genesis Unit).initializeBlock blockNumber (.replicate 32 0)

def sampleText : Bytes := ⟨[7], by decide⟩

/-- The sample text is created in the block, with an empty title. -/
def createdIn (blockNumber : BlockNumber) : Chain Unit :=
  exec (Chain.step Hashing.trivial) (startOf blockNumber) [.create () .empty sampleText]

/-- The workers of the block get the sample text. -/
def SampleKept (blockNumber : BlockNumber) : Prop :=
  ContentKept World.willing blockNumber (createRequest Hashing.trivial (startOf blockNumber) ())
    ⟨sampleText, .empty⟩ (createdIn blockNumber)
    (importOffchainIndex (fun _ => none) (createdIn blockNumber).offchainIndex)

theorem createdIn_waiting (bn : BlockNumber) :
    createRequest Hashing.trivial (startOf bn) () ∈ (createdIn bn).pending :=
  createRequest_mem _ _ _ _ _ [] (by simp)

/-- The number 1796 begins with the encoding of the sample text. -/
theorem content_kept_block_1796 : SampleKept 1796 :=
  (content_kept_iff Hashing.trivial World.willing (Chain.genesis Unit) 1796
    (.replicate 32 0) (fun _ => none) () ⟨[], by decide⟩ sampleText [] [] (by simp)
    (createdIn 1796) rfl (createdIn_waiting 1796) World.willing_uploads (by decide)).mpr
    ⟨lockFree_empty _ _, by decide⟩

/-- The number 1 does not. -/
theorem content_lost_block_1 : ¬ SampleKept 1 := by
  intro hk
  obtain ⟨-, hpre⟩ := (contentKept_create_iff Hashing.trivial World.willing rfl (fun _ => none) ()
    ⟨[], by decide⟩ sampleText [] [] rfl (by simp) (createdIn_waiting 1) World.willing_uploads
    (by decide)).mp hk
  exact absurd hpre (by decide)

/-! ## Content that is asked for -/

/-- Ask for the content of a block: its number goes to its slot. -/
def getContent (origin : Origin A) (blockNumber : BlockNumber) (s : Chain A) :
    Except Fault (Chain A) := do
  let _ ← ensureSigned origin
  return s.setOffchainIndex (offchainDataKey blockNumber) (encode blockNumber)

/-- A call writes to no slot but the one of the block it is in. -/
theorem importOffchainIndex_step (H : Hashing) {s : Chain A} {act : Action A}
    (hact : ∀ bn ph, act ≠ .initializeBlock bn ph) (hn : n ≠ s.blockNumber) :
    (s.step H act).blockNumber = s.blockNumber ∧
      importOffchainIndex db (s.step H act).offchainIndex (offchainDataKey n) =
        importOffchainIndex db s.offchainIndex (offchainDataKey n) := by
  have hkey : offchainDataKey n ≠ offchainDataKey s.blockNumber := by simpa [offchainDataKey]
  have heff := s.dispatch_effect H act
  unfold Chain.step
  generalize s.dispatch H act = result at heff ⊢
  cases heff with
  | initializeBlock => exact absurd rfl (hact _ _)
  | _ => simp [Chain.after, importOffchainIndex, hkey]

theorem importOffchainIndex_exec (H : Hashing) {s : Chain A} {acts : List (Action A)}
    (hacts : ∀ act ∈ acts, ∀ bn ph, act ≠ .initializeBlock bn ph) (hn : n ≠ s.blockNumber) :
    importOffchainIndex db (exec (Chain.step H) s acts).offchainIndex (offchainDataKey n) =
      importOffchainIndex db s.offchainIndex (offchainDataKey n) := by
  induction acts generalizing s with
  | nil => rfl
  | cons act acts ih =>
    rw [forall_mem_cons] at hacts
    obtain ⟨hnum, hslot⟩ := importOffchainIndex_step H hacts.1 hn
    rw [exec_cons, ih hacts.2 (hnum ▸ hn), hslot]

/-- Whoever asks for the content of another block destroys it, whatever else is called. -/
theorem content_destroyed (H : Hashing) (w : World A) (db : Db) (s : Chain A) (who : A)
    (blockNumber : BlockNumber) (hother : blockNumber ≠ s.blockNumber) (calls : List (Action A))
    (hcalls : ∀ call ∈ calls, ∀ number hash, call ≠ .initializeBlock number hash) :
    ∃ s', getContent (.signed who) blockNumber s = .ok s' ∧ ∀ data,
      (w.run (readCidForBlockNumber blockNumber)
        (importOffchainIndex db (exec (Chain.step H) s' calls).offchainIndex) []).1 =
          some (.ok data) ↔ encode data <+: encode blockNumber := by
  refine ⟨_, rfl, fun data => ?_⟩
  rw [run_readCid_eq_iff, importOffchainIndex_exec H hcalls (by exact hother),
    Chain.setOffchainIndex, importOffchainIndex_last, decodeStored_eq_some]
  simp

theorem content_destroyed_block_1 : ∃ s', getContent (.signed ()) 1 (startOf 2) = .ok s' ∧ ∀ data,
    (World.willing.run (readCidForBlockNumber 1) (importOffchainIndex (fun _ => none)
      (exec (Chain.step Hashing.trivial) s' [.create () .empty sampleText]).offchainIndex) []).1 =
        some (.ok data) ↔ encode data <+: encode (1 : BlockNumber) :=
  content_destroyed _ _ _ _ _ _ (by decide) _ (by simp)

end

end Knowledge
