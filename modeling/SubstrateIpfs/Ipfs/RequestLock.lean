-- SUMMARY: The lock of a command request under interleaving: one block issues its requests.
import SubstrateIpfs.Ipfs.Worker

/-!
# The lock of a request

Offchain workers of any blocks run side by side on one storage. A worker that
processes a request first writes the number of its block under the identifier
of the request, unless another block is there already. The entry is never
removed, so it settles for good which block issues node requests for the
request.
-/

namespace Ipfs

open List Function Threads Scale Threads.Safe

open Offchain

/-! ## Workers on one storage -/

/-- The entries an operation writes. -/
def writes (db : Db) : StorageOp → List (Key × Raw)
  | .localStorageGet _ => []
  | .localStorageSet key value => [(key, value)]
  | .localStorageClear _ => []
  | .localStorageCompareAndSet key oldValue newValue =>
    if db key = oldValue then [(key, newValue)] else []

/-- The storage the workers share. `issued` says for which requests and by the
workers of which blocks node requests were issued, `written` what was written.
The code keeps neither. -/
structure WorkerState where
  db : Db
  issued : List Purpose
  written : List (Key × Raw)

namespace WorkerState

def commit (s : WorkerState) (o : StorageOp) : WorkerState :=
  { s with db := (o.apply s.db).2, written := s.written ++ writes s.db o }

def perform {A : Type} (s : WorkerState) : WorkerOp A → WorkerState
  | .ipfs (some purpose) _ => { s with issued := s.issued ++ [purpose] }
  | .ipfs none _ => s
  | .allAccounts => s
  | .submitSigned _ _ => s
  | .submitUnsigned _ => s

end WorkerState

variable {s s' s0 : WorkerState} {purpose : Purpose} {B : Type} {e : Key × Raw}

section
variable {A ι : Type}

/-- Workers of any blocks, each with any queue. The node, the keystore and the
transaction pool may answer anything. Besides, entries that are no locks change,
such as the slots of imported blocks. -/
def workerThreads (A ι : Type) : Threads (interface (workerHost A)) ι Unit WorkerState where
  sem _
    | .inl o, s, r, s' => r = (o.apply s.db).1 ∧ s' = s.commit o
    | .inr o, s, _, s' => s' = s.perform o
  finish _ _ s := s
  call _ _ p := ∃ blockNumber commands, p = offchainWorker blockNumber commands
  env s s' := (∀ identifier : Identifier, s'.db identifier.toList = s.db identifier.toList) ∧
    s'.issued = s.issued ∧ s'.written = s.written

def workerView (A ι : Type) : StorageView (workerThreads A ι) where
  db := WorkerState.db
  commit := WorkerState.commit
  sem_iff _ _ _ _ _ := Iff.rfl
  commit_get s _ := by simp [WorkerState.commit, StorageOp.apply, writes]
  commit_failed s _ _ _ hne := by simp [WorkerState.commit, StorageOp.apply, writes, hne]

/-- Nothing runs, and nothing has been issued or written. -/
def WorkerConfig.start (A ι : Type) (db : Db) :
    Config (interface (workerHost A)) ι Unit WorkerState where
  shared := { db := db, issued := [], written := [] }
  running := fun _ => none

/-! ## Invariant and interference -/

/-- The lock is held for this purpose. -/
def Held (s : WorkerState) (purpose : Purpose) : Prop :=
  s.db purpose.identifier.toList = some (encode purpose.blockNumber)

/-- A lock that is held stays held. Every worker relies on it, and guarantees it. -/
def LocksKept (s s' : WorkerState) : Prop := ∀ purpose, Held s purpose → Held s' purpose

/-- Node requests are issued under the lock, and the locks written are in place. -/
structure RequestInv (s : WorkerState) : Prop where
  issued : ∀ purpose ∈ s.issued, Held s purpose
  written : ∀ (identifier : Identifier) (raw : Raw), (identifier.toList, raw) ∈ s.written →
    ∃ blockNumber, raw = encode blockNumber ∧ Held s ⟨blockNumber, identifier⟩

/-- A step that keeps the invariant and the locks. -/
def GoodStep (i : ι) (s s' : WorkerState) : Prop :=
  Threads.Good RequestInv (fun _ => LocksKept) i s s'

theorem LocksKept.refl (s : WorkerState) : LocksKept s s := fun _ h => h

theorem LocksKept.trans {t u v : WorkerState} (h : LocksKept t u) (h' : LocksKept u v) :
    LocksKept t v :=
  fun purpose hh => h' purpose (h purpose hh)

theorem RequestInv.good {i : ι} (hinv : RequestInv s') (hk : LocksKept s s') : GoodStep i s s' :=
  ⟨hinv, fun _ _ => hk⟩

theorem RequestInv.good_self {i : ι} (hinv : RequestInv s) : GoodStep i s s := hinv.good (.refl s)

theorem Held.decodeStored (h : Held s purpose) :
    decodeStored BlockNumber (s.db purpose.identifier.toList) = .ok (some purpose.blockNumber) := by
  rw [h, decodeStored_encode]

/-- A change of entries that are no locks. -/
theorem RequestInv.congr (hinv : RequestInv s)
    (hdb : ∀ i : Identifier, s'.db i.toList = s.db i.toList) (hiss : s'.issued = s.issued)
    (hw : ∀ (i : Identifier) raw, (i.toList, raw) ∈ s'.written → (i.toList, raw) ∈ s.written) :
    RequestInv s' ∧ LocksKept s s' := by
  have hh : ∀ purpose, Held s' purpose ↔ Held s purpose := by
    intro purpose
    unfold Held
    rw [hdb]
  refine ⟨⟨?_, ?_⟩, fun purpose => (hh purpose).mpr⟩
  · intro purpose hmem
    exact (hh purpose).mpr (hinv.issued purpose (hiss ▸ hmem))
  · intro i raw hmem
    obtain ⟨n, hraw, h⟩ := hinv.written i raw (hw i raw hmem)
    exact ⟨n, hraw, (hh _).mpr h⟩

/-- Taking a lock that is free for the block. -/
theorem RequestInv.lock {i : ι} (hinv : RequestInv s) (p : Purpose)
    (hf : LockFree p.blockNumber s.db p.identifier) {old : Option Raw}
    (hs : s.db p.identifier.toList = old)
    (hcom : s' = s.commit (.localStorageCompareAndSet p.identifier.toList old
      (encode p.blockNumber))) : GoodStep i s s' ∧ Held s' p := by
  have hdb : s'.db = update s.db p.identifier.toList (some (encode p.blockNumber)) := by
    rw [hcom, WorkerState.commit, StorageOp.apply_compareAndSet hs]
  have hw : s'.written = s.written ++ [(p.identifier.toList, encode p.blockNumber)] := by
    simp only [hcom, WorkerState.commit, writes, if_pos hs]
  have hiss : s'.issued = s.issued := by rw [hcom, WorkerState.commit]
  have htk : Held s' p := by
    unfold Held
    rw [hdb, update_self]
  have hk : LocksKept s s' := by
    intro b hoth
    by_cases hs : b.identifier = p.identifier
    · -- the entry can only hold the block itself
      have hblk : b.blockNumber = p.blockNumber := hf _ (hs ▸ hoth.decodeStored)
      unfold Held at htk ⊢
      rw [hs, hblk, htk]
    · have hkey : b.identifier.toList ≠ p.identifier.toList := fun heq => hs (Subtype.ext heq)
      unfold Held at hoth ⊢
      rw [hdb, update_of_ne hkey, hoth]
  refine ⟨good ⟨?_, ?_⟩ hk, htk⟩
  · intro b hmem
    exact hk b (hinv.issued b (hiss ▸ hmem))
  intro ide raw hmem
  rw [hw, mem_append] at hmem
  cases hmem with
  | inl hmem =>
    obtain ⟨n, hraw, hh⟩ := hinv.written ide raw hmem
    exact ⟨n, hraw, hk _ hh⟩
  | inr hmem =>
    obtain ⟨hkey, rfl⟩ := Prod.mk.inj (mem_singleton.mp hmem)
    obtain rfl : ide = p.identifier := Subtype.ext hkey
    exact ⟨p.blockNumber, rfl, htk⟩

/-! ## Programs that do not write -/

/-- Reading, and node requests for what is allowed. -/
def OpIssues (allowed : Purpose → Prop) : (interface (workerHost A)).Op → Prop
  | .inl (.localStorageGet _) => True
  | .inl (.localStorageSet _ _) => False
  | .inl (.localStorageClear _) => False
  | .inl (.localStorageCompareAndSet _ _ _) => False
  | .inr (.ipfs (some purpose) _) => allowed purpose
  | .inr (.ipfs none _) => True
  | .inr .allAccounts => True
  | .inr (.submitSigned _ _) => True
  | .inr (.submitUnsigned _) => True

/-- The program writes nothing and issues node requests only for what is allowed. -/
def Issues {B : Type} (allowed : Purpose → Prop) : Worker A B → Prop
  | .ret _ => True
  | .panic => True
  | .op o k => OpIssues allowed o ∧ ∀ r, Issues allowed (k r)

variable {a : Purpose → Prop}

theorem Issues.bind {C : Type} {p : Worker A B} {f : B → Worker A C} (hp : Issues a p)
    (hf : ∀ b, Issues a (f b)) : Issues a (p >>= f) := by
  induction p with
  | ret b => exact hf b
  | op o k ih => exact ⟨hp.1, fun r => ih r (hp.2 r)⟩
  | panic => trivial

theorem issues_ipfsRequest {pu : Option Purpose} (rq : IpfsRequest) (h : ∀ p, pu = some p → a p) :
    Issues a (ipfsRequest pu rq : Worker A _) := by
  cases pu with
  | none => exact ⟨trivial, fun _ => trivial⟩
  | some pu => exact ⟨h pu rfl, fun _ => trivial⟩

theorem issues_readCidForBlockNumber (n : BlockNumber) :
    Issues a (readCidForBlockNumber n : Worker A _) := by
  refine Issues.bind ⟨trivial, fun _ => trivial⟩ ?_
  intro st
  cases st with
  | error error => trivial
  | ok d =>
    cases d with
    | none | some => trivial

theorem issues_sendCommand (h : a purpose) (bytesToAdd : Bytes) (cmd : IpfsCommand) :
    Issues a (sendCommand purpose bytesToAdd cmd : Worker A _) := by
  refine Issues.bind (issues_ipfsRequest _ ?_) fun _ => trivial
  rintro _ ⟨⟩
  exact h

theorem issues_processCommand (h : a purpose) (cmd : IpfsCommand) :
    Issues a (processCommand purpose cmd : Worker A _) := by
  cases cmd with
  | addBytes version =>
    refine Issues.bind (issues_readCidForBlockNumber _) ?_
    intro stored
    cases stored with
    | error error => trivial
    | ok data => exact (issues_sendCommand h _ _).bind fun _ => trivial
  | _ => exact (issues_sendCommand h _ _).bind fun _ => trivial

theorem issues_processCommands (h : a purpose) (cmds : List IpfsCommand) (res : List IpfsResponse) :
    Issues a (processCommands purpose cmds res : Worker A _) := by
  induction cmds generalizing res with
  | nil => trivial
  | cons cmd cmds ih =>
    refine (issues_processCommand h cmd).bind ?_
    intro out
    cases out with
    | error error => trivial
    | ok resp =>
      cases resp with
      | error | ok => exact ih _

theorem issues_sendSignedTransaction (c : WorkerCall) (acs : List A) :
    Issues a (sendSignedTransaction c acs) := by
  induction acs with
  | nil => trivial
  | cons acc acs ih => exact ⟨trivial, fun _ => ih⟩

theorem issues_signedCallback (request : CommandRequest A) (data : List UInt8)
    (od : Option OffchainData) :
    Issues a (signedCallback request data od) := by
  refine Issues.bind ⟨trivial, fun _ => trivial⟩ ?_
  intro accounts
  split
  · trivial
  · exact (issues_sendSignedTransaction _ _).bind fun _ => trivial

theorem issues_printMetadata : Issues a (printMetadata : Worker A _) := by
  refine Issues.bind (issues_ipfsRequest _ (by simp)) ?_
  intro r
  cases r with
  | ok | error => trivial

variable {i : ι}

/-- Under the locks for what is issued, an operation keeps the invariant. -/
theorem OpIssues.step {o : (interface (workerHost A)).Op} (hop : OpIssues a o)
    (hinv : RequestInv s) (hh : ∀ purpose, a purpose → Held s purpose)
    {r : (interface (workerHost A)).Ret o} (hsem : (workerThreads A ι).sem i o s r s') :
    RequestInv s' ∧ LocksKept s s' := by
  cases o with
  | inl o =>
    cases o with
    | localStorageGet key =>
      obtain ⟨-, rfl⟩ := ((workerView A ι).sem_iff _ _ _ _ _).mp hsem
      rw [(workerView A ι).commit_get]
      exact ⟨hinv, .refl s⟩
    | _ => exact hop.elim
  | inr o =>
    obtain rfl : s' = s.perform o := hsem
    cases o with
    | ipfs purpose request =>
      cases purpose with
      | none => exact ⟨hinv, .refl s⟩
      | some purpose =>
        refine ⟨⟨?_, hinv.written⟩, fun _ h => h⟩
        simp only [WorkerState.perform, forall_mem_append, forall_mem_singleton]
        exact ⟨hinv.issued, hh purpose hop⟩
    | _ => exact ⟨hinv, .refl s⟩

/-- The program keeps the invariant, whatever the other workers do meanwhile. -/
abbrev WorkerSafe (i : ι) (p : Worker A B) (Q : B → WorkerState → WorkerState → Prop) :=
  (workerThreads A ι).Safe RequestInv (fun _ => LocksKept) i p Q

/-- Such a program is safe under the locks for what it issues. -/
theorem Issues.safe {p : Worker A B} {Q : B → WorkerState → WorkerState → Prop}
    (hiss : Issues a p) (hg : GoodStep i s0 s) (hh : ∀ purpose, a purpose → Held s purpose)
    (hQ : ∀ b s0' s', GoodStep i s0' s' → LocksKept s s' → Q b s0' s') :
    WorkerSafe i p Q s0 s := by
  induction p generalizing s0 s with
  | ret b => exact hQ b s0 s hg (.refl s)
  | panic => exact hg
  | op o k ih =>
    obtain ⟨hop, hr⟩ := hiss
    refine ⟨hg, ?_⟩
    intro t hk hinv r u hsem
    have hh' : ∀ purpose, a purpose → Held t purpose := fun purpose h => hk purpose (hh purpose h)
    obtain ⟨hi', hkept2⟩ := hop.step hinv hh' hsem
    refine ih r (hr r) (hi'.good hkept2) ?_ ?_
    · exact fun purpose h => hkept2 purpose (hh' purpose h)
    · intro b s0' s' hg' hk'
      exact hQ b s0' s' hg' (hk.trans (hkept2.trans hk'))

/-! ## Programs that write -/

/-- What is owed at the end of a part of the worker. -/
def Done {B : Type} (i : ι) (_ : B) (s0 s : WorkerState) : Prop := GoodStep i s0 s

/-- A part that only reads. -/
theorem Issues.safe_done {p : Worker A B} (hiss : Issues (fun _ => False) p)
    (hg : GoodStep i s0 s) :
    WorkerSafe i p (Done i) s0 s :=
  hiss.safe hg (fun _ h => h.elim) fun _ _ _ hg' _ => hg'

variable (n : BlockNumber) (request : CommandRequest A)

/-- A worker that gets the lock has written it. -/
theorem safe_acquireCommandRequestLock (hg : GoodStep i s0 s) :
    WorkerSafe i
      (acquireCommandRequestLock n request)
      (fun
        | .ok _, s0, s => GoodStep i s0 s ∧ Held s ⟨n, request.identifier⟩
        | .error _, s0, s => GoodStep i s0 s) s0 s := by
  apply safe_mutate hg
  intro t _ hinv
  by_cases hf : LockFree n t.db request.identifier
  · refine safeStart_mutate_ok (workerView A ι) (congrArg Prog.ret (lockFor_of_free hf))
      hinv.good_self ?_ ?_
    · exact fun u _ hi' => hi'.good_self
    · intro u _ hi' (hs : u.db request.identifier.toList = t.db request.identifier.toList)
      exact hi'.lock ⟨n, request.identifier⟩ (fun b hdec => hf b (hs ▸ hdec)) hs rfl
  · apply safeStart_mutate (workerView A ι)
    simp only [workerView, StorageValueRef.persistent, lockFor_of_not_free hf]
    exact hinv.good_self

/-- A write under a key that is no identifier. -/
theorem RequestInv.write {s s' : WorkerState} (hinv : RequestInv s) {key : Key}
    {old : Option Raw} {new : Raw} (hkey : ∀ ide : Identifier, key ≠ ide.toList)
    (hs : s.db key = old) (hcom : s' = s.commit (.localStorageCompareAndSet key old new)) :
    GoodStep i s s' := by
  have hdb : ∀ ide : Identifier, s'.db ide.toList = s.db ide.toList := by
    intro ide
    rw [hcom, WorkerState.commit, StorageOp.apply_compareAndSet hs]
    exact update_of_ne (hkey ide).symm _ _
  have hw : ∀ (ide : Identifier) raw,
      (ide.toList, raw) ∈ s'.written → (ide.toList, raw) ∈ s.written := by
    intro ide raw hmem
    simp only [hcom, WorkerState.commit, writes, if_pos hs, mem_append,
      mem_singleton, Prod.mk.injEq] at hmem
    exact hmem.resolve_right fun h => hkey ide h.1.symm
  obtain ⟨hi', hk⟩ := hinv.congr hdb (by rw [hcom, WorkerState.commit]) hw
  exact hi'.good hk

/-- The list of processed requests is no lock. -/
theorem safe_processedCommands (hg : GoodStep i s0 s) :
    WorkerSafe i
      (processedCommands request processedCommandsKey) (Done i) s0 s := by
  apply safe_mutate hg
  intro t _ hinv
  cases hadd : addProcessed request.identifier (decodeStored _ (t.db processedCommandsKey)) with
  | none =>
    apply safeStart_mutate (workerView A ι)
    simp only [workerView, StorageValueRef.persistent, hadd]
    exact hinv.good_self
  | some ids =>
    refine safeStart_mutate_ok (workerView A ι) (show _ = Prog.ret (Except.ok ids) from ?_)
      hinv.good_self ?_ ?_
    · simp only [workerView, StorageValueRef.persistent, hadd]
      rfl
    · exact fun u _ hi' => hi'.good_self
    · exact fun u _ hi' hs => hi'.write processedCommandsKey_ne_identifier hs rfl

/-! ## The worker -/

theorem safe_ocwProcessCommand (hg : GoodStep i s0 s) :
    WorkerSafe i
      (ocwProcessCommand n request processedCommandsKey) (Done i) s0 s := by
  refine safe_bind.mpr (mono ?_ (safe_acquireCommandRequestLock n request hg))
  intro ac t u hacq
  cases ac with
  | error error => exact hacq
  | ok block =>
    obtain ⟨hg', hh⟩ := hacq
    have hiss : Issues (A := A) (· = ⟨n, request.identifier⟩)
        (processCommands ⟨n, request.identifier⟩ request.ipfsCommands []) := by
      apply issues_processCommands
      rfl
    refine safe_bind.mpr (hiss.safe hg' (by rintro _ rfl; exact hh) ?_)
    intro out v w hgood4 _
    cases out with
    | error error => exact hgood4
    | ok res =>
      refine safe_bind.mpr (mono ?_ (safe_processedCommands request hgood4))
      exact fun _ _ _ h => h

theorem safe_processCommandRequest (hg : GoodStep i s0 s) :
    WorkerSafe i
      (processCommandRequest n request) (Done i) s0 s := by
  have hr : Issues (A := A) (fun _ => False) (readCidDataForBlockNumber n) :=
    ⟨trivial, fun _ => trivial⟩
  refine safe_bind.mpr (mono ?_ (hr.safe_done hg))
  intro stored t u hg'
  refine safe_bind.mpr (mono ?_ (safe_ocwProcessCommand n request hg'))
  intro out v w hgood4
  cases out with
  | error error => exact hgood4
  | ok resps =>
    refine Issues.safe_done ?_ hgood4
    exact Issues.bind (issues_signedCallback _ _ _) fun _ => trivial

theorem safe_ocwProcessCommandRequests (rs : List (CommandRequest A))
    (hg : GoodStep i s0 s) : WorkerSafe i
      (ocwProcessCommandRequests n rs) (Done i) s0 s := by
  induction rs generalizing s0 s with
  | nil => exact hg
  | cons request rs ih =>
    refine safe_bind.mpr (mono ?_ (safe_processCommandRequest n request hg))
    exact fun _ _ _ hg' => ih hg'

theorem worker_obligations (A ι : Type) :
    Obligations (workerThreads A ι) RequestInv fun _ => LocksKept where
  refl _ := LocksKept.refl
  trans _ _ _ _ := LocksKept.trans
  env s s' hinv henv := by
    obtain ⟨hi', hk⟩ := hinv.congr henv.1 henv.2.1 fun _ _ => henv.2.2 ▸ id
    exact ⟨hi', fun _ => hk⟩
  call i s p hinv hcall := by
    obtain ⟨n, cs, rfl⟩ := hcall
    have hs : WorkerSafe i
        (offchainWorker n cs) (Done i) s s := by
      refine safe_bind.mpr (mono ?_ (issues_printMetadata.safe_done hinv.good_self))
      exact fun _ _ _ hg => safe_ocwProcessCommandRequests n _ hg
    exact hs.start LocksKept.refl hinv

/-! ## Whole runs -/

section
variable [DecidableEq ι]

omit [DecidableEq ι] in
theorem mem_written_advance {i : ι} {p : Worker A Unit}
    {next : Option (Worker A Unit) × WorkerState} (hadv : (workerThreads A ι).Advance i p s next)
    (hmem : e ∈ s.written) : e ∈ next.2.written := by
  have hset : ∀ i p s, ((workerThreads A ι).settle i p s).2 = s := by
    intro i p s
    cases p with
    | _ => rfl
  cases hadv with
  | ret | panic => rwa [hset]
  | @op o k s s' r hsem =>
    rw [hset]
    cases o with
    | inl o =>
      obtain rfl := hsem.2
      exact mem_append_left _ hmem
    | inr o =>
      obtain rfl : s' = s.perform o := hsem
      cases o with
      | ipfs purpose request =>
        cases purpose with
        | none | some => exact hmem
      | _ => exact hmem

/-- In every interleaving, the node requests for one identifier are issued by
workers of one block, and a lock that was written is there for good. -/
theorem requests_single_block (db : Db)
    {c c' : Config (interface (workerHost A)) ι Unit WorkerState}
    (hreach : Relation.ReflTransGen (workerThreads A ι).Step (WorkerConfig.start A ι db) c)
    (hlater : Relation.ReflTransGen (workerThreads A ι).Step c c') :
    (∀ purpose ∈ c'.shared.issued, ∀ purpose' ∈ c'.shared.issued,
      purpose.identifier = purpose'.identifier → purpose.blockNumber = purpose'.blockNumber) ∧
    ∀ (identifier : Identifier) (raw : Raw), (identifier.toList, raw) ∈ c.shared.written →
      c.shared.db identifier.toList = some raw ∧ c'.shared.db identifier.toList = some raw := by
  have hst : RequestInv (WorkerConfig.start A ι db).shared :=
    ⟨by simp [WorkerConfig.start], by simp [WorkerConfig.start]⟩
  have hinv : RequestInv c.shared :=
    invariant_of_obligations (worker_obligations A ι) hst (fun _ => rfl) hreach
  have hinv' : RequestInv c'.shared :=
    invariant_of_obligations (worker_obligations A ι) hst (fun _ => rfl) (hreach.trans hlater)
  refine ⟨?_, ?_⟩
  · intro purpose hmem purpose' hm' heq
    have hdec := (hinv'.issued purpose hmem).decodeStored
    rw [heq, (hinv'.issued purpose' hm').decodeStored] at hdec
    simpa using hdec.symm
  intro identifier raw hmem
  have hm' : (identifier.toList, raw) ∈ c'.shared.written :=
    Run.invariant_of_reflTransGen (I := fun c => (identifier.toList, raw) ∈ c.shared.written)
      (fun _ _ h hs => by
        -- the books about the writes only grow
        cases hs with
        | start _ _ hadv | go _ hadv => exact mem_written_advance hadv h
        | env henv => rwa [henv.2.2]) hmem hlater
  obtain ⟨n, rfl, hh⟩ := hinv.written identifier raw hmem
  obtain ⟨blockNumber', hraw, hheld'⟩ := hinv'.written identifier _ hm'
  exact ⟨hh, hraw ▸ hheld'⟩

end

/-- A node that takes no requests, and an empty keystore. -/
def WorkerState.answer (s : WorkerState) :
    (o : (interface (workerHost A)).Op) → (interface (workerHost A)).Ret o × WorkerState
  | .inl o => ((o.apply s.db).1, s.commit o)
  | .inr (.ipfs purpose request) => (.notStarted, s.perform (A := A) (.ipfs purpose request))
  | .inr .allAccounts => ([], s)
  | .inr (.submitSigned _ _) => (false, s)
  | .inr (.submitUnsigned _) => (false, s)

/-- A request to pin a block. -/
def pinRequest : CommandRequest Unit := ⟨.replicate 32 0, (), [.insertPin .empty]⟩

/-- Worker `i` of a block runs with the pin request in the queue. -/
def afterWorker (c : Config (interface (workerHost Unit)) Bool Unit WorkerState) (i : Bool)
    (blockNumber : BlockNumber) : Config (interface (workerHost Unit)) Bool Unit WorkerState :=
  Threads.Config.resume (workerThreads Unit Bool) WorkerState.answer
    (Threads.Config.fire (workerThreads Unit Bool) WorkerState.answer c i
      (offchainWorker blockNumber (some [pinRequest]))) i 8

theorem reaches_afterWorker {c : Config (interface (workerHost Unit)) Bool Unit WorkerState}
    {i : Bool} (hi : c.running i = none) (bn : BlockNumber) :
    Relation.ReflTransGen (workerThreads Unit Bool).Step c (afterWorker c i bn) := by
  have hc : (workerThreads Unit Bool).call i c.shared
      (offchainWorker bn (some [pinRequest])) := ⟨_, _, rfl⟩
  refine reaches_call ?_ hi hc 8
  intro i s o
  cases o with
  | inl o => exact ⟨rfl, rfl⟩
  | inr o => cases o with
    | _ => rfl

def afterFirst : Config (interface (workerHost Unit)) Bool Unit WorkerState :=
  afterWorker (WorkerConfig.start Unit Bool fun _ => none) false 1

def afterSecond : Config (interface (workerHost Unit)) Bool Unit WorkerState :=
  afterWorker afterFirst true 2

/-- The worker of block 1 pins, the worker of block 2 is refused. -/
theorem requests_single_block_second_refused :
    afterSecond.shared.issued = [⟨1, pinRequest.identifier⟩] ∧
      (pinRequest.identifier.toList, encode (1 : BlockNumber)) ∈ afterFirst.shared.written ∧
      afterSecond.shared.db pinRequest.identifier.toList = some (encode (1 : BlockNumber)) := by
  have hw : (pinRequest.identifier.toList, encode (1 : BlockNumber)) ∈
      afterFirst.shared.written := by decide
  have hrun := requests_single_block (fun _ => none) (reaches_afterWorker rfl 1)
    (reaches_afterWorker (c := afterFirst) (i := true) rfl 2)
  exact ⟨by decide, hw, (hrun.2 _ _ hw).2⟩

end

end Ipfs
