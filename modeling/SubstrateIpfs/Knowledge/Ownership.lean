-- SUMMARY: The ownership maps of pallet-knowledge agree exactly when every sale goes to an owner.
import SubstrateIpfs.Knowledge.Pallet

/-!
# Ownership

`account` and `knowledge` are one relation stored twice, with the keys swapped.
`create` writes both and `modifyContent` extends a version list that is there.
A sale writes `account` only, so it keeps the agreement only where the buyer has
an entry in `knowledge`.
-/

namespace Knowledge

open Offchain Ipfs AList Run Chain

variable {A : Type} [DecidableEq A] {versions : List BlockNumber}

/-- A version list of the knowledge created in `blockNumber`: it is not empty, it
starts there, and it does not decrease. -/
def IsHistory (blockNumber : BlockNumber) (versions : List BlockNumber) : Prop :=
  versions.head? = some blockNumber ∧ versions.Pairwise (· ≤ ·)

/-- The two maps agree, and every version list is a history. -/
def OwnershipAgrees (s : Chain A) : Prop :=
  ∀ (who : A) (blockNumber : BlockNumber),
    ((s.account.lookup (who, blockNumber)).isSome ↔
      (s.knowledge.lookup (blockNumber, who)).isSome) ∧
    ∀ versions, s.knowledge.lookup (blockNumber, who) = some versions →
      IsHistory blockNumber versions

/-- No version list reaches into the future. -/
def VersionsBounded (s : Chain A) : Prop :=
  ∀ who blockNumber versions, s.knowledge.lookup (blockNumber, who) = some versions →
    ∀ version ∈ versions, version ≤ s.blockNumber

theorem IsHistory.singleton (n : BlockNumber) : IsHistory n [n] := by
  simp [IsHistory]

/-- A new version of the current block extends a history. -/
theorem IsHistory.append {n now : BlockNumber} (h : IsHistory n versions)
    (hnow : ∀ v ∈ versions, v ≤ now) : IsHistory n (versions ++ [now]) := by
  refine ⟨?_, ?_⟩
  · simp [h.1]
  · exact List.pairwise_append.mpr ⟨h.2, List.pairwise_singleton _ _, by simpa using hnow⟩

/-! ## Steps -/

/-- Block numbers do not decrease. -/
def BlocksInOrder (s : Chain A) (action : Action A) : Prop :=
  ∀ blockNumber parentHash, action = .initializeBlock blockNumber parentHash →
    s.blockNumber ≤ blockNumber

/-- A sale goes to an account that has the knowledge already. -/
def SaleToOwner (s : Chain A) (action : Action A) : Prop :=
  ∀ blockNumber seller buyer, action = .transfer blockNumber seller buyer →
    (s.knowledge.lookup (blockNumber, buyer)).isSome

theorem VersionsBounded.insert {s : Chain A} {key : BlockNumber × A} (h : VersionsBounded s)
    (hv : ∀ v ∈ versions, v ≤ s.blockNumber) (who : A) (n : BlockNumber) (vs' : List BlockNumber)
    (hl : (s.knowledge.insert key versions).lookup (n, who) = some vs') :
    ∀ v ∈ vs', v ≤ s.blockNumber := by
  by_cases hkey : (n, who) = key
  · rw [hkey, lookup_insert, Option.some.injEq] at hl
    exact hl ▸ hv
  · rw [lookup_insert_ne hkey] at hl
    exact h who n vs' hl

theorem VersionsBounded.step {H : Hashing} {s : Chain A} {act : Action A}
    (h : VersionsBounded s) (hord : BlocksInOrder s act) :
    VersionsBounded (s.step H act) := by
  have heff := s.dispatch_effect H act
  unfold Chain.step
  generalize s.dispatch H act = result at heff
  cases heff with
  | @initializeBlock n ph =>
    obtain ⟨mat, hi⟩ := s.initializeBlock_eq n ph
    simp only [hi]
    intro who b versions hl v hmem
    exact UInt32.le_trans (h who b versions hl v hmem) (hord _ _ rfl)
  | addBytes | ocwCallback => exact h
  | create => exact h.insert (by simp)
  | modifyContent hl =>
    apply h.insert
    intro v hmem
    obtain hold | rfl := by simpa using hmem
    · exact h _ _ _ hl v hold
    · exact UInt32.le_refl _
  | _ => exact h

/-- Writing a history keeps the agreement, provided the owner gets or has the
knowledge in the other map. -/
theorem OwnershipAgrees.insert {s s' : Chain A} {who : A} {n : BlockNumber}
    (h : OwnershipAgrees s) (hhis : IsHistory n versions)
    (hk : s'.knowledge = s.knowledge.insert (n, who) versions)
    (hthr : (s'.account.lookup (who, n)).isSome)
    (hoth : ∀ key, key ≠ (who, n) → s'.account.lookup key = s.account.lookup key) :
    OwnershipAgrees s' := by
  intro w' n'
  by_cases hkey : (w', n') = (who, n)
  · obtain ⟨rfl, rfl⟩ := Prod.mk.inj hkey
    rw [hk, lookup_insert]
    refine ⟨by simp [hthr], ?_⟩
    intro versions' hv
    exact Option.some.inj hv ▸ hhis
  · have hk' : (n', w') ≠ (n, who) := by
      intro heq
      obtain ⟨rfl, rfl⟩ := Prod.mk.inj heq
      exact hkey rfl
    rw [hoth _ hkey, hk, lookup_insert_ne hk']
    exact h w' n'

/-- One step keeps the agreement exactly when it is no sale to a new owner. -/
theorem ownershipAgrees_step_iff {H : Hashing} {s : Chain A} {a : Action A}
    (hbd : VersionsBounded s) (h : OwnershipAgrees s) :
    OwnershipAgrees (s.step H a) ↔ SaleToOwner s a := by
  have heff := s.dispatch_effect H a
  unfold step
  generalize s.dispatch H a = result at heff
  cases heff with
  | @initializeBlock n ph =>
    obtain ⟨mat, hi⟩ := s.initializeBlock_eq n ph
    simp only [hi]
    exact iff_of_true h (by simp [SaleToOwner])
  | addBytes | ocwCallback => exact iff_of_true h (by simp [SaleToOwner])
  | create =>
    refine iff_of_true ?_ (by simp [SaleToOwner])
    exact h.insert (.singleton _) rfl (by simp) fun key hkey => lookup_insert_ne hkey
  | @modifyContent _ who n _ _ versions _ hl =>
    refine iff_of_true ?_ (by simp [SaleToOwner])
    have hhis := ((h who n).2 versions hl).append (hbd _ _ _ hl)
    have hthr : (s.account.lookup (who, n)).isSome := (h who n).1.mpr (by simp [hl])
    exact h.insert hhis rfl hthr fun _ _ => rfl
  | @transfer n se bu =>
    simp only [after_ok]
    constructor
    · intro hagr b _ buyer' heq
      obtain ⟨rfl, rfl, rfl⟩ := by simpa using heq
      exact (hagr bu n).1.mp (by simp)
    intro hs w' n'
    refine ⟨?_, (h w' n').2⟩
    by_cases hkey : (w', n') = (bu, n)
    · obtain ⟨rfl, rfl⟩ := Prod.mk.inj hkey
      simpa using hs _ se _ rfl
    · rw [lookup_insert_ne hkey]
      exact (h w' n').1
  | callbackRefused | modifyRefused => exact iff_of_true h (by simp [SaleToOwner])

/-! ## Runs -/

/-- Along every run from empty storage whose block numbers do not decrease, the
maps agree in every state exactly when every sale goes to an account that has
the knowledge already. -/
theorem ownership_agrees_iff (H : Hashing) (actions : List (Action A))
    (horder : Run.Each (Chain.step H) BlocksInOrder (Chain.genesis A) actions) :
    Run.Always (Chain.step H) OwnershipAgrees (Chain.genesis A) actions ↔
      Run.Each (Chain.step H) SaleToOwner (Chain.genesis A) actions := by
  apply always_iff_each (I := VersionsBounded)
  · intro s act hbd _ hin _
    exact hbd.step hin
  · intro s act hbd h _
    exact ownershipAgrees_step_iff hbd h
  · intro who n versions hl
    simp [genesis] at hl
  · intro who n
    simp [genesis]
  · exact horder

/-- Account 0 creates knowledge in block 1 and sells it to `buyer`. -/
def saleRun (buyer : ℕ) : List (Action ℕ) :=
  [.initializeBlock 1 (.replicate 32 0), .create 0 ⟨[116], by decide⟩ ⟨[121], by decide⟩,
    .transfer 1 0 buyer]

theorem saleRun_inOrder (b : ℕ) : Each (step .trivial) BlocksInOrder (genesis ℕ) (saleRun b) := by
  simp [saleRun, each_cons, BlocksInOrder, genesis]

/-- A sale back to the creator. -/
theorem ownership_agrees_saleRun_creator :
    Run.Always (Chain.step .trivial) OwnershipAgrees (Chain.genesis ℕ) (saleRun 0) := by
  apply (ownership_agrees_iff .trivial (saleRun 0) (saleRun_inOrder 0)).mpr
  simp only [saleRun, each_cons, each_nil, and_true]
  refine ⟨by simp [SaleToOwner], by simp [SaleToOwner], ?_⟩
  rintro blockNumber seller buyer heq
  obtain ⟨rfl, rfl, rfl⟩ := by simpa using heq
  rfl

/-- A sale to somebody else leaves an account without knowledge. -/
theorem ownership_disagrees_saleRun_other :
    Run.Each (Chain.step .trivial) BlocksInOrder (Chain.genesis ℕ) (saleRun 1) ∧
    ¬ Run.Always (Chain.step .trivial) OwnershipAgrees (Chain.genesis ℕ) (saleRun 1) := by
  refine ⟨saleRun_inOrder 1, ?_⟩
  intro halw
  have hagr := (halw.last 1 1).1
  have hacc : ((exec (step .trivial) (genesis ℕ) (saleRun 1)).account.lookup (1, 1)).isSome := rfl
  have hk : ((exec (step .trivial) (genesis ℕ) (saleRun 1)).knowledge.lookup
      (1, 1)).isSome = false := rfl
  simp [hagr.mp hacc] at hk

/-! ## Modifying without ownership -/

section
variable (H : Hashing) (offchainDb : Option Db) (who : A) (blockNumber : BlockNumber)
  (title text : Bytes) (s : Chain A)

/-- A modification does not panic. If the caller has no such knowledge, it is an error, and the
storage is as it was. -/
structure ModifiesSafely : Prop where
  returns : modifyContent H offchainDb (.signed who) blockNumber title text s ≠ .error .panic
  refuses : s.knowledge.lookup (blockNumber, who) = none → ∃ error,
    modifyContent H offchainDb (.signed who) blockNumber title text s = .error (.err error) ∧
      s.after (modifyContent H offchainDb (.signed who) blockNumber title text s) = s

omit [DecidableEq A] in
theorem readCidOnChain_some (db : Db) :
    readCidOnChain (some db) blockNumber =
      match decodeStored OffchainData (db (offchainDataKey blockNumber)) with
      | .ok (some d) => .ok (.ok d)
      | .ok none => .error .panic
      | .error error => .ok (.error error) := by
  have hr : readCidOnChain (some db) blockNumber = unwrap (runStorage
      (match decodeStored OffchainData (db (offchainDataKey blockNumber)) with
        | .ok (some d) => .ret (.ok d)
        | .ok none => .panic
        | .error error => .ret (.error error)) db).1 := rfl
  rw [hr]
  cases decodeStored OffchainData (db (offchainDataKey blockNumber)) with
  | error error => rfl
  | ok d =>
    cases d with
    | none | some => rfl

/-- The knowledge and the data of its block have to be there: both are unwrapped. -/
theorem modifiesSafely_iff :
    ModifiesSafely H offchainDb who blockNumber title text s ↔
      (s.knowledge.lookup (blockNumber, who)).isSome ∧
        ∃ db, offchainDb = some db ∧ db (offchainDataKey blockNumber) ≠ none := by
  constructor
  · rintro ⟨hret, -⟩
    rw [modifyContent_signed] at hret
    cases hl : s.knowledge.lookup (blockNumber, who) with
    | none => exact absurd (by rw [hl]; rfl) hret
    | some versions =>
      rw [hl] at hret
      cases offchainDb with
      | none => exact absurd rfl hret
      | some db =>
        refine ⟨rfl, db, rfl, fun hs => hret ?_⟩
        simp only [readCidOnChain_some, decodeStored_eq_none.mpr hs]
        rfl
  · rintro ⟨hkn, db, rfl, hs⟩
    obtain ⟨versions, hl⟩ := Option.isSome_iff_exists.mp hkn
    refine ⟨fun hpan => ?_, fun hn => nomatch hl.symm.trans hn⟩
    simp only [modifyContent_signed, hl, readCidOnChain_some] at hpan
    cases hdec : decodeStored OffchainData (db (offchainDataKey blockNumber)) with
    | error error =>
      rw [hdec] at hpan
      cases hpan
    | ok data =>
      cases data with
      | none => exact hs (decodeStored_eq_none.mp hdec)
      | some data =>
        rw [hdec] at hpan
        cases hpan

end

/-- Somebody else modifies the knowledge that the first account has created. -/
theorem not_modifiesSafely_stranger :
    ¬ ModifiesSafely .trivial (some fun _ => none) 1 1 ⟨[], by decide⟩ ⟨[], by decide⟩
      (exec (Chain.step .trivial) (Chain.genesis ℕ) ((saleRun 0).take 2)) :=
  fun h => h.returns rfl

end Knowledge
