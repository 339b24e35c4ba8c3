-- SUMMARY: The storage lock of the offchain workers: unexpired guards exclude each other.
import SubstrateIpfs.Offchain.Storage

/-!
# Storage lock

A lock that lives in one entry of the persistent storage. The entry holds the deadline of the lease,
and nothing about who holds it. Taking the lock and extending it go through `mutate`; dropping a
guard clears the entry.

The second part runs any number of workers side by side on one key, while the clock advances.
-/

namespace Offchain

open Function Scale Threads Threads.SafeStart

/-! ## The clock -/

/-- Unix time in milliseconds. -/
abbrev Timestamp := UInt64

abbrev Duration := UInt64

/-- Increase the timestamp by the given duration, saturating. -/
def Timestamp.add (self : Timestamp) (duration : Duration) : Timestamp :=
  if self.toNat + duration.toNat < UInt64.size then self + duration
  else UInt64.ofNat (UInt64.size - 1)

/-- What deadlines are measured against. -/
structure Clock where
  timestamp : Timestamp
  blockNumber : BlockNumber

/-- `c'` is not before `c`. -/
def Clock.Le (c c' : Clock) : Prop := c.timestamp ≤ c'.timestamp ∧ c.blockNumber ≤ c'.blockNumber

theorem Clock.Le.refl (c : Clock) : c.Le c := ⟨UInt64.le_refl _, UInt32.le_refl _⟩

theorem Clock.Le.trans {c c' c3 : Clock} (h1 : c.Le c') (h2 : c'.Le c3) : c.Le c3 :=
  ⟨UInt64.le_trans h1.1 h2.1, UInt32.le_trans h1.2 h2.2⟩

inductive ClockOp where
  | timestamp
  | currentBlockNumber

abbrev ClockOp.Ret : ClockOp → Type
  | .timestamp => Timestamp
  | .currentBlockNumber => BlockNumber

def ClockOp.apply (c : Clock) : (o : ClockOp) → o.Ret
  | .timestamp => c.timestamp
  | .currentBlockNumber => c.blockNumber

/-- The host functions of the lock besides storage. -/
abbrev clockHost : Interface where
  Op := ClockOp
  Ret := ClockOp.Ret

/-- Programs that use the storage and the clock. -/
abbrev ClockProg := Prog (interface clockHost)

def timestamp : ClockProg Timestamp :=
  Prog.perform (I := interface clockHost) (.inr .timestamp)

def currentBlockNumber : ClockProg BlockNumber :=
  Prog.perform (I := interface clockHost) (.inr .currentBlockNumber)

/-! ## Lockables -/

/-- Lockable item for use with a persisted storage lock. -/
class Lockable (L : Type) where
  /-- An instant type specifying i.e. a point in time. -/
  Deadline : Type
  codec : Scale Deadline
  /-- Calculate the deadline based on the current time or block number. -/
  deadline : L → ClockProg Deadline
  hasExpired : Deadline → ClockProg Bool

instance {L : Type} [Lockable L] : Scale (Lockable.Deadline L) := Lockable.codec

/-- Lockable based on the current timestamp with a configurable expiration time. -/
structure Time where
  expirationDuration : Duration

instance : Lockable Time where
  Deadline := Timestamp
  codec := inferInstance
  deadline self := do
    let now ← timestamp
    return now.add self.expirationDuration
  hasExpired deadline := do
    let now ← timestamp
    return decide (now > deadline)

/-- Lockable based on block number and timestamp, expired if both are. -/
structure BlockAndTime where
  expirationBlockNumberOffset : UInt32
  expirationDuration : Duration

/-- A deadline based on block number and time, in the order of its encoding. -/
abbrev BlockAndTimeDeadline := BlockNumber × Timestamp

instance : Lockable BlockAndTime where
  Deadline := BlockAndTimeDeadline
  codec := inferInstance
  deadline self := do
    let blockNumber ← currentBlockNumber
    let now ← timestamp
    return (blockNumber + self.expirationBlockNumberOffset, now.add self.expirationDuration)
  hasExpired deadline := do
    let now ← timestamp
    if now > deadline.2 then
      let blockNumber ← currentBlockNumber
      return decide (blockNumber > deadline.1)
    else
      return false

/-! ## The lock -/

/-- A lock that is persisted in the database. -/
structure StorageLock (L : Type) where
  valueRef : StorageValueRef
  lockable : L

/-- Guard for a lock. `lastSet` is the deadline the guard wrote last, which the code does not keep.
-/
structure StorageLockGuard (L : Type) [Lockable L] where
  lock : StorageLock L
  lastSet : Lockable.Deadline L

section
variable {L : Type} [Lockable L]

variable (self : StorageLock L)

namespace StorageLock

/-- Create a new storage lock with an explicit instance of a lockable. -/
def withLockable (key : Key) (lockable : L) : StorageLock L :=
  ⟨StorageValueRef.persistent key, lockable⟩

/-- Extend active lock's deadline. -/
def extendActiveLock : ClockProg (Except Unit (Lockable.Deadline L)) := do
  let res ← self.valueRef.mutate fun
    -- lock is present and is still active, extend the lock
    | .ok (some deadline) => do
      if ← Lockable.hasExpired deadline then
        return .error ()
      else
        return .ok (← Lockable.deadline self.lockable)
    -- other cases
    | _ => return .error ()
  match res with
  | .ok deadline => return .ok deadline
  | .error (.concurrentModification _) => return .error ()
  | .error (.valueFunctionFailed e) => return .error e

/-- Internal lock helper. -/
def tryLockInner (newDeadline : Lockable.Deadline L) :
    ClockProg (Except (Lockable.Deadline L) Unit) := do
  let res ← self.valueRef.mutate fun
    -- no lock set, we can safely acquire it
    | .ok none => return .ok newDeadline
    -- write was good, but read failed
    | .error _ => return .ok newDeadline
    -- lock is set: it can be acquired again once it is expired
    | .ok (some deadline) => do
      if ← Lockable.hasExpired deadline then
        return .ok newDeadline
      else
        return .error deadline
  match res with
  | .ok _ => return .ok ()
  | .error (.concurrentModification deadline) => return .error deadline
  | .error (.valueFunctionFailed e) => return .error e

/-- A single attempt to lock using the storage entry. -/
def tryLock : ClockProg (Except (Lockable.Deadline L) (StorageLockGuard L)) := do
  let newDeadline ← Lockable.deadline self.lockable
  match ← self.tryLockInner newDeadline with
  | .ok () => return .ok ⟨self, newDeadline⟩
  | .error deadline => return .error deadline

/-- Explicitly unlock the lock. -/
def unlock : ClockProg Unit := self.valueRef.clear

end StorageLock

namespace StorageLockGuard

/-- Extend the lock by guard deadline if it already exists. -/
def extendLock (self : StorageLockGuard L) :
    ClockProg (Except Unit (Lockable.Deadline L)) :=
  self.lock.extendActiveLock

/-- Dropping the guard unlocks, whatever is stored. -/
def drop (self : StorageLockGuard L) : ClockProg Unit := self.lock.unlock

end StorageLockGuard

end

/-! ## What a lockable has to get right

The clock advances while a program looks at it, so the two readings a
`BlockAndTime` takes may belong to different instants. -/

/-- The program only looks at the clock, which is never set back meanwhile, and
its result satisfies `P` at the instant it returns. -/
def ReadsClock {B : Type} (P : B → Clock → Prop) : ClockProg B → Clock → Prop
  | .ret b, c => P b c
  | .op (.inr o) k, c => ∀ c', c.Le c' → ReadsClock P (k (o.apply c')) c'
  | .op (.inl _) _, _ => False
  | .panic, _ => False

theorem ReadsClock.mono {B : Type} {P P' : B → Clock → Prop} {p : ClockProg B}
    {c : Clock} (hP : ∀ b c, P b c → P' b c) (h : ReadsClock P p c) : ReadsClock P' p c := by
  induction p generalizing c with
  | ret b => exact hP b c h
  | op o k ih =>
    cases o with
    | inl o => exact h
    | inr o => exact fun c' hle => ih _ (h c' hle)
  | panic => exact h

theorem ReadsClock.bind {B C : Type} {P : C → Clock → Prop} {p : ClockProg B}
    {f : B → ClockProg C} {c : Clock}
    (h : ReadsClock (fun b c => ReadsClock P (f b) c) p c) : ReadsClock P (p >>= f) c := by
  induction p generalizing c with
  | ret b => exact h
  | op o k ih =>
    cases o with
    | inl o => exact h
    | inr o => exact fun c' hle => ih _ (h c' hle)
  | panic => exact h

/-- `Expired` is what `hasExpired` reports: a deadline once expired stays so. -/
class LawfulLockable (L : Type) [Lockable L] where
  Expired : Clock → Lockable.Deadline L → Prop
  expired_mono {c c' : Clock} {d : Lockable.Deadline L} : c.Le c' → Expired c d → Expired c' d
  deadline_reads (l : L) (c : Clock) : ReadsClock (fun _ _ => True) (Lockable.deadline l) c
  hasExpired_reads (d : Lockable.Deadline L) (c : Clock) :
    ReadsClock (fun expired c => expired = true → Expired c d) (Lockable.hasExpired d) c

export LawfulLockable (Expired)

instance : LawfulLockable Time where
  Expired c d := c.timestamp > d
  expired_mono h hexp := UInt64.lt_of_lt_of_le hexp h.1
  deadline_reads _ _ := fun _ _ => trivial
  hasExpired_reads _ _ := fun _ _ h => of_decide_eq_true h

instance : LawfulLockable BlockAndTime where
  Expired c d := c.timestamp > d.2 ∧ c.blockNumber > d.1
  expired_mono h hexp := ⟨UInt64.lt_of_lt_of_le hexp.1 h.1, UInt32.lt_of_lt_of_le hexp.2 h.2⟩
  deadline_reads _ _ := fun _ _ _ _ => trivial
  hasExpired_reads d c := by
    intro c1 _
    by_cases htime : c1.timestamp > d.2
    · simp only [ClockOp.apply, Prog.bind, htime, if_true]
      intro c2 hle hblock
      exact ⟨UInt64.lt_of_lt_of_le htime hle.1, of_decide_eq_true hblock⟩
    · simp only [ClockOp.apply, Prog.bind, htime, if_false]
      intro hfalse
      cases hfalse

/-! ## Workers on one key -/

/-- What a call on the lock reports back. -/
inductive LockEvent (L : Type) [Lockable L] where
  | acquired (guard : StorageLockGuard L)
  | refused
  | extended (deadline : Lockable.Deadline L)
  | notExtended
  | dropped
  | forgotten

/-- The storage, the clock, and the guard each worker holds. `owner` is the
worker that wrote the lock entry last, if it has not been cleared since: the
code stores no such thing. -/
structure LockState (ι L : Type) [Lockable L] where
  db : Db
  clock : Clock
  guards : ι → Option (StorageLockGuard L)
  owner : Option ι

section
variable {ι L : Type} [DecidableEq ι] [Lockable L]

variable (s : LockState ι L)

namespace LockState

def answer : (o : (interface clockHost).Op) → (interface clockHost).Ret o × LockState ι L
  | .inl o => ((o.apply s.db).1, { s with db := (o.apply s.db).2 })
  | .inr o => (o.apply s.clock, s)

/-- Worker `i` holds `guard` and wrote the entry last. -/
def hold (i : ι) (guard : StorageLockGuard L) : LockState ι L :=
  { s with guards := update s.guards i (some guard), owner := some i }

/-- Worker `i` has no guard any more. -/
def release (i : ι) : LockState ι L :=
  { s with guards := update s.guards i none }

/-- What the result of a call changes in the books. -/
def record (i : ι) : LockEvent L → LockState ι L
  | .acquired guard => s.hold i guard
  | .extended deadline =>
    match s.guards i with
    | some guard => s.hold i { guard with lastSet := deadline }
    | none => s
  | .dropped => { s.release i with owner := none }
  | .forgotten => s.release i
  | .refused => s
  | .notExtended => s

/-- No other worker has taken the lock since worker `i` last wrote it. -/
def Current (i : ι) : Prop := ∀ j, s.owner = some j → j = i

end LockState

def tryLockCall (lock : StorageLock L) : ClockProg (LockEvent L) := do
  match ← lock.tryLock with
  | .ok guard => return .acquired guard
  | .error _ => return .refused

def extendLockCall (guard : StorageLockGuard L) : ClockProg (LockEvent L) := do
  match ← guard.extendLock with
  | .ok deadline => return .extended deadline
  | .error _ => return .notExtended

def dropCall (guard : StorageLockGuard L) : ClockProg (LockEvent L) := do
  guard.drop
  return .dropped

/-- The calls a worker may make. `allowed` restricts dropping and extending.
Forgetting a guard does nothing to the storage. -/
inductive LockCall (key : Key) (allowed : LockState ι L → ι → Prop) (i : ι) (s : LockState ι L) :
    ClockProg (LockEvent L) → Prop where
  | tryLock {lock : StorageLock L} (hkey : lock.valueRef.key = key) (hfree : s.guards i = none) :
      LockCall key allowed i s (tryLockCall lock)
  | extendLock {guard : StorageLockGuard L} (hguard : s.guards i = some guard)
      (hallowed : allowed s i) : LockCall key allowed i s (extendLockCall guard)
  | drop {guard : StorageLockGuard L} (hguard : s.guards i = some guard)
      (hallowed : allowed s i) : LockCall key allowed i s (dropCall guard)
  | forget {guard : StorageLockGuard L} (hguard : s.guards i = some guard) :
      LockCall key allowed i s (.ret .forgotten)

/-- Workers on one key of the storage. Besides their steps, time passes and
other entries of the storage change. -/
def lockThreads (key : Key) (allowed : LockState ι L → ι → Prop) :
    Threads (interface clockHost) ι (LockEvent L) (LockState ι L) where
  sem _ o s r s' := (r, s') = s.answer o
  finish i event s := s.record i event
  call := LockCall key allowed
  env s s' := s.clock.Le s'.clock ∧ s'.db key = s.db key ∧ s'.guards = s.guards ∧ s'.owner = s.owner

abbrev LockConfig (ι L : Type) [Lockable L] :=
  Config (interface clockHost) ι (LockEvent L) (LockState ι L)

/-- Nobody holds a guard and nothing runs. The entry may hold anything, such as
the lease of an earlier run of the node. -/
def LockConfig.start (db : Db) (clock : Clock) : LockConfig ι L where
  shared := { db := db, clock := clock, guards := fun _ => none, owner := none }
  running := fun _ => none

/-- Worker `i` makes a call and executes `n` operations after the first. -/
def LockConfig.call (key : Key) (allowed : LockState ι L → ι → Prop)
    (c : LockConfig ι L) (i : ι)
    (p : ClockProg (LockEvent L)) (n : ℕ) :
    LockConfig ι L :=
  Threads.Config.resume (lockThreads key allowed) LockState.answer
    (Threads.Config.fire (lockThreads key allowed) LockState.answer c i p) i n

open LockConfig

theorem LockConfig.reaches_call {key : Key} {a : LockState ι L → ι → Prop} {i : ι}
    {c : LockConfig ι L} {p : ClockProg (LockEvent L)} (hi : c.running i = none)
    (hc : LockCall key a i c.shared p) (n : ℕ) :
    Relation.ReflTransGen (lockThreads key a).Step c (call key a c i p n) :=
  Threads.reaches_call (fun _ _ _ => rfl) hi hc n

end

open LockState LockConfig

/-! ## Mutual exclusion

The invariant: the entry holds the deadline of the guard of its owner, and only
the owner can have an unexpired guard. -/

section
variable {ι L : Type} [Lockable L]

/-- What worker `i` relies on. -/
def LockRely (i : ι) (s s' : LockState ι L) : Prop := s.clock.Le s'.clock ∧ s'.guards i = s.guards i

theorem LockRely.refl (i : ι) (s : LockState ι L) : LockRely i s s := ⟨Clock.Le.refl _, rfl⟩

theorem LockRely.trans {i : ι} {t u v : LockState ι L} (h1 : LockRely i t u)
    (h2 : LockRely i u v) : LockRely i t v :=
  ⟨h1.1.trans h2.1, h2.2.trans h1.2⟩

variable [LawfulLockable L]

structure LockInv (key : Key) (s : LockState ι L) : Prop where
  key_eq : ∀ {i guard}, s.guards i = some guard → guard.lock.valueRef.key = key
  owner_of_unexpired : ∀ {i guard}, s.guards i = some guard →
    ¬ Expired s.clock guard.lastSet → s.owner = some i
  stored : ∀ {i guard}, s.owner = some i → s.guards i = some guard →
    s.db key = some (encode guard.lastSet)
  cleared : ∀ {i guard}, s.guards i = some guard → s.owner = none → s.db key = none

variable {key : Key} {s : LockState ι L} {i : ι}

section
variable (hinv : LockInv key s)

include hinv

/-- An entry that is free or expired leaves no unexpired guard. -/
theorem LockInv.expired_of_db
    (h : ∀ d, decodeStored (Lockable.Deadline L) (s.db key) = .ok (some d) → Expired s.clock d)
    {j : ι} {g : StorageLockGuard L} (hgd : s.guards j = some g) :
    Expired s.clock g.lastSet := by
  by_contra hunx
  have hsto := hinv.stored (hinv.owner_of_unexpired hgd hunx) hgd
  exact hunx (h g.lastSet (by rw [hsto, decodeStored_encode]))

/-- A step that changes nothing is good. -/
theorem LockInv.good_self : Good (LockInv key) LockRely i s s :=
  ⟨hinv, fun j _ => LockRely.refl j s⟩

/-- Two guards with the same deadline in the entry are guards of one worker. -/
theorem LockInv.expired_of_stored {g b : StorageLockGuard L} {j : ι}
    (hgd : s.guards i = some g) (hsto : s.db key = some (encode g.lastSet))
    (hji : j ≠ i) (hoth : s.guards j = some b) : Expired s.clock b.lastSet := by
  by_contra hunx
  have hown := hinv.owner_of_unexpired hoth hunx
  have hs : g.lastSet = b.lastSet := by
    have := hinv.stored hown hoth
    rw [hsto, Option.some.injEq, encode_inj] at this
    exact this
  have hown' := hinv.owner_of_unexpired hgd (by rwa [hs])
  rw [hown, Option.some.injEq] at hown'
  exact hji hown'

end

variable [DecidableEq ι]

/-- A worker may write the entry when no other worker has an unexpired guard. -/
theorem LockInv.hold {l : StorageLock L} {d : Lockable.Deadline L} (hinv : LockInv key s)
    (hkey : l.valueRef.key = key)
    (hoth : ∀ j b, j ≠ i → s.guards j = some b → Expired s.clock b.lastSet) :
    LockInv key (LockState.hold
      { s with db := update s.db key (some (encode d)) } i ⟨l, d⟩) := by
  constructor
  case key_eq =>
    intro j b ho
    by_cases hji : j = i
    · obtain rfl : ⟨l, d⟩ = b := by simpa [LockState.hold, hji] using ho
      exact hkey
    · exact hinv.key_eq (by simpa [LockState.hold, hji] using ho)
  case owner_of_unexpired =>
    intro j b ho hunx
    by_cases hji : j = i
    · simp [LockState.hold, hji]
    · exact absurd (hoth j b hji (by simpa [LockState.hold, hji] using ho)) hunx
  case stored =>
    intro j b hown ho
    obtain rfl : i = j := by simpa [LockState.hold] using hown
    obtain rfl : ⟨l, d⟩ = b := by simpa [LockState.hold] using ho
    simp [LockState.hold]
  case cleared =>
    intro j b _ hown
    simp [LockState.hold] at hown

/-- Forgetting a guard keeps the entry. -/
theorem LockInv.release (hinv : LockInv key s) : LockInv key (s.release i) := by
  have hgds : ∀ {j g}, (s.release i).guards j = some g → s.guards j = some g := by
    intro j g hgd
    by_cases hji : j = i
    · simp [LockState.release, hji] at hgd
    · simpa [LockState.release, hji] using hgd
  constructor
  case key_eq => exact fun h => hinv.key_eq (hgds h)
  case owner_of_unexpired => exact fun h => hinv.owner_of_unexpired (hgds h)
  case stored => exact fun hown h => hinv.stored hown (hgds h)
  case cleared => exact fun h => hinv.cleared (hgds h)

/-- Clearing the entry is fine while nobody else has taken the lock. -/
theorem LockInv.clear (hinv : LockInv key s) (hcur : s.Current i) :
    LockInv key { LockState.release { s with db := update s.db key none } i with
      owner := none } := by
  have hgds : ∀ {j g}, (s.release i).guards j = some g → j ≠ i ∧ s.guards j = some g := by
    intro j g hgd
    by_cases hji : j = i
    · simp [LockState.release, hji] at hgd
    · exact ⟨hji, by simpa [LockState.release, hji] using hgd⟩
  constructor
  case key_eq => exact fun h => hinv.key_eq (hgds h).2
  case owner_of_unexpired =>
    intro j g hgd hunx
    obtain ⟨hji, hgd⟩ := hgds hgd
    exact absurd (hcur j (hinv.owner_of_unexpired hgd hunx)) hji
  case stored =>
    intro j g hown
    simp at hown
  case cleared =>
    simp [LockState.release]

/-! ### Every call is safe -/

variable {a : LockState ι L → ι → Prop}

def lockView (key : Key) (allowed : LockState ι L → ι → Prop) :
    StorageView (lockThreads key allowed) where
  db := LockState.db
  commit s o := { s with db := (o.apply s.db).2 }
  sem_iff _ o s r s' := by
    simp only [lockThreads, LockState.answer, Prod.mk.injEq]
  commit_get _ _ := rfl
  commit_failed s key _ _ hne := by simp [StorageOp.apply, hne]

/-- A program that only looks at the clock is safe. -/
theorem ReadsClock.safe {B : Type} {P : B → Clock → Prop} {p : ClockProg B}
    {Q : B → LockState ι L → LockState ι L → Prop} {s0 s : LockState ι L}
    (hrd : ReadsClock P p s.clock) (hg : Good (LockInv key) LockRely i s0 s)
    (hQ : ∀ b s0' s', Good (LockInv key) LockRely i s0' s' → LockRely i s s' →
      P b s'.clock → Q b s0' s') :
    (lockThreads key a).Safe (LockInv key) LockRely i p Q s0 s := by
  induction p generalizing s0 s with
  | ret b => exact hQ b s0 s hg (LockRely.refl i s) hrd
  | op o k ih =>
    cases o with
    | inl o => exact absurd hrd id
    | inr o =>
      refine ⟨hg, ?_⟩
      intro t hR hinv r u hsem
      obtain ⟨rfl, rfl⟩ := Prod.mk.inj hsem
      refine ih _ (hrd _ hR.1) hinv.good_self ?_
      intro b s0' s' hg' hR'
      exact hQ b s0' s' hg' (hR.trans hR')
  | panic => exact absurd hrd id

/-- `mutate` with a function that only looks at the clock: a write happens when
the entry is still what was read. -/
theorem safeStart_mutate_readsClock {E : Type} {self : StorageValueRef}
    {mv : Except StorageRetrievalError (Option (Lockable.Deadline L)) →
      ClockProg (Except E (Lockable.Deadline L))}
    {P : Except E (Lockable.Deadline L) → Clock → Prop}
    {Q : Except (MutateStorageError (Lockable.Deadline L) E) (Lockable.Deadline L) →
      LockState ι L → LockState ι L → Prop} (hinv : LockInv key s)
    (hrd : ReadsClock P (mv (decodeStored _ (s.db self.key))) s.clock)
    (herr : ∀ e s0 s', Good (LockInv key) LockRely i s0 s' → Q (.error e) s0 s')
    (hok : ∀ d s' t, LockRely i s s' → P (.ok d) s'.clock → LockRely i s' t → LockInv key t →
      t.db self.key = s.db self.key →
      Q (.ok d) t { t with db := update t.db self.key (some (encode d)) }) :
    (lockThreads key a).SafeStart (LockInv key) LockRely i (self.mutate mv) Q s := by
  apply safeStart_mutate (lockView key a)
  apply hrd.safe hinv.good_self
  intro res s0 s' hg hR hP
  cases res with
  | error e => exact herr _ s0 s' hg
  | ok d =>
    refine ⟨hg, ?_⟩
    intro t hR' hi'
    refine ⟨herr _ t t hi'.good_self, ?_⟩
    intro (hs : t.db self.key = s.db self.key)
    simp only [lockView]
    rw [StorageOp.apply_compareAndSet hs]
    exact hok d s' t hR hP hR' hi' hs

/-- Worker `i` writes its guard while no other worker has an unexpired one. -/
theorem LockInv.good_hold {l : StorageLock L} {d : Lockable.Deadline L} (hinv : LockInv key s)
    (hkey : l.valueRef.key = key)
    (hoth : ∀ j b, j ≠ i → s.guards j = some b → Expired s.clock b.lastSet) :
    Good (LockInv key) LockRely i s (LockState.hold
      { s with db := update s.db key (some (encode d)) } i ⟨l, d⟩) := by
  refine ⟨hinv.hold hkey hoth, ?_⟩
  intro j hji
  exact ⟨Clock.Le.refl _, by simp [LockState.hold, hji]⟩

theorem safe_tryLockInner {l : StorageLock L} {dl : Lockable.Deadline L}
    {s0 s : LockState ι L} (hkey : l.valueRef.key = key) (hg : Good (LockInv key) LockRely i s0 s) :
    (lockThreads key a).Safe (LockInv key) LockRely i (l.tryLockInner dl)
      (fun
        | .ok (), s0, s => Good (LockInv key) LockRely i s0 (s.hold i ⟨l, dl⟩)
        | .error _, s0, s => Good (LockInv key) LockRely i s0 s) s0 s := by
  subst hkey
  refine safe_bind.mpr (safe_mutate hg ?_)
  intro t _ hinv
  apply safeStart_mutate_readsClock hinv
    (P := fun res c => ∀ d, res = .ok d → d = dl ∧
      ∀ d' : Lockable.Deadline L, decodeStored _ (t.db l.valueRef.key) = .ok (some d') →
        Expired c d')
  case hrd =>
    cases hdec : decodeStored (Lockable.Deadline L) (t.db l.valueRef.key) with
    | error e => simp [ReadsClock]
    | ok en =>
      cases en with
      | none => simp [ReadsClock]
      | some de =>
        apply ReadsClock.bind
        apply (LawfulLockable.hasExpired_reads de t.clock).mono
        intro ex c hexp
        cases ex with
        | false => simp [ReadsClock]
        | true => simpa [ReadsClock] using hexp rfl
  case herr =>
    intro e s0 s' hg'
    cases e with
    | concurrentModification | valueFunctionFailed => exact hg'
  case hok =>
    intro d s' u _ hP hR hi' hs
    obtain ⟨rfl, hexp⟩ := hP d rfl
    have hoth : ∀ j b, j ≠ i → u.guards j = some b → Expired u.clock b.lastSet := by
      intro j b _ ho
      refine hi'.expired_of_db ?_ ho
      intro d' hd'
      exact LawfulLockable.expired_mono hR.1 (hexp d' (by rwa [← hs]))
    exact LockInv.good_hold hi' rfl hoth

theorem safeStart_extendLock {g : StorageLockGuard L} (hinv : LockInv key s)
    (hgd : s.guards i = some g) (hcur : s.Current i) :
    (lockThreads key a).SafeStart (LockInv key) LockRely i g.extendLock
      (fun
        | .ok de, s0, s => s.guards i = some g ∧
            Good (LockInv key) LockRely i s0 (s.hold i { g with lastSet := de })
        | .error _, s0, s => Good (LockInv key) LockRely i s0 s) s := by
  obtain rfl := hinv.key_eq hgd
  refine bind (LockRely.refl i) hinv ?_
  apply safeStart_mutate_readsClock hinv
    (P := fun res _ => ∀ d, res = .ok d → s.db g.lock.valueRef.key = some (encode g.lastSet))
  case hrd =>
    cases hdec : decodeStored (Lockable.Deadline L) (s.db g.lock.valueRef.key) with
    | error e => simp [ReadsClock]
    | ok en =>
      cases en with
      | none => simp [ReadsClock]
      | some de =>
        -- the entry it reads is the deadline of its own guard
        have hsto : s.db g.lock.valueRef.key = some (encode g.lastSet) := by
          cases hown : s.owner with
          | none => simp [hinv.cleared hgd hown, decodeStored] at hdec
          | some j =>
            obtain rfl : j = i := hcur j hown
            exact hinv.stored hown hgd
        apply ReadsClock.bind
        apply (LawfulLockable.hasExpired_reads de s.clock).mono
        intro ex c _
        cases ex with
        | true => simp [ReadsClock]
        | false =>
          apply ReadsClock.bind
          apply (LawfulLockable.deadline_reads g.lock.lockable c).mono
          intro d _ _ _ _
          exact hsto
  case herr =>
    intro e s0 s' hg'
    cases e with
    | concurrentModification | valueFunctionFailed => exact hg'
  case hok =>
    intro d s' t hR hP hR' hi' hs
    have hgd' : t.guards i = some g := by rw [hR'.2, hR.2, hgd]
    refine ⟨hgd', LockInv.good_hold hi' rfl ?_⟩
    intro j other hji hoth
    exact hi'.expired_of_stored hgd' (hs.trans (hP d rfl)) hji hoth

theorem safeStart_tryLock {l : StorageLock L} (hinv : LockInv key s) (hkey : l.valueRef.key = key) :
    (lockThreads key a).SafeStart (LockInv key) LockRely i l.tryLock
      (fun
        | .ok g, s0, s => Good (LockInv key) LockRely i s0 (s.hold i g)
        | .error _, s0, s => Good (LockInv key) LockRely i s0 s) s := by
  apply Threads.Safe.start (LockRely.refl i) hinv
  apply safe_bind.mpr
  apply (LawfulLockable.deadline_reads l.lockable s.clock).safe hinv.good_self
  intro dl s0 s' hg _ _
  apply safe_bind.mpr
  apply (safe_tryLockInner hkey hg).mono
  intro res s0 s' hres
  cases res with
  | ok | error => exact hres

theorem lock_obligations (key : Key) :
    Obligations (lockThreads key (Current (ι := ι) (L := L))) (LockInv key) LockRely where
  refl := LockRely.refl
  trans i t u v := LockRely.trans
  env s s' hinv henv := by
    obtain ⟨hclk, hdb, hgds, hown⟩ := henv
    refine ⟨?_, fun i => ⟨hclk, by rw [hgds]⟩⟩
    constructor
    case key_eq => rw [hgds]; exact hinv.key_eq
    case owner_of_unexpired =>
      rw [hgds, hown]
      intro i g hgd hunx
      exact hinv.owner_of_unexpired hgd fun hexp =>
        hunx (LawfulLockable.expired_mono hclk hexp)
    case stored => rw [hgds, hown, hdb]; exact hinv.stored
    case cleared => rw [hgds, hown, hdb]; exact hinv.cleared
  call i s p hinv hc := by
    cases hc with
    | tryLock hkey hfree =>
      refine bind (LockRely.refl i) hinv ?_
      apply (safeStart_tryLock hinv hkey).mono
      intro res s0 s' hres
      cases res with
      | ok | error => exact hres
    | @extendLock g hgd hcur =>
      refine bind (LockRely.refl i) hinv ?_
      apply (safeStart_extendLock hinv hgd hcur).mono
      intro res s0 s' hres
      cases res with
      | ok d =>
        obtain ⟨hgd', hg⟩ := hres
        simpa [Finishes, lockThreads, record, hgd'] using hg
      | error e => exact hres
    | drop hgd hcur =>
      obtain rfl := hinv.key_eq hgd
      intro r s' hsem
      obtain ⟨rfl, rfl⟩ := Prod.mk.inj hsem
      refine ⟨hinv.clear hcur, ?_⟩
      intro j hji
      exact ⟨Clock.Le.refl _, by simp [lockThreads, record, LockState.release, hji]⟩
    | forget hgd =>
      refine ⟨hinv.release, ?_⟩
      intro j hji
      exact ⟨Clock.Le.refl _, by simp [lockThreads, record, LockState.release, hji]⟩

/-- In every interleaving in which a guard is dropped or extended only while no
other worker has taken the lock since, unexpired guards belong to one worker,
and the entry holds their deadline. -/
theorem unexpired_guards_exclusive {c : LockConfig ι L} {key : Key} {db : Db} {clock : Clock}
    (hreach : Relation.ReflTransGen (lockThreads key Current).Step
      (start db clock) c) :
    (∀ i j guard guard', c.shared.guards i = some guard → c.shared.guards j = some guard' →
      ¬ Expired c.shared.clock guard.lastSet → ¬ Expired c.shared.clock guard'.lastSet → i = j) ∧
    (∀ i guard, c.shared.guards i = some guard → ¬ Expired c.shared.clock guard.lastSet →
      c.shared.db key = some (encode guard.lastSet)) := by
  have hst : LockInv key (start (ι := ι) (L := L) db clock).shared := by
    constructor <;> simp [start]
  have hinv := invariant_of_obligations (lock_obligations key) hst (fun _ => rfl) hreach
  refine ⟨?_, ?_⟩
  · intro i j guard guard' hi hj hunx hu'
    have hown := hinv.owner_of_unexpired hi hunx
    rw [hinv.owner_of_unexpired hj hu', Option.some.injEq] at hown
    exact hown.symm
  · intro i guard hi hunx
    exact hinv.stored (hinv.owner_of_unexpired hi hunx) hi

end

/-- A lock on the entry `[1]` with leases of ten milliseconds. -/
def tenMillis : StorageLock Time := .withLockable [1] ⟨10⟩

/-- Numbered workers on an empty storage, at time zero. -/
def LockConfig.empty : LockConfig ℕ Time :=
  start (fun _ => none) ⟨0, 0⟩

/-- Worker 0 takes the lock, and its lease expires. -/
def LockConfig.expired (allowed : LockState ℕ Time → ℕ → Prop) :
    LockConfig ℕ Time :=
  let c := call [1] allowed empty 0 (tryLockCall tenMillis) 2
  { c with shared := { c.shared with clock := ⟨11, 1⟩ } }

/-- Worker 1 takes the lock then. -/
def LockConfig.takenOver (allowed : LockState ℕ Time → ℕ → Prop) :
    LockConfig ℕ Time :=
  call [1] allowed (expired allowed) 1 (tryLockCall tenMillis) 3

theorem LockConfig.reaches_takenOver (allowed : LockState ℕ Time → ℕ → Prop) :
    Relation.ReflTransGen (lockThreads [1] allowed).Step empty (takenOver allowed) := by
  have hfst := reaches_call (a := allowed) (i := 0) (c := empty) (p := tryLockCall tenMillis) rfl
    (.tryLock rfl rfl) 2
  have hle : Clock.Le ⟨0, 0⟩ ⟨11, 1⟩ := ⟨by decide, by decide⟩
  have hexp : Relation.ReflTransGen (lockThreads [1] allowed).Step empty (expired allowed) :=
    hfst.tail (.env ⟨hle, rfl, rfl, rfl⟩)
  have hsnd := reaches_call (a := allowed) (i := 1) (c := expired allowed)
    (p := tryLockCall tenMillis) rfl (.tryLock rfl rfl) 3
  exact hexp.trans hsnd

/-- Worker 1 extends its lease, while worker 0 still has its expired guard. -/
theorem unexpired_guards_exclusive_extended :
    let c := call [1] Current (takenOver Current) 1
      (extendLockCall ⟨tenMillis, (21 : Timestamp)⟩) 3
    c.shared.guards 0 = some ⟨tenMillis, (10 : Timestamp)⟩ ∧
      c.shared.db [1] = some (encode (21 : Timestamp)) ∧
      ∀ i guard, c.shared.guards i = some guard → ¬ Expired c.shared.clock guard.lastSet →
        i = 1 := by
  have hrch := (reaches_takenOver Current).trans
    (reaches_call (p := extendLockCall ⟨tenMillis, (21 : Timestamp)⟩) rfl
      (.extendLock rfl fun j hj => (Option.some.inj hj).symm) 3)
  obtain ⟨hex, hdb⟩ := unexpired_guards_exclusive hrch
  have hunx : ¬ Expired (L := Time) ⟨11, 1⟩ (21 : Timestamp) := by
    show ¬ 11 > 21
    decide
  exact ⟨rfl, hdb 1 ⟨tenMillis, (21 : Timestamp)⟩ rfl hunx,
    fun i guard hi hi' => hex i 1 guard ⟨tenMillis, (21 : Timestamp)⟩ hi rfl hi' hunx⟩

/-- Without the restriction two workers end up with unexpired guards: the drop
of an expired guard has removed the lock of another worker. -/
theorem two_unexpired_guards :
    ∃ c, Relation.ReflTransGen (lockThreads [1] fun _ _ => True).Step empty c ∧
      c.shared.guards 1 = some ⟨tenMillis, (21 : Timestamp)⟩ ∧
      c.shared.guards 2 = some ⟨tenMillis, (21 : Timestamp)⟩ ∧
      ¬ Expired (L := Time) c.shared.clock (21 : Timestamp) := by
  have hdrop := (reaches_takenOver fun _ _ => True).trans
    (reaches_call (p := dropCall ⟨tenMillis, (10 : Timestamp)⟩) (i := 0) rfl
      (.drop rfl trivial) 0)
  refine ⟨_, hdrop.trans (reaches_call (p := tryLockCall tenMillis) (i := 2) rfl
    (.tryLock rfl rfl) 2), rfl, rfl, ?_⟩
  show ¬ 11 > 21
  decide

end Offchain
