-- SUMMARY: The persistent offchain database, its host functions, and typed access to an entry.
import SubstrateIpfs.Base.Prog
import SubstrateIpfs.Base.Scale

/-!
# Offchain storage

The persistent local storage of a node is a map from byte strings to byte
strings. Offchain workers reach it through host functions, each of which is one
atomic access; `StorageValueRef` wraps them in SCALE. In particular `mutate` is
not atomic: it reads, lets the caller compute a new value, and writes with a
compare-and-set.

The host functions other than storage are left open as an interface `X`.
-/

namespace Offchain

open Function Scale Prog

/-- The block number of the runtime. -/
abbrev BlockNumber := UInt32

/-- A key of the persistent storage. -/
abbrev Key := List UInt8

/-- A stored value, as written. -/
abbrev Raw := List UInt8

/-- The contents of the persistent storage. -/
abbrev Db := Key → Option Raw

/-! ## Host functions -/

inductive StorageOp where
  | localStorageGet (key : Key)
  | localStorageSet (key : Key) (value : Raw)
  | localStorageClear (key : Key)
  | localStorageCompareAndSet (key : Key) (oldValue : Option Raw) (newValue : Raw)

abbrev StorageOp.Ret : StorageOp → Type
  | .localStorageGet _ => Option Raw
  | .localStorageSet _ _ => Unit
  | .localStorageClear _ => Unit
  | .localStorageCompareAndSet _ _ _ => Bool

/-- What a host function answers and does to the database. The comparison and
the write of `localStorageCompareAndSet` happen under one lock of the key. -/
def StorageOp.apply (db : Db) : (o : StorageOp) → o.Ret × Db
  | .localStorageGet key => (db key, db)
  | .localStorageSet key value => ((), update db key (some value))
  | .localStorageClear key => ((), update db key none)
  | .localStorageCompareAndSet key oldValue newValue =>
    if db key = oldValue then (true, update db key (some newValue)) else (false, db)

variable {db : Db} {raw : Option Raw}

theorem StorageOp.apply_compareAndSet {key : Key} {old : Option Raw} (h : db key = old)
    (new : Raw) :
    (localStorageCompareAndSet key old new).apply db = (true, update db key (some new)) :=
  if_pos h

/-- Storage together with further host functions. -/
abbrev interface (X : Interface) : Interface where
  Op := StorageOp ⊕ X.Op
  Ret
    | .inl o => o.Ret
    | .inr o => X.Ret o

section
variable {X : Interface}

def localStorageGet (key : Key) : Prog (interface X) (Option Raw) :=
  Prog.perform (I := interface X) (.inl (.localStorageGet key))

def localStorageSet (key : Key) (value : Raw) : Prog (interface X) Unit :=
  Prog.perform (I := interface X) (.inl (.localStorageSet key value))

def localStorageClear (key : Key) : Prog (interface X) Unit :=
  Prog.perform (I := interface X) (.inl (.localStorageClear key))

def localStorageCompareAndSet (key : Key) (oldValue : Option Raw) (newValue : Raw) :
    Prog (interface X) Bool :=
  Prog.perform (I := interface X) (.inl (.localStorageCompareAndSet key oldValue newValue))

variable {B : Type}

@[simp] theorem localStorageGet_bind (key : Key) (f : Option Raw → Prog (interface X) B) :
    (localStorageGet key >>= f) = .op (.inl (.localStorageGet key)) f := rfl

@[simp] theorem localStorageCompareAndSet_bind (key : Key) (old : Option Raw) (new : Raw)
    (f : Bool → Prog (interface X) B) :
    (localStorageCompareAndSet key old new >>= f) =
      .op (.inl (.localStorageCompareAndSet key old new)) f := rfl

end

/-! ## Typed access -/

/-- Reason for not being able to provide the stored value. -/
inductive StorageRetrievalError where
  /-- Value found but undecodable. -/
  | undecodable
  deriving DecidableEq, Repr

/-- Possible errors when mutating a storage value. -/
inductive MutateStorageError (T E : Type) where
  /-- The value was modified concurrently. Contains the value that was not stored. -/
  | concurrentModification (value : T)
  /-- The function that creates the value to be stored failed. -/
  | valueFunctionFailed (error : E)
  deriving DecidableEq, Repr

/-- Decode what is stored under a key. -/
def decodeStored (T : Type) [Scale T] : Option Raw → Except StorageRetrievalError (Option T)
  | none => .ok none
  | some bytes =>
    match decodeValue T bytes with
    | none => .error .undecodable
    | some value => .ok (some value)

theorem decodeStored_eq_some {T : Type} [Scale T] {v : T} :
    decodeStored T raw = .ok (some v) ↔ ∃ bs, raw = some bs ∧ encode v <+: bs := by
  cases raw with
  | none => simp [decodeStored]
  | some bs =>
    cases h : decodeValue T bs with
    | none =>
      have hno : ¬ encode v <+: bs := by
        intro hpre
        simp [decodeValue_eq_some.mpr hpre] at h
      simp [decodeStored, h, hno]
    | some v' =>
      have hiff : v' = v ↔ encode v <+: bs := by
        rw [← decodeValue_eq_some, h, Option.some.injEq]
      simp [decodeStored, h, hiff]

theorem decodeStored_eq_none {T : Type} [Scale T] : decodeStored T raw = .ok none ↔ raw = none := by
  cases raw with
  | none => simp [decodeStored]
  | some bs =>
    cases h : decodeValue T bs with
    | none | some => simp [decodeStored, h]

@[simp] theorem decodeStored_encode {T : Type} [Scale T] (v : T) :
    decodeStored T (some (encode v)) = .ok (some v) :=
  decodeStored_eq_some.mpr ⟨_, rfl, List.prefix_rfl⟩

/-- An abstraction over one entry of the persistent storage. -/
structure StorageValueRef where
  key : Key

namespace StorageValueRef

variable {X : Interface} {T E : Type} [Scale T]

def persistent (key : Key) : StorageValueRef := ⟨key⟩

/-- Set the value of the storage to the encoding of the given value. -/
def set (self : StorageValueRef) (value : T) : Prog (interface X) Unit :=
  localStorageSet self.key (encode value)

/-- Remove the associated value from the storage. -/
def clear (self : StorageValueRef) : Prog (interface X) Unit := localStorageClear self.key

/-- Retrieve and decode the value from storage. -/
def get (T : Type) [Scale T] (self : StorageValueRef) :
    Prog (interface X) (Except StorageRetrievalError (Option T)) := do
  let value ← localStorageGet self.key
  return decodeStored T value

/-- Retrieve and decode the current value, and set it to a new value provided
nobody wrote in between. -/
def mutate (self : StorageValueRef)
    (mutateVal : Except StorageRetrievalError (Option T) → Prog (interface X) (Except E T)) :
    Prog (interface X) (Except (MutateStorageError T E) T) := do
  let value ← localStorageGet self.key
  match ← mutateVal (decodeStored T value) with
  | .error err => return .error (.valueFunctionFailed err)
  | .ok val =>
    let wasSet ← localStorageCompareAndSet self.key value (encode val)
    if wasSet then
      return .ok val
    else
      return .error (.concurrentModification val)

end StorageValueRef

/-! ## Sequential execution

A single worker sees its own writes: executed alone, `mutate` never reports a
concurrent modification. -/

section
variable {X : Interface} {S : Type}

/-- Answer storage operations from the database, and the others with `other`. -/
def handle (other : S → (o : X.Op) → X.Ret o × S) :
    Db × S → (o : (interface X).Op) → (interface X).Ret o × (Db × S)
  | (db, s), .inl o => ((o.apply db).1, ((o.apply db).2, s))
  | (db, s), .inr o => ((other s o).1, (db, (other s o).2))

/-- No host functions besides storage. -/
abbrev noHost : Interface where
  Op := Empty
  Ret := Empty.elim

/-- Execute a program that only uses the storage. -/
def runStorage {A : Type} (p : Prog (interface noHost) A) (db : Db) : Option A × Db :=
  let r := Prog.run (handle (X := noHost) (S := Unit) fun _ o => nomatch o) p (db, ())
  (r.1, r.2.1)

variable {b : S → (o : X.Op) → X.Ret o × S} {T E : Type} [Scale T] {self : StorageValueRef}
  {s : S} {mv : Except StorageRetrievalError (Option T) → Prog (interface X) (Except E T)}

theorem run_get (self : StorageValueRef) (db : Db) (s : S) :
    run (handle b) (self.get T) (db, s) = (some (decodeStored T (db self.key)), (db, s)) := rfl

theorem run_mutate_ok {val : T} (h : mv (decodeStored T (db self.key)) = .ret (.ok val)) :
    run (handle b) (self.mutate mv) (db, s) =
      (some (.ok val), (update db self.key (some (encode val)), s)) := by
  simp only [StorageValueRef.mutate, localStorageGet_bind, run_op, handle, StorageOp.apply, h,
    ret_bind, localStorageCompareAndSet_bind]
  rfl

theorem run_mutate_panic (h : mv (decodeStored T (db self.key)) = .panic) :
    run (handle b) (self.mutate mv) (db, s) = (none, (db, s)) := by
  simp only [StorageValueRef.mutate, localStorageGet_bind, run_op, handle, StorageOp.apply, h]
  rfl

theorem run_mutate_error {err : E} (h : mv (decodeStored T (db self.key)) = .ret (.error err)) :
    run (handle b) (self.mutate mv) (db, s) =
      (some (.error (.valueFunctionFailed err)), (db, s)) := by
  simp only [StorageValueRef.mutate, localStorageGet_bind, run_op, handle, StorageOp.apply, h]
  rfl

end

/-! ## Interleaved execution

`mutate` under interference. The value it read can be gone by the time it
writes, but a compare-and-set that succeeds finds the bytes it read. -/

section
variable {X : Interface} {ι A S : Type}

/-- The threads of `T` see one database, a part of their shared state. `commit`
is the state after an operation. It may keep books about the writes, but a read
and a failed compare-and-set leave the whole state alone. -/
structure StorageView (T : Threads (interface X) ι A S) where
  db : S → Db
  commit : S → StorageOp → S
  sem_iff : ∀ i (o : StorageOp) s (r : o.Ret) s',
    T.sem i (.inl o) s r s' ↔ r = (o.apply (db s)).1 ∧ s' = commit s o
  commit_get : ∀ s key, commit s (.localStorageGet key) = s
  commit_failed : ∀ s key oldValue newValue, db s key ≠ oldValue →
    commit s (.localStorageCompareAndSet key oldValue newValue) = s

variable {T : Threads (interface X) ι A S} {J : S → Prop} {R : ι → S → S → Prop} {i : ι}
variable {V E : Type} [Scale V] {self : StorageValueRef} {s : S}
  {mv : Except StorageRetrievalError (Option V) → Prog (interface X) (Except E V)}
  {Q : Except (MutateStorageError V E) V → S → S → Prop}

/-- `mutate` starts with a read, so others may interfere before it. -/
theorem safe_mutate {s0 : S} (hg : Threads.Good J R i s0 s)
    (h : ∀ t, R i s t → J t → T.SafeStart J R i (self.mutate mv) Q t) :
    T.Safe J R i (self.mutate mv) Q s0 s :=
  ⟨hg, h⟩

theorem safeStart_mutate (view : StorageView T)
    (h : T.Safe J R i (mv (decodeStored V (view.db s self.key)))
      (fun
        | .error err, s0, s' => Q (.error (.valueFunctionFailed err)) s0 s'
        | .ok val, s0, s' => Threads.Good J R i s0 s' ∧ ∀ t, R i s' t → J t →
            Q (.error (.concurrentModification val)) t t ∧
            (view.db t self.key = view.db s self.key → Q (.ok val) t (view.commit t
              (.localStorageCompareAndSet self.key (view.db s self.key) (encode val)))))
      s s) : T.SafeStart J R i (self.mutate mv) Q s := by
  simp only [StorageValueRef.mutate, localStorageGet_bind]
  intro r s' hget
  obtain ⟨rfl, rfl⟩ := (view.sem_iff _ _ _ _ _).mp hget
  simp only [StorageOp.apply, view.commit_get]
  refine Threads.safe_bind.mpr (Threads.Safe.mono ?_ h)
  intro res s0 s' hres
  cases res with
  | error err => exact hres
  | ok val =>
    refine ⟨hres.1, ?_⟩
    intro t hR hJ wasSet u hcas
    obtain ⟨hfld, hdo⟩ := hres.2 t hR hJ
    obtain ⟨rfl, rfl⟩ := (view.sem_iff _ _ _ _ _).mp hcas
    by_cases hs : view.db t self.key = view.db s self.key
    · simpa [StorageOp.apply, hs, Prog.bind] using hdo hs
    · rw [view.commit_failed _ _ _ _ hs]
      simpa [StorageOp.apply, hs, Prog.bind] using hfld

/-- `mutate` with a function that returns a value to store. -/
theorem safeStart_mutate_ok (view : StorageView T) {val : V}
    (hval : mv (decodeStored V (view.db s self.key)) = .ret (.ok val)) (hg : Threads.Good J R i s s)
    (hfld : ∀ t, R i s t → J t → Q (.error (.concurrentModification val)) t t)
    (hdo : ∀ t, R i s t → J t → view.db t self.key = view.db s self.key →
      Q (.ok val) t (view.commit t
        (.localStorageCompareAndSet self.key (view.db s self.key) (encode val)))) :
    T.SafeStart J R i (self.mutate mv) Q s := by
  apply safeStart_mutate view
  rw [hval]
  exact ⟨hg, fun t hR hJ => ⟨hfld t hR hJ, hdo t hR hJ⟩⟩

end

end Offchain
