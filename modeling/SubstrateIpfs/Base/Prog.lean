-- SUMMARY: Programs over atomic operations, alone or interleaved, and a rely-guarantee rule.
import SubstrateIpfs.Base.Run

/-!
# Interaction trees

A program is a tree of atomic operations on a state it shares with others. The meaning of the
operations is left open.

* `Prog.run` executes a program alone, with a handler that answers every operation;
* `Threads.Step` executes any number of programs side by side, one operation at a time.

`Threads.Safe` is the rely-guarantee reading of one program. `Threads.invariant_of_obligations`
composes it: if every program that may be started is safe against the others, the shared invariant
holds in every state of every interleaving.
-/

/-- Operations, together with the type of their answers. -/
structure Interface where
  Op : Type
  Ret : Op → Type

/-- A program returns, performs an operation and goes on with its answer, or
panics. -/
inductive Prog (I : Interface) (A : Type) where
  | ret (a : A)
  | op (o : I.Op) (k : I.Ret o → Prog I A)
  | panic

namespace Prog

variable {I : Interface} {A B C : Type} {f : A → Prog I B} {p : Prog I A}

/-! ## Sequencing -/

def bind : Prog I A → (A → Prog I B) → Prog I B
  | .ret a, f => f a
  | .op o k, f => .op o fun r => (k r).bind f
  | .panic, _ => .panic

instance : Monad (Prog I) where
  pure := .ret
  bind := bind

/-- Perform one operation. -/
def perform (o : I.Op) : Prog I (I.Ret o) := .op o .ret

@[simp] theorem pure_eq (a : A) : (pure a : Prog I A) = .ret a := rfl

@[simp] theorem ret_bind (a : A) (f : A → Prog I B) : (ret a >>= f) = f a := rfl

@[simp] theorem op_bind (o : I.Op) (k : I.Ret o → Prog I A) (f : A → Prog I B) :
    (op o k >>= f) = .op o fun r => k r >>= f := rfl

/-! ## Sequential execution -/

section
variable {S : Type}

/-- Execute a program alone. A panic has no result but keeps its effects. -/
def run (handle : S → (o : I.Op) → I.Ret o × S) : Prog I A → S → Option A × S
  | .ret a, s => (some a, s)
  | .op o k, s => run handle (k (handle s o).1) (handle s o).2
  | .panic, s => (none, s)

variable {hdl : S → (o : I.Op) → I.Ret o × S}

@[simp] theorem run_ret (a : A) (s : S) : run hdl (.ret a) s = (some a, s) := rfl

@[simp] theorem run_op (o : I.Op) (k : I.Ret o → Prog I A) (s : S) :
    run hdl (.op o k) s = run hdl (k (hdl s o).1) (hdl s o).2 := rfl

theorem run_bind (p : Prog I A) (f : A → Prog I B) (s : S) :
    run hdl (p >>= f) s =
      match run hdl p s with
      | (some a, s') => run hdl (f a) s'
      | (none, s') => (none, s') := by
  induction p generalizing s with
  | ret a => rfl
  | op o k ih => simp [ih]
  | panic => rfl

theorem run_bind_of_some {s s' : S} {a : A} (h : run hdl p s = (some a, s')) :
    run hdl (p >>= f) s = run hdl (f a) s' := by
  rw [run_bind, h]

theorem run_bind_of_none {s s' : S} (h : run hdl p s = (none, s')) :
    run hdl (p >>= f) s = (none, s') := by
  rw [run_bind, h]

end

end Prog

/-! ## Interleaved execution -/

/-- A system of threads `ι` that run programs over a shared state `S`. `sem`
answers an operation of a thread, `finish` is what a returned value does to the
shared state, `call` says which programs a thread may start in which state, and
`env` is what happens to the shared state besides. -/
structure Threads (I : Interface) (ι A S : Type) where
  sem : ι → (o : I.Op) → S → I.Ret o → S → Prop
  finish : ι → A → S → S
  call : ι → S → Prog I A → Prop
  env : S → S → Prop

/-- The shared state and the program each thread still has to run, if any. -/
structure Config (I : Interface) (ι A S : Type) where
  shared : S
  running : ι → Option (Prog I A)

namespace Threads

variable {I : Interface} {ι A S : Type} [DecidableEq ι]

/-- What is left after an atomic operation. Returning takes effect together with
the last operation. -/
def settle (T : Threads I ι A S) (i : ι) : Prog I A → S → Option (Prog I A) × S
  | .ret a, s => (none, T.finish i a s)
  | .panic, s => (none, s)
  | .op o k, s => (some (.op o k), s)

/-- Thread `i` performs the first operation of `p`. -/
inductive Advance (T : Threads I ι A S) (i : ι) : Prog I A → S → Option (Prog I A) × S → Prop where
  | op {o : I.Op} {k : I.Ret o → Prog I A} {s s' : S} {r : I.Ret o} (h : T.sem i o s r s') :
      Advance T i (.op o k) s (T.settle i (k r) s')
  | ret {a : A} {s : S} : Advance T i (.ret a) s (T.settle i (.ret a) s)
  | panic {s : S} : Advance T i .panic s (T.settle i .panic s)

/-- The state after thread `i` has advanced to `next`. -/
def Config.update (c : Config I ι A S) (i : ι) (next : Option (Prog I A) × S) : Config I ι A S :=
  { shared := next.2, running := Function.update c.running i next.1 }

/-- One step of the system: a thread starts a call and performs its first
operation, a thread goes on, or the environment moves. -/
inductive Step (T : Threads I ι A S) : Config I ι A S → Config I ι A S → Prop where
  | start {c : Config I ι A S} {i : ι} {p : Prog I A} {next : Option (Prog I A) × S}
      (hidle : c.running i = none) (hcall : T.call i c.shared p)
      (hadv : T.Advance i p c.shared next) : Step T c (Config.update c i next)
  | go {c : Config I ι A S} {i : ι} {p : Prog I A} {next : Option (Prog I A) × S}
      (hrun : c.running i = some p) (hadv : T.Advance i p c.shared next) :
      Step T c (Config.update c i next)
  | env {c : Config I ι A S} {s : S} (h : T.env c.shared s) : Step T c { c with shared := s }

/-! ### One schedule

Where the operations have a handler, a call can be executed for a number of
steps. -/

/-- Thread `i` performs the first operation of `p`, answered by `handle`. -/
def Config.fire (T : Threads I ι A S) (handle : S → (o : I.Op) → I.Ret o × S)
    (c : Config I ι A S) (i : ι) (p : Prog I A) : Config I ι A S :=
  Config.update c i <|
    match p with
    | .op o k => T.settle i (k (handle c.shared o).1) (handle c.shared o).2
    | .ret a => T.settle i (.ret a) c.shared
    | .panic => T.settle i .panic c.shared

/-- Thread `i` goes on for at most `n` operations. -/
def Config.resume (T : Threads I ι A S) (handle : S → (o : I.Op) → I.Ret o × S)
    (c : Config I ι A S) (i : ι) : ℕ → Config I ι A S
  | 0 => c
  | n + 1 =>
    match c.running i with
    | some p => Config.resume T handle (Config.fire T handle c i p) i n
    | none => c

section
variable {T : Threads I ι A S} {hdl : S → (o : I.Op) → I.Ret o × S}

private theorem advance_fire (hsem : ∀ i s o, T.sem i o s (hdl s o).1 (hdl s o).2)
    (c : Config I ι A S) (i : ι) (p : Prog I A) :
    ∃ next, T.Advance i p c.shared next ∧ Config.fire T hdl c i p = Config.update c i next := by
  cases p with
  | ret a => exact ⟨_, .ret, rfl⟩
  | op o k => exact ⟨_, .op (hsem i c.shared o), rfl⟩
  | panic => exact ⟨_, .panic, rfl⟩

private theorem reaches_resume (hsem : ∀ i s o, T.sem i o s (hdl s o).1 (hdl s o).2)
    (i : ι) (n : ℕ) (c : Config I ι A S) :
    Relation.ReflTransGen T.Step c (Config.resume T hdl c i n) := by
  induction n generalizing c with
  | zero => exact .refl
  | succ n ih =>
    unfold Config.resume
    cases hrun : c.running i with
    | none => exact .refl
    | some p =>
      obtain ⟨next, hadv, hf⟩ := advance_fire hsem c i p
      exact .head (hf ▸ .go hrun hadv) (ih _)

/-- A call that is made and executed for a while is a run of the system. -/
theorem reaches_call (hsem : ∀ i s o, T.sem i o s (hdl s o).1 (hdl s o).2)
    {c : Config I ι A S} {i : ι} {p : Prog I A} (hi : c.running i = none)
    (hc : T.call i c.shared p) (n : ℕ) :
    Relation.ReflTransGen T.Step c (Config.resume T hdl (Config.fire T hdl c i p) i n) := by
  obtain ⟨next, hadv, hf⟩ := advance_fire hsem c i p
  exact .head (hf ▸ .start hi hc hadv) (reaches_resume hsem i n _)

end

end Threads

/-! ## Rely and guarantee

`J` is the invariant of the shared state and `R i` is what thread `i` relies on:
every step of another thread, and of the environment, stays inside it. -/

namespace Threads

variable {I : Interface} {ι A B S : Type}

/-- A step of thread `i` from `s` to `s'` keeps the invariant and stays inside
what the other threads rely on. -/
def Good (J : S → Prop) (R : ι → S → S → Prop) (i : ι) (s s' : S) : Prop :=
  J s' ∧ ∀ j, j ≠ i → R j s s'

/-- Program `p` is safe for thread `i` in the middle of an atomic step that
started in `s0` and has reached `s`. The step closes at the next operation of
`p`, where the others may interfere; a returned value is handed to `Q` inside
the open step. -/
def Safe (T : Threads I ι A S) (J : S → Prop) (R : ι → S → S → Prop) (i : ι) :
    Prog I B → (B → S → S → Prop) → S → S → Prop
  | .ret a, Q, s0, s => Q a s0 s
  | .panic, _, s0, s => Good J R i s0 s
  | .op o k, Q, s0, s =>
    Good J R i s0 s ∧ ∀ s1, R i s s1 → J s1 → ∀ r s2, T.sem i o s1 r s2 → Safe T J R i (k r) Q s1 s2

/-- What a call owes when it returns. -/
def Finishes (T : Threads I ι A S) (J : S → Prop) (R : ι → S → S → Prop) (i : ι)
    (a : A) (s0 s : S) : Prop :=
  Good J R i s0 (T.finish i a s)

/-- Program `p` is safe to start in `s`: nobody interferes before its first
operation. -/
def SafeStart (T : Threads I ι A S) (J : S → Prop) (R : ι → S → S → Prop) (i : ι)
    (p : Prog I B) (Q : B → S → S → Prop) (s : S) : Prop :=
  match p with
  | .ret a => Q a s s
  | .panic => True
  | .op o k => ∀ r s', T.sem i o s r s' → T.Safe J R i (k r) Q s s'

variable {T : Threads I ι A S} {J : S → Prop} {R : ι → S → S → Prop} {i : ι} {Q : B → S → S → Prop}
  {s : S} {p : Prog I B} {s0 : S} {Q' : B → S → S → Prop} {n : Option (Prog I A) × S}

@[simp] theorem safe_ret {a : B} : T.Safe J R i (.ret a) Q s0 s ↔ Q a s0 s := Iff.rfl

theorem safe_bind {C : Type} {f : B → Prog I C} {Q : C → S → S → Prop} :
    T.Safe J R i (p >>= f) Q s0 s ↔
      T.Safe J R i p (fun a s0 s => T.Safe J R i (f a) Q s0 s) s0 s := by
  induction p generalizing s0 s with
  | ret a => rfl
  | op o k ih => simp only [Prog.op_bind, Safe, ih]
  | panic => rfl

theorem Safe.mono (hQ : ∀ a s0 s, Q a s0 s → Q' a s0 s) (h : T.Safe J R i p Q s0 s) :
    T.Safe J R i p Q' s0 s := by
  induction p generalizing s0 s with
  | ret a => exact hQ a s0 s h
  | op o k ih =>
    refine ⟨h.1, fun t hR hJ r u hsem => ?_⟩
    exact ih r (h.2 t hR hJ r u hsem)
  | panic => exact h

/-- A program that is safe under interference is safe to start. -/
theorem Safe.start {p : Prog I B} {Q : B → S → S → Prop} {s : S} (hr : ∀ s, R i s s) (hJ : J s)
    (h : T.Safe J R i p Q s s) : T.SafeStart J R i p Q s := by
  cases p with
  | ret a => exact h
  | op o k => exact h.2 s (hr s) hJ
  | panic => trivial

theorem SafeStart.mono (hQ : ∀ a s0 s, Q a s0 s → Q' a s0 s) (h : T.SafeStart J R i p Q s) :
    T.SafeStart J R i p Q' s := by
  cases p with
  | ret a => exact hQ a s s h
  | op o k =>
    intro r s' hsem
    exact Safe.mono hQ (h r s' hsem)
  | panic => trivial

theorem SafeStart.bind {C : Type} {f : B → Prog I C} {Q : C → S → S → Prop} (hr : ∀ s, R i s s)
    (hJ : J s) (h : T.SafeStart J R i p (fun a s0 s => T.Safe J R i (f a) Q s0 s) s) :
    T.SafeStart J R i (p >>= f) Q s := by
  cases p with
  | ret a => exact Safe.start hr hJ h
  | op o k =>
    intro r s' hsem
    exact safe_bind.mpr (h r s' hsem)
  | panic => trivial

/-- The obligations of the rely-guarantee rule. -/
structure Obligations (T : Threads I ι A S) (J : S → Prop) (R : ι → S → S → Prop) : Prop where
  refl : ∀ i s, R i s s
  trans : ∀ i s1 s2 s3, R i s1 s2 → R i s2 s3 → R i s1 s3
  env : ∀ s s', J s → T.env s s' → J s' ∧ ∀ i, R i s s'
  call : ∀ i s p, J s → T.call i s p → T.SafeStart J R i p (T.Finishes J R i) s

/-- The invariant of the composed system: the shared invariant, and every thread
is still safe. -/
def Invariant (T : Threads I ι A S) (J : S → Prop) (R : ι → S → S → Prop)
    (c : Config I ι A S) : Prop :=
  J c.shared ∧ ∀ i p, c.running i = some p →
    ∀ s, R i c.shared s → J s → T.SafeStart J R i p (T.Finishes J R i) s

/-- One atomic operation of a thread that is safe to go on is good, and leaves
the thread safe. -/
private theorem Advance.good {p : Prog I A} (hob : Obligations T J R) (hJ : J s)
    (hs : T.SafeStart J R i p (T.Finishes J R i) s) (hadv : T.Advance i p s n) :
    Good J R i s n.2 ∧ ∀ q, n.1 = some q →
      ∀ s', R i n.2 s' → J s' → T.SafeStart J R i q (T.Finishes J R i) s' := by
  cases hadv with
  | @op o k _ s' r hsem =>
    have hk := hs r s' hsem
    cases hkr : k r with
    | ret a =>
      rw [hkr] at hk
      exact ⟨hk, by simp [settle]⟩
    | op o' k' =>
      rw [hkr] at hk
      refine ⟨hk.1, ?_⟩
      intro q hq s'' hR hJ''
      obtain rfl : Prog.op o' k' = q := by simpa [settle] using hq
      exact hk.2 s'' hR hJ''
    | panic =>
      rw [hkr] at hk
      exact ⟨hk, by simp [settle]⟩
  | ret => exact ⟨hs, by simp [settle]⟩
  | panic => exact ⟨⟨hJ, fun j _ => hob.refl j s⟩, by simp [settle]⟩

variable [DecidableEq ι] {c : Config I ι A S}

private theorem Invariant.update (hob : Obligations T J R) (hinv : T.Invariant J R c)
    (hg : Good J R i c.shared n.2)
    (hn : ∀ q, n.1 = some q → ∀ s', R i n.2 s' → J s' → T.SafeStart J R i q (T.Finishes J R i) s') :
    T.Invariant J R (Config.update c i n) := by
  refine ⟨hg.1, fun j q hq s hR hJ => ?_⟩
  by_cases hji : j = i
  · subst hji
    exact hn q (by simpa [Config.update] using hq) s hR hJ
  · have hrun : c.running j = some q := by simpa [Config.update, hji] using hq
    exact hinv.2 j q hrun s (hob.trans j _ _ _ (hg.2 j hji) hR) hJ

theorem Invariant.step {c' : Config I ι A S} (hob : Obligations T J R) (hinv : T.Invariant J R c)
    (hs : T.Step c c') : T.Invariant J R c' := by
  cases hs with
  | @start i p n hidle hc hadv =>
    obtain ⟨hg, hn⟩ := hadv.good hob hinv.1 (hob.call i c.shared p hinv.1 hc)
    exact hinv.update hob hg hn
  | @go i p n hrun hadv =>
    obtain ⟨hg, hn⟩ := hadv.good hob hinv.1 (hinv.2 i p hrun c.shared (hob.refl i _) hinv.1)
    exact hinv.update hob hg hn
  | @env s henv =>
    obtain ⟨hJ, hR⟩ := hob.env c.shared s hinv.1 henv
    refine ⟨hJ, fun i p hrun s' hR' hJ' => ?_⟩
    exact hinv.2 i p hrun s' (hob.trans i _ _ _ (hR i) hR') hJ'

/-- The rely-guarantee rule: the shared invariant holds in every state of every
interleaving that starts with no thread running. -/
theorem invariant_of_obligations {c0 : Config I ι A S} (hob : Obligations T J R) (hJ : J c0.shared)
    (hi : ∀ i, c0.running i = none) (hrch : Relation.ReflTransGen T.Step c0 c) :
    J c.shared := by
  have h0 : T.Invariant J R c0 := ⟨hJ, fun i p hrun => by simp [hi i] at hrun⟩
  exact (Run.invariant_of_reflTransGen (fun _ _ hinv hs => hinv.step hob hs) h0 hrch).1

end Threads
