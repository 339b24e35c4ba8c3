-- SUMMARY: Loops that may panic, over a list and over a stack of keys, and their induction rules.
import Mathlib

/-!
# Worklist loops

The loop pops a key. If the store has nothing for it, the loop goes on with the rest of the stack.
Otherwise the key is visited: the visit uses up part of the store and may push more keys on top of
the stack. A visit may also panic, which ends the loop without a result.

The loop is followed by an invariant on the state and the stack. Loops over a list have a rule of
the same shape.
-/

/-- A loop over a list whose body does not panic, with an invariant on what is left of the list. -/
theorem List.foldlM_inv {A B : Type*} {f : B → A → Option B} {P : List A → B → Prop}
    (hf : ∀ a l b, P (a :: l) b → ∃ b', f b a = some b' ∧ P l b') {l : List A} {b : B}
    (h : P l b) : ∃ b', l.foldlM f b = some b' ∧ P [] b' := by
  induction l generalizing b with
  | nil => exact ⟨b, rfl, h⟩
  | cons a l ih =>
    obtain ⟨b1, hb, hP⟩ := hf a l b h
    obtain ⟨b', hb', hP'⟩ := ih hP
    exact ⟨b', by rw [foldlM_cons, hb]; exact hb', hP'⟩

/-- A loop over a list that came to its end, with an invariant on what was left of the list. -/
theorem List.foldlM_inv_of_eq_some {A B : Type*} {f : B → A → Option B} {P : List A → B → Prop}
    (hf : ∀ a l b b', P (a :: l) b → f b a = some b' → P l b') {l : List A} {b b' : B}
    (hP : P l b) (h : l.foldlM f b = some b') : P [] b' := by
  induction l generalizing b with
  | nil => cases h; exact hP
  | cons a l ih =>
    obtain ⟨b1, h1, h⟩ := Option.bind_eq_some_iff.mp h
    exact ih (hf a l b b1 hP h1) h

/-- A loop over a list keeps the measure that its body keeps. -/
theorem List.foldlM_const {A B C : Type*} {f : B → A → Option B} {m : B → C}
    (hf : ∀ b a b', f b a = some b' → m b' = m b) {l : List A} {b b' : B}
    (h : l.foldlM f b = some b') : m b' = m b :=
  foldlM_inv_of_eq_some (fun a _ b1 b2 hP hb => (hf b1 a b2 hb).trans hP) rfl h

/-- A loop over a stack of keys. -/
structure Worklist (S K : Type*) where
  /-- `none` is a panic, `some none` says that there is nothing to do for the key. Otherwise the
  next state and the keys to push, the first one on top. -/
  visit : S → K → Option (Option (S × List K))
  size : S → Nat
  size_lt : ∀ {s k s' more}, visit s k = some (some (s', more)) → size s' < size s

namespace Worklist

variable {S K : Type*} {w : Worklist S K} {st : List K} {s : S} {s' : S} {stack' : List K}

/-- Pops keys until one is visited. -/
def next (w : Worklist S K) (s : S) : List K → Option (Option (S × List K))
  | [] => some none
  | k :: rest =>
    match w.visit s k with
    | none => none
    | some none => w.next s rest
    | some (some (s', more)) => some (some (s', more ++ rest))

theorem size_next (h : w.next s st = some (some (s', stack'))) : w.size s' < w.size s := by
  induction st with
  | nil => cases h
  | cons k rest ih =>
    unfold next at h
    split at h
    · cases h
    · exact ih h
    next hv =>
      cases h
      exact w.size_lt hv

/-- Runs the loop until the stack is empty. -/
def run (w : Worklist S K) (s : S) (stack : List K) : Option S :=
  match h : w.next s stack with
  | none => none
  | some none => some s
  | some (some (s', stack')) =>
    have : w.size s' < w.size s := size_next h
    w.run s' stack'
termination_by w.size s

theorem run_of_next (h : w.next s st = some none) : w.run s st = some s := by
  unfold run
  split
  next hn => cases h.symm.trans hn
  · rfl
  next hn => cases h.symm.trans hn

/-! ## Invariants -/

section
variable {I : S → List K → Prop}
  (hs : ∀ s k rest, I s (k :: rest) → w.visit s k = some none → I s rest)
  (hvi : ∀ s k rest s' more, I s (k :: rest) → w.visit s k = some (some (s', more)) →
    I s' (more ++ rest))

include hs in
theorem next_inv_done (hI : I s st) (h : w.next s st = some none) : I s [] := by
  induction st with
  | nil => exact hI
  | cons k r ih =>
    unfold next at h
    split at h
    · cases h
    next hv => exact ih (hs s k r hI hv) h
    · cases h

include hs hvi in
theorem next_inv (hI : I s st) (h : w.next s st = some (some (s', stack'))) : I s' stack' := by
  induction st with
  | nil => cases h
  | cons k r ih =>
    unfold next at h
    split at h
    · cases h
    next hv => exact ih (hs s k r hI hv) h
    next hv =>
      cases h
      exact hvi s k r _ _ hI hv

include hs hvi in
/-- What every visit keeps holds when the loop is done. -/
theorem run_inv (hI : I s st) (h : w.run s st = some s') : I s' [] := by
  induction hn : w.size s using Nat.strong_induction_on generalizing s st with
  | _ n ih =>
    subst hn
    unfold run at h
    split at h
    · cases h
    next hne =>
      cases h
      exact next_inv_done hs hI hne
    next t stack1 hne =>
      exact ih _ (size_next hne) (next_inv hs hvi hI hne) h rfl

include hs in
theorem next_ne_none (hpan : ∀ s k r, I s (k :: r) → w.visit s k ≠ none) (hI : I s st) :
    w.next s st ≠ none := by
  induction st with
  | nil => exact Option.some_ne_none _
  | cons k r ih =>
    unfold next
    split
    next hv => exact absurd hv (hpan s k r hI)
    next hv => exact ih (hs s k r hI hv)
    · exact Option.some_ne_none _

include hs hvi in
/-- A loop in which no visit panics returns, and the invariant holds then. -/
theorem run_total (hpan : ∀ s k r, I s (k :: r) → w.visit s k ≠ none) (hI : I s st) :
    ∃ s', w.run s st = some s' ∧ I s' [] := by
  induction hn : w.size s using Nat.strong_induction_on generalizing s st with
  | _ n ih =>
    subst hn
    unfold run
    split
    next hne => exact absurd hne (next_ne_none hs hpan hI)
    next hne => exact ⟨s, rfl, next_inv_done hs hI hne⟩
    next t stack1 hne =>
      exact ih _ (size_next hne) (next_inv hs hvi hI hne) rfl

end

end Worklist
