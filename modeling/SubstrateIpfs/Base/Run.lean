-- SUMMARY: Runs of a state machine, and the rules that carry a property along every state of a run.
import Mathlib

/-!
# Runs

A machine is a step function `step : S → ε → S`, a run is a list of labels. Two readings of a run
are used throughout:

* `Run.Always P` says that `P` holds in every state the run goes through, the first one included;
* `Run.Each G` says that every label of the run meets `G` in the state in which it is executed.
-/

namespace Run

open List

variable {S ε : Type*} {step : S → ε → S} {s : S} {P I : S → Prop} {es : List ε} {G : S → ε → Prop}

/-- The state a run ends in. -/
def exec (step : S → ε → S) (s : S) (es : List ε) : S := es.foldl step s

@[simp] theorem exec_nil (s : S) : exec step s [] = s := rfl

@[simp] theorem exec_cons (s : S) (e : ε) (es : List ε) :
    exec step s (e :: es) = exec step (step s e) es := rfl

@[simp] theorem exec_append (s : S) (es fs : List ε) :
    exec step s (es ++ fs) = exec step (exec step s es) fs := foldl_append

/-- `P` holds in every state of the run. -/
def Always (step : S → ε → S) (P : S → Prop) (s : S) (es : List ε) : Prop :=
  ∀ pre, pre <+: es → P (exec step s pre)

/-- Every step of the run meets `G` in the state it starts from. -/
def Each (step : S → ε → S) (G : S → ε → Prop) (s : S) (es : List ε) : Prop :=
  ∀ pre e, pre ++ [e] <+: es → G (exec step s pre) e

/-! ## Unfolding along the run -/

@[simp] theorem always_nil : Always step P s [] ↔ P s := by
  simp [Always]

theorem always_cons {e : ε} : Always step P s (e :: es) ↔ P s ∧ Always step P (step s e) es := by
  constructor
  · intro h
    refine ⟨h [] nil_prefix, fun pre hpre => ?_⟩
    exact h (e :: pre) (cons_prefix_cons.mpr ⟨rfl, hpre⟩)
  rintro ⟨hs, hr⟩ pre hpre
  cases pre with
  | nil => exact hs
  | cons e' pre =>
    obtain ⟨rfl, hrec⟩ := cons_prefix_cons.mp hpre
    exact hr pre hrec

@[simp] theorem each_nil : Each step G s [] := by
  intro pre e h
  simp at h

theorem each_cons {e : ε} : Each step G s (e :: es) ↔ G s e ∧ Each step G (step s e) es := by
  constructor
  · intro h
    refine ⟨h [] e (by simp), fun pre e' hpre => ?_⟩
    exact h (e :: pre) e' (cons_prefix_cons.mpr ⟨rfl, hpre⟩)
  rintro ⟨hs, hr⟩ pre e' hpre
  cases pre with
  | nil =>
    obtain ⟨rfl, -⟩ := cons_prefix_cons.mp hpre
    exact hs
  | cons e'' pre =>
    obtain ⟨rfl, hrec⟩ := cons_prefix_cons.mp hpre
    exact hr pre e' hrec

theorem Always.first (h : Always step P s es) : P s := h [] nil_prefix

theorem Always.last (h : Always step P s es) : P (exec step s es) := h es prefix_rfl

theorem Always.each_next (h : Always step P s es) : Each step (fun s e => P (step s e)) s es := by
  intro pre e hpre
  have hP := h _ hpre
  rwa [exec_append] at hP

theorem each_of_mem {G : ε → Prop} (h : ∀ e ∈ es, G e) : Each step (fun _ e => G e) s es :=
  fun pre e hpre => h e (hpre.subset (by simp))

theorem Each.and {G' : S → ε → Prop} (h : Each step G s es) (h' : Each step G' s es) :
    Each step (fun s e => G s e ∧ G' s e) s es :=
  fun pre e hpre => ⟨h pre e hpre, h' pre e hpre⟩

/-- A guard that can be decided is checked step by step. -/
instance decidableEach [∀ s e, Decidable (G s e)] :
    (s : S) → (es : List ε) → Decidable (Each step G s es)
  | _, [] => .isTrue each_nil
  | s, e :: es =>
    have := decidableEach (step s e) es
    decidable_of_iff (G s e ∧ Each step G (step s e) es) each_cons.symm

/-! ## A machine seen through another

`view` commutes with the steps. -/

section
variable {T : Type*} {step' : T → ε → T} {view : S → T}

theorem exec_view (hv : ∀ s e, view (step s e) = step' (view s) e) (s : S) (es : List ε) :
    view (exec step s es) = exec step' (view s) es := by
  induction es generalizing s with
  | nil => rfl
  | cons e es ih => rw [exec_cons, exec_cons, ih, hv]

theorem always_view (hv : ∀ s e, view (step s e) = step' (view s) e) {P : T → Prop} :
    Always step (fun s => P (view s)) s es ↔ Always step' P (view s) es := by
  unfold Always
  simp only [exec_view hv]

end

/-! ## Rules -/

/-- A guard that preserves the invariant on every step preserves it along the run. -/
theorem Each.always (hs : ∀ s e, I s → G s e → I (step s e)) (hI : I s) (hG : Each step G s es) :
    Always step I s es := by
  induction es generalizing s with
  | nil => exact always_nil.mpr hI
  | cons e es ih =>
    obtain ⟨hGe, hGes⟩ := each_cons.mp hG
    exact always_cons.mpr ⟨hI, ih (hs s e hI hGe) hGes⟩

/-- The same for calls that may not return: the run stops at the first one that does not. -/
theorem Each.always_some {f : S → ε → Option S} {G : Option S → ε → Prop}
    (hs : ∀ s e s', I s → G (some s) e → f s e = some s' → I s') (hI : I s)
    (hG : Each (fun o e => o.bind (f · e)) G (some s) es) :
    Always (fun o e => o.bind (f · e)) (fun o => ∀ s, o = some s → I s) (some s) es := by
  refine always (fun o e hI hG s' hs' => ?_) (fun s' hs' => ?_) hG
  · obtain ⟨s, rfl, hc⟩ := Option.bind_eq_some_iff.mp hs'
    exact hs s e s' (hI s rfl) hG hc
  · cases hs'
    exact hI

/-- A guard that is exact for `P` on every step is exact for `P` along the run.
`E` is what is assumed of the steps of the run. The invariant `I` may be used at
each step; it is kept as long as the guard was met. -/
theorem always_iff_each {E : S → ε → Prop} (hinv : ∀ s e, I s → P s → E s e → G s e → I (step s e))
    (hex : ∀ s e, I s → P s → E s e → (P (step s e) ↔ G s e)) (hI : I s) (hP : P s)
    (hE : Each step E s es) : Always step P s es ↔ Each step G s es := by
  induction es generalizing s with
  | nil => simp [hP]
  | cons e es ih =>
    obtain ⟨hEe, hEes⟩ := each_cons.mp hE
    rw [always_cons, each_cons]
    constructor
    · rintro ⟨-, hr⟩
      have hG : G s e := (hex s e hI hP hEe).mp hr.first
      exact ⟨hG, (ih (hinv s e hI hP hEe hG) hr.first hEes).mp hr⟩
    · rintro ⟨hG, hr⟩
      have hP' : P (step s e) := (hex s e hI hP hEe).mpr hG
      exact ⟨hP, (ih (hinv s e hI hP hEe hG) hP' hEes).mpr hr⟩

/-- A guard that is exact for what a step reaches and for what it does, along the run. -/
theorem always_and_each_iff {Q : S → ε → Prop} (hst : ∀ s, I s → P s)
    (hinv : ∀ s e, I s → G s e → I (step s e))
    (hex : ∀ s e, I s → (P (step s e) ∧ Q s e ↔ G s e)) (hI : I s) :
    Always step P s es ∧ Each step Q s es ↔ Each step G s es := by
  induction es generalizing s with
  | nil => simp [hst s hI]
  | cons e es ih =>
    rw [always_cons, each_cons, each_cons]
    constructor
    · rintro ⟨⟨-, hP⟩, hQ, hr⟩
      have hG : G s e := (hex s e hI).mp ⟨hP.first, hQ⟩
      exact ⟨hG, (ih (hinv s e hI hG)).mp ⟨hP, hr⟩⟩
    · rintro ⟨hG, hr⟩
      obtain ⟨hP, hQr⟩ := (ih (hinv s e hI hG)).mpr hr
      exact ⟨⟨hst s hI, hP⟩, ((hex s e hI).mpr hG).2, hQr⟩

/-- What every step keeps, every state reached by the relation keeps. -/
theorem invariant_of_reflTransGen {r : S → S → Prop} (hs : ∀ s t, I s → r s t → I t) {t : S}
    (hI : I s) (h : Relation.ReflTransGen r s t) : I t := by
  induction h with
  | refl => exact hI
  | tail _ hr ih => exact hs _ _ ih hr

end Run
