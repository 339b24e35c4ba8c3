-- SUMMARY: Orders in which whatever is above one element forms a chain.
import Mathlib

/-!
# Tree orders

`below a b` says that `b` is strictly below `a`. In a tree order, what is above one
element forms a chain. Elements are apart if they are different and none of them
is below the other. What is below elements that are apart is apart as well.
-/

structure TreeOrder {A : Type*} (below : A → A → Prop) : Prop where
  irrefl : ∀ a, ¬ below a a
  trans : ∀ {a b c}, below a b → below b c → below a c
  chain : ∀ {a b c}, below a c → below b c → a = b ∨ below a b ∨ below b a

namespace TreeOrder

variable {A : Type*} {below : A → A → Prop} {a b c d : A}

/-- The same element, or one below it. -/
def AtOrBelow (below : A → A → Prop) (a b : A) : Prop := b = a ∨ below a b

/-- Different elements, none of which is below the other. -/
def Apart (below : A → A → Prop) (a b : A) : Prop := a ≠ b ∧ ¬ below a b ∧ ¬ below b a

theorem Apart.symm (h : Apart below a b) : Apart below b a := ⟨h.1.symm, h.2.2, h.2.1⟩

theorem AtOrBelow.refl (a : A) : AtOrBelow below a a := .inl rfl

section
variable (ht : TreeOrder below)

include ht

theorem below_of_atOrBelow_below (h : AtOrBelow below a b) (h' : below b c) : below a c := by
  rcases h with rfl | h
  · exact h'
  · exact ht.trans h h'

theorem below_of_below_atOrBelow (h : below a b) (h' : AtOrBelow below b c) : below a c := by
  rcases h' with rfl | h'
  · exact h
  · exact ht.trans h h'

theorem atOrBelow_trans (h : AtOrBelow below a b) (h' : AtOrBelow below b c) :
    AtOrBelow below a c := by
  rcases h' with rfl | h'
  · exact h
  · exact .inr (ht.below_of_atOrBelow_below h h')

/-- Two elements above a third one are above one another. -/
theorem atOrBelow_total (h : AtOrBelow below a c) (h' : AtOrBelow below b c) :
    AtOrBelow below a b ∨ AtOrBelow below b a := by
  rcases h with rfl | h
  · exact .inr h'
  rcases h' with rfl | h'
  · exact .inl (.inr h)
  · rcases ht.chain h h' with rfl | h | h
    · exact .inl (.refl _)
    · exact .inl (.inr h)
    · exact .inr (.inr h)

/-- Two elements with something at or below both of them are not apart. -/
theorem not_apart (h : AtOrBelow below a c) (h' : AtOrBelow below b c) : ¬ Apart below a b := by
  rintro ⟨hne, hab, hba⟩
  rcases ht.atOrBelow_total h h' with (rfl | h) | (rfl | h)
  · exact hne rfl
  · exact hab h
  · exact hne rfl
  · exact hba h

/-- What is at or below elements that are apart is apart. -/
theorem Apart.mono (h : Apart below a b) (hc : AtOrBelow below a c) (hd : AtOrBelow below b d) :
    Apart below c d := by
  refine ⟨?_, ?_, ?_⟩
  · rintro rfl
    exact ht.not_apart hc hd h
  · intro hcd
    exact ht.not_apart (.inr (ht.below_of_atOrBelow_below hc hcd)) hd h
  · intro hdc
    exact ht.not_apart hc (.inr (ht.below_of_atOrBelow_below hd hdc)) h

end

/-! ## Lists of things that are apart -/

section
variable {B : Type*} {f : B → A} {l l' : List B} {x y : B}

instance : Std.Symm fun x y : B => Apart below (f x) (f y) := ⟨fun _ _ h => h.symm⟩

/-- Two members that are not apart are the same. -/
theorem eq_of_not_apart (h : l.Pairwise fun x y => Apart below (f x) (f y)) (hx : x ∈ l)
    (hy : y ∈ l) (hnot : ¬ Apart below (f x) (f y)) : x = y := by
  by_contra hne
  exact hnot (h.forall hx hy hne)

/-- One member is replaced by things below it. -/
theorem pairwise_apart_replace (ht : TreeOrder below)
    (h : (x :: l).Pairwise fun x y => Apart below (f x) (f y))
    (h' : l'.Pairwise fun x y => Apart below (f x) (f y)) (hbel : ∀ y ∈ l', below (f x) (f y)) :
    (l ++ l').Pairwise fun x y => Apart below (f x) (f y) := by
  obtain ⟨hx, hl⟩ := List.pairwise_cons.mp h
  refine List.pairwise_append.mpr ⟨hl, h', ?_⟩
  intro z hz y hy
  exact (hx z hz).symm.mono ht (.refl _) (.inr (hbel y hy))

end

end TreeOrder
