-- SUMMARY: Finite maps, and maps sorted by key: insertion, removal and loops over the entries.
import Mathlib

/-!
# Finite maps

A finite map is looked at in two ways: as a partial function from keys, and as the
list of its values. The order of the values carries no meaning, so what is said of
it is said up to permutation.
-/

/-- A finite map. -/
def FinMap (κ A : Type*) := AList fun _ : κ => A

namespace FinMap

open List Option AList

variable {κ A : Type*}

/-- The map without entries. -/
def empty : FinMap κ A := (∅ : AList fun _ : κ => A)

/-- The values, in no particular order. -/
def values (m : FinMap κ A) : List A := m.entries.map Sigma.snd

/-- The number of entries. -/
def size (m : FinMap κ A) : Nat := m.entries.length

theorem length_values (m : FinMap κ A) : m.values.length = m.size := length_map ..

variable [DecidableEq κ]

/-- The value under a key. -/
def get? (m : FinMap κ A) (k : κ) : Option A := AList.lookup k m

/-- Puts a value under a key, in place of what was there. -/
def insert (m : FinMap κ A) (k : κ) (a : A) : FinMap κ A := AList.insert k a m

/-- Takes out a key. -/
def erase (m : FinMap κ A) (k : κ) : FinMap κ A := AList.erase k m

variable {m : FinMap κ A} {k k' : κ} {a b : A}

@[simp] theorem get?_empty : (empty : FinMap κ A).get? k = none := lookup_empty k

@[simp] theorem get?_insert_self : (m.insert k a).get? k = some a := lookup_insert m

theorem get?_insert_of_ne (h : k' ≠ k) : (m.insert k a).get? k' = m.get? k' := lookup_insert_ne h

theorem get?_insert : (m.insert k a).get? k' = if k' = k then some a else m.get? k' := by
  split
  next h => rw [h, get?_insert_self]
  next h => exact get?_insert_of_ne h

@[simp] theorem insert_insert : (m.insert k a).insert k b = m.insert k b := AList.insert_insert m

@[simp] theorem get?_erase_self : (m.erase k).get? k = none := lookup_erase k m

theorem get?_erase_of_ne (h : k' ≠ k) : (m.erase k).get? k' = m.get? k' := lookup_erase_ne h

theorem get?_erase : (m.erase k).get? k' = if k' = k then none else m.get? k' := by
  split
  next h => rw [h, get?_erase_self]
  next h => exact get?_erase_of_ne h

/-- A value after an insertion is the new one, or was there. -/
theorem of_get?_insert (h : (m.insert k a).get? k' = some b) :
    k' = k ∧ a = b ∨ k' ≠ k ∧ m.get? k' = some b := by
  rw [get?_insert] at h
  split at h
  next heq => exact .inl ⟨heq, some.inj h⟩
  next hne => exact .inr ⟨hne, h⟩

theorem of_get?_erase (h : (m.erase k).get? k' = some a) : k' ≠ k ∧ m.get? k' = some a := by
  rw [get?_erase] at h
  split at h
  · cases h
  next hne => exact ⟨hne, h⟩

theorem mem_entries : (⟨k, a⟩ : Sigma fun _ => A) ∈ m.entries ↔ m.get? k = some a :=
  (mem_lookup_iff).symm

theorem mem_values : a ∈ m.values ↔ ∃ k, m.get? k = some a := by
  constructor
  · intro h
    obtain ⟨⟨k, a⟩, hk, rfl⟩ := mem_map.mp h
    exact ⟨k, mem_entries.mp hk⟩
  · rintro ⟨k, hk⟩
    exact mem_map.mpr ⟨⟨k, a⟩, mem_entries.mpr hk, rfl⟩

/-- Taking out an entry takes it from the list. -/
theorem entries_erase (h : m.get? k = some a) : m.entries.Perm (⟨k, a⟩ :: (m.erase k).entries) := by
  have hkey : k ∈ m.entries.keys := mem_keys_of_mem (mem_entries.mpr h)
  obtain ⟨b, l, l', -, hen, her⟩ := exists_of_kerase hkey
  have hb : m.get? k = some b := by
    rw [← mem_entries, hen]
    simp
  cases h.symm.trans hb
  have hr : (m.erase k).entries = l ++ l' := her
  rw [hr, hen]
  exact perm_middle

theorem values_erase (h : m.get? k = some a) : m.values.Perm (a :: (m.erase k).values) := by
  have hp := (entries_erase h).map fun e => e.2
  exact hp

/-- The value comes in front of what is left without the key. -/
theorem values_insert : (m.insert k a).values = a :: (m.erase k).values := rfl

theorem erase_of_none (h : m.get? k = none) : m.erase k = m :=
  ext (kerase_of_notMem_keys (lookup_eq_none.mp h))

theorem size_erase_le : (m.erase k).size ≤ m.size := (kerase_sublist k m.entries).length_le

theorem size_erase_add_one (h : m.get? k = some a) : (m.erase k).size + 1 = m.size := by
  have hlen := (values_erase h).length_eq
  rw [length_values, length_cons, length_values] at hlen
  exact hlen.symm

theorem size_erase_lt (h : m.get? k = some a) : (m.erase k).size < m.size :=
  Nat.lt_of_succ_le (le_of_eq (size_erase_add_one h))

theorem size_insert : (m.insert k a).size = (m.erase k).size + 1 := rfl

/-- The keys. -/
theorem mem_keys : k ∈ m.entries.map Sigma.fst ↔ (m.get? k).isSome := by
  rw [isSome_iff_exists, List.mem_map]
  constructor
  · rintro ⟨⟨k, a⟩, hmem, rfl⟩
    exact ⟨a, mem_entries.mp hmem⟩
  · rintro ⟨a, ha⟩
    exact ⟨⟨k, a⟩, mem_entries.mpr ha, rfl⟩

/-- There are at least as many entries as distinct keys with a value. -/
theorem length_le_size {l : List κ} (hnd : l.Nodup) (hl : ∀ k ∈ l, (m.get? k).isSome) :
    l.length ≤ m.size := by
  have hsub : l.Subperm (m.entries.map Sigma.fst) :=
    subperm_of_subset hnd fun k hk => mem_keys.mpr (hl k hk)
  have hlen := hsub.length_le
  rwa [length_map] at hlen

/-- A list of all keys without repetition has as many elements as the map has entries. -/
theorem length_eq_size {l : List κ} (hnd : l.Nodup) (hl : ∀ k, k ∈ l ↔ (m.get? k).isSome) :
    l.length = m.size := by
  have hp : l.Perm (m.entries.map Sigma.fst) :=
    (perm_ext_iff_of_nodup hnd m.nodupKeys).mpr fun k => (hl k).trans mem_keys.symm
  have hlen := hp.length_eq
  rwa [length_map] at hlen

/-- Maps that agree key by key, as far as `g` sees, have the same values, as far as `g` sees. -/
theorem values_map_perm {B : Type*} {m' : FinMap κ A} {g : A → B}
    (h : ∀ k, (m.get? k).map g = (m'.get? k).map g) :
    (m.values.map g).Perm (m'.values.map g) := by
  have hnd : ∀ m : FinMap κ A, (m.entries.map fun e => (e.1, g e.2)).Nodup := by
    intro m
    refine List.Nodup.of_map Prod.fst ?_
    rw [List.map_map]
    exact m.nodupKeys
  have hmem : ∀ (m : FinMap κ A) k c,
      (k, c) ∈ m.entries.map (fun e => (e.1, g e.2)) ↔ (m.get? k).map g = some c := by
    intro m k c
    simp only [List.mem_map, map_eq_some_iff]
    constructor
    · rintro ⟨⟨k', a⟩, hmem, heq⟩
      cases heq
      exact ⟨a, mem_entries.mp hmem, rfl⟩
    · rintro ⟨a, ha, rfl⟩
      exact ⟨⟨k, a⟩, mem_entries.mpr ha, rfl⟩
  have hp : (m.entries.map fun e => (e.1, g e.2)).Perm (m'.entries.map fun e => (e.1, g e.2)) := by
    refine (perm_ext_iff_of_nodup (hnd m) (hnd m')).mpr fun ⟨k, c⟩ => ?_
    rw [hmem, hmem, h]
  have hsnd := hp.map Prod.snd
  rw [List.map_map, List.map_map] at hsnd
  rw [values, values, List.map_map, List.map_map]
  exact hsnd

/-! ## Sums over the entries -/

section
omit [DecidableEq κ]

/-- The sum of `f` over all entries. -/
def total (f : κ → A → Nat) (m : FinMap κ A) : Nat := (m.entries.map fun e => f e.1 e.2).sum

theorem total_values {m : FinMap κ A} {f : A → Nat} :
    m.total (fun _ a => f a) = (m.values.map f).sum := by
  rw [total, values, List.map_map]
  rfl

end

section
variable {f g : κ → A → Nat}

theorem total_erase (h : m.get? k = some a) : m.total f = f k a + (m.erase k).total f :=
  (List.Perm.map _ (entries_erase h)).sum_nat

theorem total_insert : (m.insert k a).total f = f k a + (m.erase k).total f := rfl

/-- What the sum loses with the value that was there, it gains with the new one. -/
theorem total_insert_add :
    (m.insert k b).total f + (m.get? k).elim 0 (f k) = m.total f + f k b := by
  rw [total_insert]
  cases h : m.get? k with
  | none => rw [erase_of_none h, elim_none, Nat.add_zero, Nat.add_comm]
  | some a =>
    rw [total_erase h, elim_some]
    omega

theorem total_erase_add : (m.erase k).total f + (m.get? k).elim 0 (f k) = m.total f := by
  cases h : m.get? k with
  | none => rw [erase_of_none h, elim_none, Nat.add_zero]
  | some a => rw [total_erase h, elim_some, Nat.add_comm]

omit [DecidableEq κ] in
theorem size_eq_total : m.size = m.total fun _ _ => 1 := by simp [size, total]

omit [DecidableEq κ] in
theorem total_le_total (h : ∀ k a, f k a ≤ g k a) : m.total f ≤ m.total g := by
  unfold total
  induction m.entries with
  | nil => exact le_rfl
  | cons e es ih =>
    exact Nat.add_le_add (h e.1 e.2) ih

theorem total_congr (h : ∀ k a, m.get? k = some a → f k a = g k a) : m.total f = m.total g := by
  unfold total
  rw [map_congr_left fun e he => h e.1 e.2 (mem_entries.mp he)]

theorem total_eq_zero (h : ∀ k a, m.get? k = some a → f k a = 0) : m.total f = 0 := by
  rw [total, List.sum_eq_zero_iff_forall_eq_nat]
  intro n hn
  obtain ⟨e, he, rfl⟩ := mem_map.mp hn
  exact h e.1 e.2 (mem_entries.mp he)

theorem le_total (h : m.get? k = some a) : f k a ≤ m.total f := by
  rw [total_erase h]
  exact Nat.le_add_right ..

end

/-! ## Many keys at once -/

theorem get?_foldl_erase {ks : List κ} :
    (ks.foldl erase m).get? k = if k ∈ ks then none else m.get? k := by
  induction ks generalizing m with
  | nil => simp
  | cons k' ks ih =>
    rw [foldl_cons, ih, get?_erase]
    by_cases hk : k = k' <;> simp [hk]

theorem get?_foldl_insert {ks : List κ} :
    (ks.foldl (fun m k => m.insert k a) m).get? k = if k ∈ ks then some a else m.get? k := by
  induction ks generalizing m with
  | nil => simp
  | cons k' ks ih =>
    rw [foldl_cons, ih, get?_insert]
    by_cases hk : k = k' <;> simp [hk]

/-! ## Changing a value in place -/

/-- Changes the value under a key, if there is one. -/
def update (m : FinMap κ A) (k : κ) (f : A → A) : FinMap κ A :=
  match m.get? k with
  | none => m
  | some a => m.insert k (f a)

variable {f : A → A}

theorem get?_update : (m.update k f).get? k' = if k' = k then (m.get? k).map f else m.get? k' := by
  unfold update
  split
  next h =>
    split
    next heq => rw [heq, h, map_none]
    · rfl
  next a h => rw [get?_insert, h, map_some]

theorem size_update : (m.update k f).size = m.size := by
  unfold update
  split
  · rfl
  next a h => exact size_erase_add_one h

end FinMap

/-! ## Loops over a finite map

`traverse` goes over a finite map once. The body may fail, which ends the loop,
and says for each entry what it becomes, or that it is dropped. If the body does
not fail, the order of the entries does not matter: the result is given key by
key.
-/

namespace Assoc

variable {K V W : Type} [DecidableEq K]

/-- What the loop does at one key, with what it has collected so far. -/
def traverseKey (f : K → V → Option (Option W)) (s : AList fun _ : K => V)
    (acc : AList fun _ : K => W) (key : K) : Option (AList fun _ : K => W) :=
  match s.lookup key with
  | none => some acc
  | some value => (f key value).map fun
    | some value => acc.insert key value
    | none => acc

def traverse (f : K → V → Option (Option W)) (s : AList fun _ : K => V) :
    Option (AList fun _ : K => W) :=
  s.keys.foldlM (traverseKey f s) ∅

section
variable {f : K → V → Option (Option W)} {s : AList fun _ : K => V} {P : K → Option W → Prop}
  (hf : ∀ key value, s.lookup key = some value → ∃ result, f key value = some result ∧ P key result)
  (hn : ∀ key, s.lookup key = none → P key none)

include hf hn

private theorem traverseKey_spec {acc : AList fun _ => W} {key : K} (hnew : acc.lookup key = none) :
    ∃ acc', traverseKey f s acc key = some acc' ∧ P key (acc'.lookup key) ∧
      ∀ key', key' ≠ key → acc'.lookup key' = acc.lookup key' := by
  unfold traverseKey
  cases hlkp : s.lookup key with
  | none => exact ⟨acc, rfl, hnew ▸ hn key hlkp, fun _ _ => rfl⟩
  | some value =>
    obtain ⟨result, hres, hP⟩ := hf key value hlkp
    simp only [hres]
    cases result with
    | none => exact ⟨acc, rfl, hnew ▸ hP, fun _ _ => rfl⟩
    | some value' =>
      refine ⟨acc.insert key value', rfl, ?_, fun key' hne => AList.lookup_insert_ne hne⟩
      rw [AList.lookup_insert]
      exact hP

private theorem foldlM_traverseKey_spec {keys : List K} (hnd : keys.Nodup)
    {acc : AList fun _ => W} (hnew : ∀ key ∈ keys, acc.lookup key = none)
    (hdo : ∀ key, key ∉ keys → P key (acc.lookup key)) :
    ∃ t, keys.foldlM (traverseKey f s) acc = some t ∧ ∀ key, P key (t.lookup key) := by
  induction keys generalizing acc with
  | nil => exact ⟨acc, rfl, fun key => hdo key List.not_mem_nil⟩
  | cons key keys ih =>
    obtain ⟨hkey, hnd'⟩ := List.nodup_cons.mp hnd
    obtain ⟨acc', hstep, hP, hoth⟩ := traverseKey_spec hf hn (hnew key List.mem_cons_self)
    rw [List.foldlM_cons, hstep]
    refine ih hnd' (fun key' hmem => ?_) fun key' hmem => ?_
    · rw [hoth key' fun heq => hkey (heq ▸ hmem)]
      exact hnew key' (List.mem_cons_of_mem _ hmem)
    · by_cases heq : key' = key
      · exact heq ▸ hP
      · rw [hoth key' heq]
        exact hdo key' (by simp [heq, hmem])

/-- The rule of the loop: what the body establishes for each entry, and what holds
of the keys without one, holds of all keys of the result. -/
theorem traverse_spec : ∃ t, traverse f s = some t ∧ ∀ key, P key (t.lookup key) := by
  refine foldlM_traverseKey_spec hf hn s.keys_nodup (fun key _ => AList.lookup_empty key)
    fun key hmem => ?_
  exact hn key (AList.lookup_eq_none.mpr hmem)

end

end Assoc

/-! ## Ordered maps

An ordered map is the list of its entries, in the order in which they are gone through. The
keys increase along it, so a key has at most one entry.
-/

structure OrderedMap (κ A : Type*) [LinearOrder κ] where
  entries : List (κ × A)
  sorted : entries.Pairwise fun e e' => e.1 < e'.1

namespace OrderedMap

open List

variable {κ A : Type*} [LinearOrder κ] {m : OrderedMap κ A} {k : κ} {a b : A} {e e' : κ × A}

def empty : OrderedMap κ A := ⟨[], .nil⟩

/-- The value under a key. -/
def get? (m : OrderedMap κ A) (k : κ) : Option A := (m.entries.find? (·.1 = k)).map Prod.snd

/-- Puts an entry at its place, instead of one with the same key. -/
def insertEntry (k : κ) (a : A) : List (κ × A) → List (κ × A)
  | [] => [(k, a)]
  | e :: es =>
    if k < e.1 then (k, a) :: e :: es
    else if k = e.1 then (k, a) :: es
    else e :: insertEntry k a es

theorem mem_insertEntry {es : List (κ × A)} (hs : es.Pairwise fun e e' => e.1 < e'.1) :
    e ∈ insertEntry k a es ↔ e = (k, a) ∨ e ∈ es ∧ e.1 ≠ k := by
  induction es with
  | nil => simp [insertEntry]
  | cons f es ih =>
    obtain ⟨hfst, hes⟩ := pairwise_cons.mp hs
    rw [insertEntry]
    split
    next hlt =>
      have hne : ∀ e ∈ f :: es, e.1 ≠ k := by
        refine forall_mem_cons.mpr ⟨hlt.ne', fun e he => ?_⟩
        exact (hlt.trans (hfst e he)).ne'
      rw [mem_cons, and_iff_left_of_imp (hne e)]
    · split
      next heq =>
        subst heq
        have hne : ∀ e ∈ es, e.1 ≠ f.1 := fun e he => (hfst e he).ne'
        rw [mem_cons, mem_cons]
        refine or_congr_right ⟨fun he => ⟨.inr he, hne e he⟩, ?_⟩
        rintro ⟨rfl | he, hne⟩
        · exact absurd rfl hne
        · exact he
      next hne =>
        rw [mem_cons, ih hes, mem_cons]
        constructor
        · rintro (rfl | rfl | ⟨he, hek⟩)
          · exact .inr ⟨.inl rfl, symm hne⟩
          · exact .inl rfl
          · exact .inr ⟨.inr he, hek⟩
        · rintro (rfl | ⟨rfl | he, hek⟩)
          · exact .inr (.inl rfl)
          · exact .inl rfl
          · exact .inr (.inr ⟨he, hek⟩)

theorem sorted_insertEntry {es : List (κ × A)} (hs : es.Pairwise fun e e' => e.1 < e'.1) :
    (insertEntry k a es).Pairwise fun e e' => e.1 < e'.1 := by
  induction es with
  | nil => exact pairwise_singleton _ _
  | cons first es ih =>
    obtain ⟨hfst, hes⟩ := pairwise_cons.mp hs
    rw [insertEntry]
    split
    next hlt =>
      refine pairwise_cons.mpr ⟨forall_mem_cons.mpr ⟨hlt, fun e he => ?_⟩, hs⟩
      exact hlt.trans (hfst e he)
    rename_i hge
    split
    next heq => exact pairwise_cons.mpr ⟨fun e he => heq ▸ hfst e he, hes⟩
    next hne =>
      refine pairwise_cons.mpr ⟨fun e he => ?_, ih hes⟩
      rcases (mem_insertEntry hes).mp he with rfl | ⟨he, -⟩
      · exact lt_of_le_of_ne (not_lt.mp hge) (symm hne)
      · exact hfst e he

def insert (m : OrderedMap κ A) (k : κ) (a : A) : OrderedMap κ A :=
  ⟨insertEntry k a m.entries, sorted_insertEntry m.sorted⟩

def erase (m : OrderedMap κ A) (k : κ) : OrderedMap κ A :=
  ⟨m.entries.filter (·.1 ≠ k), m.sorted.filter _⟩

/-- Other values under the same keys. -/
def withValues (m : OrderedMap κ A) (es : List (κ × A))
    (h : es.map Prod.fst = m.entries.map Prod.fst) : OrderedMap κ A :=
  ⟨es, pairwise_map.mp (h ▸ pairwise_map.mpr m.sorted)⟩

theorem mem_insert : e ∈ (m.insert k a).entries ↔ e = (k, a) ∨ e ∈ m.entries ∧ e.1 ≠ k :=
  mem_insertEntry m.sorted

theorem mem_erase : e ∈ (m.erase k).entries ↔ e ∈ m.entries ∧ e.1 ≠ k := by
  rw [erase, mem_filter, decide_eq_true_iff]

theorem mem_foldl_erase {ks : List κ} :
    e ∈ (ks.foldl erase m).entries ↔ e ∈ m.entries ∧ e.1 ∉ ks := by
  induction ks generalizing m with
  | nil => simp
  | cons k ks ih => rw [foldl_cons, ih, mem_erase, mem_cons, not_or, and_assoc]

/-- A key has one entry. -/
theorem eq_of_key_eq (he : e ∈ m.entries) (he' : e' ∈ m.entries) (hkey : e.1 = e'.1) : e = e' := by
  by_contra hne
  have hlt : e.1 < e'.1 ∨ e'.1 < e.1 := by
    have hor : m.entries.Pairwise fun a b => a.1 < b.1 ∨ b.1 < a.1 := m.sorted.imp .inl
    have : Std.Symm fun a b : κ × A => a.1 < b.1 ∨ b.1 < a.1 := ⟨fun _ _ => Or.symm⟩
    exact hor.forall he he' hne
  rw [hkey] at hlt
  exact hlt.elim (lt_irrefl _) (lt_irrefl _)

theorem get?_eq_some_iff : m.get? k = some a ↔ (k, a) ∈ m.entries := by
  rw [get?, Option.map_eq_some_iff]
  constructor
  · rintro ⟨e, hf, rfl⟩
    have hkey : e.1 = k := by simpa using find?_some hf
    have hmem := mem_of_find?_eq_some hf
    rwa [← hkey]
  · intro hmem
    have hfnd : (m.entries.find? (·.1 = k)).isSome := find?_isSome.mpr ⟨(k, a), hmem, by simp⟩
    obtain ⟨e, hf⟩ := Option.isSome_iff_exists.mp hfnd
    have hkey : e.1 = k := by simpa using find?_some hf
    have heq := eq_of_key_eq (mem_of_find?_eq_some hf) hmem hkey
    exact ⟨e, hf, congrArg Prod.snd heq⟩

end OrderedMap
