-- SUMMARY: The SCALE codec: words, compact lengths, vectors, arrays, products; decoding laws.
import Mathlib

/-!
# SCALE

A value is encoded as a byte string without any tag, and decoded from the front of a byte string:
what follows is left to the caller. `Scale.decode_eq_some` states both directions at once. A byte
string decodes to a value exactly when it starts with the encoding of that value.
-/

/-- A type with a SCALE encoding. `decode` reads one value from the front of the
input and returns what is left of it. -/
class Scale (A : Type) where
  encode : A → List UInt8
  decode : List UInt8 → Option (A × List UInt8)
  decode_eq_some : ∀ {bs : List UInt8} {a : A} {rest : List UInt8},
    decode bs = some (a, rest) ↔ bs = encode a ++ rest

namespace Scale

open List Option

variable {A B : Type} [Scale A] [Scale B] {bs rest : List UInt8} {n : Nat}

@[simp] theorem decode_encode_append (a : A) (r : List UInt8) :
    decode (encode a ++ r) = some (a, r) :=
  decode_eq_some.mpr rfl

@[simp] theorem decode_encode (a : A) : decode (encode a) = some (a, []) := by
  simpa using decode_encode_append a []

theorem encode_injective : Function.Injective (encode : A → List UInt8) := by
  intro a b h
  have ha := decode_encode a
  rw [h] at ha
  simpa using ha.symm

@[simp] theorem encode_inj {a b : A} : encode a = encode b ↔ a = b := encode_injective.eq_iff

/-! ## Little-endian words -/

/-- The `w` low bytes of `n`, least significant first. -/
def leBytes : Nat → Nat → List UInt8
  | 0, _ => []
  | w + 1, n => UInt8.ofNat n :: leBytes w (n / 256)

/-- The number whose little-endian bytes are given. -/
def ofLeBytes : List UInt8 → Nat
  | [] => 0
  | b :: bs => b.toNat + 256 * ofLeBytes bs

/-- Read a word of `w` bytes. -/
def readLe (w : Nat) (bs : List UInt8) : Option (Nat × List UInt8) :=
  if w ≤ bs.length then some (ofLeBytes (bs.take w), bs.drop w) else none

@[simp] theorem length_leBytes (w n : Nat) : (leBytes w n).length = w := by
  induction w generalizing n with
  | zero => rfl
  | succ w ih => simp [leBytes, ih]

theorem ofLeBytes_leBytes (w n : Nat) : ofLeBytes (leBytes w n) = n % 256 ^ w := by
  induction w generalizing n with
  | zero => simp [leBytes, ofLeBytes, Nat.mod_one]
  | succ w ih =>
    simp only [leBytes, ofLeBytes, ih, pow_succ']
    exact (Nat.mod_mul).symm

theorem leBytes_ofLeBytes (bs : List UInt8) : leBytes bs.length (ofLeBytes bs) = bs := by
  induction bs with
  | nil => rfl
  | cons b bs ih =>
    have hb := b.toNat_lt
    have hdiv : (b.toNat + 256 * ofLeBytes bs) / 256 = ofLeBytes bs := by omega
    have hlow : UInt8.ofNat (b.toNat + 256 * ofLeBytes bs) = b := by
      apply UInt8.toNat_inj.mp
      simp only [UInt8.toNat_ofNat']
      omega
    simp only [length_cons, leBytes, ofLeBytes, hdiv, ih, hlow]

theorem ofLeBytes_lt (bs : List UInt8) : ofLeBytes bs < 256 ^ bs.length := by
  induction bs with
  | nil => simp [ofLeBytes]
  | cons b bs ih =>
    have hb := b.toNat_lt
    simp only [ofLeBytes, length_cons]
    omega

theorem readLe_eq_some {w : Nat} :
    readLe w bs = some (n, rest) ↔ n < 256 ^ w ∧ bs = leBytes w n ++ rest := by
  unfold readLe
  constructor
  · intro h
    split at h
    · rename_i hw
      have hlen : (bs.take w).length = w := by simp [hw]
      obtain ⟨rfl, rfl⟩ := by simpa using h
      refine ⟨by simpa [hlen] using ofLeBytes_lt (bs.take w), ?_⟩
      have hb := leBytes_ofLeBytes (bs.take w)
      rw [hlen] at hb
      rw [hb, take_append_drop]
    · simp at h
  · rintro ⟨hn, rfl⟩
    simp [take_left', ofLeBytes_leBytes, Nat.mod_eq_of_lt hn]

instance : Scale UInt8 where
  encode b := [b]
  decode
    | [] => none
    | b :: rest => some (b, rest)
  decode_eq_some {bs a rest} := by
    cases bs with
    | nil | cons => simp

instance : Scale UInt32 where
  encode n := leBytes 4 n.toNat
  decode bs := (readLe 4 bs).map fun r => (UInt32.ofNat r.1, r.2)
  decode_eq_some {bs a rest} := by
    have ha := a.toNat_lt
    simp only [map_eq_some_iff, Prod.mk.injEq, Prod.exists]
    constructor
    · rintro ⟨n, rest', hread, hn, rfl⟩
      obtain ⟨hlt, rfl⟩ := readLe_eq_some.mp hread
      rw [← hn, UInt32.toNat_ofNat_of_lt' (by simpa using hlt)]
    · rintro rfl
      exact ⟨a.toNat, rest, readLe_eq_some.mpr ⟨by simpa using ha, rfl⟩, by simp, rfl⟩

instance : Scale UInt64 where
  encode n := leBytes 8 n.toNat
  decode bs := (readLe 8 bs).map fun r => (UInt64.ofNat r.1, r.2)
  decode_eq_some {bs a rest} := by
    have ha := a.toNat_lt
    simp only [map_eq_some_iff, Prod.mk.injEq, Prod.exists]
    constructor
    · rintro ⟨n, rest', hread, hn, rfl⟩
      obtain ⟨hlt, rfl⟩ := readLe_eq_some.mp hread
      rw [← hn, UInt64.toNat_ofNat_of_lt' (by simpa using hlt)]
    · rintro rfl
      exact ⟨a.toNat, rest, readLe_eq_some.mpr ⟨by simpa using ha, rfl⟩, by simp, rfl⟩

@[simp] theorem length_encode_u32 (n : UInt32) : (encode n).length = 4 := length_leBytes 4 n.toNat

/-! ## Compact lengths

A length below `2 ^ 32` takes one, two, four or five bytes. The two low bits of
the first byte say which; a longer form than necessary is rejected. -/

def encodeCompact (n : Nat) : List UInt8 :=
  if n < 2 ^ 6 then leBytes 1 (4 * n)
  else if n < 2 ^ 14 then leBytes 2 (4 * n + 1)
  else if n < 2 ^ 30 then leBytes 4 (4 * n + 2)
  else 3 :: leBytes 4 n

/-- Keep a decoded length only if it lies in `[lo, hi)`. -/
def inRange (lo hi : Nat) (r : Nat × List UInt8) : Option (Nat × List UInt8) :=
  if lo ≤ r.1 ∧ r.1 < hi then some r else none

def decodeCompact (bs : List UInt8) : Option (Nat × List UInt8) :=
  match bs with
  | [] => none
  | p :: rest =>
    if p.toNat % 4 = 0 then some (p.toNat / 4, rest)
    else if p.toNat % 4 = 1 then
      (readLe 2 bs).bind fun r => inRange (2 ^ 6) (2 ^ 14) (r.1 / 4, r.2)
    else if p.toNat % 4 = 2 then
      (readLe 4 bs).bind fun r => inRange (2 ^ 14) (2 ^ 30) (r.1 / 4, r.2)
    else if p.toNat / 4 = 0 then
      (readLe 4 rest).bind (inRange (2 ^ 30) (2 ^ 32))
    else none

theorem inRange_eq_some {lo hi : Nat} {r r' : Nat × List UInt8} :
    inRange lo hi r = some r' ↔ lo ≤ r.1 ∧ r.1 < hi ∧ r = r' := by
  unfold inRange
  split <;> simp_all

/-- One mode of the compact form: a word of `w` bytes whose two low bits are the
mode. -/
private theorem compact_mode (w mode lo hi : Nat) (hmode : mode < 4) (hw : 4 * hi ≤ 256 ^ w)
    (hbs : ofLeBytes (bs.take w) % 4 = mode) :
    ((readLe w bs).bind fun r => inRange lo hi (r.1 / 4, r.2)) = some (n, rest) ↔
      lo ≤ n ∧ n < hi ∧ bs = leBytes w (4 * n + mode) ++ rest := by
  simp only [bind_eq_some_iff, inRange_eq_some, Prod.exists, Prod.mk.injEq]
  constructor
  · rintro ⟨v, rest', hr, hlo, hhi, rfl, rfl⟩
    obtain ⟨hv, rfl⟩ := readLe_eq_some.mp hr
    have hlow : v % 4 = mode := by
      rw [take_left' (length_leBytes w v), ofLeBytes_leBytes, Nat.mod_eq_of_lt hv] at hbs
      exact hbs
    refine ⟨hlo, hhi, ?_⟩
    rw [show 4 * (v / 4) + mode = v by omega]
  · rintro ⟨hlo, hhi, rfl⟩
    refine ⟨4 * n + mode, rest, readLe_eq_some.mpr ⟨by omega, rfl⟩, ?_⟩
    rw [show (4 * n + mode) / 4 = n by omega]
    exact ⟨hlo, hhi, rfl, rfl⟩

private theorem ofLeBytes_take_mod_four (p : UInt8) (tl : List UInt8) (w : Nat) :
    ofLeBytes ((p :: tl).take (w + 1)) % 4 = p.toNat % 4 := by
  simp only [take_succ_cons, ofLeBytes]
  omega

/-- The four forms of a compact length. -/
private theorem encodeCompact_cases (n : Nat) :
    (n < 2 ^ 6 ∧ encodeCompact n = leBytes 1 (4 * n)) ∨
    (2 ^ 6 ≤ n ∧ n < 2 ^ 14 ∧ encodeCompact n = leBytes 2 (4 * n + 1)) ∨
    (2 ^ 14 ≤ n ∧ n < 2 ^ 30 ∧ encodeCompact n = leBytes 4 (4 * n + 2)) ∨
    (2 ^ 30 ≤ n ∧ encodeCompact n = 3 :: leBytes 4 n) := by
  unfold encodeCompact
  split
  · exact .inl ⟨‹_›, rfl⟩
  split
  · exact .inr (.inl ⟨by omega, ‹_›, rfl⟩)
  · split
    · exact .inr (.inr (.inl ⟨by omega, ‹_›, rfl⟩))
    · exact .inr (.inr (.inr ⟨by omega, rfl⟩))

theorem decodeCompact_encodeCompact (hn : n < 2 ^ 32) (rest : List UInt8) :
    decodeCompact (encodeCompact n ++ rest) = some (n, rest) := by
  rcases encodeCompact_cases n with ⟨h, henc⟩ | ⟨hlo, hhi, henc⟩ | ⟨hlo, hhi, henc⟩ | ⟨hlo, henc⟩
  · simp only [henc, leBytes, cons_append, nil_append, decodeCompact, UInt8.toNat_ofNat']
    rw [if_pos (by omega), show 4 * n % 2 ^ 8 / 4 = n by omega]
  · have hlow : ofLeBytes ((leBytes 2 (4 * n + 1) ++ rest).take 2) % 4 = 1 := by
      rw [take_left' (length_leBytes 2 _), ofLeBytes_leBytes]
      omega
    have hr := (compact_mode 2 1 (2 ^ 6) (2 ^ 14) (by omega) (by norm_num) hlow).mpr ⟨hlo, hhi, rfl⟩
    simp only [henc, leBytes, cons_append, decodeCompact, UInt8.toNat_ofNat'] at hr ⊢
    rw [if_neg (by omega), if_pos (by omega)]
    exact hr
  · have hlow : ofLeBytes ((leBytes 4 (4 * n + 2) ++ rest).take 4) % 4 = 2 := by
      rw [take_left' (length_leBytes 4 _), ofLeBytes_leBytes]
      omega
    have hr := (compact_mode 4 2 (2 ^ 14) (2 ^ 30) (by omega) (by norm_num) hlow).mpr
      ⟨hlo, hhi, rfl⟩
    simp only [henc, leBytes, cons_append, decodeCompact, UInt8.toNat_ofNat'] at hr ⊢
    rw [if_neg (by omega), if_neg (by omega), if_pos (by omega)]
    exact hr
  · have hr : readLe 4 (leBytes 4 n ++ rest) = some (n, rest) := readLe_eq_some.mpr ⟨by omega, rfl⟩
    have hrng : inRange (2 ^ 30) (2 ^ 32) (n, rest) = some (n, rest) :=
      inRange_eq_some.mpr ⟨hlo, hn, rfl⟩
    simpa [henc, decodeCompact, hr] using hrng

theorem decodeCompact_eq_some :
    decodeCompact bs = some (n, rest) ↔ n < 2 ^ 32 ∧ bs = encodeCompact n ++ rest := by
  refine ⟨fun h => ?_, fun ⟨hn, hbs⟩ => hbs ▸ decodeCompact_encodeCompact hn rest⟩
  cases bs with
  | nil => simp [decodeCompact] at h
  | cons p tl =>
    have hp := p.toNat_lt
    have hmo : p.toNat % 4 = 0 ∨ p.toNat % 4 = 1 ∨ p.toNat % 4 = 2 ∨ p.toNat % 4 = 3 := by omega
    rcases hmo with hm | hm | hm | hm
    · -- the length is what the first byte holds above its two low bits
      simp only [decodeCompact, hm] at h
      obtain ⟨rfl, rfl⟩ := h
      have hb : 4 * (p.toNat / 4) = p.toNat := by omega
      refine ⟨by omega, ?_⟩
      rw [encodeCompact, if_pos (by omega), hb]
      simp [leBytes]
    · simp only [decodeCompact, hm] at h
      obtain ⟨hlo, hhi, hbs⟩ := (compact_mode 2 1 (2 ^ 6) (2 ^ 14) (by omega) (by norm_num)
        (by rw [ofLeBytes_take_mod_four, hm])).mp h
      refine ⟨by omega, ?_⟩
      rw [hbs, encodeCompact, if_neg (by omega), if_pos hhi]
    · simp only [decodeCompact, hm] at h
      obtain ⟨hlo, hhi, hbs⟩ := (compact_mode 4 2 (2 ^ 14) (2 ^ 30) (by omega) (by norm_num)
        (by rw [ofLeBytes_take_mod_four, hm])).mp h
      refine ⟨by omega, ?_⟩
      rw [hbs, encodeCompact, if_neg (by omega), if_neg (by omega), if_pos hhi]
    · -- five-byte mode: the first byte carries no length bits
      by_cases hz : p.toNat / 4 = 0
      · simp only [decodeCompact, hm, hz,
          Nat.reduceEqDiff, if_false, if_true, bind_eq_some_iff, inRange_eq_some] at h
        obtain ⟨r, hr, hlo, hhi, rfl⟩ := h
        obtain ⟨-, rfl⟩ := readLe_eq_some.mp hr
        have hp3 : p = 3 := UInt8.toNat_inj.mp (by simp; omega)
        refine ⟨hhi, ?_⟩
        rw [encodeCompact, if_neg (by omega), if_neg (by omega), if_neg (by omega), hp3]
        rfl
      · simp [decodeCompact, hm, hz] at h

/-! ## Products, arrays and vectors -/

instance : Scale (A × B) where
  encode p := encode p.1 ++ encode p.2
  decode bs := (decode bs).bind fun (a, rest) => (decode rest).map fun (b, rest) => ((a, b), rest)
  decode_eq_some {bs p rest} := by
    obtain ⟨a, b⟩ := p
    simp only [bind_eq_some_iff, map_eq_some_iff, Prod.exists, Prod.mk.injEq,
      decode_eq_some, append_assoc]
    constructor
    · rintro ⟨a', mid, rfl, b', rest', rfl, ⟨rfl, rfl⟩, rfl⟩
      rfl
    · rintro rfl
      exact ⟨a, _, rfl, b, rest, rfl, ⟨rfl, rfl⟩, rfl⟩

/-- A record is encoded as the tuple of its fields. -/
abbrev ofEquiv {C : Type} (e : C ≃ A) : Scale C where
  encode c := encode (e c)
  decode bs := (decode bs).map fun (a, rest) => (e.symm a, rest)
  decode_eq_some {bs c rest} := by
    simp only [map_eq_some_iff, Prod.exists, Prod.mk.injEq, decode_eq_some]
    constructor
    · rintro ⟨a, rest', rfl, rfl, rfl⟩
      simp
    · rintro rfl
      exact ⟨e c, rest, rfl, by simp, rfl⟩

/-- A fixed-size array of bytes is its contents. -/
instance {n : Nat} : Scale (List.Vector UInt8 n) where
  encode v := v.toList
  decode bs :=
    if h : n ≤ bs.length then some (⟨bs.take n, by simp [h]⟩, bs.drop n) else none
  decode_eq_some {bs v rest} := by
    have hv := v.toList_length
    constructor
    · intro h
      split at h
      · obtain ⟨rfl, rfl⟩ := by simpa using h
        simp [List.Vector.toList]
      · simp at h
    · rintro rfl
      rw [dif_pos (by simp [hv])]
      have htake : (⟨(v.toList ++ rest).take n, by simp [hv]⟩ : List.Vector UInt8 n) = v :=
        Subtype.ext (take_left' hv)
      rw [htake, drop_left' hv]

/-- Read `n` values. -/
def decodeMany (A : Type) [Scale A] : Nat → List UInt8 → Option (List A × List UInt8)
  | 0, bs => some ([], bs)
  | n + 1, bs =>
    (decode bs).bind fun (a, rest) =>
      (decodeMany A n rest).map fun (as, rest) => (a :: as, rest)

theorem decodeMany_eq_some {as : List A} :
    decodeMany A n bs = some (as, rest) ↔ as.length = n ∧ bs = as.flatMap encode ++ rest := by
  induction n generalizing bs as rest with
  | zero =>
    cases as with
    | nil | cons => simp [decodeMany]
  | succ n ih =>
    simp only [decodeMany, bind_eq_some_iff, map_eq_some_iff, Prod.exists,
      Prod.mk.injEq, decode_eq_some, ih]
    constructor
    · rintro ⟨a, mid, rfl, as', rest', ⟨rfl, rfl⟩, rfl, rfl⟩
      simp
    rintro ⟨hlen, rfl⟩
    cases as with
    | nil => simp at hlen
    | cons a as =>
      exact ⟨a, as.flatMap encode ++ rest, by simp, as, rest, ⟨by simpa using hlen, rfl⟩, rfl, rfl⟩

/-- A vector of the 32-bit runtime: its length fits in a `u32`. -/
abbrev Vec (A : Type) : Type := { l : List A // l.length < 2 ^ 32 }

abbrev Vec.empty {A : Type} : Vec A := ⟨[], by simp⟩

instance : Scale (Vec A) where
  encode v := encodeCompact v.1.length ++ v.1.flatMap encode
  decode bs :=
    (decodeCompact bs).bind fun (n, rest) =>
      (decodeMany A n rest).bind fun (as, rest) =>
        if h : as.length < 2 ^ 32 then some (⟨as, h⟩, rest) else none
  decode_eq_some {bs v rest} := by
    obtain ⟨l, hl⟩ := v
    simp only [bind_eq_some_iff, Prod.exists, decodeCompact_eq_some, decodeMany_eq_some,
      append_assoc]
    constructor
    · rintro ⟨n, mid, ⟨hn, rfl⟩, as, rest', ⟨rfl, rfl⟩, h⟩
      rw [dif_pos hn] at h
      obtain ⟨rfl, rfl⟩ := by
        simpa only [Option.some.injEq, Prod.mk.injEq, Subtype.mk.injEq] using h
      rfl
    · rintro rfl
      exact ⟨l.length, _, ⟨hl, rfl⟩, l, rest, ⟨rfl, rfl⟩, by rw [dif_pos hl]⟩

/-- Append an element. A vector that is full cannot grow. -/
def Vec.push {A : Type} (v : Vec A) (a : A) : Option (Vec A) :=
  if h : (v.1 ++ [a]).length < 2 ^ 32 then some ⟨v.1 ++ [a], h⟩ else none

/-! ## Reading a stored value -/

/-- Decode a value from a byte string, ignoring what follows it. -/
def decodeValue (A : Type) [Scale A] (bs : List UInt8) : Option A := (decode bs).map Prod.fst

theorem decodeValue_eq_some {a : A} : decodeValue A bs = some a ↔ encode a <+: bs := by
  simp only [decodeValue, map_eq_some_iff, Prod.exists, decode_eq_some]
  constructor
  · rintro ⟨a', rest, rfl, rfl⟩
    exact prefix_append _ _
  · rintro ⟨rest, rfl⟩
    exact ⟨a, rest, rfl, rfl⟩

end Scale
