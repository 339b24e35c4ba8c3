-- SUMMARY: Runs in which the named reserves stay covered by the reserved balance.
import SubstrateIpfs.Balances.Accounts
import SubstrateIpfs.Base.Run

/-!
# Named reserves

The names of an account's reserves and the reserved balance are two records. They stay
together as long as no account is removed while it has named reserves, no slash of a named
reserve is refused, and no named reserve is moved to an account without room for its name.
-/

namespace Balances

open List Nat

open Fallible

variable {A I : Type} [DecidableEq A] {cfg : Config} {s s' : Storage A I} {who : A}
  {res : Except Error ℕ} {n : ℕ} {beneficiary : A} {status : Status} {l' : List (ReserveData I)}
  {value : ℕ} {slashed : A}

namespace Storage

/-! ## Lists of named reserves -/

section
variable {id : I} {l b after : List (ReserveData I)} {d : ReserveData I}

/-- All the amounts of a list. -/
def amounts (l : List (ReserveData I)) : ℕ := (l.map fun d => d.amount).sum

theorem amounts_middle : amounts (b ++ d :: after) = amounts (b ++ after) + d.amount := by
  simp only [amounts, map_append, map_cons, sum_append_nat, sum_cons]
  omega

variable [LinearOrder I]

/-- Strictly sorted by identifier. -/
def Sorted (l : List (ReserveData I)) : Prop := l.Pairwise fun d d' => d.id < d'.id

/-- Only the identifiers matter. -/
theorem Sorted.of_map (h : Sorted l) (hmap : l'.map (fun d => d.id) = l.map fun d => d.id) :
    Sorted l' := by
  unfold Sorted at h ⊢
  rw [← pairwise_map] at h ⊢
  rwa [hmap]

theorem Sorted.erase (h : Sorted (b ++ d :: after)) : Sorted (b ++ after) :=
  h.sublist (sublist_cons_self d after |>.append_left b)

/-- Bisection finds the entry with the identifier, or the place where it belongs. -/
theorem search_cases (id : I) (h : Sorted l) :
    (∃ b d after, search id l = (b, some d, after) ∧ l = b ++ d :: after ∧ d.id = id) ∨
    (∃ b after, search id l = (b, none, after) ∧ l = b ++ after ∧
      ∀ value, Sorted (b ++ ⟨id, value⟩ :: after)) := by
  induction l with
  | nil => exact .inr ⟨[], [], rfl, rfl, fun value => pairwise_singleton ..⟩
  | cons d l ih =>
    obtain ⟨hd, hl⟩ := pairwise_cons.mp h
    simp only [search]
    split
    next hlt =>
      obtain ⟨b, d', after, hs, rfl, hid⟩ | ⟨b, after, hs, rfl, hsrt⟩ := ih hl
      · exact .inl ⟨d :: b, d', after, by rw [hs], rfl, hid⟩
      refine .inr ⟨d :: b, after, by rw [hs], rfl, fun value => ?_⟩
      refine pairwise_cons.mpr ⟨fun d' hd' => ?_, hsrt value⟩
      obtain hmem | hmem := mem_append.mp hd'
      · exact hd d' (mem_append_left _ hmem)
      obtain rfl | hmem := mem_cons.mp hmem
      · exact hlt
      · exact hd d' (mem_append_right _ hmem)
    next hge =>
      split
      next heq => exact .inl ⟨[], d, l, rfl, rfl, heq⟩
      rename_i hne
      have hlt : id < d.id := lt_of_le_of_ne (not_lt.mp hge) (symm hne)
      refine .inr ⟨[], d :: l, rfl, rfl, fun value => ?_⟩
      refine pairwise_cons.mpr ⟨fun d' hd' => ?_, h⟩
      obtain rfl | hmem := mem_cons.mp hd'
      · exact hlt
      · exact hlt.trans (hd d' hmem)

/-- Adding under an identifier adds at most that to the sum. -/
theorem addNamed_eq_ok (h : Sorted l) (hok : addNamed cfg id value l = .ok l') :
    Sorted l' ∧ amounts l' ≤ amounts l + value := by
  unfold addNamed at hok
  obtain ⟨b, d, after, hs, rfl, -⟩ | ⟨b, after, hs, rfl, hsrt⟩ :=
    search_cases id h
  · rw [hs] at hok
    cases hok
    refine ⟨h.of_map (by simp), ?_⟩
    rw [amounts_middle, amounts_middle]
    dsimp only [saturatingAdd]
    omega
  · rw [hs] at hok
    obtain ⟨_, -, hok⟩ := bind_eq_ok hok
    cases hok
    exact ⟨hsrt value, le_of_eq amounts_middle⟩

/-- There is an entry of that name, or room for another one. -/
def HasRoom (cfg : Config) (id : I) (l : List (ReserveData I)) : Prop :=
  (search id l).2.1.isSome ∨ l.length < cfg.maxReserves

theorem addNamed_eq_error {e : Error} (h : addNamed cfg id value l = .error e) :
    ¬HasRoom cfg id l := by
  unfold addNamed at h
  split at h
  · cases h
  next hs =>
    rintro (hsome | hlt)
    · rw [hs] at hsome
      cases hsome
    · rw [ensure, if_pos hlt] at h
      cases h

end

/-! ## Calls that leave the names alone -/

/-- What the named reserves of an account amount to. -/
def named (s : Storage A I) (who : A) : ℕ := amounts (s.reservesOf who)

/-- No account with named reserves has lost any of its reserved balance. -/
structure Mild (cfg : Config) (s s' : Storage A I) : Prop where
  solid : Solid cfg s'
  reserves : s'.reserves = s.reserves
  remained : s'.remained = s.remained
  reserved : ∀ k, (s.data k).reserved ≤ (s'.data k).reserved ∨ s.named k = 0

theorem Mild.refl (h : Solid cfg s) : Mild cfg s s := ⟨h, rfl, rfl, fun _ => .inl (le_refl _)⟩

variable {R : Type} {di : Discard A I R} {o : Except Error R}
  {m : Except Error (R × AccountData)}

theorem Mild.of_changed (hs : Solid cfg s) (hqt : Quiet di) (hchg : Changed cfg s who di m (o, s'))
    (hrsv : ∀ r a, m = .ok (r, a) → (s.data who).reserved ≤ a.reserved)
    (hspr : ∀ r a, m = .ok (r, a) → o = .ok r → s.data who ≠ .default →
      cfg.existentialDeposit ≤ a.sum ∨ s.named who = 0) : Mild cfg s s' := by
  have hsolid' := hs.changed (fun r s => data_congr (hqt.account r s)) hchg
  obtain ⟨-, hre, hr⟩ := hchg.frame hqt
  refine ⟨hsolid', hre, hr, fun k => ?_⟩
  cases o with
  | error e =>
    rw [data_congr (hchg.of_error hqt).1]
    exact .inl (le_refl _)
  | ok r =>
    obtain ⟨a, t, hout, hwrt, rfl, -⟩ := hchg.of_ok
    rw [data_dropNegative, hwrt.data_eq, residue]
    split
    next heq =>
      rw [heq]
      split
      · exact .inl (hrsv r a hout)
      next hlt =>
        by_cases hnew : s.data who = .default
        · exact .inl (by rw [hnew])
        · exact .inr ((hspr r a hout rfl hnew).resolve_left hlt)
    · exact .inl (le_refl _)

theorem Mild.of_twoMutated (hs : Solid cfg s) {src d : A}
    {out : Except Error ((R × AccountData) × AccountData)}
    (htwo : TwoMutated cfg s src d out (o, s')) (hto : ∀ r to' f', out = .ok ((r, to'), f') →
      cfg.existentialDeposit ≤ to'.sum ∧ (s.data d).reserved ≤ to'.reserved ∧
        (s.data src).reserved ≤ f'.reserved)
    (hspr : ∀ r to' f', out = .ok ((r, to'), f') → o = .ok r →
      cfg.existentialDeposit ≤ f'.sum ∨ s.named src = 0) : Mild cfg s s' := by
  have hsolid' := hs.twoMutated (fun r to' f' hout => (hto r to' f' hout).1) htwo
  cases o with
  | error e =>
    obtain ⟨iss, c, rfl⟩ := htwo.of_error
    exact ⟨hsolid', rfl, rfl, fun _ => .inl (le_refl _)⟩
  | ok r =>
    obtain ⟨to', f', acc, iss, c, hout, hs', hda⟩ := htwo.data_eq
    obtain ⟨-, hreservedTo, hreservedFrom⟩ := hto r to' f' hout
    refine ⟨hsolid', by rw [hs'], by rw [hs'], fun k => ?_⟩
    rw [hda, residue]
    split
    next heq => exact .inl (heq ▸ hreservedTo)
    split
    next heq =>
      rw [heq]
      refine (hspr r to' f' hout rfl).imp_left fun hge => ?_
      rw [if_pos hge]
      exact hreservedFrom
    · exact .inl (le_refl _)

/-- What is left of an account after a debit is enough, or it has no named reserves. -/
def Spared (cfg : Config) (s : Storage A I) (who : A) (debit : ℕ) : Prop :=
  cfg.existentialDeposit ≤ (s.data who).sum - debit ∨ s.named who = 0

section
variable (hs : Solid cfg s)

include hs

theorem transfer_mild {src d : A} {liveness : ExistenceRequirement} {res : Except Error Unit}
    (hres : s.transfer cfg src d value liveness = (res, s'))
    (hspr : res = .ok () → value ≠ 0 → src ≠ d → s.Spared cfg src value) :
    Mild cfg s s' := by
  obtain ⟨-, -, rfl⟩ | ⟨hz, hne, htwo⟩ := transfer_cases hres
  · exact .refl hs
  refine .of_twoMutated hs htwo (fun r to' f' hout => ?_) fun r to' f' hout hok => ?_
  · obtain ⟨-, rfl, rfl, hge, -⟩ := moveFree_eq_ok hout
    exact ⟨hge, le_refl _, le_refl _⟩
  · obtain ⟨hle, -, rfl, -⟩ := moveFree_eq_ok hout
    refine (hspr hok hz hne).imp_left fun hge => ?_
    simp only [AccountData.sum] at hge ⊢
    omega

theorem withdraw_mild {rs : WithdrawReasons} {l : ExistenceRequirement}
    (hres : s.withdraw cfg who value rs l = (res, s'))
    (hspr : res = .ok value → value ≠ 0 → s.Spared cfg who value) : Mild cfg s s' := by
  obtain ⟨-, ⟨⟩⟩ | ⟨hz, hres⟩ := ite_eq_iff.mp hres
  · exact .refl hs
  refine .of_changed hs (Quiet.negative) (.of_eq hres) (fun r a hout => ?_)
    fun r a hout hok _ => ?_
  · obtain ⟨-, -, rfl, -⟩ := debitFree_eq_ok hout
    exact le_refl _
  · obtain ⟨rfl, hle, rfl, -⟩ := debitFree_eq_ok hout
    refine (hspr hok hz).imp_left fun hge => ?_
    simp only [AccountData.sum] at hge ⊢
    omega

/-- An account that does not lose anything stays where it is. -/
theorem Mild.of_sum_le (hqt : Quiet di) (hchg : Changed cfg s who di m (o, s'))
    (hle : ∀ r a, m = .ok (r, a) → (s.data who).reserved ≤ a.reserved ∧ (s.data who).sum ≤ a.sum) :
    Mild cfg s s' := by
  refine .of_changed hs hqt hchg (fun r a hout => (hle r a hout).1) fun r a hout _ hold => .inl ?_
  exact le_trans (hs who hold) (hle r a hout).2

theorem depositCreating_mild (hres : s.depositCreating cfg who value = (n, s')) :
    Mild cfg s s' := by
  obtain ⟨-, rfl⟩ | ⟨o, -, hchg⟩ := depositCreating_cases hres
  · exact .refl hs
  refine .of_sum_le hs Quiet.positive hchg fun r a hout => ?_
  obtain ⟨-, rfl, -⟩ := creditOrCreate_eq_ok hout
  simp only [AccountData.sum]
  omega

theorem reserve_mild {res : Except Error Unit} (hres : s.reserve cfg who value = (res, s')) :
    Mild cfg s s' := by
  obtain ⟨-, ⟨⟩⟩ | ⟨-, hres⟩ := ite_eq_iff.mp hres
  · exact .refl hs
  refine .of_sum_le hs Quiet.nothing (.of_eq hres) fun r a hout => ?_
  obtain ⟨hle, -, rfl, -⟩ := moveToReserved_eq_ok hout
  simp only [AccountData.sum]
  omega

/-- What was reserved is there. -/
theorem reserve_ok (hz : value ≠ 0) (hres : s.reserve cfg who value = (.ok (), s')) :
    (s'.data who).reserved = (s.data who).reserved + value := by
  obtain ⟨heq, -⟩ | ⟨-, hres⟩ := ite_eq_iff.mp hres
  · exact absurd heq hz
  obtain ⟨a, t, hout, hwrt, rfl, -⟩ := (Changed.of_eq hres).of_ok
  obtain ⟨hle, -, rfl, -⟩ := moveToReserved_eq_ok hout
  have hge := hs who (ne_default_of_free hz hle)
  rw [data_dropNegative, hwrt.data_eq, if_pos rfl, residue, if_pos]
  simp only [AccountData.sum] at hge ⊢
  omega

end

/-! ## Calls that take from the reserved balance -/

/-- There is something in an account with a reserved balance. -/
theorem total_ne_zero (hzero : value ≠ 0) (hle : value ≤ (s.data who).reserved) :
    (s.data who).total cfg ≠ 0 := by
  have hmax := cfg.maxBalance_pos
  unfold AccountData.total saturatingAdd
  omega

theorem ne_default (hz : value ≠ 0) (hle : value ≤ (s.data who).reserved) :
    s.data who ≠ .default := by
  intro hnew
  rw [hnew] at hle
  exact hz (le_zero.mp hle)

/-- Taking `n` from the account leaves it with enough, or takes the last of its names. -/
def Settles (cfg : Config) (s : Storage A I) (who : A) (n : ℕ) : Prop :=
  cfg.existentialDeposit ≤ (s.data who).sum - n ∨ s.named who = n

instance {n : ℕ} : Decidable (s.Settles cfg who n) := inferInstanceAs (Decidable (_ ∨ _))

/-- Something is moved: the beneficiary exists and its balance does not overflow, and the slashed
account is not refused its removal if too little is left in it. -/
def Moves (cfg : Config) (s : Storage A I) (slashed beneficiary : A) (n : ℕ) (status : Status) :
    Prop :=
  n ≠ 0 ∧ slashed ≠ beneficiary ∧ s.data beneficiary ≠ .default ∧
    (creditStatus cfg status n (s.data beneficiary)).isOk ∧
    (cfg.existentialDeposit ≤ (s.data slashed).sum - n ∨ ¬s.Refuses slashed)

instance {n : ℕ} : Decidable (s.Moves cfg slashed beneficiary n status) :=
  inferInstanceAs (Decidable (_ ∧ _ ∧ _ ∧ _ ∧ (_ ∨ _)))

/-- The names that are read, as far as only the accounts have changed. -/
theorem reservesOf_congr (hr : s'.reserves = s.reserves) (k : A) :
    s'.reservesOf k = s.reservesOf k := by
  unfold reservesOf
  rw [hr]

theorem named_congr (hr : s'.reserves = s.reserves) (k : A) : s'.named k = s.named k :=
  congrArg amounts (reservesOf_congr hr k)

section
variable [LinearOrder I] {l : List (ReserveData I)} {id : I} {b after : List (ReserveData I)}
  {d : ReserveData I}

/-- The named reserves are backed, but for an amount by which those of one account are too high. -/
structure Owing (cfg : Config) (who : A) (n : ℕ) (s : Storage A I) : Prop where
  solid : Solid cfg s
  sorted : ∀ k, Sorted (s.reservesOf k)
  remained : s.remained = false
  covered : s.named who ≤ (s.data who).reserved + n
  other : ∀ k, k ≠ who → s.named k ≤ (s.data k).reserved

/-- Every account holds the existential deposit, its reserves are sorted by name and covered by
its reserved balance, and no step has seen anything remain. -/
structure Backed (cfg : Config) (s : Storage A I) : Prop where
  solid : Solid cfg s
  sorted : ∀ k, Sorted (s.reservesOf k)
  remained : s.remained = false
  covered : ∀ k, s.named k ≤ (s.data k).reserved

theorem Backed.owing (h : Backed cfg s) (who : A) (n : ℕ) : Owing cfg who n s :=
  ⟨h.solid, h.sorted, h.remained, le_trans (h.covered who) (Nat.le_add_right ..),
    fun k _ => h.covered k⟩

theorem Owing.backed (h : Owing cfg who 0 s) : Backed cfg s := by
  refine ⟨h.solid, h.sorted, h.remained, fun k => ?_⟩
  by_cases hk : k = who
  · rw [hk]
    exact h.covered
  · exact h.other k hk

theorem Backed.mild (h : Backed cfg s) (hm : Mild cfg s s') : Backed cfg s' := by
  refine ⟨hm.solid, fun k => ?_, hm.remained.trans h.remained, fun k => ?_⟩
  · rw [reservesOf_congr hm.reserves]
    exact h.sorted k
  rw [named_congr hm.reserves]
  obtain hle | hn := hm.reserved k
  · exact le_trans (h.covered k) hle
  · rw [hn]
    exact zero_le _

/-- A call took `n` from the reserved balance of an account. -/
structure Taken (cfg : Config) (s : Storage A I) (who : A) (n : ℕ) (s' : Storage A I) : Prop where
  owing : Owing cfg who n s'
  reserves : s'.reserves = s.reserves

section
variable (h : Backed cfg s)

include h

theorem Taken.of_rest {a : FinMap A AccountInfo} {iss : ℕ} {c : Bool}
    (hs' : s' = { s with account := a, totalIssuance := iss, clipped := c })
    (hs : Solid cfg s')
    (hcov : (s.data who).reserved ≤ (s'.data who).reserved + n ∨ s.named who ≤ n)
    (hoth : ∀ k, k ≠ who → (s.data k).reserved ≤ (s'.data k).reserved) :
    Taken cfg s who n s' := by
  have hr : s'.reserves = s.reserves := by rw [hs']
  refine ⟨⟨hs, fun k => ?_, ?_, ?_, fun k hk => ?_⟩, hr⟩
  · rw [reservesOf_congr hr]
    exact h.sorted k
  · rw [hs']
    exact h.remained
  · rw [named_congr hr]
    obtain hle | hle := hcov
    · exact le_trans (h.covered who) hle
    · exact le_trans hle (Nat.le_add_left ..)
  · rw [named_congr hr]
    exact le_trans (h.covered k) (hoth k hk)

theorem Taken.of_stored {a : AccountData} (hge : cfg.existentialDeposit ≤ a.sum)
    (hsto : Stored s who a s') (hrsv : (s.data who).reserved ≤ a.reserved + n) :
    Taken cfg s who n s' := by
  have hda := hsto.written.data_eq
  obtain ⟨acc, hr⟩ := hsto.written.rest
  refine .of_rest h hr (h.solid.written hsto.written fun _ => hge) (.inl ?_) fun k hk => ?_
  · rw [hda, if_pos rfl]
    exact hrsv
  · rw [hda, if_neg hk]

theorem Taken.of_removed {dust : ℕ} (hrm : Removed s who s') (hn : s.named who ≤ n) :
    Taken cfg s who n (s'.dropNegative dust) := by
  have hda := hrm.written.data_eq
  have hs := h.solid.written hrm.written fun hne => absurd rfl hne
  obtain ⟨acc, rfl⟩ := hrm.written.rest
  refine .of_rest h rfl (hs.of_data_eq fun _ => rfl) (.inr hn) fun k hk => ?_
  rw [data_dropNegative, hda, if_neg hk]

theorem unreserve_taken (hle : value ≤ s.named who) :
    ∃ s', s.unreserve cfg who value = (0, s') ∧ Taken cfg s who value s' := by
  have hrsv : value ≤ (s.data who).reserved := le_trans hle (h.covered who)
  unfold unreserve
  split
  · exact ⟨s, rfl, h.owing who value, rfl⟩
  rename_i hz
  rw [if_neg (total_ne_zero hz hrsv)]
  have hmin : min (s.data who).reserved value = value := min_eq_right hrsv
  have hge := h.solid.moveToFree (ne_default hz hrsv) value
  obtain ⟨s', hmut, hsto⟩ := tryMutateAccount_of_ge
    (fun acc _ => .ok (moveToFree cfg value acc)) (fun _ s => s) rfl hge
  unfold mutateAccount
  rw [hmut]
  refine ⟨s', ?_, .of_stored h hge hsto ?_⟩
  · simp only [hmin, Nat.sub_self]
  · simp only [moveToFree]
    omega

/-- A slash of a named reserve that the account store does not refuse. -/
theorem slashReserved_taken (hle : value ≤ s.named who)
    (hset : value = 0 ∨ s.Settles cfg who value ∧
      (cfg.existentialDeposit ≤ (s.data who).sum - value ∨ ¬s.Refuses who)) :
    ∃ imb s', s.slashReserved cfg who value = ((imb, 0), s') ∧
      Taken cfg s who value s' := by
  have hrsv : value ≤ (s.data who).reserved := le_trans hle (h.covered who)
  have hmin : min (s.data who).reserved value = value := min_eq_right hrsv
  unfold slashReserved slashWith
  split
  · exact ⟨0, s, rfl, h.owing who value, rfl⟩
  rename_i hz
  obtain ⟨hset, hmay⟩ := hset.resolve_left hz
  rw [if_neg (total_ne_zero hz hrsv)]
  have hsl : slashReservedAccount cfg false value (s.data who) =
      ((value, 0), { s.data who with reserved := (s.data who).reserved - value }) := by
    simp [slashReservedAccount, bestValue, hmin]
  have hsum : ({ s.data who with
      reserved := (s.data who).reserved - value } : AccountData).sum =
      (s.data who).sum - value := by
    simp only [AccountData.sum]
    omega
  simp only [firstOk]
  by_cases hge : cfg.existentialDeposit ≤ (s.data who).sum - value
  · obtain ⟨s', hmut, hsto⟩ := tryMutateAccount_of_ge
      (fun acc _ => .ok (slashReservedAccount cfg false value acc))
      (fun res s => s.dropNegative res.1) (congrArg Except.ok hsl)
      (hsum ▸ hge)
    rw [hmut]
    refine ⟨value, s', rfl, .of_stored h (hsum ▸ hge) hsto ?_⟩
    dsimp only
    omega
  · have hlt := Nat.lt_of_not_le hge
    obtain ⟨s', hmut, hrm⟩ := tryMutateAccount_of_lt
      (fun acc _ => .ok (slashReservedAccount cfg false value acc))
      (fun res s => s.dropNegative res.1) (congrArg Except.ok hsl)
      (hsum ▸ hlt) (hmay.resolve_left hge)
    rw [hmut]
    exact ⟨value, _, rfl, .of_removed h hrm (le_of_eq (hset.resolve_left hge))⟩

/-- Moving a named reserve to another account either changes no account, or moves all of it. -/
theorem doTransferReserved_taken (hne : slashed ≠ beneficiary) (hle : value ≤ s.named slashed)
    (hset : s.Moves cfg slashed beneficiary value status → s.Settles cfg slashed value)
    (hres : s.doTransferReserved cfg slashed beneficiary value true status = (res, s')) :
    ((∃ e, res = .error e) ∧ Mild cfg s s') ∨
      (res = .ok value ∧ Taken cfg s slashed value s' ∧
        (value = 0 ∨ s.Moves cfg slashed beneficiary value status) ∧
        (status = .reserved → s.named beneficiary + value ≤ (s'.data beneficiary).reserved)) := by
  unfold doTransferReserved at hres
  split at hres
  next hz =>
    cases hres
    refine .inr ⟨by rw [hz], ⟨h.owing slashed value, rfl⟩, .inl hz, fun _ => ?_⟩
    rw [hz]
    exact h.covered beneficiary
  next hz =>
  have htwo := tryMutateTwo_cases (symm hne) hres fun _ _ _ => h.solid.of_moveReserved
  cases res with
  | error e =>
    obtain ⟨iss, c, rfl⟩ := htwo.of_error
    exact .inl ⟨⟨e, rfl⟩, h.solid.of_data_eq fun _ => rfl, rfl, rfl, fun _ => .inl (le_refl _)⟩
  | ok r =>
    have hmin : min (s.data slashed).reserved value = value :=
      min_eq_right (le_trans hle (h.covered slashed))
    have hs := h.solid.twoMutated (fun _ _ _ => h.solid.of_moveReserved) htwo
    obtain ⟨to', from', acc, iss, c, hout, hs', hda⟩ := htwo.data_eq
    have hcred := creditStatus_of_moveReserved hout
    obtain ⟨hnew, rfl, rfl, -, rfl⟩ := moveReserved_eq_ok hout
    rw [hmin] at hda hcred ⊢
    have hmov : s.Moves cfg slashed beneficiary value status := by
      refine ⟨hz, hne, of_decide_eq_false hnew, by rw [hcred]; rfl, ?_⟩
      obtain ⟨_, _, _, _, hout', -, -, -, hmay⟩ := htwo.of_ok
      cases hout.symm.trans hout'
      refine or_iff_not_imp_left.mpr fun hlt href => hmay ⟨?_, href⟩
      simp only [AccountData.sum] at hlt ⊢
      omega
    have hben : (s.data beneficiary).reserved ≤ (s'.data beneficiary).reserved ∧
        (status = .reserved →
          (s.data beneficiary).reserved + value ≤ (s'.data beneficiary).reserved) := by
      rw [hda, if_pos rfl]
      cases status with
      | free => exact ⟨le_refl _, by rintro ⟨⟩⟩
      | reserved => exact ⟨Nat.le_add_right .., fun _ => le_refl _⟩
    refine .inr ⟨rfl, .of_rest h hs' hs ?_ fun k hk => ?_, .inr hmov, fun hst => ?_⟩
    · rw [hda, if_neg hne, if_pos rfl, residue]
      split
      · left
        dsimp only
        omega
      next hlt =>
        refine .inr (le_of_eq ((hset hmov).resolve_left fun hge => hlt ?_))
        simp only [AccountData.sum] at hge ⊢
        omega
    · by_cases hk' : k = beneficiary
      · rw [hk']
        exact hben.1
      · rw [hda, if_neg hk', if_neg hk]
    · exact le_trans (Nat.add_le_add_right (h.covered beneficiary) value) (hben.2 hst)

/-- What remains is nothing. -/
theorem repatriateReserved_taken (hne : slashed ≠ beneficiary) (hle : value ≤ s.named slashed)
    (hset : s.Moves cfg slashed beneficiary value status → s.Settles cfg slashed value)
    (hres : s.repatriateReserved cfg slashed beneficiary value status = (res, s')) :
    ((∃ e, res = .error e) ∧ Mild cfg s s') ∨
      (res = .ok 0 ∧ Taken cfg s slashed value s' ∧
        (value = 0 ∨ s.Moves cfg slashed beneficiary value status) ∧
        (status = .reserved → s.named beneficiary + value ≤ (s'.data beneficiary).reserved)) := by
  obtain ⟨out, t, hout⟩ : ∃ out t,
      s.doTransferReserved cfg slashed beneficiary value true status = (out, t) := ⟨_, _, rfl⟩
  unfold repatriateReserved at hres
  rw [hout] at hres
  obtain ⟨⟨e, rfl⟩, hm⟩ | ⟨rfl, htk⟩ := doTransferReserved_taken h hne hle hset hout
  · cases hres
    exact .inl ⟨⟨e, rfl⟩, hm⟩
  · cases hres
    rw [Nat.sub_self]
    exact .inr ⟨rfl, htk⟩

end

/-! ## The named calls -/

omit [DecidableEq A] [LinearOrder I] in
theorem noteRemain_zero : s.noteRemain 0 = s := by
  unfold noteRemain
  simp

omit [LinearOrder I] in
theorem reservesOf_setReserves (k : A) :
    (s.setReserves who l).reservesOf k = if k = who then l else s.reservesOf k := by
  unfold reservesOf setReserves
  rw [FinMap.get?_insert]
  split <;> rfl

omit [LinearOrder I] in
theorem reservesOf_erase (k : A) :
    ({ s with reserves := s.reserves.erase who } : Storage A I).reservesOf k =
      if k = who then [] else s.reservesOf k := by
  unfold reservesOf
  rw [FinMap.get?_erase]
  split <;> rfl

/-- The names of the account are replaced by names that its reserved balance covers. -/
theorem Owing.settle (h : Owing cfg who n s) {rs : FinMap A (List (ReserveData I))}
    (hr : ∀ k, ({ s with reserves := rs } : Storage A I).reservesOf k =
      if k = who then l else s.reservesOf k)
    (hsrt : Sorted l) (hcov : amounts l ≤ (s.data who).reserved) :
    Backed cfg { s with reserves := rs } := by
  refine ⟨h.solid, fun k => ?_, h.remained, fun k => ?_⟩
  · rw [hr]
    split
    · exact hsrt
    · exact h.sorted k
  · unfold named
    rw [hr]
    split
    next heq =>
      rw [heq]
      exact hcov
    next hk => exact h.other k hk

/-- The names of another account are replaced by names that its reserved balance covers. -/
theorem Owing.raise (h : Owing cfg who n s) {other : A} (hne : who ≠ other) (hsrt : Sorted l)
    (hcov : amounts l ≤ (s.data other).reserved) : Owing cfg who n (s.setReserves other l) := by
  refine ⟨h.solid, fun k => ?_, h.remained, ?_, fun k hk => ?_⟩
  · rw [reservesOf_setReserves]
    split
    · exact hsrt
    · exact h.sorted k
  · unfold named
    rw [reservesOf_setReserves, if_neg hne]
    exact h.covered
  · unfold named
    rw [reservesOf_setReserves]
    split
    next heq =>
      rw [heq]
      exact hcov
    · exact h.other k hk

theorem reserveNamed_backed (h : Backed cfg s) :
    Backed cfg (s.reserveNamed cfg id who value).2 := by
  unfold reserveNamed
  split
  · exact h
  rename_i hz
  split
  · exact h
  rename_i l hadd
  obtain ⟨hsrt, ha⟩ := addNamed_eq_ok (h.sorted who) hadd
  split
  next e t hrsv => exact h.mild (reserve_mild h.solid hrsv)
  next t hrsv =>
    have hbk := h.mild (reserve_mild h.solid hrsv)
    refine (hbk.owing who 0).settle reservesOf_setReserves hsrt ?_
    rw [reserve_ok h.solid hz hrsv]
    exact le_trans ha (Nat.add_le_add_right (h.covered who) value)

omit [LinearOrder I] in
/-- An entry found under an identifier, as part of the names of the account. -/
theorem named_middle (hr : s.reservesOf who = b ++ d :: after) :
    s.named who = amounts (b ++ after) + d.amount := by
  unfold named
  rw [hr, amounts_middle]

/-- The entry of an account from which `n` has been taken is lowered by `n`. -/
theorem Owing.lower (h : Owing cfg who n s) (hr : s.reservesOf who = b ++ d :: after)
    (hle : n ≤ d.amount) :
    Backed cfg (s.setReserves who (b ++ { d with amount := d.amount - n } :: after)) := by
  refine h.settle reservesOf_setReserves ?_ ?_
  · refine Sorted.of_map (l := b ++ d :: after) ?_ (by simp)
    rw [← hr]
    exact h.sorted who
  · have hcov := h.covered
    rw [named_middle hr] at hcov
    rw [amounts_middle]
    dsimp only
    omega

theorem unreserveNamed_backed (h : Backed cfg s) :
    Backed cfg (s.unreserveNamed cfg id who value).2 := by
  unfold unreserveNamed
  split
  · exact h
  obtain ⟨b, d, after, hs, hr, -⟩ | ⟨b, after, hs, -⟩ :=
    search_cases id (h.sorted who)
  · rw [hs]
    dsimp only
    have hle : min d.amount value ≤ s.named who := by
      rw [named_middle hr]
      omega
    obtain ⟨t, hu, htk⟩ := unreserve_taken h hle
    have hresv' : t.reservesOf who = b ++ d :: after := (reservesOf_congr htk.reserves who).trans hr
    rw [hu]
    rw [noteRemain_zero]
    split
    · -- All of the entry has been unreserved.
      have hsrt : Sorted (b ++ after) := by
        refine Sorted.erase (d := d) ?_
        rw [← hresv']
        exact htk.owing.sorted who
      have hcov : amounts (b ++ after) ≤ (t.data who).reserved := by
        have hcov := htk.owing.covered
        rw [named_middle hresv'] at hcov
        omega
      generalize b ++ after = l at hsrt hcov
      cases l with
      | nil => exact htk.owing.settle reservesOf_erase hsrt hcov
      | cons d' l => exact htk.owing.settle reservesOf_setReserves hsrt hcov
    · exact htk.owing.lower hresv' (min_le_left ..)
  · rw [hs]
    exact h

/-- How much a call with a named reserve takes. -/
def taken (s : Storage A I) (id : I) (who : A) (value : ℕ) : ℕ :=
  min (s.reservedBalanceNamed id who) value

/-- Writing the names back as they are. -/
theorem Backed.writeBack (h : Backed cfg s) : Backed cfg (s.setReserves who (s.reservesOf who)) :=
  (h.owing who 0).settle reservesOf_setReserves (h.sorted who) (h.covered who)

theorem slashReservedNamed_backed (h : Backed cfg s)
    (hset : s.taken id who value = 0 ∨ s.Settles cfg who (s.taken id who value) ∧
      (cfg.existentialDeposit ≤ (s.data who).sum - s.taken id who value ∨ ¬s.Refuses who)) :
    Backed cfg (s.slashReservedNamed cfg id who value).2 := by
  unfold slashReservedNamed
  split
  · exact h
  obtain ⟨b, d, after, hs, hr, -⟩ | ⟨b, after, hs, -⟩ :=
    search_cases id (h.sorted who)
  · have ht : s.taken id who value = min d.amount value := by
      unfold taken reservedBalanceNamed
      rw [hs]
    rw [ht] at hset
    rw [hs]
    dsimp only
    have hle : min d.amount value ≤ s.named who := by
      rw [named_middle hr]
      omega
    obtain ⟨imb, t, hsl, htk⟩ := slashReserved_taken h hle hset
    rw [hsl]
    rw [noteRemain_zero]
    refine htk.owing.lower ?_ (min_le_left ..)
    exact (reservesOf_congr htk.reserves who).trans hr
  · rw [hs]
    exact h.writeBack

/-- Moving part of a named reserve fails and leaves the names backed, or leaves those of the
slashed account too high by what has been moved. -/
theorem moveNamed_owing (h : Backed cfg s) (hne : slashed ≠ beneficiary) {moved : ℕ}
    (hle : moved ≤ s.named slashed)
    (hord : s.Moves cfg slashed beneficiary moved status → s.Settles cfg slashed moved ∧
      (status = .reserved → HasRoom cfg id (s.reservesOf beneficiary)))
    (hres : s.moveNamed cfg id slashed beneficiary moved status = (res, s')) :
    ((∃ e, res = .error e) ∧ Backed cfg s') ∨
      (res = .ok moved ∧ Owing cfg slashed moved s' ∧
        s'.reservesOf slashed = s.reservesOf slashed) := by
  obtain ⟨out, t, hout⟩ : ∃ out t,
      s.repatriateReserved cfg slashed beneficiary moved status = (out, t) := ⟨_, _, rfl⟩
  obtain ⟨⟨e, rfl⟩, hm⟩ | ⟨rfl, htk, hmov, hrsv⟩ :=
    repatriateReserved_taken h hne hle (fun hmov => (hord hmov).1) hout
  · have hbk : Backed cfg t := h.mild hm
    unfold moveNamed at hres
    cases status with
    | free | reserved =>
      rw [hout] at hres
      cases hres
      exact .inl ⟨⟨e, rfl⟩, hbk⟩
  have hs := reservesOf_congr htk.reserves slashed
  unfold moveNamed at hres
  cases status with
  | free =>
    rw [hout] at hres
    dsimp only at hres
    rw [noteRemain_zero] at hres
    cases hres
    exact .inr ⟨rfl, htk.owing, hs⟩
  | reserved =>
    rw [hout] at hres
    dsimp only at hres
    rw [noteRemain_zero] at hres
    split at hres
    next e hadd =>
      -- There is no room for the name, and the money stays where it is.
      cases hres
      have hfull := addNamed_eq_error hadd
      rw [reservesOf_congr htk.reserves] at hfull
      obtain rfl := hmov.resolve_right fun hmov => hfull ((hord hmov).2 rfl)
      exact .inl ⟨⟨_, rfl⟩, htk.owing.backed⟩
    next l hadd =>
      cases hres
      obtain ⟨hsrt, ha⟩ := addNamed_eq_ok (htk.owing.sorted beneficiary) hadd
      refine .inr ⟨rfl, htk.owing.raise hne hsrt ?_, ?_⟩
      · rw [reservesOf_congr htk.reserves] at ha
        exact le_trans ha (hrsv rfl)
      · rw [reservesOf_setReserves, if_neg hne]
        exact hs

theorem repatriateReservedNamed_backed (h : Backed cfg s)
    (hord : s.Moves cfg slashed beneficiary (s.taken id slashed value) status →
      s.Settles cfg slashed (s.taken id slashed value) ∧
        (status = .reserved → HasRoom cfg id (s.reservesOf beneficiary))) :
    Backed cfg (s.repatriateReservedNamed cfg id slashed beneficiary value status).2 := by
  unfold repatriateReservedNamed
  split
  · exact h
  split
  · cases status with
    | free => exact unreserveNamed_backed h
    | reserved => exact h
  next hne =>
  obtain ⟨b, d, after, hs, hr, -⟩ | ⟨b, after, hs, -⟩ :=
    search_cases id (h.sorted slashed)
  · have htk : s.taken id slashed value = min d.amount value := by
      unfold taken reservedBalanceNamed
      rw [hs]
    have hle : min d.amount value ≤ s.named slashed := by
      rw [named_middle hr]
      omega
    rw [htk] at hord
    rw [hs]
    dsimp only
    obtain ⟨res, t, hm⟩ : ∃ res t,
        s.moveNamed cfg id slashed beneficiary (min d.amount value) status = (res, t) :=
      ⟨_, _, rfl⟩
    rw [hm]
    obtain ⟨⟨e, rfl⟩, hbk⟩ | ⟨rfl, how, hsa⟩ := moveNamed_owing h hne hle hord hm
    · exact hbk
    · exact how.lower (hsa.trans hr) (min_le_left ..)
  · rw [hs]
    exact h.writeBack

end

/-! ## Runs -/

end Storage

/-- The calls. The imbalances they return change no account when they are dropped. -/
inductive NamedCall (A I : Type)
  | reserveNamed (id : I) (who : A) (value : ℕ)
  | unreserveNamed (id : I) (who : A) (value : ℕ)
  | slashReservedNamed (id : I) (who : A) (value : ℕ)
  | repatriateReservedNamed (id : I) (slashed beneficiary : A) (value : ℕ) (status : Status)
  | reserve (who : A) (value : ℕ)
  | transfer (transactor dest : A) (value : ℕ) (existence : ExistenceRequirement)
  | withdraw (who : A) (value : ℕ) (reasons : WithdrawReasons) (liveness : ExistenceRequirement)
  | depositCreating (who : A) (value : ℕ)

namespace Storage

variable [LinearOrder I]

def call (cfg : Config) (s : Storage A I) : NamedCall A I → Storage A I
  | .reserveNamed id who value => (s.reserveNamed cfg id who value).2
  | .unreserveNamed id who value => (s.unreserveNamed cfg id who value).2
  | .slashReservedNamed id who value => (s.slashReservedNamed cfg id who value).2
  | .repatriateReservedNamed id slashed beneficiary value status =>
    (s.repatriateReservedNamed cfg id slashed beneficiary value status).2
  | .reserve who value => (s.reserve cfg who value).2
  | .transfer transactor dest value existence => (s.transfer cfg transactor dest value existence).2
  | .withdraw who value reasons liveness => (s.withdraw cfg who value reasons liveness).2
  | .depositCreating who value => (s.depositCreating cfg who value).2

/-- No account is removed while it has named reserves, the account store does not refuse a slash
of a named reserve, and no named reserve is moved to an account without room for its name. -/
def Orderly (cfg : Config) (s : Storage A I) : NamedCall A I → Prop
  | .slashReservedNamed id who value =>
    s.taken id who value = 0 ∨ s.Settles cfg who (s.taken id who value) ∧
      (cfg.existentialDeposit ≤ (s.data who).sum - s.taken id who value ∨ ¬s.Refuses who)
  | .repatriateReservedNamed id slashed beneficiary value status =>
    s.Moves cfg slashed beneficiary (s.taken id slashed value) status →
      s.Settles cfg slashed (s.taken id slashed value) ∧
        (status = .reserved → HasRoom cfg id (s.reservesOf beneficiary))
  | .transfer transactor dest value existence =>
    (s.transfer cfg transactor dest value existence).1 = .ok () → value ≠ 0 → transactor ≠ dest →
      s.Spared cfg transactor value
  | .withdraw who value reasons liveness =>
    (s.withdraw cfg who value reasons liveness).1 = .ok value → value ≠ 0 → s.Spared cfg who value
  | _ => True

instance (s : Storage A I) (c : NamedCall A I) : Decidable (s.Orderly cfg c) := by
  cases c <;> unfold Orderly Spared HasRoom <;> infer_instance

/-- One call. -/
theorem Backed.call (h : Backed cfg s) (c : NamedCall A I) (hord : s.Orderly cfg c) :
    Backed cfg (s.call cfg c) := by
  cases c with
  | reserveNamed => exact reserveNamed_backed h
  | unreserveNamed => exact unreserveNamed_backed h
  | slashReservedNamed => exact slashReservedNamed_backed h hord
  | repatriateReservedNamed => exact repatriateReservedNamed_backed h hord
  | reserve => exact h.mild (reserve_mild h.solid rfl)
  | transfer => exact h.mild (transfer_mild h.solid rfl hord)
  | withdraw => exact h.mild (withdraw_mild h.solid rfl hord)
  | depositCreating => exact h.mild (depositCreating_mild h.solid rfl)

/-- In every run of orderly calls, named reserves stay backed. -/
theorem backed_of_orderly (hs : Backed cfg s) (calls : List (NamedCall A I))
    (horderly : Run.Each (call cfg) (Orderly cfg) s calls) :
    Run.Always (call cfg) (Backed cfg) s calls :=
  Run.Each.always (fun _ c h horderly => h.call c horderly) hs horderly

/-- Balances below 800, 10 to exist, and two named reserves. -/
def twoReserves : Config := ⟨800, 10, 2, by decide, by decide⟩

/-- No accounts. -/
def vacant : Storage (Fin 3) ℕ := ⟨.empty, 0, .empty, .empty, false, false⟩

/-- Two named reserves of account 0, of which one is moved and the other one slashed. There is no
account 2. -/
def orderlyRun : List (NamedCall (Fin 3) ℕ) :=
  [.depositCreating 0 100, .depositCreating 1 50, .reserveNamed 7 0 30, .reserveNamed 3 0 20,
    .repatriateReservedNamed 7 0 1 20 .reserved, .repatriateReservedNamed 7 0 2 10 .free,
    .slashReservedNamed 3 0 20, .unreserveNamed 7 0 15, .withdraw 0 40 .TRANSFER .keepAlive]

theorem vacant_backed : Backed twoReserves vacant :=
  ⟨fun _ hne => absurd rfl hne, fun _ => List.Pairwise.nil, rfl, fun _ => le_refl _⟩

theorem backed_orderlyRun : Run.Always (call twoReserves) (Backed twoReserves) vacant orderlyRun :=
  backed_of_orderly vacant_backed orderlyRun (by decide +kernel)

/-- Account 0 reserves 5 of its 12 under a name, and withdraws the rest. -/
def wipingRun : List (NamedCall (Fin 3) ℕ) :=
  [.depositCreating 0 12, .reserveNamed 7 0 5, .withdraw 0 7 .TRANSFER .allowDeath,
    .unreserveNamed 7 0 5]

/-- The account is wiped together with its reserved balance, but its name stays: the last call
sees that 5 remain. -/
theorem not_backed_wipingRun :
    Backed twoReserves vacant ∧
      ¬Run.Always (call twoReserves) (fun s => ∀ who, s.named who ≤ (s.data who).reserved)
        vacant wipingRun ∧
      ¬Run.Always (call twoReserves) (fun s => s.remained = false) vacant wipingRun := by
  refine ⟨vacant_backed, fun h => ?_, fun h => ?_⟩
  · have hl := h.last
    revert hl
    decide +kernel
  · have hl := h.last
    revert hl
    decide +kernel

end Storage

end Balances
