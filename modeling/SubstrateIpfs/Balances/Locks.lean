-- SUMMARY: Locks of the balances pallet: runs that freeze every account as its locks ask for.
import SubstrateIpfs.Balances.Accounts
import SubstrateIpfs.Base.Run

/-!
# Locks

The locks of an account and the two amounts that are frozen of it are kept in different places.
The amounts are computed when the locks change, and they are gone when the account is. So they
stay together exactly as long as no account that has locks, but no balance, is funded.
-/

namespace Balances

open List AccountInfo Nat

open Fallible

/-! ## The largest lock -/

/-- Whether a lock for `r'` applies to what is taken out for `r`. -/
def Reasons.applies (r r' : Reasons) : Bool := decide (r = .all ∨ r' = .all ∨ r = r')

/-- The largest amount among the locks that apply. -/
def largestLock (r : Reasons) : List BalanceLock → ℕ
  | [] => 0
  | lock :: locks =>
    if r.applies lock.reasons then max lock.amount (largestLock r locks) else largestLock r locks

section
variable {ls : List BalanceLock} {l : BalanceLock} {r : Reasons} {a : AccountData}

theorem amount_le_largestLock (hmem : l ∈ ls) (happ : r.applies l.reasons = true) :
    l.amount ≤ largestLock r ls := by
  induction ls with
  | nil => cases hmem
  | cons lock' ls ih =>
    unfold largestLock
    obtain rfl | hmem := mem_cons.mp hmem
    · rw [if_pos happ]
      exact le_max_left ..
    · split
      · exact le_trans (ih hmem) (le_max_right ..)
      · exact ih hmem

/-- A lock counts for fees or for everything else. -/
theorem largestLock_ne_zero (hne : ls ≠ []) (ha : ∀ l ∈ ls, l.amount ≠ 0) :
    largestLock .misc ls ≠ 0 ∨ largestLock .fee ls ≠ 0 := by
  obtain ⟨l, hmem⟩ := exists_mem_of_ne_nil ls hne
  have hpos := Nat.pos_of_ne_zero (ha l hmem)
  have hr : Reasons.misc.applies l.reasons = true ∨ Reasons.fee.applies l.reasons = true := by
    cases l.reasons <;> decide
  have hlar : ∀ r, r.applies l.reasons = true → largestLock r ls ≠ 0 :=
    fun r happ => ne_of_gt (lt_of_lt_of_le hpos (amount_le_largestLock hmem happ))
  exact hr.imp (hlar _) (hlar _)

theorem largestLock_all :
    largestLock .all ls = max (largestLock .misc ls) (largestLock .fee ls) := by
  induction ls with
  | nil => rfl
  | cons l ls ih =>
    simp only [largestLock, Reasons.applies]
    cases l.reasons <;> simp <;> omega

/-- The account is frozen as far as the locks ask for. -/
def AccountData.Frozen (a : AccountData) (locks : List BalanceLock) : Prop :=
  a.miscFrozen = largestLock .misc locks ∧ a.feeFrozen = largestLock .fee locks

theorem AccountData.Frozen.frozen_eq (h : a.Frozen ls) (r : Reasons) :
    a.frozen r = largestLock r ls := by
  obtain ⟨hm, hfee⟩ := h
  cases r with
  | fee => exact hfee
  | misc => exact hm
  | all =>
    rw [largestLock_all, ← hm, ← hfee]
    rfl

/-- The loop of `updateLocks`, from any amounts on. -/
theorem foldl_freeze (locks : List BalanceLock) (a : AccountData) :
    locks.foldl
      (fun acc l =>
        let acc :=
          if l.reasons = .all ∨ l.reasons = .misc then
            { acc with miscFrozen := max acc.miscFrozen l.amount }
          else acc
        if l.reasons = .all ∨ l.reasons = .fee then
          { acc with feeFrozen := max acc.feeFrozen l.amount }
        else acc) a =
      { a with
        miscFrozen := max a.miscFrozen (largestLock .misc locks)
        feeFrozen := max a.feeFrozen (largestLock .fee locks) } := by
  induction locks generalizing a with
  | nil => simp [largestLock]
  | cons l locks ih =>
    rw [foldl_cons, ih]
    obtain ⟨id, amount, rs⟩ := l
    cases rs <;> simp [largestLock, Reasons.applies]

theorem freeze_eq : Storage.freeze ls a =
    { a with miscFrozen := largestLock .misc ls, feeFrozen := largestLock .fee ls } := by
  unfold Storage.freeze
  rw [foldl_freeze]
  simp

theorem freeze_sum : (Storage.freeze ls a).sum = a.sum := by
  rw [freeze_eq]
  rfl

theorem freeze_frozen : (Storage.freeze ls a).Frozen ls := by
  rw [freeze_eq]
  exact ⟨rfl, rfl⟩

/-! ## Lists of locks -/

variable {id : LockIdentifier} {f : BalanceLock → BalanceLock → BalanceLock}

/-- Every lock amounts to something, if merging keeps it so. -/
theorem putLock_amounts {nl : Option BalanceLock}
    (hlk : ∀ l ∈ ls, l.amount ≠ 0) (hnew : ∀ l ∈ nl, l.amount ≠ 0)
    (hm : ∀ old new, new.amount ≠ 0 → (f old new).amount ≠ 0) :
    ∀ l ∈ Storage.putLock id f nl ls, l.amount ≠ 0 := by
  induction ls generalizing nl with
  | nil =>
    intro l hmem
    exact hnew l (Option.mem_toList.mp hmem)
  | cons l ls ih =>
    obtain ⟨hl, hlk⟩ := forall_mem_cons.mp hlk
    unfold Storage.putLock
    split
    · cases nl with
      | none => exact ih hlk nofun
      | some new =>
        exact forall_mem_cons.mpr ⟨hm l new (hnew new rfl), ih hlk nofun⟩
    · exact forall_mem_cons.mpr ⟨hl, ih hlk hnew⟩

end

/-! ## Records that fit the locks -/

/-- The record of an account and its locks fit together. An account with a balance is frozen as
far as its locks ask for, and they hold a reference to it. -/
structure AccountInfo.Guarded (cfg : Config) (i : AccountInfo) (locks : List BalanceLock) :
    Prop where
  deposit : i.data ≠ .default → cfg.existentialDeposit ≤ i.data.sum
  frozen : i.data ≠ .default → i.data.Frozen locks
  amounts : ∀ lock ∈ locks, lock.amount ≠ 0
  providers : 0 < cfg.existentialDeposit →
    i.sufficients = 0 ∧ i.providers = if i.data = .default then 0 else 1
  consumers : 0 < cfg.existentialDeposit → i.data ≠ .default → locks ≠ [] → 0 < i.consumers

variable {A I : Type} [DecidableEq A] {cfg : Config} {s s' : Storage A I} {who : A}
  {a : AccountData} {locks : List BalanceLock} {value : ℕ} {reasons : WithdrawReasons}
  {res : Except Error Unit} {existence : ExistenceRequirement} {liveness : ExistenceRequirement}
  {dest transactor : A} {amount : ℕ}

/-- An account that is not there. -/
theorem AccountInfo.guarded_default (ha : ∀ l ∈ locks, l.amount ≠ 0) : default.Guarded cfg locks :=
  ⟨absurd rfl, absurd rfl, ha, fun _ => ⟨rfl, rfl⟩, fun _ hne => absurd rfl hne⟩

namespace Storage

/-- All accounts fit their locks, and no list of locks is stored that is empty. -/
structure Guarded (cfg : Config) (s : Storage A I) : Prop where
  info : ∀ who, (s.info who).Guarded cfg (s.locksOf who)
  locks : ∀ who, s.locks.get? who ≠ some []

theorem Guarded.solid (h : Guarded cfg s) : Solid cfg s := fun who => (h.info who).deposit

theorem locksOf_congr (h : s'.locks = s.locks) (k : A) : s'.locksOf k = s.locksOf k := by
  unfold locksOf
  rw [h]

theorem Guarded.congr (h : Guarded cfg s) (hacc : s'.account = s.account)
    (hlk : s'.locks = s.locks) : Guarded cfg s' := by
  refine ⟨fun k => ?_, fun k => ?_⟩
  · rw [info_congr hacc, locksOf_congr hlk]
    exact h.info k
  · rw [hlk]
    exact h.locks k

/-- One record has changed. -/
theorem Guarded.setRecord (h : Guarded cfg s) (who : A) (hlk : s'.locks = s.locks)
    (hoth : ∀ k, k ≠ who → s'.info k = s.info k)
    (hwho : (s'.info who).Guarded cfg (s.locksOf who)) : Guarded cfg s' := by
  refine ⟨fun k => ?_, fun k => ?_⟩
  · rw [locksOf_congr hlk]
    by_cases hk : k = who
    · rw [hk]
      exact hwho
    · rw [hoth k hk]
      exact h.info k
  · rw [hlk]
    exact h.locks k

/-- What is written into the record of an account. -/
theorem Stored.info (h : Stored s who a s') :
    (∀ k, k ≠ who → s'.info k = s.info k) ∧ (s'.info who).data = a ∧
      (s'.info who).consumers = (s.info who).consumers ∧
      (s'.info who).sufficients = (s.info who).sufficients ∧
      ((s.info who).sufficients = 0 →
        (s.info who).providers = (if s.data who = .default then 0 else 1) →
        (s'.info who).providers = 1) := by
  cases h with
  | created hnew =>
    refine ⟨fun k hk => ?_, ?_⟩
    · rw [setData, info_setInfo, if_neg hk, info_incProviders_of_ne hk]
    rw [setData, info_setInfo_self]
    unfold incProviders
    dsimp only
    split
    · exact ⟨rfl, by simp, by simp, fun _ _ => by simp⟩
    next hfre => exact ⟨rfl, by simp, by simp, fun hs hp => absurd ⟨hp, hs⟩ hfre⟩
  | updated hold =>
    refine ⟨fun k hk => ?_, ?_⟩
    · rw [setData, info_setInfo, if_neg hk]
    · rw [setData, info_setInfo_self, if_neg hold]
      exact ⟨rfl, rfl, rfl, fun _ h => h⟩

theorem Guarded.stored (h : Guarded cfg s) (hsto : Stored s who a s')
    (hge : cfg.existentialDeposit ≤ a.sum) (hfrz : a ≠ .default → a.Frozen (s.locksOf who))
    (hlk : 0 < cfg.existentialDeposit → s.data who = .default → s.locksOf who = []) :
    Guarded cfg s' := by
  obtain ⟨hoth, hda, hc, hs, hprv⟩ := hsto.info
  obtain ⟨acc, hrest⟩ := hsto.written.rest
  refine h.setRecord who (by rw [hrest]) hoth ⟨?_, ?_, (h.info who).amounts, fun hpos => ?_,
    fun hpos hne hn => ?_⟩
  · rw [hda]
    exact fun _ => hge
  · rw [hda]
    exact hfrz
  · obtain ⟨hz, hcnt⟩ := (h.info who).providers hpos
    have hne : a ≠ .default := by
      rintro rfl
      exact absurd (lt_of_lt_of_le hpos hge) (lt_irrefl 0)
    rw [hda, if_neg hne, hs]
    exact ⟨hz, hprv hz hcnt⟩
  · rw [hc]
    refine (h.info who).consumers hpos (fun hnew => ?_) hn
    exact hn (hlk hpos hnew)

/-- An account can only be removed if it has no locks. -/
theorem Guarded.removed (h : Guarded cfg s) (hpos : 0 < cfg.existentialDeposit)
    (hrm : Removed s who s') :
    Guarded cfg s' ∧ (s.data who ≠ .default → s.locksOf who = []) := by
  cases hrm with
  | absent hnew => exact ⟨h, absurd hnew⟩
  | reaped hold hc =>
    refine ⟨h.setRecord who rfl (fun k hk => ?_) ?_, fun _ => ?_⟩
    · rw [info_erase, if_neg hk]
    · rw [info_erase, if_pos rfl]
      exact guarded_default (h.info who).amounts
    · by_contra hne
      exact absurd hc (ne_of_gt ((h.info who).consumers hpos hold hne))
  | emptied prov hold hdec hm =>
    obtain ⟨hz, hcnt⟩ := (h.info who).providers hpos
    rw [if_neg (show (s.info who).data ≠ .default from hold)] at hcnt
    exact absurd hz (hm (le_of_eq hcnt))

/-! ## Calls that move money -/

/-- The same amounts are frozen. -/
def SameFrozen (a b : AccountData) : Prop := a.miscFrozen = b.miscFrozen ∧ a.feeFrozen = b.feeFrozen

/-- The account has a balance, or no locks. -/
def Unlocked (s : Storage A I) (who : A) : Prop := s.data who = .default → s.locksOf who = []

instance : Decidable (s.Unlocked who) := inferInstanceAs (Decidable (_ → _))

/-- An account is written with the same amounts frozen. -/
theorem Guarded.stored_same (h : Guarded cfg s) (hsto : Stored s who a s')
    (hge : cfg.existentialDeposit ≤ a.sum) (hs : SameFrozen a (s.data who))
    (hn : s.data who = .default → a ≠ .default → s.locksOf who = []) : Guarded cfg s' := by
  refine h.stored hsto hge (fun hne => ?_) fun hpos hnew => hn hnew ?_
  · by_cases hnew : s.data who = .default
    · rw [hn hnew hne]
      rw [hnew] at hs
      exact hs
    · obtain ⟨hm, hfee⟩ := (h.info who).frozen hnew
      exact ⟨hs.1.trans hm, hs.2.trans hfee⟩
  · rintro rfl
    exact absurd (lt_of_lt_of_le hpos hge) (lt_irrefl 0)

variable {R : Type} {id : LockIdentifier} {d : Discard A I R}
  {m : Except Error (R × AccountData)} {o : Except Error R}

section
variable (h : Guarded cfg s)

include h

theorem Guarded.changed (hqt : Quiet d) (hchg : Changed cfg s who d m (o, s'))
    (hs : ∀ r a, m = .ok (r, a) → SameFrozen a (s.data who) ∧
      (s.data who = .default → a ≠ .default → s.locksOf who = [])) : Guarded cfg s' := by
  cases hchg with
  | failed e => exact h
  | stored r a _ hge hsto => exact h.stored_same hsto hge (hs r a rfl).1 (hs r a rfl).2
  | removed r a t hlt hrm =>
    exact (h.removed (zero_lt_of_lt hlt) hrm).1.congr rfl rfl
  | refused r a hlt href => exact h.congr (hqt.account ..) (hqt.locks ..)

/-- A mutation that only succeeds on an account with a balance. -/
theorem Guarded.debited (hqt : Quiet d) (hchg : Changed cfg s who d m (o, s'))
    (hout : ∀ r a, m = .ok (r, a) → SameFrozen a (s.data who) ∧ s.data who ≠ .default) :
    Guarded cfg s' := by
  refine h.changed hqt hchg fun r a hm => ?_
  exact (hout r a hm).imp_right fun hold hnew => absurd hnew hold

/-- What is left of an account that was charged: at least what its locks ask for. -/
theorem Guarded.charged {r : R} (hchg : Changed cfg s who d m (.ok r, s'))
    {rs : Reasons} (hfrz : ∀ a, m = .ok (r, a) →
      s.data who ≠ .default ∧ (s.data who).frozen rs ≤ a.free) :
    largestLock rs (s.locksOf who) ≤ (s'.data who).free := by
  cases hchg with
  | stored _ a _ hge hsto =>
    obtain ⟨hold, hle⟩ := hfrz a rfl
    rw [hsto.written.data_eq, if_pos rfl, ← ((h.info who).frozen hold).frozen_eq]
    exact hle
  | removed _ a t hlt hrm =>
    rw [(h.removed (zero_lt_of_lt hlt) hrm).2 (hfrz a rfl).1]
    exact zero_le _

theorem depositCreating_guarded {n : ℕ} (hres : s.depositCreating cfg who value = (n, s'))
    (hunl : value ≠ 0 → cfg.existentialDeposit ≤ value → value ≤ cfg.maxBalance →
      s.Unlocked who) : Guarded cfg s' := by
  obtain ⟨-, rfl⟩ | ⟨o, -, hchg⟩ := depositCreating_cases hres
  · exact h
  refine h.changed Quiet.positive hchg fun r a hout => ?_
  obtain ⟨hdep, rfl, hr⟩ := creditOrCreate_eq_ok hout
  refine ⟨⟨rfl, rfl⟩, fun hnew hne => ?_⟩
  rw [hnew] at hne hdep hr
  obtain rfl | ⟨rfl, hle⟩ := hr
  · exact absurd rfl hne
  · refine hunl ?_ (by simpa using hdep) (by simpa [AccountData.default] using hle) hnew
    rintro rfl
    exact hne rfl

end

theorem withdraw_guarded (h : Guarded cfg s) {res : Except Error ℕ}
    (hres : s.withdraw cfg who value reasons liveness = (res, s')) :
    Guarded cfg s' ∧ (value ≠ 0 → ∀ n, res = .ok n →
      largestLock (.ofWithdrawReasons reasons) (s.locksOf who) ≤ (s'.data who).free) := by
  obtain ⟨hz, ⟨⟩⟩ | ⟨hz, hres⟩ := ite_eq_iff.mp hres
  · exact ⟨h, absurd hz⟩
  have hchg := Changed.of_eq hres
  refine ⟨h.debited (Quiet.negative) hchg fun r a hout => ?_, fun _ n hok => ?_⟩
  · obtain ⟨-, hle, rfl, -⟩ := debitFree_eq_ok hout
    exact ⟨⟨rfl, rfl⟩, ne_default_of_free hz hle⟩
  · rw [hok] at hchg
    refine h.charged hchg fun a hout => ?_
    obtain ⟨-, hle, -, hfrz⟩ := debitFree_eq_ok hout
    exact ⟨ne_default_of_free hz hle, hfrz.resolve_left hz⟩

theorem reserve_guarded (h : Guarded cfg s) (hres : s.reserve cfg who value = (res, s')) :
    Guarded cfg s' ∧ (value ≠ 0 → res = .ok () →
      largestLock .misc (s.locksOf who) ≤ (s'.data who).free) := by
  obtain ⟨hz, ⟨⟩⟩ | ⟨hz, hres⟩ := ite_eq_iff.mp hres
  · exact ⟨h, absurd hz⟩
  have hchg := Changed.of_eq hres
  refine ⟨h.debited Quiet.nothing hchg fun r a hout => ?_, fun _ hok => ?_⟩
  · obtain ⟨hle, -, rfl, -⟩ := moveToReserved_eq_ok hout
    exact ⟨⟨rfl, rfl⟩, ne_default_of_free hz hle⟩
  · rw [hok] at hchg
    refine h.charged hchg fun a hout => ?_
    obtain ⟨hle, -, -, hfrz⟩ := moveToReserved_eq_ok hout
    exact ⟨ne_default_of_free hz hle, hfrz.resolve_left hz⟩

/-- One attempt at slashing keeps the records guarded, and leaves a balance if it is refused. -/
theorem slashAttempt_guarded (h : Guarded cfg s) (hold : s.data who ≠ .default) {retry : Bool}
    {out : Except Error (ℕ × ℕ)} (hchg : Changed cfg s who (fun r s => s.dropNegative r.1)
      (.ok (slashAccount cfg retry value (s.data who))) (out, s')) :
    Guarded cfg s' ∧ (∀ e, out = .error e → s'.data who ≠ .default) := by
  have hqt := Quiet.negative (A := A) (I := I) (f := Prod.fst (α := ℕ) (β := ℕ))
  refine ⟨h.debited hqt hchg fun r a hout => ⟨?_, hold⟩, ?_⟩
  · have hs : SameFrozen (slashAccount cfg retry value (s.data who)).2 (s.data who) := by
      unfold slashAccount
      dsimp only
      split <;> exact ⟨rfl, rfl⟩
    rwa [Except.ok.inj hout] at hs
  · rintro e rfl
    rwa [data_congr (hchg.of_error hqt).1]

theorem slash_guarded (h : Guarded cfg s) {r : ℕ × ℕ}
    (hres : s.slash cfg who value = (r, s')) : Guarded cfg s' := by
  obtain ⟨-, rfl, -⟩ | ⟨-, htot, hsld⟩ := slashWith_cases hres
  · exact h
  have hold : s.data who ≠ .default := by
    intro hnew
    rw [hnew] at htot
    simp [AccountData.total, saturatingAdd, AccountData.default] at htot
  generalize r.1 = imbalance at hsld
  cases hsld with
  | first _ _ hfst => exact (slashAttempt_guarded h hold hfst).1
  | second e t _ out hfst hsec =>
    obtain ⟨hgdd, hs⟩ := slashAttempt_guarded h hold hfst
    exact (slashAttempt_guarded hgdd (hs e rfl) hsec).1

/-- The destination of a transfer is written, after the source. -/
theorem Guarded.landed {t : Storage A I} (h : Guarded cfg t) (hne : dest ≠ transactor)
    {b : AccountData} (hsrc : Written s transactor b t) (hde : Stored t dest a s')
    (hge : cfg.existentialDeposit ≤ a.sum) (hs : SameFrozen a (s.data dest))
    (hunl : s.Unlocked dest) : Guarded cfg s' := by
  have hda : t.data dest = s.data dest := by rw [hsrc.data_eq, if_neg hne]
  obtain ⟨acc, rfl⟩ := hsrc.rest
  refine h.stored_same hde hge ?_ fun hnew _ => hunl (hda ▸ hnew)
  rw [hda]
  exact hs

theorem transfer_guarded (h : Guarded cfg s)
    (hres : s.transfer cfg transactor dest value existence = (res, s'))
    (hunl : ¬(value = 0 ∨ transactor = dest) →
      (s.moveFree cfg transactor value existence (s.data dest) (s.data transactor)).isOk →
      s.Unlocked dest) :
    Guarded cfg s' ∧ (¬(value = 0 ∨ transactor = dest) → res = .ok () →
      largestLock .misc (s.locksOf transactor) ≤ (s'.data transactor).free) := by
  obtain ⟨hn, -, rfl⟩ | ⟨hz, hne, htwo⟩ := transfer_cases hres
  · exact ⟨h, absurd hn⟩
  have hunl := hunl (not_or.mpr ⟨hz, hne⟩)
  generalize hout : s.moveFree cfg transactor value existence (s.data dest)
    (s.data transactor) = out at htwo hunl
  cases htwo with
  | failed e => exact ⟨h, fun _ hok => nomatch hok⟩
  | refused r to' f' hlt href => exact ⟨h.congr rfl rfl, fun _ hok => nomatch hok⟩
  | stored r to' f' t _ hge hsrc hde =>
    obtain ⟨hle, rfl, rfl, hto, -, hfrz⟩ := moveFree_eq_ok hout
    have hold := ne_default_of_free hz hle
    have hgdd : Guarded cfg t := h.stored_same hsrc hge ⟨rfl, rfl⟩ fun hnew => absurd hnew hold
    refine ⟨hgdd.landed (symm hne) hsrc.written hde hto ⟨rfl, rfl⟩ (hunl rfl), fun _ _ => ?_⟩
    rw [hde.written.data_eq, if_neg hne, hsrc.written.data_eq, if_pos rfl,
      ← ((h.info transactor).frozen hold).frozen_eq]
    exact hfrz.resolve_left hz
  | removed r to' f' t u hlt hsrc hde =>
    obtain ⟨hle, rfl, rfl, hto, -, hfrz⟩ := moveFree_eq_ok hout
    obtain ⟨hgdd, hnone⟩ := h.removed (zero_lt_of_lt hlt) hsrc
    have hl := hgdd.landed (symm hne) hsrc.written hde hto ⟨rfl, rfl⟩ (hunl rfl)
    refine ⟨hl.congr rfl rfl, fun _ _ => ?_⟩
    rw [hnone (ne_default_of_free hz hle)]
    exact zero_le _

/-! ## Calls that change the locks -/

/-- An account whose record has been written for its new locks, before these are stored. -/
structure Refrozen (cfg : Config) (s : Storage A I) (who : A) (locks : List BalanceLock)
    (s' : Storage A I) : Prop where
  rest : s'.locks = s.locks
  other : ∀ k, k ≠ who → s'.info k = s.info k
  deposit : s'.data who ≠ .default → cfg.existentialDeposit ≤ (s'.data who).sum
  frozen : s'.data who ≠ .default → (s'.data who).Frozen locks
  providers : 0 < cfg.existentialDeposit → (s'.info who).sufficients = 0 ∧
    (s'.info who).providers = if (s'.info who).data = .default then 0 else 1
  consumers : 0 < cfg.existentialDeposit → s'.data who ≠ .default → s.locksOf who ≠ [] →
    0 < (s'.info who).consumers

section
variable (h : Guarded cfg s)

include h

theorem mutateAccount_refrozen (ls : List BalanceLock) :
    Refrozen cfg s who ls (s.mutateAccount cfg who fun acc => ((), freeze ls acc)).2 := by
  unfold mutateAccount
  have hsum : (freeze ls (s.data who)).sum = (s.data who).sum := freeze_sum
  by_cases hge : cfg.existentialDeposit ≤ (s.data who).sum
  · obtain ⟨s', hmut, hsto⟩ := tryMutateAccount_of_ge
      (fun acc _ => .ok ((), freeze ls acc)) (fun _ s => s) rfl (hsum ▸ hge)
    rw [hmut]
    obtain ⟨hoth, hda, hc, hs, hprv⟩ := hsto.info
    obtain ⟨acc, hrest⟩ := hsto.written.rest
    have hold : ∀ a : AccountData, 0 < cfg.existentialDeposit → a.sum = (s.data who).sum →
        a ≠ .default := by
      rintro _ hpos heq rfl
      rw [← heq] at hge
      exact absurd (lt_of_lt_of_le hpos hge) (lt_irrefl 0)
    refine ⟨by rw [hrest], hoth, fun _ => ?_, fun _ => ?_, fun hpos => ?_, fun hpos _ => ?_⟩
    · rw [data, hda, hsum]
      exact hge
    · rw [data, hda]
      exact freeze_frozen
    · obtain ⟨hz, hcnt⟩ := (h.info who).providers hpos
      rw [hda, if_neg (hold _ hpos hsum), hs]
      exact ⟨hz, hprv hz hcnt⟩
    · rw [hc]
      exact (h.info who).consumers hpos (hold _ hpos rfl)
  · -- There is no balance to be frozen.
    have hlt := Nat.lt_of_not_le hge
    have hnew : s.data who = .default := by
      by_contra hold
      exact hge (h.solid who hold)
    obtain ⟨s', hmut, hrm⟩ := tryMutateAccount_of_lt
      (fun acc _ => .ok ((), freeze ls acc)) (fun _ s => s) rfl (hsum ▸ hlt)
      fun href => href.1 hnew
    rw [hmut]
    cases hrm with
    | absent _ =>
      exact ⟨rfl, fun _ _ => rfl, absurd hnew, absurd hnew,
        (h.info who).providers, fun _ hold => absurd hnew hold⟩
    | reaped hold | emptied _ hold => exact absurd hnew hold

/-- The new locks are stored, and the references to the account counted anew. -/
theorem Refrozen.guarded {t : Storage A I} (hr : Refrozen cfg s who locks t)
    (ha : ∀ l ∈ locks, l.amount ≠ 0) {c : ℕ}
    (hi : ∀ k, s'.info k = if k = who then { t.info who with consumers := c } else t.info k)
    (hlk : ∀ k, s'.locks.get? k =
      if k = who then if locks = [] then none else some locks else s.locks.get? k)
    (hc : 0 < cfg.existentialDeposit → t.data who ≠ .default → locks ≠ [] → 0 < c) :
    Guarded cfg s' := by
  refine ⟨fun k => ?_, fun k => ?_⟩
  · unfold locksOf
    rw [hi, hlk]
    by_cases hk : k = who
    · have hl : (if locks = [] then none else some locks).getD [] = locks := by
        split
        next hnil => exact hnil.symm
        · rfl
      rw [if_pos hk, if_pos hk, hl]
      exact ⟨hr.deposit, hr.frozen, ha, hr.providers, hc⟩
    · rw [if_neg hk, if_neg hk, hr.other k hk]
      exact h.info k
  · rw [hlk]
    split
    · split
      · rintro ⟨⟩
      next hne => exact fun heq => hne (Option.some.inj heq)
    · exact h.locks k

/-- Locks are stored if there are any. -/
theorem Guarded.locksOf_ne_nil (hexi : (s.locks.get? who).isSome = true) : s.locksOf who ≠ [] := by
  obtain ⟨l, hget⟩ := Option.isSome_iff_exists.mp hexi
  unfold locksOf
  rw [hget]
  rintro rfl
  exact h.locks who hget

theorem updateLocks_guarded (ha : ∀ l ∈ locks, l.amount ≠ 0) :
    Guarded cfg (s.updateLocks cfg who locks) := by
  have hr : Refrozen cfg s who locks _ := mutateAccount_refrozen h locks
  unfold updateLocks
  generalize s.mutateAccount cfg who (fun acc => ((), freeze locks acc)) = out at hr
  obtain ⟨res, t⟩ := out
  dsimp only at hr ⊢
  have hs : ∀ k, t.info k =
      if k = who then { t.info who with consumers := (t.info who).consumers } else t.info k := by
    intro k
    split
    next hk => rw [hk]
    · rfl
  rw [hr.rest]
  by_cases hnil : locks = []
  · have her : ∀ k, (s.locks.erase who).get? k =
        if k = who then if locks = [] then none else some locks else s.locks.get? k := by
      intro k
      rw [if_pos hnil, FinMap.get?_erase]
    rw [if_pos (by rw [hnil]; rfl)]
    split
    · exact hr.guarded h ha (fun k => info_setInfo) her fun _ _ hne => absurd hnil hne
    · exact hr.guarded h ha hs her fun _ _ hne => absurd hnil hne
  have hins : ∀ k, (s.locks.insert who locks).get? k =
      if k = who then if locks = [] then none else some locks else s.locks.get? k := by
    intro k
    rw [if_neg hnil, FinMap.get?_insert]
  rw [if_neg (by simpa using hnil)]
  split
  next hexi =>
    refine hr.guarded h ha hs hins fun hpos hold _ => ?_
    exact hr.consumers hpos hold (h.locksOf_ne_nil hexi)
  · unfold incConsumersWithoutLimit
    dsimp only
    split
    · refine hr.guarded h ha (fun k => info_setInfo) hins fun _ _ _ => ?_
      unfold saturatingAdd refCountMax
      omega
    next hp =>
      refine hr.guarded h ha hs hins fun hpos hold _ => ?_
      have hcnt := (hr.providers hpos).2
      rw [if_neg (show (t.info who).data ≠ .default from hold)] at hcnt
      exact absurd (lt_of_lt_of_eq Nat.zero_lt_one hcnt.symm) hp

theorem setLock_guarded : Guarded cfg (s.setLock cfg id who amount reasons) := by
  unfold setLock
  split
  · exact h
  next hs =>
    obtain ⟨ham, -⟩ := not_or.mp hs
    refine updateLocks_guarded h (putLock_amounts (h.info who).amounts ?_ fun _ _ hnew => hnew)
    rintro _ ⟨⟩
    exact ham

theorem extendLock_guarded : Guarded cfg (s.extendLock cfg id who amount reasons) := by
  unfold extendLock
  split
  · exact h
  rename_i hs
  obtain ⟨ham, -⟩ := not_or.mp hs
  refine updateLocks_guarded h (putLock_amounts (h.info who).amounts ?_ fun old new hnew => ?_)
  · rintro _ ⟨⟩
    exact ham
  · dsimp only
    omega

end

end Storage

/-! ## Runs -/

inductive LockCall (A : Type)
  | setLock (id : LockIdentifier) (who : A) (amount : ℕ) (reasons : WithdrawReasons)
  | extendLock (id : LockIdentifier) (who : A) (amount : ℕ) (reasons : WithdrawReasons)
  | removeLock (id : LockIdentifier) (who : A)
  | depositCreating (who : A) (value : ℕ)
  | transfer (transactor dest : A) (value : ℕ) (existence : ExistenceRequirement)
  | withdraw (who : A) (value : ℕ) (reasons : WithdrawReasons) (liveness : ExistenceRequirement)
  | reserve (who : A) (value : ℕ)
  | slash (who : A) (value : ℕ)

namespace Storage

def lockCall (cfg : Config) (s : Storage A I) : LockCall A → Storage A I
  | .setLock id who amount reasons => s.setLock cfg id who amount reasons
  | .extendLock id who amount reasons => s.extendLock cfg id who amount reasons
  | .removeLock id who => s.removeLock cfg id who
  | .depositCreating who value => (s.depositCreating cfg who value).2
  | .transfer transactor dest value existence => (s.transfer cfg transactor dest value existence).2
  | .withdraw who value reasons liveness => (s.withdraw cfg who value reasons liveness).2
  | .reserve who value => (s.reserve cfg who value).2
  | .slash who value => (s.slash cfg who value).2

/-- Every account with a balance is frozen as far as its locks ask for. -/
def Locked (s : Storage A I) : Prop :=
  ∀ who, (s.data who).sum ≠ 0 → (s.data who).Frozen (s.locksOf who)

/-- A call by an account with a balance that succeeds leaves it with what its locks ask for. -/
def Respected (cfg : Config) (s : Storage A I) : LockCall A → Prop
  | .transfer transactor dest value existence =>
    (s.transfer cfg transactor dest value existence).1 = .ok () → (s.data transactor).sum ≠ 0 →
      largestLock .misc (s.locksOf transactor) ≤
        ((s.transfer cfg transactor dest value existence).2.data transactor).free
  | .withdraw who value reasons liveness =>
    ∀ n, (s.withdraw cfg who value reasons liveness).1 = .ok n → (s.data who).sum ≠ 0 →
      largestLock (.ofWithdrawReasons reasons) (s.locksOf who) ≤
        ((s.withdraw cfg who value reasons liveness).2.data who).free
  | .reserve who value =>
    (s.reserve cfg who value).1 = .ok () → (s.data who).sum ≠ 0 →
      largestLock .misc (s.locksOf who) ≤ ((s.reserve cfg who value).2.data who).free
  | _ => True

/-- What the locks ask for is there. -/
def Sufficient (s : Storage A I) (who : A) (reasons : Reasons) : Prop :=
  (s.data who).sum ≠ 0 → largestLock reasons (s.locksOf who) ≤ (s.data who).free

instance {reasons : Reasons} : Decidable (s.Sufficient who reasons) :=
  inferInstanceAs (Decidable (_ → _))

/-- No account that has locks but no balance is given one: by a deposit that can create an account,
or by a transfer that the two accounts allow. And where a call takes nothing, what the locks ask for
is there already. -/
def Careful (cfg : Config) (s : Storage A I) : LockCall A → Prop
  | .depositCreating who value =>
    value ≠ 0 → cfg.existentialDeposit ≤ value → value ≤ cfg.maxBalance → s.Unlocked who
  | .transfer transactor dest value existence =>
    (¬(value = 0 ∨ transactor = dest) →
      (s.moveFree cfg transactor value existence (s.data dest) (s.data transactor)).isOk →
        s.Unlocked dest) ∧
      (value = 0 ∨ transactor = dest → s.Sufficient transactor .misc)
  | .withdraw who value reasons _ => value = 0 → s.Sufficient who (.ofWithdrawReasons reasons)
  | .reserve who value => value = 0 → s.Sufficient who .misc
  | _ => True

theorem Guarded.locked (h : Guarded cfg s) : s.Locked := by
  intro who hsum
  refine (h.info who).frozen fun hnew => hsum ?_
  rw [data, hnew]
  rfl

/-- One careful call. -/
theorem Guarded.lockCall (h : Guarded cfg s) (c : LockCall A) (hc : s.Careful cfg c) :
    Guarded cfg (s.lockCall cfg c) := by
  cases c with
  | setLock => exact setLock_guarded h
  | extendLock => exact extendLock_guarded h
  | removeLock id who =>
    exact updateLocks_guarded h fun l hmem =>
      (h.info who).amounts l (mem_of_mem_filter hmem)
  | depositCreating => exact depositCreating_guarded h rfl hc
  | transfer => exact (transfer_guarded h rfl hc.1).1
  | withdraw => exact (withdraw_guarded h rfl).1
  | reserve => exact (reserve_guarded h rfl).1
  | slash => exact slash_guarded h rfl

/-- A call that takes nothing changes nothing. -/
theorem transfer_nothing (h : value = 0 ∨ transactor = dest) :
    s.transfer cfg transactor dest value existence = (.ok (), s) := if_pos h

theorem Guarded.respected (h : Guarded cfg s) (c : LockCall A) (hc : s.Careful cfg c) :
    s.Respected cfg c := by
  cases c with
  | setLock | extendLock | removeLock | depositCreating | slash => trivial
  | transfer transactor dest value existence =>
    intro hok hsum
    by_cases hn : value = 0 ∨ transactor = dest
    · rw [transfer_nothing hn]
      exact hc.2 hn hsum
    · exact (transfer_guarded h rfl hc.1).2 hn hok
  | withdraw who value reasons liveness =>
    intro n hok hsum
    by_cases hz : value = 0
    · subst hz
      exact hc rfl hsum
    · exact (withdraw_guarded h rfl).2 hz n hok
  | reserve who value =>
    intro hok hsum
    by_cases hz : value = 0
    · subst hz
      exact hc rfl hsum
    · exact (reserve_guarded h rfl).2 hz hok

/-- An account with a balance and nothing frozen has no locks. -/
theorem Guarded.locksOf_eq_nil (h : Guarded cfg s) (hlkd : s'.Locked) (hlk : s'.locks = s.locks)
    (hs : SameFrozen (s'.data who) .default) (hsum : (s'.data who).sum ≠ 0) :
    s.locksOf who = [] := by
  by_contra hn
  obtain ⟨hm, hf⟩ := hlkd who hsum
  rw [locksOf_congr hlk] at hm hf
  obtain hne | hne := largestLock_ne_zero hn (h.info who).amounts
  · exact hne (hm.symm.trans hs.1)
  · exact hne (hf.symm.trans hs.2)

/-- A deposit that can create the account does so. -/
theorem depositCreating_creates (hnew : s.data who = .default) (hz : value ≠ 0)
    (hdep : cfg.existentialDeposit ≤ value) (hle : value ≤ cfg.maxBalance) :
    (s.depositCreating cfg who value).2.locks = s.locks ∧
      (s.depositCreating cfg who value).2.data who =
        { AccountData.default with free := value } := by
  have hchg := tryMutateAccount_cases cfg s who (creditOrCreate cfg value) (dropPositive cfg)
  have hcredit : creditOrCreate cfg value (s.data who) (decide (s.data who = .default)) =
      .ok (value, { AccountData.default with free := value }) := by
    have hadd : checkedAdd cfg.maxBalance 0 value = some value :=
      checkedAdd_eq_some.mpr ⟨by rwa [Nat.zero_add], (Nat.zero_add value).symm⟩
    rw [creditOrCreate, ensure, if_pos (.inl hdep), hnew]
    simp [AccountData.default, hadd]
  rw [hcredit] at hchg
  rw [depositCreating, if_neg hz]
  generalize s.tryMutateAccount cfg who (creditOrCreate cfg value) (dropPositive cfg) = out
    at hchg ⊢
  cases hchg with
  | stored _ _ s' _ hsto =>
    obtain ⟨account, hs'⟩ := hsto.written.rest
    dsimp only
    rw [hsto.written.data_eq, if_pos rfl]
    exact ⟨by rw [hs'], rfl⟩
  | removed _ _ _ hlt | refused _ _ hlt => exact absurd hdep (not_le.mpr hlt)

/-- A transfer that the two accounts allow is made. -/
theorem transfer_credits (hn : ¬(value = 0 ∨ transactor = dest))
    (hok : (s.moveFree cfg transactor value existence (s.data dest) (s.data transactor)).isOk) :
    (s.transfer cfg transactor dest value existence).2.locks = s.locks ∧
      (s.transfer cfg transactor dest value existence).2.data dest =
        { s.data dest with free := (s.data dest).free + value } := by
  generalize hres : s.transfer cfg transactor dest value existence = out
  obtain ⟨res, s'⟩ := out
  obtain ⟨hnone, -⟩ | ⟨-, -, htwo⟩ := transfer_cases hres
  · exact absurd hnone hn
  cases res with
  | ok r =>
    obtain ⟨to', from', acc, iss, c, hout, hs', hda⟩ := htwo.data_eq
    obtain ⟨-, rfl, -⟩ := moveFree_eq_ok hout
    refine ⟨by rw [hs'], ?_⟩
    rw [hda, if_pos rfl]
  | error e =>
    generalize hout : s.moveFree cfg transactor value existence (s.data dest)
      (s.data transactor) = out at htwo hok
    cases htwo with
    | failed => cases hok
    | refused r to' from' hlt href =>
      obtain ⟨-, -, -, -, hdec | hge, -⟩ := moveFree_eq_ok hout
      · exact absurd hdec href.2
      · exact absurd hge (not_le.mpr hlt)

/-- A step is right exactly if the call is careful. -/
theorem Guarded.locked_and_respected_iff (h : Guarded cfg s) (c : LockCall A) :
    (s.lockCall cfg c).Locked ∧ s.Respected cfg c ↔ s.Careful cfg c := by
  constructor
  · rintro ⟨hlkd, hr⟩
    cases c with
    | setLock | extendLock | removeLock | slash => trivial
    | depositCreating who value =>
      intro hz hdep hle hnew
      obtain ⟨hlk, hda⟩ := depositCreating_creates hnew hz hdep hle
      exact h.locksOf_eq_nil hlkd hlk (hda ▸ ⟨rfl, rfl⟩) (hda ▸ hz)
    | transfer transactor dest value existence =>
      refine ⟨fun hn hok hnew => ?_, fun hn hsum => ?_⟩
      · obtain ⟨hlk, hda⟩ := transfer_credits hn hok
        rw [hnew] at hda
        refine h.locksOf_eq_nil hlkd hlk (hda ▸ ⟨rfl, rfl⟩) (hda ▸ ?_)
        simpa [AccountData.sum, AccountData.default] using (not_or.mp hn).1
      · simp only [Respected, transfer_nothing hn] at hr
        exact hr trivial hsum
    | withdraw who value reasons liveness =>
      rintro rfl hsum
      exact hr 0 rfl hsum
    | reserve who value =>
      rintro rfl hsum
      exact hr rfl hsum
  · exact fun hc => ⟨(h.lockCall c hc).locked, h.respected c hc⟩

/-- Locks are enforced exactly in the runs of careful calls. -/
theorem locked_iff_careful (hs : Guarded cfg s) (calls : List (LockCall A)) :
    Run.Always (lockCall cfg) Locked s calls ∧ Run.Each (lockCall cfg) (Respected cfg) s calls ↔
      Run.Each (lockCall cfg) (Careful cfg) s calls :=
  Run.always_and_each_iff (fun _ h => h.locked) (fun _ c h hc => h.lockCall c hc)
    (fun _ c h => h.locked_and_respected_iff c) hs

instance (s : Storage A I) (c : LockCall A) : Decidable (s.Careful cfg c) := by
  cases c <;> unfold Careful <;> infer_instance

/-- Balances below 900, and 10 to exist. -/
def lockConfig : Config := ⟨900, 10, 5, by decide, by decide⟩

/-- No accounts. -/
def noAccounts : Storage ℕ ℕ := ⟨.empty, 0, .empty, .empty, false, false⟩

theorem guarded_noAccounts : Guarded lockConfig noAccounts :=
  ⟨fun _ => guarded_default nofun, fun _ => nofun⟩

/-- Account 0 is funded, gets two locks of which one is extended and the other one removed,
pays, and is slashed. -/
def carefulRun : List (LockCall ℕ) :=
  [.depositCreating 0 100, .setLock 1 0 40 .RESERVE, .setLock 2 0 60 .TRANSACTION_PAYMENT,
    .extendLock 1 0 50 .TRANSACTION_PAYMENT, .transfer 0 1 20 .allowDeath,
    .withdraw 0 20 .TRANSACTION_PAYMENT .allowDeath, .removeLock 2 0, .reserve 0 30, .slash 0 95]

theorem locked_carefulRun :
    Run.Always (lockCall lockConfig) Locked noAccounts carefulRun ∧
      Run.Each (lockCall lockConfig) (Respected lockConfig) noAccounts carefulRun :=
  (locked_iff_careful guarded_noAccounts carefulRun).mpr (by decide +kernel)

/-- Account 0 gets a lock before it is funded. -/
def fundingRun : List (LockCall ℕ) :=
  [.setLock 1 0 40 .TRANSFER, .depositCreating 0 100, .transfer 0 1 80 .keepAlive]

/-- Nothing of the account is frozen, and it is left with half of what its lock asks for. -/
theorem not_locked_fundingRun :
    Guarded lockConfig noAccounts ∧
      ¬Run.Always (lockCall lockConfig) Locked noAccounts fundingRun ∧
      ¬Run.Each (lockCall lockConfig) (Respected lockConfig) noAccounts fundingRun := by
  refine ⟨guarded_noAccounts, fun h => ?_, fun h => ?_⟩
  · have hfrz := (h.last 0 (by decide +kernel)).1
    revert hfrz
    decide +kernel
  · have hr := h (fundingRun.take 2) (.transfer 0 1 80 .keepAlive) prefix_rfl
      (by decide +kernel) (by decide +kernel)
    revert hr
    decide +kernel

end Storage

end Balances
