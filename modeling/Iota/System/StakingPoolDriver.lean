import Mathlib
import Iota.System.StakingPool

/-! One staking pool as the validator set drives it, `validator` and
`validator_set`. A stake activates at the next epoch, and a pool that is not
active yet takes it at once (`validator::request_add_stake`); rewards go to
active pools only; at each epoch change an active pool processes its pending
stakes and withdrawals and may then leave the active set, a pending pool may
become active from the new epoch, and a candidate's pool may be deactivated
when the candidate withdraws. Along every such run a withdrawal never aborts,
the boundary processing fails only where `process_pending_stake` overflows,
and the pool tokens the active stakes own fit in the pool's token supply less
its pending withdrawals. -/

namespace Iota.System.StakingPool

open Iota.Lib Iota.Lib.Move

/-- The current epoch and one pool with the objects it issued. -/
structure Chain where
  ledger : Ledger
  epoch : ℕ

def Chain.start (poolId epoch : ℕ) : Chain := ⟨Ledger.init poolId, epoch⟩

inductive Drive : Chain → Chain → Prop
  /-- `validator::request_add_stake`: the stake activates at the next epoch, and
  a pool that is not active yet processes it at once. -/
  | requestAddStake {c : Chain} {l l' : Ledger} (stake : ℕ) :
      c.epoch + 1 < 2 ^ 64 →
      (Call.requestAddStake stake (c.epoch + 1)).run c.ledger = .ok l →
      (if l.pool.isPreactive then Call.processPendingStake.run l else .ok l) = .ok l' →
      Drive c ⟨l', c.epoch⟩
  | requestWithdrawStake {c : Chain} {l : Ledger} (index : ℕ) :
      (Call.requestWithdrawStake index c.epoch).run c.ledger = .ok l → Drive c ⟨l, c.epoch⟩
  /-- `distribute_reward`: rewards go to the pools of the active set. -/
  | depositRewards {c : Chain} {l : Ledger} (rewards : ℕ) :
      c.ledger.pool.isPreactive = false → c.ledger.pool.isInactive = false →
      (Call.depositRewards rewards).run c.ledger = .ok l → Drive c ⟨l, c.epoch⟩
  /-- `validator_set::advance_epoch` for a pool of the active set: its pending
  stakes and withdrawals are processed, and then it may leave the set. -/
  | advanceEpoch {c : Chain} {l l' : Ledger} (leaves : Bool) :
      c.ledger.pool.isPreactive = false → c.ledger.pool.isInactive = false →
      (Call.processPendingStakesAndWithdraws c.epoch).run c.ledger = .ok l →
      (if leaves then (Call.deactivateStakingPool (c.epoch + 1)).run l else .ok l) = .ok l' →
      Drive c ⟨l', c.epoch + 1⟩
  /-- `process_pending_validators`: a pending validator is active from the new epoch. -/
  | activate {c : Chain} {l : Ledger} :
      (Call.activateStakingPool (c.epoch + 1)).run c.ledger = .ok l → Drive c ⟨l, c.epoch + 1⟩
  /-- An epoch change leaves a pool outside the active set alone. -/
  | advanceIdle {c : Chain} :
      (c.ledger.pool.isPreactive = true ∨ c.ledger.pool.isInactive = true) → Drive c ⟨c.ledger, c.epoch + 1⟩
  /-- `request_remove_validator_candidate`. -/
  | removeCandidate {c : Chain} {l : Ledger} :
      c.ledger.pool.isPreactive = true →
      (Call.deactivateStakingPool c.epoch).run c.ledger = .ok l → Drive c ⟨l, c.epoch⟩

/-- A stake whose principal is in the pool's IOTA balance: a pool that is not
active yet takes stakes at once, an active one at the boundary before their
activation epoch. -/
def processed (activationEpoch : Option ℕ) (epoch : ℕ) (stakedIota : StakedIota) : Bool :=
  activationEpoch.isNone || decide (stakedIota.stakeActivationEpoch ≤ epoch)

/-- The pool tokens a stake owns: its principal at the rate of its activation
epoch, as `withdraw_from_principal` computes them. -/
def stakeTokens (pool : StakingPoolV1) (stakedIota : StakedIota) : Except Abort ℕ := do
  let rate ← poolTokenExchangeRateAtEpoch pool stakedIota.stakeActivationEpoch
  getTokenAmount rate stakedIota.principal

/-- What the pool owes its stakers is covered: the pending stake is the
principal of the stakes not yet processed, the IOTA balance covers the pending
withdrawals, the processed principal and the rewards pool, and the token supply
covers the pending token withdrawals and the tokens the processed stakes own. -/
structure Solvent (pool : StakingPoolV1) (stakes : List StakedIota) (epoch : ℕ) : Prop where
  pool_id : ∀ st ∈ stakes, st.poolId = pool.id
  principal_pos : ∀ st ∈ stakes, 0 < st.principal
  activation_le : ∀ st ∈ stakes, st.stakeActivationEpoch ≤ epoch + 1
  pending_eq : pool.pendingStake =
    ((stakes.filter fun st => !processed pool.activationEpoch epoch st).map StakedIota.principal).sum
  iota_covers : pool.pendingTotalIotaWithdraw +
    ((stakes.filter (processed pool.activationEpoch epoch)).map StakedIota.principal).sum + pool.rewardsPool ≤ pool.iotaBalance
  tokens_cover : ∃ f : StakedIota → ℕ, (∀ st ∈ stakes, processed pool.activationEpoch epoch st = true → stakeTokens pool st = .ok (f st)) ∧
    pool.pendingPoolTokenWithdraw + ((stakes.filter (processed pool.activationEpoch epoch)).map f).sum ≤ pool.poolTokenBalance
  rates_le : ∀ k v, pool.exchangeRates.lookup k = some v → k ≤ epoch
  activated : ∀ a, pool.activationEpoch = some a → a ≤ epoch
  deactivated : ∀ d, pool.deactivationEpoch = some d →
    d ≤ epoch ∧ ∀ a, pool.activationEpoch = some a → ∀ st ∈ stakes, st.stakeActivationEpoch ≤ d
  preactive : pool.activationEpoch = none →
    pool.poolTokenBalance = pool.iotaBalance ∧ pool.pendingPoolTokenWithdraw = pool.pendingTotalIotaWithdraw
  bounded : pool.iotaBalance < 2 ^ 64 ∧ pool.poolTokenBalance < 2 ^ 64
  current_rate : ∀ a, pool.activationEpoch = some a → ∃ rate, poolTokenExchangeRateAtEpoch pool epoch = .ok rate ∧
    rate.iotaAmount < 2 ^ 64 ∧ rate.poolTokenAmount < 2 ^ 64 ∧
    (rate.iotaAmount = 0 ∨ rate.poolTokenAmount = 0 ∨ pool.poolTokenBalance ≤ rate.poolTokenAmount)

/-! ### The tokens at the epoch boundary -/

theorem add_sum_convertedAmount_le {I₀ T₀ old : ℕ} (ps : List ℕ) (hold : old ≤ T₀) (hempty : I₀ = 0 → old = 0) :
    old + (ps.map (convertedAmount (convertedAmount T₀ I₀ (I₀ + ps.sum)) (I₀ + ps.sum))).sum ≤
      convertedAmount T₀ I₀ (I₀ + ps.sum) := by
  by_cases hzero : T₀ = 0 ∨ I₀ = 0
  · -- an empty pool starts over at 1:1
    have hold0 : old = 0 := by omega
    have hT : convertedAmount T₀ I₀ (I₀ + ps.sum) = I₀ + ps.sum := if_pos hzero
    have hone : ∀ p, convertedAmount (I₀ + ps.sum) (I₀ + ps.sum) p = p := by
      intro p
      unfold convertedAmount
      split_ifs with h
      · rfl
      · exact Nat.mul_div_cancel_left p (by omega)
    have hmap : ps.map (convertedAmount (I₀ + ps.sum) (I₀ + ps.sum)) = ps :=
      (List.map_congr_left fun p _ => hone p).trans (List.map_id' ps)
    rw [hT, hmap, hold0]
    omega
  · have hT : convertedAmount T₀ I₀ (I₀ + ps.sum) = T₀ * (I₀ + ps.sum) / I₀ := if_neg hzero
    obtain ⟨hlow, hroom⟩ := add_mul_div_le_of_rescale (s := T₀) (a := I₀) (d := ps.sum) (Nat.pos_of_ne_zero (by omega))
    have hnew : ps.map (convertedAmount (T₀ * (I₀ + ps.sum) / I₀) (I₀ + ps.sum)) =
        ps.map fun p => T₀ * (I₀ + ps.sum) / I₀ * p / (I₀ + ps.sum) :=
      List.map_congr_left fun p _ => if_neg (by omega)
    have hsum : (ps.map fun p => T₀ * (I₀ + ps.sum) / I₀ * p / (I₀ + ps.sum)).sum ≤
        T₀ * (I₀ + ps.sum) / I₀ * ps.sum / (I₀ + ps.sum) := by
      have h := sum_map_div_le ps (fun p => T₀ * (I₀ + ps.sum) / I₀ * p) (I₀ + ps.sum)
      rwa [List.sum_map_mul_left ps (fun p => p) (T₀ * (I₀ + ps.sum) / I₀), List.map_id'] at h
    rw [hT, hnew]
    omega

theorem convertedAmount_rescaled_self (I₀ T₀ P : ℕ) :
    convertedAmount (convertedAmount T₀ I₀ (I₀ + P)) (I₀ + P) (I₀ + P) = convertedAmount T₀ I₀ (I₀ + P) := by
  by_cases hzero : T₀ = 0 ∨ I₀ = 0
  · simp only [convertedAmount, if_pos hzero]
    split_ifs with h
    · rfl
    · exact Nat.mul_div_cancel _ (by omega)
  · have hlow := (add_mul_div_le_of_rescale (s := T₀) (a := I₀) (d := P) (Nat.pos_of_ne_zero (by omega))).1
    simp only [convertedAmount, if_neg hzero]
    rw [if_neg (by omega)]
    exact Nat.mul_div_cancel _ (by omega)

/-! ### What the invariant rests on -/

section Helpers

variable {pool pool' : StakingPoolV1} {stakes : List StakedIota} {epoch : ℕ}

theorem activationEpoch_eq_none (h : pool.isPreactive = true) : pool.activationEpoch = none := by
  simpa [StakingPoolV1.isPreactive] using h

theorem exists_activationEpoch (h : pool.isPreactive = false) : ∃ a, pool.activationEpoch = some a :=
  Option.isSome_iff_exists.mp (by simpa [StakingPoolV1.isPreactive] using h)

theorem deactivationEpoch_eq_none (h : pool.isInactive = false) : pool.deactivationEpoch = none := by
  simpa [StakingPoolV1.isInactive] using h

theorem lookup_cons_self {k : ℕ} {v : PoolTokenExchangeRate} {t : List (ℕ × PoolTokenExchangeRate)} :
    ((k, v) :: t).lookup k = some v := by
  simp

theorem lookup_cons_of_ne {k k' : ℕ} {v : PoolTokenExchangeRate} {t : List (ℕ × PoolTokenExchangeRate)}
    (h : k ≠ k') : ((k', v) :: t).lookup k = t.lookup k := by
  have hbeq : (k == k') = false := beq_false_of_ne h
  simp only [List.lookup_cons, hbeq]

theorem eq_or_lookup_of_lookup_cons {k k' : ℕ} {v w : PoolTokenExchangeRate} {t : List (ℕ × PoolTokenExchangeRate)}
    (h : ((k', v) :: t).lookup k = some w) : k = k' ∨ t.lookup k = some w := by
  by_cases hk : k = k'
  · exact .inl hk
  · rw [lookup_cons_of_ne hk] at h
    exact .inr h

theorem le_sum_map_filter {l : List StakedIota} {p : StakedIota → Bool} {st : StakedIota} (g : StakedIota → ℕ)
    (hst : st ∈ l) (hp : p st = true) : g st ≤ ((l.filter p).map g).sum :=
  List.le_sum_of_mem (List.mem_map_of_mem (List.mem_filter.mpr ⟨hst, hp⟩))

theorem sum_map_filter_add_not (l : List StakedIota) (p : StakedIota → Bool) (f : StakedIota → ℕ) :
    ((l.filter p).map f).sum + ((l.filter fun x => !p x).map f).sum = (l.map f).sum := by
  simpa using List.sum_map_filter_add_sum_map_filter_not (fun x => p x = true) f l

theorem sum_map_filter_erase {l : List StakedIota} {st : StakedIota} (hst : st ∈ l) (p : StakedIota → Bool)
    (f : StakedIota → ℕ) :
    ((l.filter p).map f).sum = (if p st then f st else 0) + (((l.erase st).filter p).map f).sum := by
  have hsum := (((List.perm_cons_erase hst).filter p).map f).sum_eq
  rw [List.filter_cons] at hsum
  split at hsum <;> simp_all

theorem eq_nil_of_sum_principal_eq_zero {l : List StakedIota} (hpos : ∀ st ∈ l, 0 < st.principal)
    (h : (l.map StakedIota.principal).sum = 0) : l = [] := by
  cases l with
  | nil => rfl
  | cons st l =>
    have hst := hpos st List.mem_cons_self
    simp only [List.map_cons, List.sum_cons] at h
    omega

theorem processed_none (epoch : ℕ) (st : StakedIota) : processed none epoch st = true := rfl

@[simp] theorem filter_processed_none (l : List StakedIota) (epoch : ℕ) : l.filter (processed none epoch) = l :=
  List.filter_eq_self.mpr fun _ _ => rfl

@[simp] theorem filter_not_processed_none (l : List StakedIota) (epoch : ℕ) :
    (l.filter fun st => !processed none epoch st) = [] :=
  List.filter_eq_nil_iff.mpr fun _ _ => by simp [processed_none]

theorem processed_some {a epoch : ℕ} {st : StakedIota} :
    processed (some a) epoch st = decide (st.stakeActivationEpoch ≤ epoch) := by
  simp [processed]

theorem stakeTokens_congr {st : StakedIota}
    (h : poolTokenExchangeRateAtEpoch pool' st.stakeActivationEpoch =
      poolTokenExchangeRateAtEpoch pool st.stakeActivationEpoch) :
    stakeTokens pool' st = stakeTokens pool st := by
  simp only [stakeTokens, h]

theorem stakeTokens_of_preactive (h : pool.activationEpoch = none) (st : StakedIota) :
    stakeTokens pool st = .ok st.principal := by
  rw [stakeTokens, poolTokenExchangeRateAtEpoch_of_preactive h, except_ok_bind, getTokenAmount]
  exact convertAmount_of_zero (.inl rfl)

theorem tokens_cover_of_preactive (h : pool.activationEpoch = none)
    (hT : pool.poolTokenBalance = pool.iotaBalance)
    (hpending : pool.pendingPoolTokenWithdraw = pool.pendingTotalIotaWithdraw)
    (hcov : pool.pendingTotalIotaWithdraw +
      ((stakes.filter (processed pool.activationEpoch epoch)).map StakedIota.principal).sum + pool.rewardsPool ≤
        pool.iotaBalance) :
    ∃ f : StakedIota → ℕ, (∀ st ∈ stakes, processed pool.activationEpoch epoch st = true →
        stakeTokens pool st = .ok (f st)) ∧
      pool.pendingPoolTokenWithdraw + ((stakes.filter (processed pool.activationEpoch epoch)).map f).sum ≤
        pool.poolTokenBalance :=
  ⟨StakedIota.principal, fun st _ _ => stakeTokens_of_preactive h st, by omega⟩

end Helpers

/-! ### Each step keeps the pool solvent -/

section Steps

variable {pool pool' pool₁ : StakingPoolV1} {stakes : List StakedIota} {epoch : ℕ}

theorem solvent_new (poolId epoch : ℕ) : Solvent (new poolId) [] epoch where
  pool_id := by simp
  principal_pos := by simp
  activation_le := by simp
  pending_eq := rfl
  iota_covers := le_rfl
  tokens_cover := ⟨fun _ => 0, by simp, le_rfl⟩
  rates_le := by simp [new]
  activated := by simp [new]
  deactivated := by simp [new]
  preactive := fun _ => ⟨rfl, rfl⟩
  bounded := by simp [new]
  current_rate := by simp [new]

theorem Solvent.depositRewards (hs : Solvent pool stakes epoch) {rewards : ℕ}
    (h : StakingPool.depositRewards pool rewards = .ok pool') (hactive : pool.isPreactive = false) :
    Solvent pool' stakes epoch := by
  obtain ⟨hI, -, rfl⟩ := depositRewards_eq_ok.mp h
  obtain ⟨a, ha⟩ := exists_activationEpoch hactive
  have hcov := hs.iota_covers
  exact { hs with
    iota_covers := by dsimp only; omega
    preactive := fun h => absurd (ha.symm.trans h) (Option.some_ne_none a)
    bounded := ⟨hI, hs.bounded.2⟩ }

theorem Solvent.removeCandidate (hs : Solvent pool stakes epoch) (hpre : pool.isPreactive = true)
    (h : deactivateStakingPool pool epoch = .ok pool') : Solvent pool' stakes epoch := by
  obtain ⟨-, rfl⟩ := deactivateStakingPool_eq_ok.mp h
  have hnone := activationEpoch_eq_none hpre
  obtain ⟨hT, hpending⟩ := hs.preactive hnone
  exact { hs with
    tokens_cover := tokens_cover_of_preactive hnone hT hpending hs.iota_covers
    deactivated := by
      rintro d ⟨⟩
      exact ⟨le_rfl, fun a ha => absurd (hnone.symm.trans ha) (Option.some_ne_none a).symm⟩
    current_rate := fun a ha => absurd (hnone.symm.trans ha) (Option.some_ne_none a).symm }

theorem Solvent.advanceIdle (hs : Solvent pool stakes epoch)
    (hidle : pool.isPreactive = true ∨ pool.isInactive = true) : Solvent pool stakes (epoch + 1) := by
  have hsame : ∀ st ∈ stakes,
      processed pool.activationEpoch (epoch + 1) st = processed pool.activationEpoch epoch st := by
    intro st hst
    cases ha : pool.activationEpoch with
    | none => rfl
    | some a =>
      -- an inactive pool that was active: every stake activated by the deactivation epoch
      have hin : pool.isInactive = true := hidle.resolve_left (by simp [StakingPoolV1.isPreactive, ha])
      obtain ⟨d, hd⟩ := Option.isSome_iff_exists.mp hin
      obtain ⟨hde, hstakes⟩ := hs.deactivated d hd
      have hact := hstakes a ha st hst
      simp only [processed_some, decide_eq_decide]
      omega
  have hfilter : stakes.filter (processed pool.activationEpoch (epoch + 1)) =
      stakes.filter (processed pool.activationEpoch epoch) :=
    List.filter_congr hsame
  have hfilter' : (stakes.filter fun st => !processed pool.activationEpoch (epoch + 1) st) =
      stakes.filter fun st => !processed pool.activationEpoch epoch st :=
    List.filter_congr fun st hst => by rw [hsame st hst]
  obtain ⟨f, hf, hcov⟩ := hs.tokens_cover
  refine { hs with
    activation_le := fun st hst => Nat.le_succ_of_le (hs.activation_le st hst)
    pending_eq := hfilter' ▸ hs.pending_eq
    iota_covers := hfilter ▸ hs.iota_covers
    tokens_cover := ⟨f, fun st hst hp => hf st hst (hsame st hst ▸ hp), hfilter ▸ hcov⟩
    rates_le := fun k v hk => Nat.le_succ_of_le (hs.rates_le k v hk)
    activated := fun a ha => Nat.le_succ_of_le (hs.activated a ha)
    deactivated := fun d hd => ⟨Nat.le_succ_of_le (hs.deactivated d hd).1, (hs.deactivated d hd).2⟩
    current_rate := ?_ }
  -- an inactive pool's rate is clamped to its deactivation epoch, before either epoch
  intro a ha
  obtain ⟨rate, hrate, hbounds⟩ := hs.current_rate a ha
  refine ⟨rate, ?_, hbounds⟩
  have hin : pool.isInactive = true := hidle.resolve_left (by simp [StakingPoolV1.isPreactive, ha])
  obtain ⟨d, hd⟩ := Option.isSome_iff_exists.mp hin
  have hde := (hs.deactivated d hd).1
  have hae := hs.activated a ha
  have hclamp : min (pool.deactivationEpoch.getD (epoch + 1)) (epoch + 1) =
      min (pool.deactivationEpoch.getD epoch) epoch := by
    rw [hd, Option.getD_some, Option.getD_some]
    omega
  rw [poolTokenExchangeRateAtEpoch_of_le ha (Nat.le_succ_of_le hae), hclamp,
    ← poolTokenExchangeRateAtEpoch_of_le ha hae]
  exact hrate

theorem Solvent.requestAddStake_of_active (hs : Solvent pool stakes epoch) {stake id : ℕ} {st : StakedIota}
    (h : StakingPool.requestAddStake pool stake (epoch + 1) id = .ok (pool₁, st))
    (hactive : pool.isPreactive = false) : Solvent pool₁ (stakes ++ [st]) epoch := by
  obtain ⟨hin, hpos, -, rfl, rfl⟩ := requestAddStake_eq_ok.mp h
  obtain ⟨a, ha⟩ := exists_activationEpoch hactive
  have hnew : processed pool.activationEpoch epoch ⟨id, pool.id, epoch + 1, stake⟩ = false := by
    simp [ha, processed_some]
  obtain ⟨f, hf, hcov⟩ := hs.tokens_cover
  have hpending := hs.pending_eq
  have hcovI := hs.iota_covers
  refine { hs with
    pool_id := List.forall_mem_append.mpr ⟨hs.pool_id, List.forall_mem_singleton.mpr rfl⟩
    principal_pos := List.forall_mem_append.mpr ⟨hs.principal_pos, List.forall_mem_singleton.mpr hpos⟩
    activation_le := List.forall_mem_append.mpr ⟨hs.activation_le, List.forall_mem_singleton.mpr le_rfl⟩
    pending_eq := ?_
    iota_covers := ?_
    tokens_cover := ⟨f, fun x hx hp => hf x ?_ hp, ?_⟩
    deactivated := fun d hd => absurd hd (by simp [deactivationEpoch_eq_none hin]) }
  · simp only [List.filter_append, List.filter_cons, hnew, Bool.not_false, if_true, List.filter_nil,
      List.map_append, List.map_cons, List.map_nil, List.sum_append, List.sum_cons, List.sum_nil]
    omega
  · simpa [List.filter_append, hnew] using hcovI
  · -- the new stake is not processed, so it is one of the old ones
    rcases List.mem_append.mp hx with hx | hx
    · exact hx
    · rw [List.mem_singleton.mp hx, hnew] at hp
      cases hp
  · simpa [List.filter_append, hnew] using hcov

theorem Solvent.requestAddStake_of_preactive (hs : Solvent pool stakes epoch) {stake id : ℕ} {st : StakedIota}
    (h : StakingPool.requestAddStake pool stake (epoch + 1) id = .ok (pool₁, st))
    (hpre : pool.isPreactive = true) (hproc : processPendingStake pool₁ = .ok pool') :
    Solvent pool' (stakes ++ [st]) epoch := by
  obtain ⟨hin, hpos, -, rfl, rfl⟩ := requestAddStake_eq_ok.mp h
  obtain ⟨hI, T', hT', rfl⟩ := processPendingStake_eq_ok.mp hproc
  have hnone := activationEpoch_eq_none hpre
  obtain ⟨hTI, hpendingEq⟩ := hs.preactive hnone
  -- the pool took every earlier stake at once
  have hpend0 : pool.pendingStake = 0 := by
    rw [hs.pending_eq, hnone]
    simp [processed_none]
  have hT'eq : T' = pool.iotaBalance + (pool.pendingStake + stake) := by
    rw [eq_convertedAmount_of_convertAmount_eq_ok hT', convertedAmount, hTI]
    split_ifs with hzero
    · rfl
    · exact Nat.mul_div_cancel_left _ (by omega)
  have hcovI := hs.iota_covers
  refine { pool_id := List.forall_mem_append.mpr ⟨hs.pool_id, List.forall_mem_singleton.mpr rfl⟩
           principal_pos := List.forall_mem_append.mpr ⟨hs.principal_pos, List.forall_mem_singleton.mpr hpos⟩
           activation_le := List.forall_mem_append.mpr ⟨hs.activation_le, List.forall_mem_singleton.mpr le_rfl⟩
           pending_eq := ?_
           iota_covers := ?_
           tokens_cover := ?_
           rates_le := hs.rates_le
           activated := hs.activated
           deactivated := fun d hd => absurd hd (by simp [deactivationEpoch_eq_none hin])
           preactive := fun _ => ⟨hT'eq, hpendingEq⟩
           bounded := ⟨hI, hT'eq ▸ hI⟩
           current_rate := fun a ha => absurd (hnone.symm.trans ha) (Option.some_ne_none a).symm }
  · dsimp only
    rw [hnone, filter_not_processed_none]
    rfl
  · dsimp only
    rw [hnone, filter_processed_none]
    rw [hnone, filter_processed_none] at hcovI
    simp only [List.map_append, List.map_cons, List.map_nil, List.sum_append, List.sum_cons, List.sum_nil]
    omega
  · refine ⟨StakedIota.principal, fun x _ _ => stakeTokens_of_preactive hnone x, ?_⟩
    dsimp only
    rw [hnone, filter_processed_none]
    rw [hnone, filter_processed_none] at hcovI
    simp only [List.map_append, List.map_cons, List.map_nil, List.sum_append, List.sum_cons, List.sum_nil]
    omega

theorem Solvent.requestWithdrawStake_of_lt (hs : Solvent pool stakes epoch) {st : StakedIota} {withdrawn : ℕ}
    (hst : st ∈ stakes) (hlt : epoch < st.stakeActivationEpoch)
    (h : StakingPool.requestWithdrawStake pool st epoch = .ok (pool', withdrawn)) :
    Solvent pool' (stakes.erase st) epoch := by
  have hmem : ∀ {P : StakedIota → Prop}, (∀ x ∈ stakes, P x) → ∀ x ∈ stakes.erase st, P x :=
    fun hP x hx => hP x (List.mem_of_mem_erase hx)
  have hcovI := hs.iota_covers
  obtain ⟨f, hf, hcov⟩ := hs.tokens_cover
  rw [StakingPool.requestWithdrawStake_of_lt hlt] at h
  split_ifs at h with hpre
  · -- an active pool: the stake is still pending
    simp only [except_bind_eq_ok, except_pure_eq_ok, sub_eq_ok_iff, Prod.mk.injEq] at h
    obtain ⟨_, ⟨hle, rfl⟩, rfl, rfl⟩ := h
    obtain ⟨a, ha⟩ := exists_activationEpoch hpre
    have hp : processed pool.activationEpoch epoch st = false := by simp [ha, processed_some, hlt]
    have hpending := hs.pending_eq
    rw [sum_map_filter_erase hst, hp] at hpending
    rw [sum_map_filter_erase hst, hp] at hcovI hcov
    exact { hs with
      pool_id := hmem hs.pool_id
      principal_pos := hmem hs.principal_pos
      activation_le := hmem hs.activation_le
      pending_eq := by dsimp only; simp only [Bool.not_false, if_true] at hpending; omega
      iota_covers := by simpa using hcovI
      tokens_cover := ⟨f, fun x hx => hf x (List.mem_of_mem_erase hx), by simpa using hcov⟩
      deactivated := fun d hd => ⟨(hs.deactivated d hd).1, fun a ha => hmem ((hs.deactivated d hd).2 a ha)⟩ }
  · -- a pool that is not active yet took the stake at once, and keeps its balance
    cases h
    have hnone := activationEpoch_eq_none (by simpa using hpre)
    obtain ⟨hT, hpendingEq⟩ := hs.preactive hnone
    rw [sum_map_filter_erase hst, hnone] at hcovI
    have hcovI' : pool.pendingTotalIotaWithdraw +
        (((stakes.erase st).filter (processed pool.activationEpoch epoch)).map StakedIota.principal).sum +
          pool.rewardsPool ≤ pool.iotaBalance := by
      rw [hnone]
      simp only [processed_none, if_true] at hcovI
      omega
    exact { hs with
      pool_id := hmem hs.pool_id
      principal_pos := hmem hs.principal_pos
      activation_le := hmem hs.activation_le
      pending_eq := by rw [hs.pending_eq, hnone]; simp
      iota_covers := hcovI'
      tokens_cover := tokens_cover_of_preactive hnone hT hpendingEq hcovI'
      deactivated := fun d hd => ⟨(hs.deactivated d hd).1, fun a ha => hmem ((hs.deactivated d hd).2 a ha)⟩ }

theorem Solvent.processPendingStakeWithdraw (hs : Solvent pool stakes epoch)
    (h : StakingPool.processPendingStakeWithdraw pool = .ok pool') : Solvent pool' stakes epoch := by
  obtain ⟨hleI, hleT, rfl⟩ := processPendingStakeWithdraw_eq_ok.mp h
  have hcovI := hs.iota_covers
  have hb := hs.bounded
  obtain ⟨f, hf, hcov⟩ := hs.tokens_cover
  exact { hs with
    iota_covers := by dsimp only; omega
    tokens_cover := ⟨f, hf, by dsimp only; omega⟩
    preactive := fun hnone => by
      obtain ⟨hT, hpending⟩ := hs.preactive hnone
      dsimp only
      omega
    bounded := ⟨by dsimp only; omega, by dsimp only; omega⟩
    current_rate := fun a ha => by
      obtain ⟨rate, hrate, hI, hT, hcases⟩ := hs.current_rate a ha
      exact ⟨rate, hrate, hI, hT, by dsimp only; omega⟩ }

theorem Solvent.requestWithdrawStake_of_le (hs : Solvent pool stakes epoch) {st : StakedIota} {withdrawn : ℕ}
    (hst : st ∈ stakes) (hle : st.stakeActivationEpoch ≤ epoch)
    (h : StakingPool.requestWithdrawStake pool st epoch = .ok (pool', withdrawn)) :
    Solvent pool' (stakes.erase st) epoch := by
  have hmem : ∀ {P : StakedIota → Prop}, (∀ x ∈ stakes, P x) → ∀ x ∈ stakes.erase st, P x :=
    fun hP x hx => hP x (List.mem_of_mem_erase hx)
  obtain ⟨tokens, reward, hfrom, hrew, rfl, -, -, -, hpool⟩ := (requestWithdrawStake_of_le_eq_ok hle).mp h
  obtain ⟨f, hf, hcov⟩ := hs.tokens_cover
  have hp : processed pool.activationEpoch epoch st = true := by simp [processed, hle]
  -- the tokens returned are the tokens the stake owns
  have htokens : tokens = f st := by
    obtain ⟨-, -, rate, hrate, htok⟩ := withdrawFromPrincipal_eq_ok.mp hfrom
    have hown := hf st hst hp
    rw [stakeTokens, hrate, except_ok_bind, htok] at hown
    exact Except.ok.inj hown
  obtain ⟨rate, total, hrate, htotal, hreward, -⟩ := withdrawRewards_eq_ok.mp hrew
  have hrp : reward ≤ pool.rewardsPool := by
    rw [hreward]
    exact min_le_right _ _
  -- a pool that is not active yet pays back the principal at 1:1, with no reward
  have hpre : pool.activationEpoch = none → tokens = st.principal ∧ reward = 0 := by
    intro hnone
    have hown := hf st hst hp
    rw [stakeTokens_of_preactive hnone] at hown
    have htok : tokens = st.principal := htokens.trans (Except.ok.inj hown).symm
    rw [poolTokenExchangeRateAtEpoch_of_preactive hnone] at hrate
    cases hrate
    have htot : total = tokens := Except.ok.inj (htotal.symm.trans (convertAmount_of_zero (.inl rfl)))
    refine ⟨htok, ?_⟩
    rw [hreward, htot, htok]
    simp
  have hcovI := hs.iota_covers
  have hpending := hs.pending_eq
  rw [sum_map_filter_erase hst, hp, if_pos rfl] at hcovI hcov
  rw [sum_map_filter_erase hst, hp] at hpending
  have hbook : Solvent { pool with
      rewardsPool := pool.rewardsPool - reward,
      pendingTotalIotaWithdraw := pool.pendingTotalIotaWithdraw + (st.principal + reward),
      pendingPoolTokenWithdraw := pool.pendingPoolTokenWithdraw + tokens } (stakes.erase st) epoch :=
    { hs with
      pool_id := hmem hs.pool_id
      principal_pos := hmem hs.principal_pos
      activation_le := hmem hs.activation_le
      pending_eq := by simpa using hpending
      iota_covers := by dsimp only; omega
      tokens_cover := ⟨f, fun x hx => hf x (List.mem_of_mem_erase hx), by dsimp only; omega⟩
      deactivated := fun d hd => ⟨(hs.deactivated d hd).1, fun a ha => hmem ((hs.deactivated d hd).2 a ha)⟩
      preactive := fun hnone => by
        obtain ⟨hT, hpendingEq⟩ := hs.preactive hnone
        obtain ⟨htok, hzero⟩ := hpre hnone
        dsimp only
        omega }
  dsimp only at hpool
  split_ifs at hpool
  · exact hbook.processPendingStakeWithdraw hpool
  · cases hpool
    exact hbook

theorem Solvent.activate (hs : Solvent pool stakes epoch) (h : activateStakingPool pool (epoch + 1) = .ok pool') :
    Solvent pool' stakes (epoch + 1) := by
  obtain ⟨hfresh, hnone, hin, rfl⟩ := activateStakingPool_eq_ok.mp h
  obtain ⟨hT, hpendingEq⟩ := hs.preactive hnone
  -- every stake is processed: before, as the pool took it at once; after, as its epoch has come
  have hall : ∀ st ∈ stakes, processed (some (epoch + 1)) (epoch + 1) st = true := fun st hst => by
    simp [processed_some, hs.activation_le st hst]
  have hfilter : stakes.filter (processed (some (epoch + 1)) (epoch + 1)) = stakes := List.filter_eq_self.mpr hall
  have hfilter' : (stakes.filter fun st => !processed (some (epoch + 1)) (epoch + 1) st) = [] :=
    List.filter_eq_nil_iff.mpr fun st hst => by simp [hall st hst]
  have hcovI := hs.iota_covers
  have hpending := hs.pending_eq
  rw [hnone, filter_processed_none] at hcovI
  rw [hnone, filter_not_processed_none] at hpending
  -- up to the new epoch the rate is the initial one: stored at it, 1:1 before it
  have hrate : ∀ e ≤ epoch + 1, poolTokenExchangeRateAtEpoch { pool with
      exchangeRates := (epoch + 1, initialExchangeRate) :: pool.exchangeRates,
      activationEpoch := some (epoch + 1) } e = .ok initialExchangeRate := by
    intro e he
    rcases Nat.lt_or_eq_of_le he with hlt | rfl
    · exact poolTokenExchangeRateAtEpoch_of_lt rfl hlt
    · rw [poolTokenExchangeRateAtEpoch_of_le rfl le_rfl]
      dsimp only
      rw [deactivationEpoch_eq_none hin, Option.getD_none, Nat.min_self]
      exact rateLoop_of_lookup le_rfl lookup_cons_self
  refine { hs with
    activation_le := fun st hst => Nat.le_succ_of_le (hs.activation_le st hst)
    pending_eq := by dsimp only; rw [hfilter', hpending]
    iota_covers := by dsimp only; rw [hfilter]; exact hcovI
    tokens_cover := ⟨StakedIota.principal, fun st hst _ => ?_, by dsimp only; rw [hfilter]; omega⟩
    rates_le := fun k v hk => ?_
    activated := fun a ha => by cases ha; exact le_rfl
    deactivated := fun d hd => absurd hd (by simp [deactivationEpoch_eq_none hin])
    preactive := fun h => by cases h
    current_rate := fun a ha => ⟨initialExchangeRate, hrate (epoch + 1) le_rfl, by decide, by decide, .inl rfl⟩ }
  · rw [stakeTokens, hrate _ (hs.activation_le st hst), except_ok_bind, getTokenAmount]
    exact convertAmount_of_zero (.inl rfl)
  · rcases eq_or_lookup_of_lookup_cons hk with rfl | hk
    · exact le_rfl
    · exact Nat.le_succ_of_le (hs.rates_le k v hk)

theorem Solvent.deactivate (hs : Solvent pool stakes epoch) (hin : pool.isInactive = false)
    (hacts : ∀ st ∈ stakes, st.stakeActivationEpoch ≤ epoch) (h : deactivateStakingPool pool epoch = .ok pool') :
    Solvent pool' stakes epoch := by
  obtain ⟨-, rfl⟩ := deactivateStakingPool_eq_ok.mp h
  have hnone := deactivationEpoch_eq_none hin
  -- clamping at the current epoch changes no epoch up to it
  have hrate : ∀ e ≤ epoch, poolTokenExchangeRateAtEpoch { pool with deactivationEpoch := some epoch } e =
      poolTokenExchangeRateAtEpoch pool e := fun e he =>
    poolTokenExchangeRateAtEpoch_eq_of_agree rfl (by dsimp only; rw [hnone]; simp; omega) fun _ _ => rfl
  obtain ⟨f, hf, hcov⟩ := hs.tokens_cover
  exact { hs with
    tokens_cover := ⟨f, fun st hst hp => (stakeTokens_congr (hrate _ (hacts st hst))).trans (hf st hst hp), hcov⟩
    deactivated := fun d hd => by
      cases hd
      exact ⟨le_rfl, fun _ _ => hacts⟩
    current_rate := fun a ha => by
      obtain ⟨rate, hr, hbounds⟩ := hs.current_rate a ha
      exact ⟨rate, (hrate epoch le_rfl).trans hr, hbounds⟩ }

theorem Solvent.processPendingStakesAndWithdraws (hs : Solvent pool stakes epoch)
    (hactive : pool.isPreactive = false) (hin : pool.isInactive = false)
    (h : StakingPool.processPendingStakesAndWithdraws pool epoch = .ok pool') : Solvent pool' stakes (epoch + 1) := by
  obtain ⟨-, pool₁, pool₂, h₁, h₂, -, rfl, -⟩ := processPendingStakesAndWithdraws_eq_ok.mp h
  have hs₁ := hs.processPendingStakeWithdraw h₁
  obtain ⟨-, -, rfl⟩ := processPendingStakeWithdraw_eq_ok.mp h₁
  obtain ⟨hI', T', hT', rfl⟩ := processPendingStake_eq_ok.mp h₂
  obtain ⟨a, ha⟩ := exists_activationEpoch hactive
  have hae := hs.activated a ha
  have hnone := deactivationEpoch_eq_none hin
  -- what the withdrawals left: the balance and supply the boundary rescales
  have hcov₁ := hs₁.iota_covers
  have hpend₁ := hs₁.pending_eq
  obtain ⟨f, hf, htok₁⟩ := hs₁.tokens_cover
  dsimp only at hcov₁ hpend₁ htok₁ hI' hT'
  rw [ha] at hcov₁ hpend₁ htok₁
  generalize hI₀ : pool.iotaBalance - pool.pendingTotalIotaWithdraw = I₀ at *
  generalize hT₀ : pool.poolTokenBalance - pool.pendingPoolTokenWithdraw = T₀ at *
  have hT'eq : T' = convertedAmount T₀ I₀ (I₀ + pool.pendingStake) := eq_convertedAmount_of_convertAmount_eq_ok hT'
  have hT'lt : T' < 2 ^ 64 := convertAmount_lt hT' hI'
  -- the rate stored for the new epoch, and the old rates below it
  have hrate_new : poolTokenExchangeRateAtEpoch { pool with
      iotaBalance := I₀ + pool.pendingStake, poolTokenBalance := T', pendingStake := 0,
      pendingTotalIotaWithdraw := 0, pendingPoolTokenWithdraw := 0,
      exchangeRates := (epoch + 1, ⟨I₀ + pool.pendingStake, T'⟩) :: pool.exchangeRates } (epoch + 1) =
        .ok ⟨I₀ + pool.pendingStake, T'⟩ :=
    poolTokenExchangeRateAtEpoch_of_lookup ha (Nat.le_succ_of_le hae) hnone lookup_cons_self
  have hrate_old : ∀ e ≤ epoch, poolTokenExchangeRateAtEpoch { pool with
      iotaBalance := I₀ + pool.pendingStake, poolTokenBalance := T', pendingStake := 0,
      pendingTotalIotaWithdraw := 0, pendingPoolTokenWithdraw := 0,
      exchangeRates := (epoch + 1, ⟨I₀ + pool.pendingStake, T'⟩) :: pool.exchangeRates } e =
        poolTokenExchangeRateAtEpoch pool e := fun e he =>
    poolTokenExchangeRateAtEpoch_eq_of_agree rfl rfl fun k hk => lookup_cons_of_ne (by omega)
  -- after the boundary every stake is processed; before it, those of the old epochs were
  have hall : ∀ st ∈ stakes, processed (some a) (epoch + 1) st = true := fun st hst => by
    simp [processed_some, hs.activation_le st hst]
  have hfilter : stakes.filter (processed (some a) (epoch + 1)) = stakes := List.filter_eq_self.mpr hall
  have hfilter' : (stakes.filter fun st => !processed (some a) (epoch + 1) st) = [] :=
    List.filter_eq_nil_iff.mpr fun st hst => by simp [hall st hst]
  have hsplit := sum_map_filter_add_not stakes (processed (some a) epoch) StakedIota.principal
  -- a new stake's principal is part of the pending stake
  have hnew_le : ∀ st ∈ stakes, ¬st.stakeActivationEpoch ≤ epoch → st.principal ≤ I₀ + pool.pendingStake := by
    intro st hst hlt
    have := le_sum_map_filter (p := fun st => !processed (some a) epoch st) StakedIota.principal hst
      (by simp [processed_some, hlt])
    omega
  let f' : StakedIota → ℕ := fun st =>
    if st.stakeActivationEpoch ≤ epoch then f st else convertedAmount T' (I₀ + pool.pendingStake) st.principal
  have hold : ((stakes.filter (processed (some a) epoch)).map f').sum =
      ((stakes.filter (processed (some a) epoch)).map f).sum :=
    congrArg List.sum (List.map_congr_left fun st hst => by
      have hp := (List.mem_filter.mp hst).2
      simp only [processed_some, decide_eq_true_eq] at hp
      simp [f', hp])
  have hnew : ((stakes.filter fun st => !processed (some a) epoch st).map f').sum =
      (((stakes.filter fun st => !processed (some a) epoch st).map StakedIota.principal).map
        (convertedAmount T' (I₀ + pool.pendingStake))).sum := by
    rw [List.map_map]
    exact congrArg List.sum (List.map_congr_left fun st hst => by
      have hp := (List.mem_filter.mp hst).2
      simp only [processed_some, Bool.not_eq_eq_eq_not, Bool.not_true, decide_eq_false_iff_not] at hp
      simp [f', hp])
  -- the old holders are none when the balance is empty: each stake has principal
  have hempty : I₀ = 0 → ((stakes.filter (processed (some a) epoch)).map f).sum = 0 := by
    intro hzero
    have hnil := eq_nil_of_sum_principal_eq_zero (l := stakes.filter (processed (some a) epoch))
      (fun st hst => hs.principal_pos st (List.mem_filter.mp hst).1) (by omega)
    rw [hnil]
    rfl
  have hbound := add_sum_convertedAmount_le ((stakes.filter fun st => !processed (some a) epoch st).map
    StakedIota.principal) (by omega : ((stakes.filter (processed (some a) epoch)).map f).sum ≤ T₀) hempty
  rw [← hpend₁, ← hT'eq] at hbound
  refine { pool_id := hs.pool_id
           principal_pos := hs.principal_pos
           activation_le := fun st hst => Nat.le_succ_of_le (hs.activation_le st hst)
           pending_eq := by dsimp only; rw [ha, hfilter']; rfl
           iota_covers := by
             dsimp only
             rw [ha, hfilter]
             omega
           tokens_cover := ⟨f', fun st hst _ => ?_, by
             dsimp only
             rw [ha, hfilter]
             have := sum_map_filter_add_not stakes (processed (some a) epoch) f'
             omega⟩
           rates_le := fun k v hk => ?_
           activated := fun a' ha' => by
             dsimp only at ha'
             rw [ha] at ha'
             cases ha'
             exact Nat.le_succ_of_le hae
           deactivated := fun d hd => absurd hd (by simp [hnone])
           preactive := fun h => absurd (ha.symm.trans h) (Option.some_ne_none a)
           bounded := ⟨hI', hT'lt⟩
           current_rate := fun _ _ => ⟨_, hrate_new, hI', hT'lt, .inr (.inr le_rfl)⟩ }
  · by_cases hle : st.stakeActivationEpoch ≤ epoch
    · -- a stake of an old epoch keeps its tokens
      rw [stakeTokens_congr (hrate_old _ hle)]
      simp only [f', if_pos hle]
      exact hf st hst (by simp [ha, processed_some, hle])
    · -- a stake of the new epoch owns its principal at the new rate
      have hact : st.stakeActivationEpoch = epoch + 1 := by have := hs.activation_le st hst; omega
      simp only [f', if_neg hle]
      rw [stakeTokens, hact, hrate_new, except_ok_bind, getTokenAmount]
      exact convertAmount_eq_ok_convertedAmount hT'lt hI' fun _ _ => hnew_le st hst hle
  · rcases eq_or_lookup_of_lookup_cons hk with rfl | hk
    · exact le_rfl
    · exact Nat.le_succ_of_le (hs.rates_le k v hk)

end Steps

/-! ### What a solvent pool can do -/

section Consequences

theorem Solvent.exists_requestWithdrawStake_of_lt (hs : Solvent pool stakes epoch) {st : StakedIota}
    (hst : st ∈ stakes) (hlt : epoch < st.stakeActivationEpoch) :
    ∃ pool' withdrawn, requestWithdrawStake pool st epoch = .ok (pool', withdrawn) := by
  rw [StakingPool.requestWithdrawStake_of_lt hlt]
  cases hpre : pool.isPreactive with
  | true => exact ⟨pool, st.principal, rfl⟩
  | false =>
    obtain ⟨a, ha⟩ := exists_activationEpoch hpre
    have hle : st.principal ≤ pool.pendingStake := by
      rw [hs.pending_eq, ha]
      exact le_sum_map_filter (p := fun st => !processed (some a) epoch st) StakedIota.principal hst
        (by simp [processed_some, hlt])
    simp only [if_true, except_bind_eq_ok, except_pure_eq_ok, sub_eq_ok_iff]
    exact ⟨_, _, _, ⟨hle, rfl⟩, rfl⟩

theorem Solvent.exists_getIotaAmount (hs : Solvent pool stakes epoch) {tokens : ℕ}
    (htokens : tokens ≤ pool.poolTokenBalance) :
    ∃ rate total, poolTokenExchangeRateAtEpoch pool epoch = .ok rate ∧ getIotaAmount rate tokens = .ok total := by
  cases ha : pool.activationEpoch with
  | none => exact ⟨_, tokens, poolTokenExchangeRateAtEpoch_of_preactive ha epoch, convertAmount_of_zero (.inl rfl)⟩
  | some a =>
    obtain ⟨rate, hrate, hI, hT, hcases⟩ := hs.current_rate a ha
    exact ⟨rate, _, hrate, convertAmount_eq_ok_convertedAmount hI hT fun _ _ => by omega⟩

theorem Solvent.exists_requestWithdrawStake_of_le (hs : Solvent pool stakes epoch) {st : StakedIota}
    (hst : st ∈ stakes) (hle : st.stakeActivationEpoch ≤ epoch) :
    ∃ pool' withdrawn, requestWithdrawStake pool st epoch = .ok (pool', withdrawn) := by
  obtain ⟨f, hf, hcovT⟩ := hs.tokens_cover
  have hcovI := hs.iota_covers
  have hb := hs.bounded
  have hp : processed pool.activationEpoch epoch st = true := by simp [processed, hle]
  have htokens := le_sum_map_filter f hst hp
  have hprincipal := le_sum_map_filter StakedIota.principal hst hp
  -- the tokens the stake owns, at the rate of its activation epoch
  obtain ⟨rate₀, hrate₀, htok₀⟩ := except_bind_eq_ok.mp (hf st hst hp)
  have hfrom : withdrawFromPrincipal pool st = .ok (f st, st.principal) :=
    withdrawFromPrincipal_eq_ok.mpr ⟨hs.pool_id st hst, rfl, rate₀, hrate₀, htok₀⟩
  -- what they are worth now, and the reward split from the rewards pool
  obtain ⟨rate, total, hrate, htotal⟩ := hs.exists_getIotaAmount (show f st ≤ pool.poolTokenBalance by omega)
  obtain ⟨reward, hreward⟩ :
      ∃ reward, reward = min (if total ≥ st.principal then total - st.principal else 0) pool.rewardsPool := ⟨_, rfl⟩
  have hrew : withdrawRewards pool st.principal (f st) epoch =
      .ok ({ pool with rewardsPool := pool.rewardsPool - reward }, reward) :=
    withdrawRewards_eq_ok.mpr ⟨rate, total, hrate, htotal, hreward, rfl⟩
  have hrp : reward ≤ pool.rewardsPool := hreward ▸ min_le_right _ _
  -- an inactive pool processes the withdrawal at once, and the balances cover it
  let pool₁ : StakingPoolV1 := { pool with
    rewardsPool := pool.rewardsPool - reward,
    pendingTotalIotaWithdraw := pool.pendingTotalIotaWithdraw + (st.principal + reward),
    pendingPoolTokenWithdraw := pool.pendingPoolTokenWithdraw + f st }
  have hproc : ∃ pool', (if pool.isInactive then StakingPool.processPendingStakeWithdraw pool₁ else .ok pool₁) = .ok pool' := by
    split
    · exact ⟨_, processPendingStakeWithdraw_eq_ok.mpr ⟨by simp only [pool₁]; omega, by simp only [pool₁]; omega, rfl⟩⟩
    · exact ⟨pool₁, rfl⟩
  obtain ⟨pool', hpool'⟩ := hproc
  exact ⟨pool', _, (requestWithdrawStake_of_le_eq_ok hle).mpr
    ⟨f st, reward, hfrom, hrew, rfl, by omega, by omega, by omega, hpool'⟩⟩

theorem Solvent.exists_requestWithdrawStake (hs : Solvent pool stakes epoch) {st : StakedIota} (hst : st ∈ stakes) :
    ∃ pool' withdrawn, requestWithdrawStake pool st epoch = .ok (pool', withdrawn) := by
  by_cases hlt : epoch < st.stakeActivationEpoch
  · exact hs.exists_requestWithdrawStake_of_lt hst hlt
  · exact hs.exists_requestWithdrawStake_of_le hst (Nat.le_of_not_lt hlt)

theorem Solvent.exists_processPendingStakeWithdraw (hs : Solvent pool stakes epoch) :
    ∃ pool₁, StakingPool.processPendingStakeWithdraw pool = .ok pool₁ := by
  have hcovI := hs.iota_covers
  obtain ⟨f, -, hcovT⟩ := hs.tokens_cover
  exact ⟨_, processPendingStakeWithdraw_eq_ok.mpr ⟨by omega, by omega, rfl⟩⟩

theorem Solvent.exists_processPendingStakesAndWithdraws (hs : Solvent pool stakes epoch)
    (hactive : pool.isPreactive = false) (hin : pool.isInactive = false) (hepoch : epoch + 1 < 2 ^ 64)
    {pool₁ pool₂ : StakingPoolV1} (h₁ : StakingPool.processPendingStakeWithdraw pool = .ok pool₁)
    (h₂ : processPendingStake pool₁ = .ok pool₂) :
    ∃ pool₃, StakingPool.processPendingStakesAndWithdraws pool epoch = .ok pool₃ := by
  obtain ⟨a, ha⟩ := exists_activationEpoch hactive
  have hae := hs.activated a ha
  have hnone := deactivationEpoch_eq_none hin
  -- the epoch has no rate yet
  have hfresh : pool.exchangeRates.lookup (epoch + 1) = none := by
    cases hk : pool.exchangeRates.lookup (epoch + 1) with
    | none => rfl
    | some v => exact absurd (hs.rates_le _ v hk) (by omega)
  obtain ⟨-, -, rfl⟩ := processPendingStakeWithdraw_eq_ok.mp h₁
  obtain ⟨hI', T', hT', rfl⟩ := processPendingStake_eq_ok.mp h₂
  refine ⟨_, processPendingStakesAndWithdraws_eq_ok.mpr ⟨hepoch, _, _, h₁, h₂, hfresh, rfl, ?_⟩⟩
  dsimp only at hI' hT'
  generalize pool.iotaBalance - pool.pendingTotalIotaWithdraw = I₀ at *
  generalize pool.poolTokenBalance - pool.pendingPoolTokenWithdraw = T₀ at *
  have hT'eq : T' = convertedAmount T₀ I₀ (I₀ + pool.pendingStake) := eq_convertedAmount_of_convertAmount_eq_ok hT'
  -- the supply rescaled to the latest rate is what that rate gives back for the new balance
  have hself : getTokenAmount ⟨I₀ + pool.pendingStake, T'⟩ (I₀ + pool.pendingStake) = .ok T' := by
    show convertAmount T' (I₀ + pool.pendingStake) (I₀ + pool.pendingStake) = .ok T'
    rw [convertAmount_eq_ok_convertedAmount (convertAmount_lt hT' hI') hI' fun _ _ => le_rfl, hT'eq,
      convertedAmount_rescaled_self]
  exact checkBalanceInvariants_of_rate
    (poolTokenExchangeRateAtEpoch_of_lookup ha (Nat.le_succ_of_le hae) hnone lookup_cons_self) hself

theorem Solvent.exists_mapM_stakeTokens (hs : Solvent pool stakes epoch) :
    ∃ tokens, (stakes.filter fun st => decide (st.stakeActivationEpoch ≤ epoch)).mapM (stakeTokens pool) = .ok tokens ∧
      pool.pendingPoolTokenWithdraw + tokens.sum ≤ pool.poolTokenBalance := by
  obtain ⟨f, hf, hcovT⟩ := hs.tokens_cover
  have hprocessed : ∀ st, decide (st.stakeActivationEpoch ≤ epoch) = true →
      processed pool.activationEpoch epoch st = true := fun st h => by simp [processed, h]
  -- the active stakes are among the processed ones
  have hsub := List.monotone_filter_right stakes hprocessed
  refine ⟨_, mapM_except_eq_ok_map fun st hst => hf st (List.mem_filter.mp hst).1
    (hprocessed st (List.mem_filter.mp hst).2), ?_⟩
  have := (hsub.map f).sum_le_sum fun _ _ => Nat.zero_le _
  omega

end Consequences

/-! ### Along every run -/

section Runs

theorem Drive.solvent {c c' : Chain} (hd : Drive c c') (hs : Solvent c.ledger.pool c.ledger.stakes c.epoch) :
    Solvent c'.ledger.pool c'.ledger.stakes c'.epoch := by
  cases hd with
  | requestAddStake stake _ hrun hproc =>
    simp only [Call.run, except_bind_eq_ok, except_pure_eq_ok] at hrun
    obtain ⟨⟨pool₁, st⟩, hadd, rfl⟩ := hrun
    have hpre₁ : pool₁.isPreactive = c.ledger.pool.isPreactive := by
      obtain ⟨-, -, -, rfl, -⟩ := requestAddStake_eq_ok.mp hadd
      rfl
    dsimp only at hproc
    rw [hpre₁] at hproc
    -- a pool that is not active yet takes the stake at once
    cases hpre : c.ledger.pool.isPreactive with
    | false =>
      rw [hpre, if_neg Bool.false_ne_true] at hproc
      cases hproc
      exact hs.requestAddStake_of_active hadd hpre
    | true =>
      simp only [hpre, if_true, Call.run, except_bind_eq_ok, except_pure_eq_ok] at hproc
      obtain ⟨pool', hpp, rfl⟩ := hproc
      exact hs.requestAddStake_of_preactive hadd hpre hpp
  | requestWithdrawStake index hrun =>
    simp only [Call.run] at hrun
    split at hrun
    · cases hrun
      exact hs
    · rename_i st hget
      simp only [except_bind_eq_ok, except_pure_eq_ok] at hrun
      obtain ⟨⟨pool', withdrawn⟩, hw, rfl⟩ := hrun
      have hst := List.mem_of_getElem? hget
      by_cases hle : st.stakeActivationEpoch ≤ c.epoch
      · exact hs.requestWithdrawStake_of_le hst hle hw
      · exact hs.requestWithdrawStake_of_lt hst (Nat.lt_of_not_le hle) hw
  | depositRewards rewards hpre _ hrun =>
    simp only [Call.run, except_bind_eq_ok, except_pure_eq_ok] at hrun
    obtain ⟨pool', hdep, rfl⟩ := hrun
    exact hs.depositRewards hdep hpre
  | advanceEpoch leaves hpre hin hrun hleave =>
    simp only [Call.run, except_bind_eq_ok, except_pure_eq_ok] at hrun
    obtain ⟨pool₁, hproc, rfl⟩ := hrun
    have hs₁ := hs.processPendingStakesAndWithdraws hpre hin hproc
    cases leaves with
    | false =>
      rw [if_neg Bool.false_ne_true] at hleave
      cases hleave
      exact hs₁
    | true =>
      simp only [if_true, Call.run, except_bind_eq_ok, except_pure_eq_ok] at hleave
      obtain ⟨pool₂, hdeact, rfl⟩ := hleave
      -- the stakes of the pool leaving all activate by the new epoch
      exact hs₁.deactivate (deactivateStakingPool_eq_ok.mp hdeact).1 hs.activation_le hdeact
  | activate hrun =>
    simp only [Call.run, except_bind_eq_ok, except_pure_eq_ok] at hrun
    obtain ⟨pool', hact, rfl⟩ := hrun
    exact hs.activate hact
  | advanceIdle hidle => exact hs.advanceIdle hidle
  | removeCandidate hpre hrun =>
    simp only [Call.run, except_bind_eq_ok, except_pure_eq_ok] at hrun
    obtain ⟨pool', hdeact, rfl⟩ := hrun
    exact hs.removeCandidate hpre hdeact

theorem solvent_of_reachable {poolId epoch₀ : ℕ} {c : Chain}
    (h : Relation.ReflTransGen Drive (Chain.start poolId epoch₀) c) : Solvent c.ledger.pool c.ledger.stakes c.epoch := by
  induction h with
  | refl => exact solvent_new poolId epoch₀
  | tail _ hd ih => exact hd.solvent ih


/-- Along every run of the validator set from the pool's creation, every stake
can be withdrawn, the pending withdrawals can be processed and the whole epoch
boundary of an active pool goes through wherever `process_pending_stake`
does not overflow, and the tokens of the active stakes fit in the supply less
its pending withdrawals; and whatever the calls, no more IOTA is paid out than
was staked and deposited. -/
theorem stakingPool_solvent (poolId epoch₀ : ℕ) :
    (∀ c, Relation.ReflTransGen Drive (Chain.start poolId epoch₀) c →
      (∀ st ∈ c.ledger.stakes, ∃ pool' withdrawn,
        requestWithdrawStake c.ledger.pool st c.epoch = .ok (pool', withdrawn)) ∧
      (∃ pool₁, processPendingStakeWithdraw c.ledger.pool = .ok pool₁ ∧
        (c.epoch + 1 < 2 ^ 64 → c.ledger.pool.isPreactive = false → c.ledger.pool.isInactive = false →
          ∀ pool₂, processPendingStake pool₁ = .ok pool₂ →
            ∃ pool₃, processPendingStakesAndWithdraws c.ledger.pool c.epoch = .ok pool₃)) ∧
      ∃ tokens, (c.ledger.stakes.filter fun st => decide (st.stakeActivationEpoch ≤ c.epoch)).mapM
          (stakeTokens c.ledger.pool) = .ok tokens ∧
        c.ledger.pool.pendingPoolTokenWithdraw + tokens.sum ≤ c.ledger.pool.poolTokenBalance) ∧
    ∀ calls l, runCalls calls (Ledger.init poolId) = .ok l → l.paidOut ≤ l.staked + l.deposited := by
  refine ⟨fun c hc => ?_, fun calls l h => ?_⟩
  · have hs := solvent_of_reachable hc
    obtain ⟨pool₁, h₁⟩ := hs.exists_processPendingStakeWithdraw
    exact ⟨fun st hst => hs.exists_requestWithdrawStake hst,
      ⟨pool₁, h₁, fun hepoch hactive hin _ h₂ => hs.exists_processPendingStakesAndWithdraws hactive hin hepoch h₁ h₂⟩,
      hs.exists_mapM_stakeTokens⟩
  · have hconserves := runCalls_conserves poolId h
    unfold Ledger.Conserves at hconserves
    omega

end Runs

end Iota.System.StakingPool
