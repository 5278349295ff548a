import Mathlib
import Iota.Lib.Move

/-! The staking pool embedded in each validator, `iota_system::staking_pool`.
Stakes wait in `pending_stake` until the epoch boundary, when they are added
to the pool's IOTA balance and the supply of pool tokens is rescaled to the
latest exchange rate; each `StakedIota` owns the pool tokens its principal
bought at the rate of its activation epoch, and a withdrawal pays the
principal back with the rewards those tokens earned since, capped by what the
rewards pool holds. Withdrawals reach the balances at the next boundary, or at
once in an inactive pool. A `Table` of exchange rates is a list of entries; a
`Balance<IOTA>` is its value. -/

namespace Iota.System.StakingPool

open Iota.Lib Iota.Lib.Move

def EWrongPool : ℕ := 1

def ETokenBalancesDoNotMatchExchangeRate : ℕ := 9

def EDelegationToInactivePool : ℕ := 10

def EDeactivationOfInactivePool : ℕ := 11

def EPoolAlreadyActive : ℕ := 14

def EActivationOfInactivePool : ℕ := 16

def EDelegationOfZeroIota : ℕ := 17

/-- `dynamic_field::EFieldAlreadyExists`, raised by `table::add`. -/
def EFieldAlreadyExists : ℕ := 0

/-- `balance::ENotEnough`, raised by `balance::split`. -/
def ENotEnough : ℕ := 2

/-- `option::EOPTION_IS_SET`, raised by `option::fill`. -/
def EOPTION_IS_SET : ℕ := 0x40000

/-- `option::EOPTION_NOT_SET`, raised by `option::borrow`. -/
def EOPTION_NOT_SET : ℕ := 0x40001

structure PoolTokenExchangeRate where
  iotaAmount : ℕ
  poolTokenAmount : ℕ
  deriving DecidableEq, Repr

structure StakingPoolV1 where
  id : ℕ
  activationEpoch : Option ℕ
  deactivationEpoch : Option ℕ
  iotaBalance : ℕ
  rewardsPool : ℕ
  poolTokenBalance : ℕ
  exchangeRates : List (ℕ × PoolTokenExchangeRate)
  pendingStake : ℕ
  pendingTotalIotaWithdraw : ℕ
  pendingPoolTokenWithdraw : ℕ
  deriving DecidableEq, Repr

structure StakedIota where
  id : ℕ
  poolId : ℕ
  stakeActivationEpoch : ℕ
  principal : ℕ
  deriving DecidableEq, Repr

/-! ### Move library calls -/

/-- `table::add`: a key already present aborts. -/
def tableAdd (table : List (ℕ × PoolTokenExchangeRate)) (k : ℕ) (v : PoolTokenExchangeRate) :
    Except Abort (List (ℕ × PoolTokenExchangeRate)) :=
  if (table.lookup k).isSome then .error (.abort EFieldAlreadyExists) else .ok ((k, v) :: table)

/-- `balance::split`, returning the value left in the balance split from. -/
def balanceSplit (value amount : ℕ) : Except Abort ℕ := do
  assert (value ≥ amount) ENotEnough
  sub value amount

def optionBorrow (o : Option ℕ) : Except Abort ℕ :=
  match o with
  | some e => .ok e
  | none => .error (.abort EOPTION_NOT_SET)

def optionFill (o : Option ℕ) (e : ℕ) : Except Abort (Option ℕ) :=
  match o with
  | none => .ok (some e)
  | some _ => .error (.abort EOPTION_IS_SET)

/-! ### The pool -/

def new (id : ℕ) : StakingPoolV1 where
  id := id
  activationEpoch := none
  deactivationEpoch := none
  iotaBalance := 0
  rewardsPool := 0
  poolTokenBalance := 0
  exchangeRates := []
  pendingStake := 0
  pendingTotalIotaWithdraw := 0
  pendingPoolTokenWithdraw := 0

def StakingPoolV1.isPreactive (pool : StakingPoolV1) : Bool := pool.activationEpoch.isNone

def StakingPoolV1.isInactive (pool : StakingPoolV1) : Bool := pool.deactivationEpoch.isSome

def initialExchangeRate : PoolTokenExchangeRate := ⟨0, 0⟩

/-- The body `get_iota_amount` and `get_token_amount` share:
`numerator * amount / denominator` in `u128`, cast back to `u64`. When either
side of the rate is `0` the pool has no stakes, and the amount converts 1:1. -/
def convertAmount (numerator denominator amount : ℕ) : Except Abort ℕ :=
  if numerator = 0 ∨ denominator = 0 then .ok amount
  else do
    let res ← div (← mul 128 numerator amount) denominator
    cast 64 res

def getIotaAmount (exchangeRate : PoolTokenExchangeRate) (tokenAmount : ℕ) : Except Abort ℕ :=
  convertAmount exchangeRate.iotaAmount exchangeRate.poolTokenAmount tokenAmount

def getTokenAmount (exchangeRate : PoolTokenExchangeRate) (iotaAmount : ℕ) : Except Abort ℕ :=
  convertAmount exchangeRate.poolTokenAmount exchangeRate.iotaAmount iotaAmount

/-- The pool is preactive, or became active after `epoch`. -/
def isPreactiveAtEpoch (pool : StakingPoolV1) (epoch : ℕ) : Bool :=
  match pool.activationEpoch with
  | none => true
  | some activationEpoch => activationEpoch > epoch

/-- The `while` loop of `pool_token_exchange_rate_at_epoch`: the latest entry
at or before `epoch` and not before the activation epoch, or the initial rate
when there is none. Stepping down from epoch `0` underflows. -/
def rateLoop (exchangeRates : List (ℕ × PoolTokenExchangeRate)) (activationEpoch : ℕ) :
    ℕ → Except Abort PoolTokenExchangeRate
  | 0 =>
    if 0 ≥ activationEpoch then
      match exchangeRates.lookup 0 with
      | some rate => .ok rate
      -- `epoch - 1` underflows
      | none => .error .arithmeticError
    else .ok initialExchangeRate
  | epoch + 1 =>
    if epoch + 1 ≥ activationEpoch then
      match exchangeRates.lookup (epoch + 1) with
      | some rate => .ok rate
      | none => rateLoop exchangeRates activationEpoch epoch
    else .ok initialExchangeRate

def poolTokenExchangeRateAtEpoch (pool : StakingPoolV1) (epoch : ℕ) : Except Abort PoolTokenExchangeRate :=
  -- a preactive pool exchanges 1:1
  if isPreactiveAtEpoch pool epoch then .ok initialExchangeRate
  else do
    let clampedEpoch := pool.deactivationEpoch.getD epoch
    let epoch := min clampedEpoch epoch
    let activationEpoch ← optionBorrow pool.activationEpoch
    rateLoop pool.exchangeRates activationEpoch epoch

def processPendingStakeWithdraw (pool : StakingPoolV1) : Except Abort StakingPoolV1 := do
  let iotaBalance ← sub pool.iotaBalance pool.pendingTotalIotaWithdraw
  let poolTokenBalance ← sub pool.poolTokenBalance pool.pendingPoolTokenWithdraw
  pure { pool with iotaBalance, poolTokenBalance, pendingTotalIotaWithdraw := 0, pendingPoolTokenWithdraw := 0 }

def processPendingStake (pool : StakingPoolV1) : Except Abort StakingPoolV1 := do
  -- the latest rate, with the rewards deposited and the withdrawals effectuated
  let latestExchangeRate : PoolTokenExchangeRate := ⟨pool.iotaBalance, pool.poolTokenBalance⟩
  let iotaBalance ← add 64 pool.iotaBalance pool.pendingStake
  let poolTokenBalance ← getTokenAmount latestExchangeRate iotaBalance
  pure { pool with iotaBalance, poolTokenBalance, pendingStake := 0 }

def checkBalanceInvariants (pool : StakingPoolV1) (epoch : ℕ) : Except Abort Unit := do
  let exchangeRate ← poolTokenExchangeRateAtEpoch pool epoch
  -- the ratio of the pool's balances matches the stored rate
  let expected ← getTokenAmount exchangeRate pool.iotaBalance
  let actual := pool.poolTokenBalance
  assert (expected = actual) ETokenBalancesDoNotMatchExchangeRate

def requestAddStake (pool : StakingPoolV1) (stake stakeActivationEpoch id : ℕ) :
    Except Abort (StakingPoolV1 × StakedIota) := do
  let iotaAmount := stake
  assert (pool.isInactive = false) EDelegationToInactivePool
  assert (iotaAmount > 0) EDelegationOfZeroIota
  let stakedIota : StakedIota := ⟨id, pool.id, stakeActivationEpoch, stake⟩
  let pendingStake ← add 64 pool.pendingStake iotaAmount
  pure ({ pool with pendingStake }, stakedIota)

/-- The pool tokens of `staked_iota`, at the rate of its activation epoch, and
its principal. -/
def withdrawFromPrincipal (pool : StakingPoolV1) (stakedIota : StakedIota) : Except Abort (ℕ × ℕ) := do
  assert (stakedIota.poolId = pool.id) EWrongPool
  let exchangeRateAtStakingEpoch ← poolTokenExchangeRateAtEpoch pool stakedIota.stakeActivationEpoch
  let principalWithdraw := stakedIota.principal
  let poolTokenWithdrawAmount ← getTokenAmount exchangeRateAtStakingEpoch principalWithdraw
  pure (poolTokenWithdrawAmount, principalWithdraw)

/-- What the tokens are worth now beyond the principal, capped by the rewards
pool, split from the rewards pool. -/
def withdrawRewards (pool : StakingPoolV1) (principalWithdrawAmount poolTokenWithdrawAmount epoch : ℕ) :
    Except Abort (StakingPoolV1 × ℕ) := do
  let exchangeRate ← poolTokenExchangeRateAtEpoch pool epoch
  let totalIotaWithdrawAmount ← getIotaAmount exchangeRate poolTokenWithdrawAmount
  let rewardWithdrawAmount :=
    if totalIotaWithdrawAmount ≥ principalWithdrawAmount then totalIotaWithdrawAmount - principalWithdrawAmount
    else 0
  let rewardWithdrawAmount := min rewardWithdrawAmount pool.rewardsPool
  let rewardsPool ← balanceSplit pool.rewardsPool rewardWithdrawAmount
  pure ({ pool with rewardsPool }, rewardWithdrawAmount)

/-- The pool after the withdrawal, and the IOTA paid out. -/
def requestWithdrawStake (pool : StakingPoolV1) (stakedIota : StakedIota) (epoch : ℕ) :
    Except Abort (StakingPoolV1 × ℕ) :=
  -- the stake is not active yet: its principal goes back as it is
  if stakedIota.stakeActivationEpoch > epoch then
    let principal := stakedIota.principal
    -- a preactive pool took the stake at once, not as pending stake
    if pool.isPreactive = false then do
      let pendingStake ← sub pool.pendingStake principal
      pure ({ pool with pendingStake }, principal)
    else .ok (pool, principal)
  else do
    let (poolTokenWithdrawAmount, principalWithdraw) ← withdrawFromPrincipal pool stakedIota
    let (pool, rewardsWithdraw) ← withdrawRewards pool principalWithdraw poolTokenWithdrawAmount epoch
    let totalIotaWithdrawAmount ← add 64 principalWithdraw rewardsWithdraw
    let pendingTotalIotaWithdraw ← add 64 pool.pendingTotalIotaWithdraw totalIotaWithdrawAmount
    let pendingPoolTokenWithdraw ← add 64 pool.pendingPoolTokenWithdraw poolTokenWithdrawAmount
    let pool := { pool with pendingTotalIotaWithdraw, pendingPoolTokenWithdraw }
    -- an inactive pool processes the withdrawal at once
    let pool ← (if pool.isInactive then processPendingStakeWithdraw pool else .ok pool)
    -- `principal_withdraw.join(rewards_withdraw)`
    let withdrawn ← add 64 principalWithdraw rewardsWithdraw
    pure (pool, withdrawn)

def depositRewards (pool : StakingPoolV1) (rewards : ℕ) : Except Abort StakingPoolV1 := do
  let iotaBalance ← add 64 pool.iotaBalance rewards
  let rewardsPool ← add 64 pool.rewardsPool rewards
  pure { pool with iotaBalance, rewardsPool }

def processPendingStakesAndWithdraws (pool : StakingPoolV1) (epoch : ℕ) : Except Abort StakingPoolV1 := do
  let newEpoch ← add 64 epoch 1
  let pool ← processPendingStakeWithdraw pool
  let pool ← processPendingStake pool
  let exchangeRates ← tableAdd pool.exchangeRates newEpoch ⟨pool.iotaBalance, pool.poolTokenBalance⟩
  let pool := { pool with exchangeRates }
  checkBalanceInvariants pool newEpoch
  pure pool

def activateStakingPool (pool : StakingPoolV1) (activationEpoch : ℕ) : Except Abort StakingPoolV1 := do
  -- the initial rate goes into the table before the checks
  let exchangeRates ← tableAdd pool.exchangeRates activationEpoch initialExchangeRate
  let pool := { pool with exchangeRates }
  assert (pool.isPreactive = true) EPoolAlreadyActive
  assert (pool.isInactive = false) EActivationOfInactivePool
  let activationEpoch ← optionFill pool.activationEpoch activationEpoch
  pure { pool with activationEpoch }

def deactivateStakingPool (pool : StakingPoolV1) (deactivationEpoch : ℕ) : Except Abort StakingPoolV1 := do
  assert (pool.isInactive = false) EDeactivationOfInactivePool
  pure { pool with deactivationEpoch := some deactivationEpoch }

/-! ### What each call does

One lemma per function: when it returns, what it returned, and when it does. -/

section Spec

variable {pool pool' : StakingPoolV1}

theorem tableAdd_eq_ok {table table' : List (ℕ × PoolTokenExchangeRate)} {k : ℕ} {v : PoolTokenExchangeRate} :
    tableAdd table k v = .ok table' ↔ table.lookup k = none ∧ table' = (k, v) :: table := by
  unfold tableAdd
  cases table.lookup k <;> simp [eq_comm]

theorem balanceSplit_of_le {value amount : ℕ} (h : amount ≤ value) :
    balanceSplit value amount = .ok (value - amount) := by
  rw [balanceSplit, assert_of h, except_ok_bind, sub_of_le h]

theorem convertAmount_of_zero {n d a : ℕ} (h : n = 0 ∨ d = 0) : convertAmount n d a = .ok a := if_pos h

theorem convertAmount_of_le {n d a : ℕ} (hn : 0 < n) (hd : 0 < d) (hn64 : n < 2 ^ 64) (hd64 : d < 2 ^ 64)
    (ha : a ≤ d) : convertAmount n d a = .ok (n * a / d) ∧ n * a / d ≤ n := by
  have hle : n * a / d ≤ n := Nat.div_le_of_le_mul (by rw [Nat.mul_comm d n]; exact Nat.mul_le_mul_left n ha)
  have hmul : n * a < 2 ^ 128 :=
    calc n * a ≤ n * d := Nat.mul_le_mul_left n ha
      _ < 2 ^ 64 * 2 ^ 64 := Nat.mul_lt_mul'' hn64 hd64
      _ = 2 ^ 128 := by rw [← pow_add]
  refine ⟨?_, hle⟩
  rw [convertAmount, if_neg (by omega), mul_of_lt hmul, except_ok_bind, div_of_pos hd, except_ok_bind,
    cast_of_lt (by omega)]

theorem eq_of_convertAmount_eq_ok {n d a r : ℕ} (h : convertAmount n d a = .ok r) :
    ((n = 0 ∨ d = 0) ∧ r = a) ∨ (0 < n ∧ 0 < d ∧ r = n * a / d) := by
  unfold convertAmount at h
  split_ifs at h with hzero
  · exact .inl ⟨hzero, (Except.ok.inj h).symm⟩
  · simp only [except_bind_eq_ok] at h
    obtain ⟨m, hm, res, hres, hr⟩ := h
    rw [eq_of_mul_eq_ok hm] at hres
    obtain ⟨-, rfl⟩ := eq_of_div_eq_ok hres
    exact .inr ⟨by omega, by omega, eq_of_cast_eq_ok hr⟩

/-- What `convertAmount` returns when nothing overflows. -/
def convertedAmount (numerator denominator amount : ℕ) : ℕ :=
  if numerator = 0 ∨ denominator = 0 then amount else numerator * amount / denominator

theorem eq_convertedAmount_of_convertAmount_eq_ok {n d a r : ℕ} (h : convertAmount n d a = .ok r) :
    r = convertedAmount n d a := by
  unfold convertedAmount
  rcases eq_of_convertAmount_eq_ok h with ⟨hzero, rfl⟩ | ⟨hn, hd, rfl⟩
  · rw [if_pos hzero]
  · rw [if_neg (by omega)]

theorem convertAmount_eq_ok_convertedAmount {n d a : ℕ} (hn : n < 2 ^ 64) (hd : d < 2 ^ 64)
    (ha : 0 < n → 0 < d → a ≤ d) : convertAmount n d a = .ok (convertedAmount n d a) := by
  unfold convertedAmount
  by_cases hzero : n = 0 ∨ d = 0
  · rw [if_pos hzero, convertAmount_of_zero hzero]
  · rw [if_neg hzero]
    exact (convertAmount_of_le (by omega) (by omega) hn hd (ha (by omega) (by omega))).1

theorem convertAmount_lt {n d a r : ℕ} (h : convertAmount n d a = .ok r) (ha : a < 2 ^ 64) : r < 2 ^ 64 := by
  unfold convertAmount at h
  split_ifs at h
  · cases h
    exact ha
  · simp only [except_bind_eq_ok] at h
    obtain ⟨_, -, res, -, hr⟩ := h
    unfold Move.cast at hr
    split_ifs at hr with hlt
    cases hr
    exact hlt

theorem rateLoop_of_lookup {rates : List (ℕ × PoolTokenExchangeRate)} {a e : ℕ} {rate : PoolTokenExchangeRate}
    (ha : a ≤ e) (h : rates.lookup e = some rate) : rateLoop rates a e = .ok rate := by
  cases e with
  | zero => simp only [rateLoop, ge_iff_le, ha, if_true, h]
  | succ e => simp only [rateLoop, ge_iff_le, ha, if_true, h]

theorem rateLoop_congr {rates rates' : List (ℕ × PoolTokenExchangeRate)} {a : ℕ} :
    ∀ {e : ℕ}, (∀ k ≤ e, rates'.lookup k = rates.lookup k) → rateLoop rates' a e = rateLoop rates a e
  | 0, h => by simp only [rateLoop, h 0 le_rfl]
  | e + 1, h => by
    simp only [rateLoop, h (e + 1) le_rfl, rateLoop_congr fun k hk => h k (Nat.le_succ_of_le hk)]

theorem poolTokenExchangeRateAtEpoch_of_preactive (h : pool.activationEpoch = none) (epoch : ℕ) :
    poolTokenExchangeRateAtEpoch pool epoch = .ok initialExchangeRate := by
  simp [poolTokenExchangeRateAtEpoch, isPreactiveAtEpoch, h]

theorem poolTokenExchangeRateAtEpoch_of_lt {a epoch : ℕ} (h : pool.activationEpoch = some a) (hlt : epoch < a) :
    poolTokenExchangeRateAtEpoch pool epoch = .ok initialExchangeRate := by
  simp [poolTokenExchangeRateAtEpoch, isPreactiveAtEpoch, h, hlt]

theorem poolTokenExchangeRateAtEpoch_of_le {a epoch : ℕ} (h : pool.activationEpoch = some a) (hle : a ≤ epoch) :
    poolTokenExchangeRateAtEpoch pool epoch =
      rateLoop pool.exchangeRates a (min (pool.deactivationEpoch.getD epoch) epoch) := by
  simp [poolTokenExchangeRateAtEpoch, isPreactiveAtEpoch, h, optionBorrow, Nat.not_lt.mpr hle]

theorem poolTokenExchangeRateAtEpoch_eq_of_agree {epoch : ℕ} (h₁ : pool'.activationEpoch = pool.activationEpoch)
    (h₂ : min (pool'.deactivationEpoch.getD epoch) epoch = min (pool.deactivationEpoch.getD epoch) epoch)
    (h₃ : ∀ k ≤ epoch, pool'.exchangeRates.lookup k = pool.exchangeRates.lookup k) :
    poolTokenExchangeRateAtEpoch pool' epoch = poolTokenExchangeRateAtEpoch pool epoch := by
  cases ha : pool.activationEpoch with
  | none =>
    rw [poolTokenExchangeRateAtEpoch_of_preactive (h₁.trans ha), poolTokenExchangeRateAtEpoch_of_preactive ha]
  | some a =>
    by_cases hlt : epoch < a
    · rw [poolTokenExchangeRateAtEpoch_of_lt (h₁.trans ha) hlt, poolTokenExchangeRateAtEpoch_of_lt ha hlt]
    · rw [poolTokenExchangeRateAtEpoch_of_le (h₁.trans ha) (Nat.le_of_not_lt hlt),
        poolTokenExchangeRateAtEpoch_of_le ha (Nat.le_of_not_lt hlt), h₂]
      exact rateLoop_congr fun k hk => h₃ k (hk.trans (min_le_right _ _))

theorem poolTokenExchangeRateAtEpoch_of_lookup {a epoch : ℕ} {rate : PoolTokenExchangeRate}
    (ha : pool.activationEpoch = some a) (hle : a ≤ epoch) (hd : pool.deactivationEpoch = none)
    (h : pool.exchangeRates.lookup epoch = some rate) : poolTokenExchangeRateAtEpoch pool epoch = .ok rate := by
  rw [poolTokenExchangeRateAtEpoch_of_le ha hle, hd, Option.getD_none, Nat.min_self]
  exact rateLoop_of_lookup hle h

theorem checkBalanceInvariants_of_rate {epoch : ℕ} {rate : PoolTokenExchangeRate}
    (hrate : poolTokenExchangeRateAtEpoch pool epoch = .ok rate)
    (h : getTokenAmount rate pool.iotaBalance = .ok pool.poolTokenBalance) : checkBalanceInvariants pool epoch = .ok () := by
  rw [checkBalanceInvariants, hrate, except_ok_bind, h, except_ok_bind]
  exact assert_of rfl

theorem processPendingStakeWithdraw_eq_ok :
    processPendingStakeWithdraw pool = .ok pool' ↔
      pool.pendingTotalIotaWithdraw ≤ pool.iotaBalance ∧ pool.pendingPoolTokenWithdraw ≤ pool.poolTokenBalance ∧
        pool' = { pool with
          iotaBalance := pool.iotaBalance - pool.pendingTotalIotaWithdraw,
          poolTokenBalance := pool.poolTokenBalance - pool.pendingPoolTokenWithdraw,
          pendingTotalIotaWithdraw := 0, pendingPoolTokenWithdraw := 0 } := by
  simp only [processPendingStakeWithdraw, except_bind_eq_ok, except_pure_eq_ok, sub_eq_ok_iff]
  constructor
  · rintro ⟨_, ⟨hle₁, rfl⟩, _, ⟨hle₂, rfl⟩, rfl⟩
    exact ⟨hle₁, hle₂, rfl⟩
  · rintro ⟨hle₁, hle₂, rfl⟩
    exact ⟨_, ⟨hle₁, rfl⟩, _, ⟨hle₂, rfl⟩, rfl⟩

theorem processPendingStake_eq_ok :
    processPendingStake pool = .ok pool' ↔
      pool.iotaBalance + pool.pendingStake < 2 ^ 64 ∧ ∃ poolTokenBalance,
        getTokenAmount ⟨pool.iotaBalance, pool.poolTokenBalance⟩ (pool.iotaBalance + pool.pendingStake) =
          .ok poolTokenBalance ∧
        pool' = { pool with
          iotaBalance := pool.iotaBalance + pool.pendingStake, poolTokenBalance, pendingStake := 0 } := by
  simp only [processPendingStake, except_bind_eq_ok, except_pure_eq_ok, add_eq_ok_iff]
  constructor
  · rintro ⟨_, ⟨hlt, rfl⟩, t, ht, rfl⟩
    exact ⟨hlt, t, ht, rfl⟩
  · rintro ⟨hlt, t, ht, rfl⟩
    exact ⟨_, ⟨hlt, rfl⟩, t, ht, rfl⟩

theorem depositRewards_eq_ok {rewards : ℕ} :
    depositRewards pool rewards = .ok pool' ↔
      pool.iotaBalance + rewards < 2 ^ 64 ∧ pool.rewardsPool + rewards < 2 ^ 64 ∧
        pool' = { pool with
          iotaBalance := pool.iotaBalance + rewards, rewardsPool := pool.rewardsPool + rewards } := by
  simp only [depositRewards, except_bind_eq_ok, except_pure_eq_ok, add_eq_ok_iff]
  constructor
  · rintro ⟨_, ⟨hlt₁, rfl⟩, _, ⟨hlt₂, rfl⟩, rfl⟩
    exact ⟨hlt₁, hlt₂, rfl⟩
  · rintro ⟨hlt₁, hlt₂, rfl⟩
    exact ⟨_, ⟨hlt₁, rfl⟩, _, ⟨hlt₂, rfl⟩, rfl⟩

theorem requestAddStake_eq_ok {stake stakeActivationEpoch id : ℕ} {stakedIota : StakedIota} :
    requestAddStake pool stake stakeActivationEpoch id = .ok (pool', stakedIota) ↔
      pool.isInactive = false ∧ 0 < stake ∧ pool.pendingStake + stake < 2 ^ 64 ∧
        pool' = { pool with pendingStake := pool.pendingStake + stake } ∧
        stakedIota = ⟨id, pool.id, stakeActivationEpoch, stake⟩ := by
  simp only [requestAddStake, except_bind_eq_ok, except_pure_eq_ok, add_eq_ok_iff, Prod.mk.injEq,
    assert_eq_ok_iff]
  constructor
  · rintro ⟨⟨⟩, h₁, ⟨⟩, h₂, _, ⟨hlt, rfl⟩, rfl, rfl⟩
    exact ⟨h₁, h₂, hlt, rfl, rfl⟩
  · rintro ⟨h₁, h₂, hlt, rfl, rfl⟩
    exact ⟨⟨⟩, h₁, ⟨⟩, h₂, _, ⟨hlt, rfl⟩, rfl, rfl⟩

theorem withdrawFromPrincipal_eq_ok {stakedIota : StakedIota} {tokens principal : ℕ} :
    withdrawFromPrincipal pool stakedIota = .ok (tokens, principal) ↔
      stakedIota.poolId = pool.id ∧ principal = stakedIota.principal ∧ ∃ rate,
        poolTokenExchangeRateAtEpoch pool stakedIota.stakeActivationEpoch = .ok rate ∧
        getTokenAmount rate stakedIota.principal = .ok tokens := by
  simp only [withdrawFromPrincipal, except_bind_eq_ok, except_pure_eq_ok, Prod.mk.injEq]
  constructor
  · rintro ⟨⟨⟩, hid, rate, hrate, _, htok, rfl, rfl⟩
    exact ⟨of_assert_eq_ok hid, rfl, rate, hrate, htok⟩
  · rintro ⟨hid, rfl, rate, hrate, htok⟩
    exact ⟨⟨⟩, assert_of hid, rate, hrate, tokens, htok, rfl, rfl⟩

theorem withdrawRewards_eq_ok {principal tokens epoch reward : ℕ} :
    withdrawRewards pool principal tokens epoch = .ok (pool', reward) ↔
      ∃ rate total, poolTokenExchangeRateAtEpoch pool epoch = .ok rate ∧ getIotaAmount rate tokens = .ok total ∧
        reward = min (if total ≥ principal then total - principal else 0) pool.rewardsPool ∧
        pool' = { pool with rewardsPool := pool.rewardsPool - reward } := by
  simp only [withdrawRewards, except_bind_eq_ok, except_pure_eq_ok, Prod.mk.injEq]
  constructor
  · rintro ⟨rate, hrate, total, htotal, _, hsplit, rfl, rfl⟩
    rw [balanceSplit_of_le (min_le_right _ _)] at hsplit
    cases hsplit
    exact ⟨rate, total, hrate, htotal, rfl, rfl⟩
  · rintro ⟨rate, total, hrate, htotal, rfl, rfl⟩
    exact ⟨rate, hrate, total, htotal, _, balanceSplit_of_le (min_le_right _ _), rfl, rfl⟩

theorem requestWithdrawStake_of_lt {stakedIota : StakedIota} {epoch : ℕ} (h : epoch < stakedIota.stakeActivationEpoch) :
    requestWithdrawStake pool stakedIota epoch =
      if pool.isPreactive = false then do
        let pendingStake ← sub pool.pendingStake stakedIota.principal
        pure ({ pool with pendingStake }, stakedIota.principal)
      else .ok (pool, stakedIota.principal) := if_pos h

theorem requestWithdrawStake_of_le_eq_ok {stakedIota : StakedIota} {epoch withdrawn : ℕ}
    (h : stakedIota.stakeActivationEpoch ≤ epoch) :
    requestWithdrawStake pool stakedIota epoch = .ok (pool', withdrawn) ↔
      ∃ tokens reward, withdrawFromPrincipal pool stakedIota = .ok (tokens, stakedIota.principal) ∧
        withdrawRewards pool stakedIota.principal tokens epoch =
          .ok ({ pool with rewardsPool := pool.rewardsPool - reward }, reward) ∧
        withdrawn = stakedIota.principal + reward ∧ withdrawn < 2 ^ 64 ∧
        pool.pendingTotalIotaWithdraw + withdrawn < 2 ^ 64 ∧ pool.pendingPoolTokenWithdraw + tokens < 2 ^ 64 ∧
        (let pool₁ := { pool with
            rewardsPool := pool.rewardsPool - reward,
            pendingTotalIotaWithdraw := pool.pendingTotalIotaWithdraw + withdrawn,
            pendingPoolTokenWithdraw := pool.pendingPoolTokenWithdraw + tokens };
          (if pool.isInactive then processPendingStakeWithdraw pool₁ else .ok pool₁) = .ok pool') := by
  rw [requestWithdrawStake, if_neg (Nat.not_lt.mpr h)]
  simp only [except_bind_eq_ok, except_pure_eq_ok, Prod.mk.injEq, add_eq_ok_iff]
  constructor
  · rintro ⟨⟨tokens, principal⟩, hfrom, ⟨pool₁, reward⟩, hrew, _, ⟨hlt, rfl⟩, _, ⟨hlt₁, rfl⟩, _, ⟨hlt₂, rfl⟩,
      pool₂, hpool₂, _, ⟨-, rfl⟩, rfl, rfl⟩
    obtain ⟨-, rfl, -⟩ := Iff.mp withdrawFromPrincipal_eq_ok hfrom
    obtain ⟨rate, total, -, -, -, rfl⟩ := Iff.mp withdrawRewards_eq_ok hrew
    exact ⟨tokens, reward, hfrom, hrew, rfl, hlt, hlt₁, hlt₂, hpool₂⟩
  · rintro ⟨tokens, reward, hfrom, hrew, rfl, hlt, hlt₁, hlt₂, hpool⟩
    exact ⟨(tokens, stakedIota.principal), hfrom, (_, reward), hrew, _, ⟨hlt, rfl⟩, _, ⟨hlt₁, rfl⟩, _,
      ⟨hlt₂, rfl⟩, pool', hpool, _, ⟨hlt, rfl⟩, rfl, rfl⟩

theorem processPendingStakesAndWithdraws_eq_ok {epoch : ℕ} :
    processPendingStakesAndWithdraws pool epoch = .ok pool' ↔
      epoch + 1 < 2 ^ 64 ∧ ∃ pool₁ pool₂, processPendingStakeWithdraw pool = .ok pool₁ ∧
        processPendingStake pool₁ = .ok pool₂ ∧ pool₂.exchangeRates.lookup (epoch + 1) = none ∧
        pool' = { pool₂ with
          exchangeRates := (epoch + 1, ⟨pool₂.iotaBalance, pool₂.poolTokenBalance⟩) :: pool₂.exchangeRates } ∧
        checkBalanceInvariants pool' (epoch + 1) = .ok () := by
  simp only [processPendingStakesAndWithdraws, except_bind_eq_ok, except_pure_eq_ok, add_eq_ok_iff, tableAdd_eq_ok]
  constructor
  · rintro ⟨_, ⟨hlt, rfl⟩, pool₁, h₁, pool₂, h₂, _, ⟨hfresh, rfl⟩, ⟨⟩, hcheck, rfl⟩
    exact ⟨hlt, pool₁, pool₂, h₁, h₂, hfresh, rfl, hcheck⟩
  · rintro ⟨hlt, pool₁, pool₂, h₁, h₂, hfresh, rfl, hcheck⟩
    exact ⟨_, ⟨hlt, rfl⟩, pool₁, h₁, pool₂, h₂, _, ⟨hfresh, rfl⟩, ⟨⟩, hcheck, rfl⟩

theorem activateStakingPool_eq_ok {activationEpoch : ℕ} :
    activateStakingPool pool activationEpoch = .ok pool' ↔
      pool.exchangeRates.lookup activationEpoch = none ∧ pool.activationEpoch = none ∧ pool.isInactive = false ∧
        pool' = { pool with
          exchangeRates := (activationEpoch, initialExchangeRate) :: pool.exchangeRates,
          activationEpoch := some activationEpoch } := by
  simp only [activateStakingPool, except_bind_eq_ok, except_pure_eq_ok, tableAdd_eq_ok, assert_eq_ok_iff,
    StakingPoolV1.isPreactive, Option.isNone_iff_eq_none]
  constructor
  · rintro ⟨_, ⟨hfresh, rfl⟩, ⟨⟩, hnone, ⟨⟩, hin, a, hfill, rfl⟩
    simp only [hnone, optionFill] at hfill
    cases hfill
    exact ⟨hfresh, hnone, hin, rfl⟩
  · rintro ⟨hfresh, hnone, hin, rfl⟩
    refine ⟨_, ⟨hfresh, rfl⟩, ⟨⟩, hnone, ⟨⟩, hin, _, ?_, rfl⟩
    simp only [hnone, optionFill]

theorem deactivateStakingPool_eq_ok {deactivationEpoch : ℕ} :
    deactivateStakingPool pool deactivationEpoch = .ok pool' ↔
      pool.isInactive = false ∧ pool' = { pool with deactivationEpoch := some deactivationEpoch } := by
  simp only [deactivateStakingPool, except_bind_eq_ok, except_pure_eq_ok, assert_eq_ok_iff]
  constructor
  · rintro ⟨⟨⟩, hin, rfl⟩
    exact ⟨hin, rfl⟩
  · rintro ⟨h, rfl⟩
    exact ⟨⟨⟩, h, rfl⟩

end Spec

/-! ### Calls on one pool

The `StakedIota` objects a pool issued live with their stakers. A `Ledger`
keeps them next to the pool, with the next fresh object id and running totals
of the IOTA staked, deposited as rewards and paid out. A withdrawal names one
of the live objects; a call naming none cannot be made and changes nothing. -/

structure Ledger where
  pool : StakingPoolV1
  stakes : List StakedIota
  nextId : ℕ
  staked : ℕ
  deposited : ℕ
  paidOut : ℕ
  deriving DecidableEq, Repr

def Ledger.init (poolId : ℕ) : Ledger := ⟨new poolId, [], poolId + 1, 0, 0, 0⟩

/-- The pool's functions with the arguments their callers choose; `epoch` is
the transaction's `ctx.epoch()`. -/
inductive Call
  | requestAddStake (stake stakeActivationEpoch : ℕ)
  | requestWithdrawStake (index epoch : ℕ)
  | depositRewards (rewards : ℕ)
  | processPendingStakesAndWithdraws (epoch : ℕ)
  | processPendingStake
  | activateStakingPool (activationEpoch : ℕ)
  | deactivateStakingPool (deactivationEpoch : ℕ)
  deriving DecidableEq, Repr

def Call.run : Call → Ledger → Except Abort Ledger
  | .requestAddStake stake stakeActivationEpoch, l => do
    let (pool, stakedIota) ← StakingPool.requestAddStake l.pool stake stakeActivationEpoch l.nextId
    pure { l with pool, stakes := l.stakes ++ [stakedIota], nextId := l.nextId + 1, staked := l.staked + stake }
  | .requestWithdrawStake index epoch, l =>
    match l.stakes[index]? with
    | none => .ok l
    | some stakedIota => do
      let (pool, withdrawn) ← StakingPool.requestWithdrawStake l.pool stakedIota epoch
      pure { l with pool, stakes := l.stakes.erase stakedIota, paidOut := l.paidOut + withdrawn }
  | .depositRewards rewards, l => do
    let pool ← StakingPool.depositRewards l.pool rewards
    pure { l with pool, deposited := l.deposited + rewards }
  | .processPendingStakesAndWithdraws epoch, l => do
    let pool ← StakingPool.processPendingStakesAndWithdraws l.pool epoch
    pure { l with pool }
  | .processPendingStake, l => do
    let pool ← StakingPool.processPendingStake l.pool
    pure { l with pool }
  | .activateStakingPool activationEpoch, l => do
    let pool ← StakingPool.activateStakingPool l.pool activationEpoch
    pure { l with pool }
  | .deactivateStakingPool deactivationEpoch, l => do
    let pool ← StakingPool.deactivateStakingPool l.pool deactivationEpoch
    pure { l with pool }

def runCalls (calls : List Call) (l : Ledger) : Except Abort Ledger :=
  calls.foldlM (fun l call => call.run l) l

/-- Calls in an order the validator set never makes: a stake processed at a
boundary before its activation epoch is then withdrawn as not yet active, and
a pool never activated processes its pending stake at a boundary after its
rewards pool got rewards. -/
theorem runCalls_withdraw_underflow_and_check_abort :
    runCalls [.activateStakingPool 0, .requestAddStake 1 2, .processPendingStakesAndWithdraws 0,
      .requestWithdrawStake 0 1] (Ledger.init 0) = .error .arithmeticError ∧
    runCalls [.requestAddStake 10 1, .processPendingStakesAndWithdraws 0, .depositRewards 5,
      .requestAddStake 10 2, .processPendingStakesAndWithdraws 1] (Ledger.init 0) =
        .error (.abort ETokenBalancesDoNotMatchExchangeRate) := by
  decide

/-! ### No IOTA is created

`Balance<IOTA>` is a resource: a withdrawal pays the principal it consumes and
what it splits from the rewards pool, so every IOTA staked or deposited is in
a live `StakedIota`, in the rewards pool, or paid out, whatever the calls. -/

def Ledger.Conserves (l : Ledger) : Prop :=
  l.paidOut + (l.stakes.map StakedIota.principal).sum + l.pool.rewardsPool = l.staked + l.deposited

theorem requestWithdrawStake_withdrawn_add_rewardsPool {stakedIota : StakedIota} {epoch withdrawn : ℕ}
    (h : requestWithdrawStake pool stakedIota epoch = .ok (pool', withdrawn)) :
    withdrawn + pool'.rewardsPool = stakedIota.principal + pool.rewardsPool := by
  by_cases hlt : epoch < stakedIota.stakeActivationEpoch
  · rw [requestWithdrawStake_of_lt hlt] at h
    split_ifs at h
    · simp only [except_bind_eq_ok, except_pure_eq_ok, Prod.mk.injEq] at h
      obtain ⟨_, -, rfl, rfl⟩ := h
      rfl
    · cases h
      rfl
  · obtain ⟨tokens, reward, -, hrew, rfl, -, -, -, hpool⟩ :=
      (requestWithdrawStake_of_le_eq_ok (Nat.le_of_not_lt hlt)).mp h
    obtain ⟨rate, total, -, -, hreward, -⟩ := Iff.mp withdrawRewards_eq_ok hrew
    have hle : reward ≤ pool.rewardsPool := by
      rw [hreward]
      exact min_le_right _ _
    -- the pending bookkeeping and its processing leave the rewards pool alone
    have hpool' : pool'.rewardsPool = pool.rewardsPool - reward := by
      dsimp only at hpool
      split_ifs at hpool
      · obtain ⟨-, -, rfl⟩ := Iff.mp processPendingStakeWithdraw_eq_ok hpool
        rfl
      · cases hpool
        rfl
    omega

theorem Call.run_conserves {call : Call} {l l' : Ledger} (h : call.run l = .ok l') (hl : l.Conserves) :
    l'.Conserves := by
  unfold Ledger.Conserves at hl ⊢
  cases call with
  | requestAddStake stake stakeActivationEpoch =>
    simp only [Call.run, except_bind_eq_ok, except_pure_eq_ok] at h
    obtain ⟨⟨pool, stakedIota⟩, hadd, rfl⟩ := h
    obtain ⟨-, -, -, rfl, rfl⟩ := Iff.mp requestAddStake_eq_ok hadd
    simp only [List.map_append, List.sum_append, List.map_cons, List.map_nil, List.sum_cons, List.sum_nil]
    omega
  | requestWithdrawStake index epoch =>
    simp only [Call.run] at h
    split at h
    · cases h
      exact hl
    · rename_i stakedIota hget
      simp only [except_bind_eq_ok, except_pure_eq_ok] at h
      obtain ⟨⟨pool, withdrawn⟩, hw, rfl⟩ := h
      have hpaid := requestWithdrawStake_withdrawn_add_rewardsPool hw
      -- the withdrawn object leaves the live ones
      have hsum := ((List.perm_cons_erase (List.mem_of_getElem? hget)).map StakedIota.principal).sum_eq
      simp only [List.map_cons, List.sum_cons] at hsum
      dsimp only
      omega
  | depositRewards rewards =>
    simp only [Call.run, except_bind_eq_ok, except_pure_eq_ok] at h
    obtain ⟨pool, hdep, rfl⟩ := h
    obtain ⟨-, -, rfl⟩ := Iff.mp depositRewards_eq_ok hdep
    dsimp only
    omega
  | processPendingStakesAndWithdraws epoch =>
    simp only [Call.run, except_bind_eq_ok, except_pure_eq_ok] at h
    obtain ⟨pool, hproc, rfl⟩ := h
    obtain ⟨-, pool₁, pool₂, h₁, h₂, -, rfl, -⟩ := Iff.mp processPendingStakesAndWithdraws_eq_ok hproc
    obtain ⟨-, -, rfl⟩ := Iff.mp processPendingStakeWithdraw_eq_ok h₁
    obtain ⟨-, _, -, rfl⟩ := Iff.mp processPendingStake_eq_ok h₂
    exact hl
  | processPendingStake =>
    simp only [Call.run, except_bind_eq_ok, except_pure_eq_ok] at h
    obtain ⟨pool, hproc, rfl⟩ := h
    obtain ⟨-, _, -, rfl⟩ := Iff.mp processPendingStake_eq_ok hproc
    exact hl
  | activateStakingPool activationEpoch =>
    simp only [Call.run, except_bind_eq_ok, except_pure_eq_ok] at h
    obtain ⟨pool, hact, rfl⟩ := h
    obtain ⟨-, -, -, rfl⟩ := Iff.mp activateStakingPool_eq_ok hact
    exact hl
  | deactivateStakingPool deactivationEpoch =>
    simp only [Call.run, except_bind_eq_ok, except_pure_eq_ok] at h
    obtain ⟨pool, hdeact, rfl⟩ := h
    obtain ⟨-, rfl⟩ := Iff.mp deactivateStakingPool_eq_ok hdeact
    exact hl

theorem runCalls_conserves {calls : List Call} {l : Ledger} (poolId : ℕ)
    (h : runCalls calls (Ledger.init poolId) = .ok l) : l.Conserves :=
  foldlM_except_induction (P := Ledger.Conserves) (show (Ledger.init poolId).Conserves from rfl)
    (fun _ _ _ _ hl hrun => Call.run_conserves hrun hl) h

end Iota.System.StakingPool
