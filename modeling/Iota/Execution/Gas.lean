import Mathlib
import Iota.Core.Transaction

/-! The gas meter of a transaction (`crates/iota-types/src/gas_model/gas_v1.rs`)
and the gas coin operations of `crates/iota-types/src/gas.rs`.

Amounts are natural numbers: the checked `u64` arithmetic of the source is
modelled by its values, and the subtractions and asserts that can fail are
kept as panics.  The Move meter inside `IotaGasStatus` is modelled by the
one number read from it here, the computation units it has charged. -/

namespace Iota.Execution

open Iota.Core Iota.Lib

/-- What an object holds: a Move object, with whether its type is
`Coin<IOTA>` and the value `get_coin_value_unsafe` reads from it, or a
package. -/
inductive Data
  | move (isGasCoin : Bool) (coinValue : ℕ)
  | package
  deriving DecidableEq, Repr

structure Object where
  id : ℕ
  data : Data
  owner : Owner
  storageRebate : ℕ
  /-- `object_size_for_gas_metering` -/
  size : ℕ
  deriving DecidableEq, Repr

def Object.isAddressOwned (o : Object) : Bool :=
  match o.owner with
  | .addressOwner _ => true
  | _ => false

/-- The errors of execution read here; the conservation check's carry the
amounts its messages report. -/
inductive ExecutionError
  | insufficientGas
  | conservationNoStorageCharges (totalInputRebate totalOutputRebate : ℕ)
  | conservationInputRebate (totalInputRebate nonRefundableStorageFee : ℕ)
  | conservationStorageCost (storageCost totalOutputRebate : ℕ)
  | other (kind : ℕ)
  deriving DecidableEq, Repr

/-- The panics on the gas charging path. -/
inductive ChargePanic
  /-- an `unwrap` of `None` -/
  | unwrapNone
  /-- "Invariant violation: non-gas coin object as input for gas" -/
  | nonGasCoinAsGas
  /-- "Invariant violation: gas coin not found in store" -/
  | gasCoinNotFound
  /-- "Invariant violation: invalid coin object" -/
  | invalidCoinObject
  /-- `assert!(sender_rebate <= storage_rebate)` -/
  | senderRebateAboveRebate
  /-- a division by a zero gas price -/
  | divisionByZero
  /-- a checked subtraction below zero -/
  | arithmeticOverflow
  /-- `assert!(balance >= charge_or_rebate as u64)` -/
  | balanceBelowCharge
  deriving DecidableEq, Repr

structure GasCostSummary where
  computationCost : ℕ
  computationCostBurned : ℕ
  storageCost : ℕ
  storageRebate : ℕ
  nonRefundableStorageFee : ℕ
  deriving DecidableEq, Repr, Inhabited

namespace GasCostSummary

def gasUsed (s : GasCostSummary) : ℕ := s.computationCost + s.storageCost

/-- Positive for a charge, negative for a refund. -/
def netGasUsage (s : GasCostSummary) : ℤ := (s.gasUsed : ℤ) - s.storageRebate

end GasCostSummary

/-- `deduct_gas`: take a charge from the coin, or add a refund to it. -/
def deductGas (gasObject : Object) (chargeOrRebate : ℤ) : Except ChargePanic Object :=
  match gasObject.data with
  | .package => throw .unwrapNone
  | .move isGasCoin balance =>
    if chargeOrRebate < 0 then
      pure { gasObject with data := .move isGasCoin (balance + (-chargeOrRebate).toNat) }
    else if chargeOrRebate.toNat ≤ balance then
      pure { gasObject with data := .move isGasCoin (balance - chargeOrRebate.toNat) }
    else throw .balanceBelowCharge

def getGasBalance (gasObject : Object) : Except UserInputError ℕ :=
  match gasObject.data with
  | .move true value => pure value
  | _ => throw (.invalidGasObject gasObject.id)

structure ComputationBucket where
  min : ℕ
  max : ℕ
  cost : ℕ
  deriving DecidableEq, Repr

/-- The cost of the first bucket that reaches the computation cost, or of the
last bucket. -/
def getBucketCost (table : List ComputationBucket) (computationCost : ℕ) : ℕ :=
  match table.find? (fun bucket => computationCost ≤ bucket.max) with
  | some bucket => bucket.cost
  | none =>
    match table.getLast? with
    | none => 5_000_000
    | some bucket => bucket.cost

def BASIS_POINTS : ℕ := 10000

/-- The part of the storage rebate paid back to the sender, rounded half up. -/
def senderRebate (storageRebate storageRebateRate : ℕ) : ℕ :=
  (storageRebate * storageRebateRate + BASIS_POINTS / 2) / BASIS_POINTS

/-- The constants of `IotaCostTable` read here. -/
structure IotaCostTable where
  minTransactionCost : ℕ
  maxGasBudget : ℕ
  storagePerByteCost : ℕ
  computationBucket : List ComputationBucket
  deriving DecidableEq, Repr

structure PerObjectStorage where
  storageCost : ℕ
  storageRebate : ℕ
  newSize : ℕ
  deriving DecidableEq, Repr

structure IotaGasStatus where
  /-- `gas_status.gas_used_pre_gas_price()`: what the Move meter has charged. -/
  gasUsedPreGasPrice : ℕ
  costTable : IotaCostTable
  gasBudget : ℕ
  computationCost : ℕ
  charge : Bool
  gasPrice : ℕ
  referenceGasPrice : ℕ
  storageGasPrice : ℕ
  perObjectStorage : List (ℕ × PerObjectStorage)
  rebateRate : ℕ
  unmeteredStorageRebate : ℕ
  gasRoundingStep : Option ℕ
  protocolDefinedBaseFee : Bool
  deriving DecidableEq, Repr

namespace IotaGasStatus

variable (g : IotaGasStatus)

def isUnmetered : Bool := !g.charge

def storageGasUnits : ℕ := (g.perObjectStorage.map fun entry => entry.2.storageCost).sum

def storageRebate : ℕ := (g.perObjectStorage.map fun entry => entry.2.storageRebate).sum

def storageCost : ℕ := g.storageGasUnits

/-- Round the computation units up to the rounding step, or to the bucket
they fall in, and price them; at or above the budget the whole budget is
charged. -/
def bucketizeComputation : IotaGasStatus × Except ExecutionError Unit :=
  let computationUnits :=
    match g.gasRoundingStep with
    | some gasRounding =>
      if 0 < gasRounding ∧ (g.gasUsedPreGasPrice = 0 ∨ 0 < g.gasUsedPreGasPrice % gasRounding) then
        (g.gasUsedPreGasPrice / gasRounding + 1) * gasRounding
      else g.gasUsedPreGasPrice
    | none => getBucketCost g.costTable.computationBucket g.gasUsedPreGasPrice
  let computationCost := computationUnits * g.gasPrice
  if g.gasBudget ≤ computationCost then ({ g with computationCost := g.gasBudget }, .error .insufficientGas)
  else ({ g with computationCost }, .ok ())

def summary : Except ChargePanic GasCostSummary := do
  let computationCostBurned ←
    if g.protocolDefinedBaseFee then
      if g.gasPrice = 0 then throw .divisionByZero
      else pure (g.computationCost * g.referenceGasPrice / g.gasPrice)
    else pure g.computationCost
  let storageRebate := g.storageRebate
  let senderRebate := senderRebate storageRebate g.rebateRate
  if storageRebate < senderRebate then throw .senderRebateAboveRebate
  else
    pure { computationCost := g.computationCost, computationCostBurned, storageCost := g.storageCost,
           storageRebate := senderRebate, nonRefundableStorageFee := storageRebate - senderRebate }

def resetStorageCostAndRebate : IotaGasStatus :=
  { g with perObjectStorage := [], unmeteredStorageRebate := 0 }

/-- Record an object's new storage cost and old rebate; returns the new cost,
which becomes the object's rebate. -/
def trackStorageMutation (objectId newSize storageRebate : ℕ) : IotaGasStatus × ℕ :=
  if g.isUnmetered then
    ({ g with unmeteredStorageRebate := g.unmeteredStorageRebate + storageRebate }, 0)
  else
    let storageCost := newSize * g.costTable.storagePerByteCost * g.storageGasPrice
    ({ g with perObjectStorage := g.perObjectStorage ++ [(objectId, ⟨storageCost, storageRebate, newSize⟩)] },
      storageCost)

def chargeStorageAndRebate : Except ChargePanic (Except ExecutionError Unit) :=
  let storageRebate := g.storageRebate
  let storageCost := g.storageCost
  let senderRebate := senderRebate storageRebate g.rebateRate
  if storageRebate < senderRebate then throw .senderRebateAboveRebate
  else if storageCost ≤ senderRebate then pure (.ok ())
  -- `gas_budget - computation_cost` is a checked subtraction
  else if g.gasBudget < g.computationCost then throw .arithmeticOverflow
  else if g.gasBudget - g.computationCost < storageCost - senderRebate then pure (.error .insufficientGas)
  else pure (.ok ())

def adjustComputationOnOutOfGas : IotaGasStatus :=
  { g with perObjectStorage := [], computationCost := g.gasBudget }

/-- The first check of `check_gas_balance`: the gas object exists and is
owned by an address. -/
def gasObjectOwned (gasObject : Option Object) : Except UserInputError Object :=
  match gasObject with
  | some obj => if obj.isAddressOwned then pure obj else throw (.gasObjectNotOwnedObject obj.owner)
  | none => throw .missingGasPayment

/-- The gas objects must be owned by an address, the budget within the cost
table's bounds, and the coins must hold the budget.  The first loop keeps the
objects it checked, which is where the source's second loop `expect`s them. -/
def checkGasBalance (gasObjs : List (Option Object)) (gasBudget : ℕ) : Except UserInputError Unit := do
  let objects ← gasObjs.mapM gasObjectOwned
  if g.costTable.maxGasBudget < gasBudget then throw (.gasBudgetTooHigh gasBudget g.costTable.maxGasBudget)
  else if gasBudget < g.costTable.minTransactionCost then
    throw (.gasBudgetTooLow gasBudget g.costTable.minTransactionCost)
  else
    let gasBalance ← objects.foldlM (fun gasBalance obj => do pure (gasBalance + (← getGasBalance obj))) 0
    if gasBalance < gasBudget then throw (.gasBalanceTooLow gasBalance gasBudget) else pure ()

end IotaGasStatus

/-! What each step of the meter does, as the gas charger uses it. -/

theorem senderRebate_le {storageRebate rate : ℕ} (h : rate ≤ 10000) : senderRebate storageRebate rate ≤ storageRebate := by
  have hmul : storageRebate * rate ≤ storageRebate * 10000 := Nat.mul_le_mul_left _ h
  have hlt : (storageRebate * rate + BASIS_POINTS / 2) / BASIS_POINTS < storageRebate + 1 := by
    rw [Nat.div_lt_iff_lt_mul (by decide)]
    simp only [BASIS_POINTS]
    omega
  exact Nat.lt_succ_iff.mp hlt

theorem getGasBalance_eq_ok {o : Object} {v : ℕ} : getGasBalance o = .ok v ↔ o.data = .move true v := by
  unfold getGasBalance
  split <;> simp_all [pure, Except.pure, throw, throwThe, MonadExceptOf.throw]

theorem deductGas_eq_ok {o : Object} {isGasCoin : Bool} {balance : ℕ} {charge : ℤ}
    (hdata : o.data = .move isGasCoin balance) (hcharge : charge ≤ balance) :
    deductGas o charge = .ok { o with data := .move isGasCoin (balance - charge).toNat } := by
  unfold deductGas
  rw [hdata]
  by_cases hneg : charge < 0
  · have hval : balance + (-charge).toNat = ((balance : ℤ) - charge).toNat := by omega
    simp [hneg, hval, pure, Except.pure]
  · have hle : charge.toNat ≤ balance := by omega
    have hval : balance - charge.toNat = ((balance : ℤ) - charge).toNat := by omega
    simp [hneg, hle, hval, pure, Except.pure]

namespace IotaGasStatus

variable {g : IotaGasStatus}

theorem bucketizeComputation_fst (g : IotaGasStatus) :
    ∃ c ≤ g.gasBudget, g.bucketizeComputation.1 = { g with computationCost := c } := by
  unfold bucketizeComputation
  dsimp only
  split_ifs with h
  · exact ⟨_, le_rfl, rfl⟩
  · exact ⟨_, (not_le.mp h).le, rfl⟩

theorem summary_eq_ok (hrate : g.rebateRate ≤ 10000) (hprice : g.protocolDefinedBaseFee = true → 0 < g.gasPrice) :
    g.summary = .ok
      { computationCost := g.computationCost,
        computationCostBurned :=
          if g.protocolDefinedBaseFee then g.computationCost * g.referenceGasPrice / g.gasPrice
          else g.computationCost,
        storageCost := g.storageCost,
        storageRebate := senderRebate g.storageRebate g.rebateRate,
        nonRefundableStorageFee := g.storageRebate - senderRebate g.storageRebate g.rebateRate } := by
  have hsender : senderRebate g.storageRebate g.rebateRate ≤ g.storageRebate := senderRebate_le hrate
  unfold summary
  cases hfee : g.protocolDefinedBaseFee
  · simp [not_lt.mpr hsender, pure, Except.pure]
  · have hpos := hprice hfee
    simp [Nat.pos_iff_ne_zero.mp hpos, not_lt.mpr hsender, pure, Except.pure]

theorem chargeStorageAndRebate_eq (hrate : g.rebateRate ≤ 10000) (hcost : g.computationCost ≤ g.gasBudget) :
    g.chargeStorageAndRebate =
      .ok (if g.gasBudget - g.computationCost + senderRebate g.storageRebate g.rebateRate < g.storageCost then
        .error .insufficientGas else .ok ()) := by
  have hsender : senderRebate g.storageRebate g.rebateRate ≤ g.storageRebate := senderRebate_le hrate
  unfold chargeStorageAndRebate
  simp only [not_lt.mpr hsender, not_lt.mpr hcost, if_false]
  split_ifs <;> first | rfl | omega

@[simp] theorem storageRebate_perObjectStorage (l : List (ℕ × PerObjectStorage)) :
    storageRebate { g with perObjectStorage := l } = (l.map fun entry => entry.2.storageRebate).sum := rfl

@[simp] theorem storageGasUnits_perObjectStorage (l : List (ℕ × PerObjectStorage)) :
    storageGasUnits { g with perObjectStorage := l } = (l.map fun entry => entry.2.storageCost).sum := rfl

@[simp] theorem storageCost_eq_storageGasUnits : g.storageCost = g.storageGasUnits := rfl

/-- What a metered status charges to store an object of a given size. -/
def storagePrice (g : IotaGasStatus) (size : ℕ) : ℕ := size * g.costTable.storagePerByteCost * g.storageGasPrice

@[simp] theorem storagePrice_zero : g.storagePrice 0 = 0 := by simp [storagePrice]

@[simp] theorem storagePrice_perObjectStorage (l : List (ℕ × PerObjectStorage)) :
    storagePrice { g with perObjectStorage := l } = g.storagePrice := rfl

theorem trackStorageMutation_of_charge (h : g.charge = true) (objectId newSize storageRebate : ℕ) :
    g.trackStorageMutation objectId newSize storageRebate =
      ({ g with perObjectStorage := g.perObjectStorage ++
          [(objectId, ⟨g.storagePrice newSize, storageRebate, newSize⟩)] }, g.storagePrice newSize) := by
  simp [trackStorageMutation, isUnmetered, storagePrice, h]

theorem gasObjectOwned_eq_ok {gasObject : Option Object} {obj : Object} :
    gasObjectOwned gasObject = .ok obj ↔ gasObject = some obj ∧ obj.isAddressOwned = true := by
  unfold gasObjectOwned
  rcases gasObject with _ | o
  · simp [throw, throwThe, MonadExceptOf.throw]
  · by_cases ho : o.isAddressOwned <;> simp [ho, pure, Except.pure, throw, throwThe, MonadExceptOf.throw] <;>
      rintro rfl <;> simpa using ho

theorem mapM_gasObjectOwned_eq_ok :
    ∀ {gasObjs : List (Option Object)} {objects : List Object}, gasObjs.mapM gasObjectOwned = .ok objects →
      gasObjs = objects.map some ∧ ∀ o ∈ objects, o.isAddressOwned = true
  | [], _, h => by
    rw [mapM_except_nil_eq_ok] at h
    simp [h]
  | _ :: _, _, h => by
    obtain ⟨o, os, ho, hos, rfl⟩ := mapM_except_cons_eq_ok.mp h
    obtain ⟨rfl, howned⟩ := Iff.mp gasObjectOwned_eq_ok ho
    obtain ⟨rfl, hrest⟩ := mapM_gasObjectOwned_eq_ok hos
    exact ⟨rfl, List.forall_mem_cons.mpr ⟨howned, hrest⟩⟩

theorem checkGasBalance_eq_ok {gasObjs : List (Option Object)} {gasBudget : ℕ}
    (h : g.checkGasBalance gasObjs gasBudget = .ok ()) :
    ∃ objects : List Object, gasObjs = objects.map some ∧ (∀ o ∈ objects, o.isAddressOwned = true) ∧
      gasBudget ≤ g.costTable.maxGasBudget ∧ g.costTable.minTransactionCost ≤ gasBudget ∧
      ∃ balances : List ℕ, objects.mapM getGasBalance = .ok balances ∧ gasBudget ≤ balances.sum := by
  unfold checkGasBalance at h
  rw [except_bind_eq_ok] at h
  obtain ⟨objects, hobjects, h⟩ := h
  obtain ⟨hsome, howned⟩ := mapM_gasObjectOwned_eq_ok hobjects
  -- the two budget checks that throw are closed by `split_ifs` itself
  split_ifs at h with hmax hmin
  rw [except_bind_eq_ok] at h
  obtain ⟨gasBalance, hbalance, hcheck⟩ := h
  obtain ⟨balances, hbalances, rfl⟩ := foldlM_except_add_eq_ok.mp hbalance
  split_ifs at hcheck with hlow
  refine ⟨objects, hsome, howned, not_lt.mp hmax, not_lt.mp hmin, balances, hbalances, ?_⟩
  simpa using hlow

end IotaGasStatus

end Iota.Execution
