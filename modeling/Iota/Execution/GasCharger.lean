import Iota.Execution.TemporaryStore

/-! Gas charging of a transaction
(`iota-execution/latest/iota-adapter/src/gas_charger.rs`): the gas coins are
smashed into the first one, and after execution `charge_gas` bucketizes the
computation cost, collects the storage costs and rebates, charges them, and
takes the net charge from the gas coin.  When execution failed, or when the
storage charge does not fit in what is left of the budget, the writes are
dropped and the gas coins smashed again; when even the inputs alone cannot be
paid for, the whole budget is charged as computation and no storage. -/

namespace Iota.Execution

open Iota.Core Iota.Lib

structure GasCharger where
  gasCoins : List ObjectRef
  /-- The first gas coin, into which the others are smashed; `None` for a
  system transaction. -/
  smashedGasCoin : Option ℕ
  gasStatus : IotaGasStatus

/-- `if execution_result.is_ok() { *execution_result = Err(err) }`: the first
error is the one reported. -/
def keepFirstError {α : Type} (executionResult : Except ExecutionError α) (err : ExecutionError) :
    Except ExecutionError α :=
  match executionResult with
  | .ok _ => .error err
  | .error e => .error e

namespace GasCharger

variable {α : Type} (c : GasCharger)

/-- The value of one gas coin, as `smash_gas` reads it: the coin must be an
input object, and a gas coin. -/
def gasCoinValue (s : TemporaryStore) (objRef : ObjectRef) : Except ChargePanic ℕ :=
  match s.objects.get? objRef.id with
  | none => throw .unwrapNone
  | some obj =>
    match obj.data with
    | .move true value => pure value
    | _ => throw .nonGasCoinAsGas

/-- Smash the gas coins into the first one: it gets the sum of their values
and the others are deleted. -/
def smashGas (s : TemporaryStore) : Except ChargePanic (GasCharger × TemporaryStore) :=
  match c.gasCoins with
  | [] => pure (c, s)
  | gasCoin :: otherCoins =>
    if otherCoins = [] ∧ gasCoin.id = ObjectID.ZERO then pure (c, s)
    else
      let c := { c with smashedGasCoin := some gasCoin.id }
      if otherCoins = [] then pure (c, s)
      else do
        let newBalance := (← c.gasCoins.mapM (gasCoinValue s)).sum
        let primaryGasObject ←
          match s.objects.get? gasCoin.id with
          | some obj => pure obj
          | none => throw .gasCoinNotFound
        let s := otherCoins.foldl (fun s objRef => s.deleteInputObject objRef.id) s
        match primaryGasObject.data with
        | .move isGasCoin _ =>
          pure (c, s.mutateInputObject { primaryGasObject with data := .move isGasCoin newBalance })
        | .package => throw .invalidCoinObject

/-- Drop the writes of execution and the storage charges, and smash the gas
coins again. -/
def reset (s : TemporaryStore) : Except ChargePanic (GasCharger × TemporaryStore) :=
  { c with gasStatus := c.gasStatus.resetStorageCostAndRebate }.smashGas s.dropWrites

/-- The first block of `charge_gas`: bucketize the computation cost, and once
execution has failed drop its writes. -/
def bucketizeAndReset (s : TemporaryStore) (executionResult : Except ExecutionError α) :
    Except ChargePanic (GasCharger × TemporaryStore × Except ExecutionError α) :=
  if c.smashedGasCoin.isSome then
    let bucketized := c.gasStatus.bucketizeComputation
    let c := { c with gasStatus := bucketized.1 }
    let executionResult :=
      match bucketized.2 with
      | .error err => keepFirstError executionResult err
      | .ok () => executionResult
    match executionResult with
    | .error _ => do
      let (c, s) ← c.reset s
      pure (c, s, executionResult)
    | .ok _ => pure (c, s, executionResult)
  else pure (c, s, executionResult)

def handleStorageAndRebate (s : TemporaryStore) (executionResult : Except ExecutionError α) :
    Except ChargePanic (GasCharger × TemporaryStore × Except ExecutionError α) := do
  match ← c.gasStatus.chargeStorageAndRebate with
  | .ok () => pure (c, s, executionResult)
  | .error err =>
    -- out of gas charging for storage: drop the writes and charge for the inputs alone
    let (c, s) ← c.reset s
    let s := s.ensureActiveInputsMutated
    let (s, gasStatus) ← s.collectStorageAndRebate c.gasStatus
    let c := { c with gasStatus }
    match ← c.gasStatus.chargeStorageAndRebate with
    | .error err =>
      -- out of gas again: charge no storage and the whole budget as computation
      let (c, s) ← c.reset s
      let c := { c with gasStatus := c.gasStatus.adjustComputationOnOutOfGas }
      let s := s.ensureActiveInputsMutated
      let gasStatus ← s.collectRebate c.gasStatus
      pure ({ c with gasStatus }, s, keepFirstError executionResult err)
    | .ok () => pure (c, s, keepFirstError executionResult err)

def chargeGas (s : TemporaryStore) (executionResult : Except ExecutionError α) :
    Except ChargePanic (GasCharger × TemporaryStore × Except ExecutionError α × GasCostSummary) := do
  let (c, s, executionResult) ← c.bucketizeAndReset s executionResult
  let s := s.ensureActiveInputsMutated
  let (s, gasStatus) ← s.collectStorageAndRebate c.gasStatus
  let c := { c with gasStatus }
  match c.smashedGasCoin with
  | some gasObjectId =>
    let (c, s, executionResult) ← c.handleStorageAndRebate s executionResult
    let costSummary ← c.gasStatus.summary
    let gasObject ←
      match s.readObject gasObjectId with
      | some gasObject => pure gasObject
      | none => throw .unwrapNone
    let gasObject ← deductGas gasObject costSummary.netGasUsage
    pure (c, s.mutateInputObject gasObject, executionResult, costSummary)
  | none => pure (c, s, executionResult, default)

end GasCharger

/-! ### What charging keeps

The facts about the store and the meter that every path of `charge_gas`
carries from one step to the next. -/

/-- The object is a coin holding at least `amount`. -/
def Object.HoldsAtLeast (o : Object) (amount : ℕ) : Prop :=
  ∃ isGasCoin value, o.data = .move isGasCoin value ∧ amount ≤ value

namespace TemporaryStore

/-- The gas coin is modified and written, holding at least `amount`: what
`charge_gas` reads back to deduct the charge from. -/
def GasCoinWritten (s : TemporaryStore) (gasCoinId amount : ℕ) : Prop :=
  gasCoinId ∈ s.modifiedObjects ∧ gasCoinId ∈ s.writtenObjects.ids ∧
    (s.writtenObjects.get gasCoinId).HoldsAtLeast amount

/-- What a programmable transaction that succeeded leaves in the store: the
old version of every modified object is recorded, the gas coin is written
exactly when it is modified (it is never deleted), and, the budget it was
lent refunded, it holds at least the budget. -/
structure Executed (s : TemporaryStore) (gasCoinId gasBudget : ℕ) : Prop where
  modifiedHaveMetadata : s.ModifiedHaveMetadata
  gasCoin_kept : gasCoinId ∈ s.modifiedObjects ↔ gasCoinId ∈ s.writtenObjects.ids
  gasCoin_funded : ∃ o, s.readObject gasCoinId = some o ∧ o.HoldsAtLeast gasBudget

/-- A store as `reset` leaves it: only mutable inputs are modified, whatever
is written is modified and keeps its old rebate, and the gas coin holds at
least `amount`, in its written version or else as an input. -/
structure Smashed (s : TemporaryStore) (gasCoinId amount : ℕ) : Prop where
  modified_subset : s.modifiedObjects ⊆ s.mutableInputRefs
  written_subset : s.writtenObjects.ids ⊆ s.modifiedObjects
  written_storageRebate : ∀ id ∈ s.writtenObjects.ids,
    (s.writtenObjects.get id).storageRebate = (s.inputObjects.get id).storageRebate
  gasCoin_written : gasCoinId ∈ s.modifiedObjects → s.GasCoinWritten gasCoinId amount
  gasCoin_input : gasCoinId ∉ s.modifiedObjects → (s.inputObjects.get gasCoinId).HoldsAtLeast amount

/-- The conservation that `check_iota_conserved` checks, between the store's
rebates and the storage charges recorded in a meter. -/
def Conserved (s : TemporaryStore) (g : IotaGasStatus) : Prop :=
  if g.storageGasUnits = 0 then s.totalInputRebate = s.totalOutputRebate + g.storageRebate
  else s.totalInputRebate = g.storageRebate ∧ g.storageGasUnits = s.totalOutputRebate

end TemporaryStore

namespace IotaGasStatus

/-- A metered status once its computation is bucketized, with a rate of at
most 100% and the price `GasStatus::new` accepts: what charging for storage
and the summary rely on. -/
structure Bucketized (g : IotaGasStatus) : Prop where
  metered : g.charge = true
  rebateRate_le : g.rebateRate ≤ 10000
  gasPrice_pos : 0 < g.gasPrice
  computationCost_le : g.computationCost ≤ g.gasBudget

/-- The storage charge fits in the gas left after computation, with the
sender's rebate. -/
def Affordable (g : IotaGasStatus) : Prop :=
  g.storageGasUnits ≤ g.gasBudget - g.computationCost + senderRebate g.storageRebate g.rebateRate

/-- The statuses charging passes through from `g`: only the storage entries,
the computation cost and the unmetered rebate change. -/
def Recharged (g g' : IotaGasStatus) : Prop :=
  ∃ perObjectStorage computationCost unmeteredStorageRebate,
    g' = { g with perObjectStorage, computationCost, unmeteredStorageRebate }

end IotaGasStatus

namespace GasCharger

/-- The gas coins as `check_gas_balance` found them among the store's inputs:
the first is the smashed coin, all are mutable inputs, and each is a gas coin,
together holding at least the budget. -/
structure GasCoinsChecked (c : GasCharger) (s : TemporaryStore) (gasCoin : ObjectRef) : Prop where
  head : c.gasCoins.head? = some gasCoin
  smashed : c.smashedGasCoin = some gasCoin.id
  mutable : ∀ ref ∈ c.gasCoins, ref.id ∈ s.mutableInputRefs
  funded : ∃ balances, c.gasCoins.mapM (gasCoinValue s) = .ok balances ∧ c.gasStatus.gasBudget ≤ balances.sum

/-- The state in which `charge_gas` is called for a transaction that pays for
gas: the gas coins passed `check_gas_balance` against the store's inputs and
are mutable inputs, the first is the smashed coin, and the meter is metered,
has charged no storage yet, and has a price `GasStatus::new` accepts. -/
structure ReadyToCharge (c : GasCharger) (s : TemporaryStore) (gasCoin : ObjectRef) : Prop where
  head : c.gasCoins.head? = some gasCoin
  smashed : c.smashedGasCoin = some gasCoin.id
  metered : c.gasStatus.charge = true
  noStorageRebate : c.gasStatus.storageRebate = 0
  noStorageGasUnits : c.gasStatus.storageGasUnits = 0
  rebateRate_le : c.gasStatus.rebateRate ≤ 10000
  gasPrice_pos : 0 < c.gasStatus.gasPrice
  gasCoins_mutable : ∀ ref ∈ c.gasCoins, ref.id ∈ s.mutableInputRefs
  gasBalance : c.gasStatus.checkGasBalance (c.gasCoins.map fun ref => s.inputObjects.get? ref.id)
    c.gasStatus.gasBudget = .ok ()

/-- Where `charge_gas` stands once storage is collected: the gas coins are as
checked, the meter is bucketized, the store's rebates balance against it, and
the gas coin is written holding at least the budget. -/
structure Collected (c : GasCharger) (s : TemporaryStore) (gasCoin : ObjectRef) : Prop where
  gasCoins : c.GasCoinsChecked s gasCoin
  bucketized : c.gasStatus.Bucketized
  modifiedHaveMetadata : s.ModifiedHaveMetadata
  conserved : s.Conserved c.gasStatus
  gasCoin_written : s.GasCoinWritten gasCoin.id c.gasStatus.gasBudget

variable {c : GasCharger} {s : TemporaryStore} {gasCoin : ObjectRef}

/-! ### Smashing the gas coins -/

theorem gasCoinValue_eq_ok {objRef : ObjectRef} {value : ℕ} :
    gasCoinValue s objRef = .ok value ↔
      objRef.id ∈ s.inputObjects.ids ∧ (s.inputObjects.get objRef.id).data = .move true value := by
  unfold gasCoinValue TemporaryStore.objects
  cases h : s.inputObjects.get? objRef.id with
  | none =>
    simp only [ObjectMap.get?, ite_eq_right_iff, reduceCtorEq, imp_false] at h
    simp [h, throw, throwThe, MonadExceptOf.throw]
  | some o =>
    obtain ⟨hid, rfl⟩ := (ObjectMap.get?_eq_some _).mp h
    simp only [hid, true_and]
    split <;> simp_all [pure, Except.pure, throw, throwThe, MonadExceptOf.throw]

theorem mapM_gasCoinValue_eq_ok :
    ∀ (coins : List ObjectRef) (objects : List Object) (balances : List ℕ),
      coins.map (fun ref => s.inputObjects.get? ref.id) = objects.map some →
      objects.mapM getGasBalance = .ok balances → coins.mapM (gasCoinValue s) = .ok balances
  | [], [], _, _, h => by
    rw [mapM_except_nil_eq_ok] at h ⊢
    exact h
  | ref :: coins, o :: objects, balances, hsome, h => by
    obtain ⟨v, vs, hv, hvs, rfl⟩ := mapM_except_cons_eq_ok.mp h
    simp only [List.map_cons, List.cons.injEq] at hsome
    obtain ⟨hid, rfl⟩ := (ObjectMap.get?_eq_some _).mp hsome.1
    refine mapM_except_cons_eq_ok.mpr ⟨v, vs, ?_, mapM_gasCoinValue_eq_ok coins objects vs hsome.2 hvs, rfl⟩
    exact Iff.mpr gasCoinValue_eq_ok ⟨hid, getGasBalance_eq_ok.mp hv⟩

theorem gasCoinValue_congr {t : TemporaryStore} (h : t.inputs = s.inputs) : gasCoinValue t = gasCoinValue s := by
  funext objRef
  simp [gasCoinValue, TemporaryStore.objects, TemporaryStore.inputObjects_eq_of_inputs h]

theorem GasCoinsChecked.congr {c' : GasCharger} {t : TemporaryStore} (h : c.GasCoinsChecked s gasCoin)
    (hcoins : c'.gasCoins = c.gasCoins) (hsmashed : c'.smashedGasCoin = c.smashedGasCoin)
    (hbudget : c'.gasStatus.gasBudget = c.gasStatus.gasBudget) (hinputs : t.inputs = s.inputs) :
    c'.GasCoinsChecked t gasCoin where
  head := hcoins ▸ h.head
  smashed := hsmashed ▸ h.smashed
  mutable ref href := by
    rw [TemporaryStore.mutableInputRefs_eq_of_inputs hinputs]
    exact h.mutable ref (hcoins ▸ href)
  funded := by
    rw [hcoins, hbudget, gasCoinValue_congr hinputs]
    exact h.funded

theorem ReadyToCharge.gasCoinsChecked (h : c.ReadyToCharge s gasCoin) : c.GasCoinsChecked s gasCoin where
  head := h.head
  smashed := h.smashed
  mutable := h.gasCoins_mutable
  funded := by
    obtain ⟨objects, hsome, -, -, -, balances, hbalances, hbudget⟩ :=
      IotaGasStatus.checkGasBalance_eq_ok h.gasBalance
    exact ⟨balances, mapM_gasCoinValue_eq_ok _ objects balances hsome hbalances, hbudget⟩

theorem smashGas_single (hcoins : c.gasCoins = [gasCoin]) (hsmashed : c.smashedGasCoin = some gasCoin.id) :
    c.smashGas s = .ok (c, s) := by
  rcases c with ⟨_, _, g⟩
  dsimp only at hcoins hsmashed
  subst hcoins hsmashed
  simp [smashGas, pure, Except.pure]

theorem smashGas_cons_cons {coin : ObjectRef} {coins : List ObjectRef} {balances : List ℕ}
    (hcoins : c.gasCoins = gasCoin :: coin :: coins) (hvalues : c.gasCoins.mapM (gasCoinValue s) = .ok balances)
    (hsmashed : c.smashedGasCoin = some gasCoin.id) :
    c.smashGas s = .ok (c, (((coin :: coins).map ObjectRef.id).foldl TemporaryStore.deleteInputObject s).mutateInputObject
      { s.inputObjects.get gasCoin.id with data := .move true balances.sum }) := by
  rcases c with ⟨_, _, g⟩
  dsimp only at hcoins hvalues hsmashed
  subst hcoins hsmashed
  obtain ⟨v, vs, hv, -, -⟩ := mapM_except_cons_eq_ok.mp hvalues
  obtain ⟨hid, hdata⟩ := Iff.mp gasCoinValue_eq_ok hv
  unfold smashGas
  simp only [List.cons_ne_nil, false_and, if_false]
  rw [hvalues, except_ok_bind]
  simp [TemporaryStore.objects, ObjectMap.get?, hid, hdata, List.foldl_map, pure, Except.pure]

theorem reset_spec (h : c.GasCoinsChecked s gasCoin) :
    ∃ t, c.reset s = .ok ({ c with gasStatus := c.gasStatus.resetStorageCostAndRebate }, t) ∧
      t.inputs = s.inputs ∧ t.Smashed gasCoin.id c.gasStatus.gasBudget := by
  obtain ⟨coins, hcoins⟩ := List.head?_eq_some_iff.mp h.head
  obtain ⟨balances, hvalues, hbudget⟩ := h.funded
  have hvalues' : c.gasCoins.mapM (gasCoinValue s.dropWrites) = .ok balances := by
    rw [gasCoinValue_congr TemporaryStore.inputs_dropWrites]
    exact hvalues
  obtain ⟨v, vs, hv, hvs, rfl⟩ := mapM_except_cons_eq_ok.mp (hcoins ▸ hvalues)
  obtain ⟨hmem, hdata⟩ := Iff.mp gasCoinValue_eq_ok hv
  rcases coins with _ | ⟨coin, coins⟩
  · -- one coin: nothing is written, and the coin holds its balance as an input
    rw [List.mapM_nil, except_pure_eq_ok] at hvs
    subst hvs
    refine ⟨s.dropWrites, smashGas_single hcoins h.smashed, rfl, ?_⟩
    exact { modified_subset := by simp [TemporaryStore.dropWrites]
            written_subset := by simp [TemporaryStore.dropWrites, ObjectMap.clear]
            written_storageRebate := by simp [TemporaryStore.dropWrites, ObjectMap.clear]
            gasCoin_written := by simp [TemporaryStore.dropWrites]
            gasCoin_input := fun _ => ⟨true, v, hdata, by simpa using hbudget⟩ }
  · -- several coins: the first is written with their sum, the others deleted
    have hmutable : ∀ ref ∈ gasCoin :: coin :: coins, ref.id ∈ s.mutableInputRefs := hcoins ▸ h.mutable
    have hid : (s.inputObjects.get gasCoin.id).id = gasCoin.id := s.inputObjects.get_id _ hmem
    obtain ⟨t, hsmash, hinputs, hmodified, hwritten, hgas⟩ : ∃ t,
        { c with gasStatus := c.gasStatus.resetStorageCostAndRebate }.smashGas s.dropWrites =
          .ok ({ c with gasStatus := c.gasStatus.resetStorageCostAndRebate }, t) ∧ t.inputs = s.inputs ∧
        t.modifiedObjects = insert gasCoin.id ((coin :: coins).map ObjectRef.id).toFinset ∧
        t.writtenObjects.ids = {gasCoin.id} ∧
        t.writtenObjects.get gasCoin.id = { s.inputObjects.get gasCoin.id with data := .move true (v :: vs).sum } := by
      refine ⟨_, smashGas_cons_cons hcoins hvalues' h.smashed, ?_, ?_, ?_, ?_⟩ <;>
        simp only [TemporaryStore.foldl_deleteInputObject]
      · rfl
      all_goals
        simp [TemporaryStore.mutateInputObject, TemporaryStore.dropWrites, ObjectMap.insert, ObjectMap.clear, hid]
    refine ⟨t, hsmash, hinputs, ?_⟩
    have hGmod : gasCoin.id ∈ t.modifiedObjects := by simp [hmodified]
    exact { modified_subset := by
              intro id hmod
              simp only [hmodified, Finset.mem_insert, List.mem_toFinset, List.mem_map] at hmod
              rw [TemporaryStore.mutableInputRefs_eq_of_inputs hinputs]
              rcases hmod with rfl | ⟨ref, href, rfl⟩
              · exact hmutable gasCoin List.mem_cons_self
              · exact hmutable ref (List.mem_cons_of_mem _ href)
            written_subset := by simp [hwritten, hGmod]
            written_storageRebate := fun id hw => by
              rw [hwritten, Finset.mem_singleton] at hw
              subst hw
              rw [hgas, TemporaryStore.inputObjects_eq_of_inputs hinputs]
            gasCoin_written := fun _ => ⟨hGmod, by simp [hwritten], true, (v :: vs).sum, by rw [hgas], hbudget⟩
            gasCoin_input := fun hG => absurd hGmod hG }

end GasCharger

/-! ### Forcing the inputs to be written, and collecting storage -/

namespace TemporaryStore

variable {s : TemporaryStore} {gasCoinId amount : ℕ}

theorem Smashed.modifiedHaveMetadata (h : s.Smashed gasCoinId amount) : s.ModifiedHaveMetadata :=
  fun _ hid => Or.inl (h.modified_subset hid)

theorem gasCoinWritten_ensureActiveInputsMutated (hmutable : gasCoinId ∈ s.mutableInputRefs)
    (hkept : gasCoinId ∈ s.modifiedObjects → gasCoinId ∈ s.writtenObjects.ids)
    (hholds : (if gasCoinId ∈ s.modifiedObjects then s.writtenObjects.get gasCoinId
      else s.inputObjects.get gasCoinId).HoldsAtLeast amount) :
    s.ensureActiveInputsMutated.GasCoinWritten gasCoinId amount := by
  obtain ⟨-, hmod, hids, hget⟩ := ensureActiveInputsMutated_spec s
  refine ⟨by simp [hmod, hmutable], ?_, ?_⟩
  · rw [hids]
    by_cases hG : gasCoinId ∈ s.modifiedObjects
    · exact Finset.mem_union_left _ (hkept hG)
    · exact Finset.mem_union_right _ (Finset.mem_sdiff.mpr ⟨hmutable, hG⟩)
  · rw [hget]
    by_cases hG : gasCoinId ∈ s.modifiedObjects
    · simpa [hG] using hholds
    · simpa [hG, hmutable] using hholds

theorem Smashed.ensureActiveInputsMutated (h : s.Smashed gasCoinId amount)
    (hmutable : gasCoinId ∈ s.mutableInputRefs) : s.ensureActiveInputsMutated.Smashed gasCoinId amount := by
  obtain ⟨hin, hmod, hids, hget⟩ := ensureActiveInputsMutated_spec s
  have hgas := gasCoinWritten_ensureActiveInputsMutated hmutable (fun hG => (h.gasCoin_written hG).2.1) (by
    by_cases hG : gasCoinId ∈ s.modifiedObjects
    · simpa [hG] using (h.gasCoin_written hG).2.2
    · simpa [hG] using h.gasCoin_input hG)
  refine ⟨?_, ?_, fun id hid => ?_, fun _ => hgas, fun hG => absurd hgas.1 hG⟩
  · rw [hmod, mutableInputRefs_eq_of_inputs hin]
    exact Finset.union_subset h.modified_subset subset_rfl
  · rw [hids, hmod]
    exact Finset.union_subset_union h.written_subset Finset.sdiff_subset
  · rw [hget, inputObjects_eq_of_inputs hin]
    rw [hids] at hid
    split_ifs with hnew
    · rfl
    · have hw : id ∈ s.writtenObjects.ids := by
        rcases Finset.mem_union.mp hid with hw | hw
        · exact hw
        · exact absurd (Finset.mem_sdiff.mp hw) hnew
      exact h.written_storageRebate id hw

theorem Executed.ensureActiveInputsMutated (h : s.Executed gasCoinId amount)
    (hmutable : gasCoinId ∈ s.mutableInputRefs) :
    s.ensureActiveInputsMutated.ModifiedHaveMetadata ∧ s.ensureActiveInputsMutated.GasCoinWritten gasCoinId amount := by
  obtain ⟨hin, hmod, -, -⟩ := ensureActiveInputsMutated_spec s
  refine ⟨fun id hid => ?_, gasCoinWritten_ensureActiveInputsMutated hmutable h.gasCoin_kept.mp ?_⟩
  · rw [hasMetadata_congr hin]
    rcases Finset.mem_union.mp (hmod ▸ hid) with hid | hid
    · exact h.modifiedHaveMetadata id hid
    · exact Or.inl hid
  · obtain ⟨o, hread, hholds⟩ := h.gasCoin_funded
    by_cases hG : gasCoinId ∈ s.modifiedObjects
    · rw [readObject_of_mem_written (h.gasCoin_kept.mp hG), Option.some_inj] at hread
      simpa [hG, hread] using hholds
    · rw [readObject_of_not_mem_written (mt h.gasCoin_kept.mpr hG), ObjectMap.get?_eq_some] at hread
      simpa [hG, hread.2] using hholds

theorem conserved_of_collected {g : IotaGasStatus} (hrebate : g.storageRebate = s.totalInputRebate)
    (hunits : g.storageGasUnits = s.totalOutputRebate) : s.Conserved g := by
  unfold Conserved
  split_ifs with hzero
  · omega
  · exact ⟨hrebate.symm, hunits⟩

theorem collectStorageAndRebate_conserved (hknown : s.ModifiedHaveMetadata)
    (hgas : s.GasCoinWritten gasCoinId amount) {g : IotaGasStatus} (hcharge : g.charge = true)
    (hrebate : g.storageRebate = 0) (hunits : g.storageGasUnits = 0) :
    ∃ t entries, s.collectStorageAndRebate g = .ok (t, { g with perObjectStorage := g.perObjectStorage ++ entries }) ∧
      t.inputs = s.inputs ∧ t.ModifiedHaveMetadata ∧ t.GasCoinWritten gasCoinId amount ∧
      t.Conserved { g with perObjectStorage := g.perObjectStorage ++ entries } := by
  obtain ⟨written, entries, hcollect, hids, hget, hin, hout⟩ := collectStorageAndRebate_eq_ok hknown hcharge
  refine ⟨_, entries, hcollect, rfl, hknown, ⟨hgas.1, hids ▸ hgas.2.1, ?_⟩, conserved_of_collected ?_ ?_⟩
  · rw [hget, if_pos hgas.2.1]
    exact hgas.2.2
  · simp only [IotaGasStatus.storageRebate_perObjectStorage, List.map_append, List.sum_append, hin]
    rw [show (g.perObjectStorage.map fun entry => entry.2.storageRebate).sum = 0 from hrebate, Nat.zero_add]
    rfl
  · simp only [IotaGasStatus.storageGasUnits_perObjectStorage, List.map_append, List.sum_append, hout]
    rw [show (g.perObjectStorage.map fun entry => entry.2.storageCost).sum = 0 from hunits, Nat.zero_add]
    rfl

theorem Smashed.collectRebate_conserved (h : s.Smashed gasCoinId amount) {g : IotaGasStatus}
    (hcharge : g.charge = true) (hempty : g.perObjectStorage = []) :
    ∃ entries, s.collectRebate g = .ok { g with perObjectStorage := entries } ∧
      ({ g with perObjectStorage := entries } : IotaGasStatus).storageGasUnits = 0 ∧
      s.Conserved { g with perObjectStorage := entries } := by
  refine ⟨_, by rw [collectRebate_eq_ok h.modifiedHaveMetadata hcharge, hempty, List.nil_append], ?_, ?_⟩
  · simp only [IotaGasStatus.storageGasUnits_perObjectStorage, List.map_map, Function.comp_def, List.map_const',
      List.sum_replicate, nsmul_zero]
  · -- the written objects kept their old rebates, so the inputs' rebates split
    -- into the outputs' and the deleted objects'
    have hwritten : ∀ id ∈ s.writtenObjects.ids,
        (if id ∈ s.modifiedObjects then s.previousStorageRebate id else 0) = (s.writtenObjects.get id).storageRebate := by
      intro id hid
      rw [if_pos (h.written_subset hid), previousStorageRebate,
        if_pos (h.modified_subset (h.written_subset hid)), h.written_storageRebate id hid]
    have hsplit := sum_written_add_sum_deleted s.writtenObjects.ids s.modifiedObjects s.previousStorageRebate
    rw [Finset.sum_congr rfl hwritten] at hsplit
    simp only [Conserved, IotaGasStatus.storageGasUnits_perObjectStorage, List.map_map, Function.comp_def,
      List.map_const', List.sum_replicate, nsmul_zero, if_true, IotaGasStatus.storageRebate_perObjectStorage,
      sum_map_filter_ascending, decide_eq_true_eq]
    exact hsplit.symm

end TemporaryStore

namespace IotaGasStatus

variable {g g' g'' : IotaGasStatus}

theorem Recharged.refl (g : IotaGasStatus) : g.Recharged g := ⟨_, _, _, rfl⟩

theorem Recharged.trans (h : g.Recharged g') (h' : g'.Recharged g'') : g.Recharged g'' := by
  obtain ⟨_, _, _, rfl⟩ := h
  obtain ⟨perObjectStorage, computationCost, unmeteredStorageRebate, rfl⟩ := h'
  exact ⟨perObjectStorage, computationCost, unmeteredStorageRebate, rfl⟩

theorem recharged_perObjectStorage (g : IotaGasStatus) (l : List (ℕ × PerObjectStorage)) :
    g.Recharged { g with perObjectStorage := l } := ⟨_, _, _, rfl⟩

theorem recharged_resetStorageCostAndRebate (g : IotaGasStatus) : g.Recharged g.resetStorageCostAndRebate :=
  ⟨_, _, _, rfl⟩

theorem Recharged.gasBudget_eq (h : g.Recharged g') : g'.gasBudget = g.gasBudget := by
  obtain ⟨_, _, _, rfl⟩ := h
  rfl

theorem Recharged.bucketized (h : g.Recharged g') (hb : g.Bucketized) (hcost : g'.computationCost ≤ g'.gasBudget) :
    g'.Bucketized := by
  obtain ⟨_, _, _, rfl⟩ := h
  exact ⟨hb.metered, hb.rebateRate_le, hb.gasPrice_pos, hcost⟩

theorem Affordable.gasUsed_le (h : g.Affordable) (hcost : g.computationCost ≤ g.gasBudget) :
    g.computationCost + g.storageGasUnits ≤ g.gasBudget + senderRebate g.storageRebate g.rebateRate := by
  unfold Affordable at h
  omega

end IotaGasStatus

theorem keepFirstError_ne_ok {α : Type} (executionResult : Except ExecutionError α) (err : ExecutionError) (a : α) :
    keepFirstError executionResult err ≠ .ok a := by
  cases executionResult <;> simp [keepFirstError]

namespace GasCharger

open TemporaryStore

variable {α : Type} {c : GasCharger} {s : TemporaryStore} {gasCoin : ObjectRef}

theorem GasCoinsChecked.mutable_gasCoin (h : c.GasCoinsChecked s gasCoin) : gasCoin.id ∈ s.mutableInputRefs :=
  h.mutable gasCoin (List.mem_of_mem_head? h.head)

theorem collected_of_ensured (hcoins : c.GasCoinsChecked s gasCoin) (hmeter : c.gasStatus.Bucketized)
    (hrebate : c.gasStatus.storageRebate = 0) (hunits : c.gasStatus.storageGasUnits = 0)
    (hknown : s.ensureActiveInputsMutated.ModifiedHaveMetadata)
    (hgas : s.ensureActiveInputsMutated.GasCoinWritten gasCoin.id c.gasStatus.gasBudget) :
    ∃ t g, s.ensureActiveInputsMutated.collectStorageAndRebate c.gasStatus = .ok (t, g) ∧
      { c with gasStatus := g }.Collected t gasCoin ∧ c.gasStatus.Recharged g ∧ t.inputs = s.inputs := by
  obtain ⟨t, entries, hcollect, hin, hknown', hgas', hconserved⟩ :=
    collectStorageAndRebate_conserved hknown hgas hmeter.metered hrebate hunits
  have hin' : t.inputs = s.inputs := hin.trans (ensureActiveInputsMutated_spec s).1
  have hrecharged := IotaGasStatus.recharged_perObjectStorage c.gasStatus (c.gasStatus.perObjectStorage ++ entries)
  refine ⟨t, _, hcollect, ⟨hcoins.congr rfl rfl rfl hin', ?_, hknown', hconserved, hgas'⟩, hrecharged, hin'⟩
  exact hrecharged.bucketized hmeter hmeter.computationCost_le

theorem bucketizeAndReset_spec (h : c.ReadyToCharge s gasCoin) (executionResult : Except ExecutionError α)
    (hexecuted : executionResult.isOk → s.Executed gasCoin.id c.gasStatus.gasBudget) :
    ∃ c' s' r', c.bucketizeAndReset s executionResult = .ok (c', s', r') ∧ c'.GasCoinsChecked s' gasCoin ∧
      c'.gasStatus.Bucketized ∧ c'.gasStatus.storageRebate = 0 ∧ c'.gasStatus.storageGasUnits = 0 ∧
      c.gasStatus.Recharged c'.gasStatus ∧ s'.ensureActiveInputsMutated.ModifiedHaveMetadata ∧
      s'.ensureActiveInputsMutated.GasCoinWritten gasCoin.id c.gasStatus.gasBudget := by
  have hchecked := h.gasCoinsChecked
  have hmutable := hchecked.mutable_gasCoin
  unfold bucketizeAndReset
  rw [if_pos (by simp [h.smashed])]
  obtain ⟨cost, hcost, hfst⟩ := c.gasStatus.bucketizeComputation_fst
  generalize c.gasStatus.bucketizeComputation = bucketized at hfst ⊢
  obtain ⟨g, bucketizeResult⟩ := bucketized
  dsimp only at hfst ⊢
  subst hfst
  have hmeter : ({ c.gasStatus with computationCost := cost } : IotaGasStatus).Bucketized :=
    ⟨h.metered, h.rebateRate_le, h.gasPrice_pos, hcost⟩
  split
  · -- execution or bucketizing failed: the writes are dropped and the coins smashed again
    obtain ⟨t, hreset, htin, hsmashed⟩ := reset_spec (c := { c with gasStatus := { c.gasStatus with
      computationCost := cost } }) (hchecked.congr rfl rfl rfl rfl)
    rw [hreset, except_ok_bind]
    have htmutable : gasCoin.id ∈ t.mutableInputRefs := by
      rw [mutableInputRefs_eq_of_inputs htin]
      exact hmutable
    have hensured := hsmashed.ensureActiveInputsMutated htmutable
    refine ⟨_, t, _, rfl, hchecked.congr rfl rfl rfl htin, ?_, rfl, rfl, ?_, hensured.modifiedHaveMetadata,
      hensured.gasCoin_written ((ensureActiveInputsMutated_spec t).2.1 ▸ Finset.mem_union_right _ htmutable)⟩
    · exact ⟨h.metered, h.rebateRate_le, h.gasPrice_pos, hcost⟩
    · exact ⟨_, _, _, rfl⟩
  · -- execution and bucketizing succeeded: what execution wrote is charged for
    rename_i a hresult
    have hok : executionResult = .ok a := by
      cases bucketizeResult with
      | error err => exact absurd hresult (keepFirstError_ne_ok _ _ _)
      | ok u => exact hresult
    obtain ⟨hknown, hgas⟩ := (hexecuted (by rw [hok]; rfl)).ensureActiveInputsMutated hmutable
    exact ⟨_, s, _, rfl, hchecked.congr rfl rfl rfl rfl, hmeter, h.noStorageRebate, h.noStorageGasUnits,
      ⟨_, _, _, rfl⟩, hknown, hgas⟩

theorem handleStorageAndRebate_spec (h : c.Collected s gasCoin) (executionResult : Except ExecutionError α) :
    ∃ c' s' r', c.handleStorageAndRebate s executionResult = .ok (c', s', r') ∧ c'.Collected s' gasCoin ∧
      c'.gasStatus.Affordable ∧ c.gasStatus.Recharged c'.gasStatus := by
  have hmeter := h.bucketized
  unfold handleStorageAndRebate
  rw [IotaGasStatus.chargeStorageAndRebate_eq hmeter.rebateRate_le hmeter.computationCost_le, except_ok_bind]
  split_ifs with hfirst
  · -- out of gas: the writes are dropped and the inputs collected again
    obtain ⟨t, hreset, htin, hsmashed⟩ := reset_spec h.gasCoins
    dsimp only
    rw [hreset, except_ok_bind]
    dsimp only
    have htmutable : gasCoin.id ∈ t.mutableInputRefs := by
      rw [mutableInputRefs_eq_of_inputs htin]
      exact h.gasCoins.mutable_gasCoin
    have hensured := hsmashed.ensureActiveInputsMutated htmutable
    have hreset₁ := IotaGasStatus.recharged_resetStorageCostAndRebate c.gasStatus
    obtain ⟨u, g, hcollect, hcollected, hrecharged, -⟩ :=
      collected_of_ensured (c := { c with gasStatus := c.gasStatus.resetStorageCostAndRebate })
        (h.gasCoins.congr rfl rfl rfl htin) (hreset₁.bucketized hmeter hmeter.computationCost_le) rfl rfl
        hensured.modifiedHaveMetadata
        (hensured.gasCoin_written ((ensureActiveInputsMutated_spec t).2.1 ▸ Finset.mem_union_right _ htmutable))
    rw [hcollect, except_ok_bind]
    dsimp only
    have hmeter₂ := hcollected.bucketized
    rw [IotaGasStatus.chargeStorageAndRebate_eq hmeter₂.rebateRate_le hmeter₂.computationCost_le, except_ok_bind]
    split_ifs with hsecond
    · -- out of gas again: the writes are dropped, and only deleted objects' rebates collected
      obtain ⟨t', hreset', htin', hsmashed'⟩ := reset_spec hcollected.gasCoins
      dsimp only
      rw [hreset', except_ok_bind]
      dsimp only
      have ht'mutable : gasCoin.id ∈ t'.mutableInputRefs := by
        rw [mutableInputRefs_eq_of_inputs htin']
        exact hcollected.gasCoins.mutable_gasCoin
      have hensured' := hsmashed'.ensureActiveInputsMutated ht'mutable
      obtain ⟨entries, hrebate, hunits, hconserved⟩ :=
        hensured'.collectRebate_conserved (g := g.resetStorageCostAndRebate.adjustComputationOnOutOfGas)
          hmeter₂.metered rfl
      rw [hrebate, except_ok_bind]
      have hrecharged' : g.Recharged { g.resetStorageCostAndRebate.adjustComputationOnOutOfGas with
          perObjectStorage := entries } := ⟨_, _, _, rfl⟩
      refine ⟨_, _, _, rfl, ⟨?_, ?_, hensured'.modifiedHaveMetadata, hconserved, ?_⟩, ?_, ?_⟩
      · exact hcollected.gasCoins.congr rfl rfl rfl (htin'.symm ▸ (ensureActiveInputsMutated_spec t').1)
      · exact hrecharged'.bucketized hmeter₂ le_rfl
      · exact hensured'.gasCoin_written ((ensureActiveInputsMutated_spec t').2.1 ▸
          Finset.mem_union_right _ ht'mutable)
      · -- no storage is charged
        unfold IotaGasStatus.Affordable
        rw [hunits]
        exact Nat.zero_le _
      · exact hreset₁.trans (hrecharged.trans hrecharged')
    · exact ⟨_, _, _, rfl, hcollected, not_lt.mp hsecond, hreset₁.trans hrecharged⟩
  · exact ⟨c, s, executionResult, rfl, h, not_lt.mp hfirst, IotaGasStatus.Recharged.refl _⟩

theorem chargeGas_spec (h : c.ReadyToCharge s gasCoin) (executionResult : Except ExecutionError α)
    (hexecuted : executionResult.isOk → s.Executed gasCoin.id c.gasStatus.gasBudget) :
    ∃ c' s' r' costSummary, c.chargeGas s executionResult = .ok (c', s', r', costSummary) ∧
      c.gasStatus.Recharged c'.gasStatus ∧ c'.gasStatus.Bucketized ∧ c'.gasStatus.Affordable ∧
      c'.gasStatus.summary = .ok costSummary ∧ s'.ModifiedHaveMetadata ∧ s'.Conserved c'.gasStatus := by
  obtain ⟨c₁, s₁, r₁, hbucketize, hcoins₁, hmeter₁, hrebate₁, hunits₁, hrecharged₁, hknown₁, hgas₁⟩ :=
    bucketizeAndReset_spec h executionResult hexecuted
  rw [← hrecharged₁.gasBudget_eq] at hgas₁
  obtain ⟨s₂, g₂, hcollect, hcollected₂, hrecharged₂, -⟩ :=
    collected_of_ensured hcoins₁ hmeter₁ hrebate₁ hunits₁ hknown₁ hgas₁
  obtain ⟨c₃, s₃, r₃, hhandle, hcollected₃, haffordable, hrecharged₃⟩ :=
    handleStorageAndRebate_spec hcollected₂ r₁
  have hmeter₃ := hcollected₃.bucketized
  have hsummary := IotaGasStatus.summary_eq_ok hmeter₃.rebateRate_le (fun _ => hmeter₃.gasPrice_pos)
  -- the gas coin, written and holding the budget, is what the charge is taken from
  obtain ⟨hmodified, hwritten, isGasCoin, value, hdata, hvalue⟩ := hcollected₃.gasCoin_written
  have hused := haffordable.gasUsed_le hmeter₃.computationCost_le
  have hcharge : ∀ costSummary, c₃.gasStatus.summary = .ok costSummary → costSummary.netGasUsage ≤ value := by
    intro costSummary hcost
    rw [hsummary, Except.ok.injEq] at hcost
    subst hcost
    simp only [GasCostSummary.netGasUsage, GasCostSummary.gasUsed, IotaGasStatus.storageCost_eq_storageGasUnits]
    omega
  have hid : (s₃.writtenObjects.get gasCoin.id).id = gasCoin.id := s₃.writtenObjects.get_id _ hwritten
  unfold chargeGas
  rw [hbucketize, except_ok_bind]
  dsimp only
  rw [hcollect, except_ok_bind]
  dsimp only
  rw [hcoins₁.smashed] at hhandle ⊢
  dsimp only
  rw [hhandle, except_ok_bind]
  dsimp only
  rw [hsummary, except_ok_bind, readObject_of_mem_written hwritten]
  dsimp only
  rw [except_pure_bind, deductGas_eq_ok hdata (hcharge _ hsummary), except_ok_bind]
  refine ⟨c₃, _, r₃, _, rfl, hrecharged₁.trans (hrecharged₂.trans hrecharged₃), hmeter₃, haffordable, hsummary,
    modifiedHaveMetadata_mutateInputObject hcollected₃.modifiedHaveMetadata (by rwa [hid]), ?_⟩
  -- rewriting the gas coin's balance touches neither total of rebates
  have hconserved := hcollected₃.conserved
  unfold Conserved at hconserved ⊢
  rw [totalInputRebate_mutateInputObject (by rwa [hid]), totalOutputRebate_mutateInputObject (by rwa [hid])
    (by rw [hid])]
  exact hconserved

/-- Storage rebates are conserved on every charging path: whatever execution
did and however charging went, `check_iota_conserved` accepts the summary
`charge_gas` returns. -/
theorem chargeGas_checkIotaConserved (h : c.ReadyToCharge s gasCoin) (executionResult : Except ExecutionError α)
    (hexecuted : executionResult.isOk → s.Executed gasCoin.id c.gasStatus.gasBudget) :
    ∃ c' s' r' costSummary, c.chargeGas s executionResult = .ok (c', s', r', costSummary) ∧
      s'.checkIotaConserved costSummary = .ok (.ok ()) := by
  obtain ⟨c', s', r', costSummary, hcharge, -, hmeter, -, hsummary, hknown, hconserved⟩ :=
    chargeGas_spec h executionResult hexecuted
  refine ⟨c', s', r', costSummary, hcharge, ?_⟩
  rw [IotaGasStatus.summary_eq_ok hmeter.rebateRate_le (fun _ => hmeter.gasPrice_pos), Except.ok.injEq] at hsummary
  subst hsummary
  -- the sender's share and the storage fund's share add up to the whole rebate
  have hsender : senderRebate c'.gasStatus.storageRebate c'.gasStatus.rebateRate ≤ c'.gasStatus.storageRebate :=
    senderRebate_le hmeter.rebateRate_le
  rw [checkIotaConserved_eq_ok_iff hknown]
  unfold Conserved at hconserved
  simp only [IotaGasStatus.storageCost_eq_storageGasUnits]
  by_cases hzero : c'.gasStatus.storageGasUnits = 0
  · simp only [hzero, if_true] at hconserved ⊢
    omega
  · simp only [hzero, if_false] at hconserved ⊢
    omega

/-- Two gas coins holding 30 and 40, mutable inputs `1` and `2` owned by an
address, after a transaction that smashed them into the first. -/
def twoCoinStore : TemporaryStore where
  inputObjects := ⟨{1, 2}, fun id => ⟨id, .move true (if id = 1 then 30 else 40), .addressOwner 7, 5, 10⟩,
    fun _ _ => rfl⟩
  mutableInputRefs := {1, 2}
  loadedRuntimeObjects _ := none
  systemPackageStorageRebate _ := none
  writtenObjects := ⟨{1}, fun id => ⟨id, .move true 70, .addressOwner 7, 5, 10⟩, fun _ _ => rfl⟩
  modifiedObjects := {1, 2}
  mutableInputRefs_subset := subset_rfl

/-- A metered meter with a budget of 50 paid from the two coins. -/
def twoCoinCharger : GasCharger where
  gasCoins := [⟨1, 0, 0⟩, ⟨2, 0, 0⟩]
  smashedGasCoin := some 1
  gasStatus :=
    { gasUsedPreGasPrice := 10
      costTable := { minTransactionCost := 1, maxGasBudget := 1000, storagePerByteCost := 1, computationBucket := [] }
      gasBudget := 50
      computationCost := 0
      charge := true
      gasPrice := 1
      referenceGasPrice := 1
      storageGasPrice := 1
      perObjectStorage := []
      rebateRate := 9900
      unmeteredStorageRebate := 0
      gasRoundingStep := some 1000
      protocolDefinedBaseFee := false }

theorem twoCoinCharger_ready : twoCoinCharger.ReadyToCharge twoCoinStore ⟨1, 0, 0⟩ where
  head := rfl
  smashed := rfl
  metered := rfl
  noStorageRebate := rfl
  noStorageGasUnits := rfl
  rebateRate_le := by decide
  gasPrice_pos := by decide
  gasCoins_mutable := by decide
  gasBalance := rfl

theorem twoCoinStore_executed : twoCoinStore.Executed 1 50 where
  modifiedHaveMetadata _ hid := Or.inl hid
  gasCoin_kept := by decide
  gasCoin_funded := ⟨⟨1, .move true 70, .addressOwner 7, 5, 10⟩, rfl, true, 70, rfl, by decide⟩

theorem chargeGas_checkIotaConserved_twoCoins :
    twoCoinCharger.ReadyToCharge twoCoinStore ⟨1, 0, 0⟩ ∧ twoCoinStore.Executed 1 50 ∧
      ∃ c' s' r' costSummary, twoCoinCharger.chargeGas twoCoinStore (.ok ()) = .ok (c', s', r', costSummary) ∧
        s'.checkIotaConserved costSummary = .ok (.ok ()) :=
  ⟨twoCoinCharger_ready, twoCoinStore_executed,
    chargeGas_checkIotaConserved twoCoinCharger_ready (.ok ()) fun _ => twoCoinStore_executed⟩

/-- Gas never exceeds the budget and the gas coin never underflows: charging
never panics (in particular `deduct_gas`'s assertion holds), the computation
charged stays within the budget and the part burned within it, the sender's
rebate within the raw rebate, and the net charge within the budget. -/
theorem chargeGas_within_budget (h : c.ReadyToCharge s gasCoin)
    (hprice : c.gasStatus.referenceGasPrice ≤ c.gasStatus.gasPrice) (executionResult : Except ExecutionError α)
    (hexecuted : executionResult.isOk → s.Executed gasCoin.id c.gasStatus.gasBudget) :
    ∃ c' s' r' costSummary, c.chargeGas s executionResult = .ok (c', s', r', costSummary) ∧
      costSummary.computationCost ≤ c.gasStatus.gasBudget ∧
      costSummary.computationCostBurned ≤ costSummary.computationCost ∧
      costSummary.storageRebate + costSummary.nonRefundableStorageFee = c'.gasStatus.storageRebate ∧
      costSummary.gasUsed ≤ c.gasStatus.gasBudget + costSummary.storageRebate ∧
      costSummary.netGasUsage ≤ c.gasStatus.gasBudget := by
  obtain ⟨c', s', r', costSummary, hcharge, hrecharged, hmeter, haffordable, hsummary, -, -⟩ :=
    chargeGas_spec h executionResult hexecuted
  refine ⟨c', s', r', costSummary, hcharge, ?_⟩
  rw [IotaGasStatus.summary_eq_ok hmeter.rebateRate_le (fun _ => hmeter.gasPrice_pos), Except.ok.injEq] at hsummary
  subst hsummary
  have hused := haffordable.gasUsed_le hmeter.computationCost_le
  have hsender : senderRebate c'.gasStatus.storageRebate c'.gasStatus.rebateRate ≤ c'.gasStatus.storageRebate :=
    senderRebate_le hmeter.rebateRate_le
  have hbudget := hrecharged.gasBudget_eq
  have hprice' : c'.gasStatus.referenceGasPrice ≤ c'.gasStatus.gasPrice := by
    obtain ⟨_, _, _, hc'⟩ := hrecharged
    rw [hc']
    exact hprice
  refine ⟨hbudget ▸ hmeter.computationCost_le, ?_, by dsimp only; omega, ?_, ?_⟩
  · -- the burned part is the computation cost scaled down by the reference price
    dsimp only
    split_ifs
    · apply Nat.div_le_of_le_mul
      calc c'.gasStatus.computationCost * c'.gasStatus.referenceGasPrice
          ≤ c'.gasStatus.computationCost * c'.gasStatus.gasPrice := Nat.mul_le_mul_left _ hprice'
        _ = c'.gasStatus.gasPrice * c'.gasStatus.computationCost := Nat.mul_comm _ _
    · exact le_rfl
  · simp only [GasCostSummary.gasUsed, IotaGasStatus.storageCost_eq_storageGasUnits]
    omega
  · simp only [GasCostSummary.netGasUsage, GasCostSummary.gasUsed, IotaGasStatus.storageCost_eq_storageGasUnits]
    omega

theorem chargeGas_within_budget_twoCoins :
    twoCoinCharger.ReadyToCharge twoCoinStore ⟨1, 0, 0⟩ ∧
      twoCoinCharger.gasStatus.referenceGasPrice ≤ twoCoinCharger.gasStatus.gasPrice ∧
      twoCoinStore.Executed 1 50 ∧
      ∃ c' s' r' costSummary, twoCoinCharger.chargeGas twoCoinStore (.ok ()) = .ok (c', s', r', costSummary) ∧
        costSummary.computationCost ≤ 50 ∧ costSummary.computationCostBurned ≤ costSummary.computationCost ∧
        costSummary.storageRebate + costSummary.nonRefundableStorageFee = c'.gasStatus.storageRebate ∧
        costSummary.gasUsed ≤ 50 + costSummary.storageRebate ∧ costSummary.netGasUsage ≤ 50 :=
  ⟨twoCoinCharger_ready, le_rfl, twoCoinStore_executed,
    chargeGas_within_budget twoCoinCharger_ready le_rfl (.ok ()) fun _ => twoCoinStore_executed⟩

end GasCharger

end Iota.Execution
