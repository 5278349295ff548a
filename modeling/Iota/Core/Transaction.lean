import Mathlib
import Iota.Core.BaseTypes
import Iota.Lib.Except

/-! The inputs of a transaction (`crates/iota-types/src/transaction.rs`) and
the object keys the storage layer derives from them
(`crates/iota-types/src/storage/mod.rs`).  A programmable transaction is its
call arguments and the packages its commands name; the system transactions
that touch one shared object each are kept, and `EndOfEpochTransaction` is
left out.  Gas payment objects are inputs of every transaction that is not a
system transaction. -/

namespace Iota.Core

open Iota.Lib

inductive ObjectArg
  | immOrOwnedObject (ref : ObjectRef)
  | sharedObject (id initialSharedVersion : ℕ) (mutable : Bool)
  | receiving (ref : ObjectRef)
  deriving DecidableEq

inductive CallArg
  | pure
  | object (arg : ObjectArg)
  deriving DecidableEq

structure SharedInputObject where
  id : ℕ
  initialSharedVersion : ℕ
  mutable : Bool
  deriving DecidableEq

inductive InputObjectKind
  | movePackage (id : ℕ)
  | immOrOwnedMoveObject (ref : ObjectRef)
  | sharedMoveObject (id initialSharedVersion : ℕ) (mutable : Bool)
  deriving DecidableEq

def InputObjectKind.objectId : InputObjectKind → ℕ
  | .movePackage id => id
  | .immOrOwnedMoveObject ref => ref.id
  | .sharedMoveObject id _ _ => id

inductive UserInputError
  | duplicateObjectRefInput
  | gasObjectNotOwnedObject (owner : Owner)
  | missingGasPayment
  | gasBudgetTooHigh (gasBudget maxBudget : ℕ)
  | gasBudgetTooLow (gasBudget minBudget : ℕ)
  | gasBalanceTooLow (gasBalance neededGasAmount : ℕ)
  | invalidGasObject (objectId : ℕ)
  deriving DecidableEq

inductive TransactionKind
  | programmableTransaction (inputs : List CallArg) (commandPackages : List ℕ)
  | genesis
  | consensusCommitPrologueV1
  | authenticatorStateUpdateV1 (authenticatorObjInitialSharedVersion : ℕ)
  | randomnessStateUpdate (epoch randomnessRound randomnessObjInitialSharedVersion : ℕ)
  deriving DecidableEq

structure TransactionData where
  kind : TransactionKind
  gas : List ObjectRef
  deriving DecidableEq

namespace CallArg

def inputObjects : CallArg → List InputObjectKind
  | .pure => []
  | .object (.immOrOwnedObject ref) => [.immOrOwnedMoveObject ref]
  | .object (.sharedObject id initialSharedVersion mutable) => [.sharedMoveObject id initialSharedVersion mutable]
  -- receiving objects are not part of the input objects
  | .object (.receiving _) => []

def receivingObjects : CallArg → List ObjectRef
  | .object (.receiving ref) => [ref]
  | _ => []

def sharedInputObject : CallArg → Option SharedInputObject
  | .object (.sharedObject id initialSharedVersion mutable) => some ⟨id, initialSharedVersion, mutable⟩
  | _ => none

end CallArg

/-- "all objects, not just mutable, must be unique" -/
def checkUnique (objects : List InputObjectKind) : Except UserInputError (List InputObjectKind) :=
  if (objects.map InputObjectKind.objectId).Nodup then .ok objects else .error .duplicateObjectRefInput

namespace TransactionKind

def isSystemTx : TransactionKind → Bool
  | .programmableTransaction .. => false
  | _ => true

/-- The command packages are collected in a `BTreeSet`: sorted, each once. -/
def inputObjects : TransactionKind → Except UserInputError (List InputObjectKind)
  | .programmableTransaction inputs commandPackages => do
    let inputArgObjects ← checkUnique (inputs.flatMap CallArg.inputObjects)
    pure (inputArgObjects ++ ((commandPackages.insertionSort (· ≤ ·)).dedup.map .movePackage))
  | .genesis => checkUnique []
  | .consensusCommitPrologueV1 =>
    checkUnique [.sharedMoveObject IOTA_CLOCK_OBJECT_ID IOTA_CLOCK_OBJECT_SHARED_VERSION true]
  | .authenticatorStateUpdateV1 v => checkUnique [.sharedMoveObject IOTA_AUTHENTICATOR_STATE_OBJECT_ID v true]
  | .randomnessStateUpdate _ _ v => checkUnique [.sharedMoveObject IOTA_RANDOMNESS_STATE_OBJECT_ID v true]

def receivingObjects : TransactionKind → List ObjectRef
  | .programmableTransaction inputs _ => inputs.flatMap CallArg.receivingObjects
  | _ => []

def sharedInputObjects : TransactionKind → List SharedInputObject
  | .programmableTransaction inputs _ => inputs.filterMap CallArg.sharedInputObject
  | .genesis => []
  | .consensusCommitPrologueV1 => [⟨IOTA_CLOCK_OBJECT_ID, IOTA_CLOCK_OBJECT_SHARED_VERSION, true⟩]
  | .authenticatorStateUpdateV1 v => [⟨IOTA_AUTHENTICATOR_STATE_OBJECT_ID, v, true⟩]
  | .randomnessStateUpdate _ _ v => [⟨IOTA_RANDOMNESS_STATE_OBJECT_ID, v, true⟩]

end TransactionKind

namespace TransactionData

def inputObjects (tx : TransactionData) : Except UserInputError (List InputObjectKind) := do
  let inputs ← tx.kind.inputObjects
  pure (if tx.kind.isSystemTx then inputs else inputs ++ tx.gas.map .immOrOwnedMoveObject)

def receivingObjects (tx : TransactionData) : List ObjectRef := tx.kind.receivingObjects

def sharedInputObjects (tx : TransactionData) : List SharedInputObject := tx.kind.sharedInputObjects

def containsSharedObject (tx : TransactionData) : Bool := !tx.sharedInputObjects.isEmpty

end TransactionData

def InputObjectKind.nonSharedKey : InputObjectKind → Option ObjectKey
  | .immOrOwnedMoveObject ref => some ref.toKey
  | _ => none

/-- `transaction_non_shared_input_object_keys`: owned and immutable inputs
and gas, not packages or shared objects. -/
def transactionNonSharedInputObjectKeys (tx : TransactionData) : Except UserInputError (List ObjectKey) := do
  let objects ← tx.inputObjects
  pure (objects.filterMap InputObjectKind.nonSharedKey)

def transactionReceivingObjectKeys (tx : TransactionData) : List ObjectKey :=
  tx.receivingObjects.map ObjectRef.toKey

inductive TransactionKey
  | digest (d : ℕ)
  | randomnessRound (epoch round : ℕ)
  deriving DecidableEq

structure VerifiedExecutableTransaction where
  digest : ℕ
  data : TransactionData
  deriving DecidableEq

def VerifiedExecutableTransaction.key (cert : VerifiedExecutableTransaction) : TransactionKey :=
  match cert.data.kind with
  | .randomnessStateUpdate epoch randomnessRound _ => .randomnessRound epoch randomnessRound
  | _ => .digest cert.digest

/-! The shared inputs are counted twice in the source: once by
`shared_input_objects` and once among the `input_objects`.  They agree: the
shared entries of the input objects are the shared input objects. -/

def InputObjectKind.sharedInput : InputObjectKind → Option SharedInputObject
  | .sharedMoveObject id initialSharedVersion mutable => some ⟨id, initialSharedVersion, mutable⟩
  | _ => none

theorem checkUnique_eq_ok {objects objects' : List InputObjectKind} :
    checkUnique objects = .ok objects' ↔ (objects.map InputObjectKind.objectId).Nodup ∧ objects' = objects := by
  unfold checkUnique
  split_ifs with h <;> simp [h, eq_comm]

theorem filterMap_sharedInput_inputObjects (inputs : List CallArg) :
    (inputs.flatMap CallArg.inputObjects).filterMap InputObjectKind.sharedInput =
      inputs.filterMap CallArg.sharedInputObject := by
  induction inputs with
  | nil => rfl
  | cons arg inputs ih =>
    rw [List.flatMap_cons, List.filterMap_append, ih]
    rcases arg with _ | (_ | _ | _) <;> rfl

theorem TransactionKind.sharedInputObjects_eq {kind : TransactionKind} {objects : List InputObjectKind}
    (h : kind.inputObjects = .ok objects) :
    objects.filterMap InputObjectKind.sharedInput = kind.sharedInputObjects := by
  cases kind with
  | programmableTransaction inputs commandPackages =>
    simp only [inputObjects, except_bind_eq_ok, except_pure_eq_ok, checkUnique_eq_ok] at h
    obtain ⟨_, ⟨-, rfl⟩, rfl⟩ := h
    rw [List.filterMap_append, filterMap_sharedInput_inputObjects]
    simp [InputObjectKind.sharedInput, sharedInputObjects]
  | _ =>
    simp only [inputObjects, checkUnique_eq_ok] at h
    obtain ⟨-, rfl⟩ := h
    rfl

theorem TransactionData.sharedInputObjects_eq {tx : TransactionData} {objects : List InputObjectKind}
    (h : tx.inputObjects = .ok objects) :
    objects.filterMap InputObjectKind.sharedInput = tx.sharedInputObjects := by
  simp only [inputObjects, except_bind_eq_ok, except_pure_eq_ok] at h
  obtain ⟨inputs, hinputs, rfl⟩ := h
  rw [sharedInputObjects, ← TransactionKind.sharedInputObjects_eq hinputs]
  split_ifs
  · rfl
  · simp [List.filterMap_append, InputObjectKind.sharedInput]

theorem sublist_sharedInput_ids (objects : List InputObjectKind) :
    ((objects.filterMap InputObjectKind.sharedInput).map SharedInputObject.id).Sublist
      (objects.map InputObjectKind.objectId) := by
  induction objects with
  | nil => exact List.Sublist.slnil
  | cons o objects ih =>
    rcases o with _ | _ | ⟨id, v, m⟩
    · exact ih.cons _
    · exact ih.cons _
    · exact ih.cons_cons _

theorem TransactionKind.nodup_sharedInputObjects {kind : TransactionKind} {objects : List InputObjectKind}
    (h : kind.inputObjects = .ok objects) : (kind.sharedInputObjects.map SharedInputObject.id).Nodup := by
  cases kind with
  | programmableTransaction inputs commandPackages =>
    simp only [inputObjects, except_bind_eq_ok, except_pure_eq_ok, checkUnique_eq_ok] at h
    obtain ⟨_, ⟨hnodup, rfl⟩, -⟩ := h
    rw [sharedInputObjects, ← filterMap_sharedInput_inputObjects]
    exact (sublist_sharedInput_ids _).nodup hnodup
  | _ => simp [sharedInputObjects]

theorem TransactionData.inputObjects_of_nonSharedKeys {tx : TransactionData} {keys : List ObjectKey}
    (h : transactionNonSharedInputObjectKeys tx = .ok keys) :
    ∃ objects, tx.inputObjects = .ok objects ∧ keys = objects.filterMap InputObjectKind.nonSharedKey := by
  simp only [transactionNonSharedInputObjectKeys, except_bind_eq_ok, except_pure_eq_ok] at h
  obtain ⟨objects, hobjects, rfl⟩ := h
  exact ⟨objects, hobjects, rfl⟩

theorem TransactionData.nodup_sharedInputObjects {tx : TransactionData} {objects : List InputObjectKind}
    (h : tx.inputObjects = .ok objects) : (tx.sharedInputObjects.map SharedInputObject.id).Nodup := by
  simp only [inputObjects, except_bind_eq_ok] at h
  obtain ⟨inputs, hinputs, -⟩ := h
  exact TransactionKind.nodup_sharedInputObjects hinputs

end Iota.Core
