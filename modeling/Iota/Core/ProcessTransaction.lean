import Iota.Core.SplitBrain

/-! Submitting a transaction from the client side. `AuthorityAggregator::process_transaction`
(`crates/iota-core/src/authority_aggregator.rs`) sends the transaction to every
validator through a `SafeClient` and folds the responses, in the order they arrive,
into a `ProcessTransactionState`: signatures on the transaction go to
`tx_signatures`, signed effects of a transaction already executed to
`effects_map`, and errors, by kind, to the stakes that decide when to give up.
The stake still to hear from is the committee's total less four of those
buckets (`get_retryable_stake`), in `u64`.

The `IotaError`s of this path are those `is_retryable` and the reduce step tell
apart, with the errors of the stake aggregators and of `SafeClient`'s effects
check as one variant. `group_errors` is left out: the errors are returned as
they were collected. -/

namespace Iota.Core.ProcessTransaction

open Iota.Lib
open Iota.Core.AuthorityAggregator (Committee AuthoritySignInfo AuthorityQuorumSignInfo StakeAggregator
  MultiStakeAggregator SignedTransactionEffects TransactionEffects TransactionEvents InsertResult ReduceOutput
  quorumMapThenReduce CertifiedTransactionEffects QUORUM_THRESHOLD VALIDITY_THRESHOLD TOTAL_VOTING_POWER
  checkSignedEffectsPlain)

/-- The `UserInputError`s the client tells apart. -/
inductive UserInputError
  | objectNotFound
  | dependentPackageNotFound
  | other
  deriving DecidableEq, Repr

inductive IotaError (α : Type)
  /-- an error of a stake aggregator, of a certificate check or of the effects check of `SafeClient` -/
  | aggregator (error : AuthorityAggregator.IotaError α)
  | rpc
  | validatorHaltedAtEpochEnd
  | missingCommitteeAtEpoch (epoch : ℕ)
  | epochEnded (epoch : ℕ)
  | userInput (error : UserInputError)
  | potentiallyTemporarilyInvalidSignature
  | tooManyTransactionsPendingExecution
  | tooManyTransactionsPendingOnObject
  | tooOldTransactionPendingOnObject
  | tooManyTransactionsPendingConsensus
  | validatorOverloadedRetryAfter (retryAfterSecs : ℕ)
  | execution
  | quorumFailedToGetEffectsQuorumWhenProcessingTransaction (effectsMap : List (TransactionEffects × List α × ℕ))
  | txAlreadyFinalizedWithDifferentUserSigs
  | failedToVerifyTxCertWithExecutedEffects (validatorName : α)
  | objectLockConflict (objRef : ObjectRef) (pendingTransaction : ℕ)
  | tooManyRequests
  /-- an error `is_retryable` leaves uncategorized -/
  | other
  deriving DecidableEq, Repr

namespace IotaError

variable {α : Type}

/-- `is_retryable`: whether the error is retryable, and whether it is categorized. -/
def isRetryable : IotaError α → Bool × Bool
  | rpc | validatorHaltedAtEpochEnd | missingCommitteeAtEpoch _ | epochEnded _ => (true, true)
  | aggregator (.wrongEpoch _ _) => (true, true)
  | userInput .objectNotFound | userInput .dependentPackageNotFound => (true, true)
  | userInput .other => (false, true)
  | potentiallyTemporarilyInvalidSignature => (true, true)
  | tooManyTransactionsPendingExecution | tooManyTransactionsPendingOnObject | tooOldTransactionPendingOnObject
  | tooManyTransactionsPendingConsensus | validatorOverloadedRetryAfter _ => (true, true)
  | execution | aggregator (.byzantineAuthoritySuspicion _ _) | quorumFailedToGetEffectsQuorumWhenProcessingTransaction _
  | txAlreadyFinalizedWithDifferentUserSigs | failedToVerifyTxCertWithExecutedEffects _ | objectLockConflict _ _
  | tooManyRequests => (false, true)
  | _ => (false, false)

def isObjectOrPackageNotFound : IotaError α → Bool
  | userInput .objectNotFound | userInput .dependentPackageNotFound => true
  | _ => false

def isOverload : IotaError α → Bool
  | tooManyTransactionsPendingExecution | tooManyTransactionsPendingOnObject | tooOldTransactionPendingOnObject
  | tooManyTransactionsPendingConsensus => true
  | _ => false

def isRetryableOverload : IotaError α → Bool
  | validatorOverloadedRetryAfter _ => true
  | _ => false

def retryAfterSecs : IotaError α → ℕ
  | validatorOverloadedRetryAfter retryAfterSecs => retryAfterSecs
  | _ => 0

end IotaError

structure SignedTransaction (α : Type) where
  digest : ℕ
  authSig : AuthoritySignInfo α
  deriving DecidableEq, Repr

/-- What `StakeAggregator::insert` is given for a signed transaction: it reads
only the signature, so the transaction's digest stands in for the signed data. -/
def SignedTransaction.envelope {α : Type} (tx : SignedTransaction α) : SignedTransactionEffects α :=
  ⟨⟨tx.digest, none, [], []⟩, tx.authSig⟩

@[simp] theorem SignedTransaction.envelope_authSig {α : Type} (tx : SignedTransaction α) :
    tx.envelope.authSig = tx.authSig := rfl

structure CertifiedTransaction (α : Type) where
  digest : ℕ
  authSig : AuthorityQuorumSignInfo α
  deriving DecidableEq, Repr

/-- `verify_committee_sigs_only`: the certificate's epoch, every signature, and
the weight of the signers. -/
def CertifiedTransaction.verifyCommitteeSigsOnly {α : Type} (committee : Committee α) (ct : CertifiedTransaction α) :
    Except (AuthorityAggregator.IotaError α) Unit :=
  if ct.authSig.epoch ≠ committee.epoch then throw (.wrongEpoch committee.epoch ct.authSig.epoch)
  else if ct.authSig.signatures.all (·.verifies) ∧
      QUORUM_THRESHOLD ≤ (ct.authSig.signatures.map fun s => committee.weight s.authority).sum
  then pure ()
  else throw (.invalidSignature "quorum signature does not verify")

/-- What a validator answers to `handle_transaction`. -/
inductive TransactionStatus (α Event : Type)
  | signed (authSig : AuthoritySignInfo α)
  | executed (cert : Option (AuthorityQuorumSignInfo α)) (effects : SignedTransactionEffects α)
      (events : TransactionEvents Event)

inductive PlainTransactionInfoResponse (α Event : Type)
  | signed (tx : SignedTransaction α)
  | executedWithCert (cert : CertifiedTransaction α) (effects : SignedTransactionEffects α)
      (events : TransactionEvents Event)
  | executedWithoutCert (effects : SignedTransactionEffects α) (events : TransactionEvents Event)

inductive ProcessTransactionResult (α Event : Type)
  | certified (certificate : CertifiedTransaction α) (newlyFormed : Bool)
  | executed (effects : CertifiedTransactionEffects α) (events : TransactionEvents Event)

/-! ### `SafeClient::handle_transaction` -/

section SafeClient

variable {α Event : Type} [DecidableEq α] (committeeAt : ℕ → Option (Committee α))

/-- `get_committee`: the committee of an epoch, which the client must know. -/
def getCommittee (epoch : ℕ) : Except (IotaError α) (Committee α) :=
  match committeeAt epoch with
  | some committee => pure committee
  | none => throw (.missingCommitteeAtEpoch epoch)

/-- `check_transaction_info` of the client of validator `address`: the
signature of a signed transaction is taken as it is, only its epoch checked;
signed effects must be the validator's own, and a certificate must verify. -/
def checkTransactionInfo (address : α) (digest : ℕ) (status : TransactionStatus α Event) :
    Except (IotaError α) (PlainTransactionInfoResponse α Event) :=
  match status with
  | .signed signed => do
    let _ ← getCommittee committeeAt signed.epoch
    pure (.signed ⟨digest, signed⟩)
  | .executed certOpt effects events => do
    let signedEffects ← (checkSignedEffectsPlain address digest effects).mapError .aggregator
    let _ ← getCommittee committeeAt signedEffects.authSig.epoch
    match certOpt with
    | some cert =>
      let committee ← getCommittee committeeAt cert.epoch
      let ct : CertifiedTransaction α := ⟨digest, cert⟩
      match ct.verifyCommitteeSigsOnly committee with
      | .ok () => pure (.executedWithCert ct signedEffects events)
      | .error _ => throw (.failedToVerifyTxCertWithExecutedEffects address)
    | none => pure (.executedWithoutCert signedEffects events)

theorem checkTransactionInfo_signed {c : Committee α} {address : α} {digest : ℕ} {sig : AuthoritySignInfo α} (hc : committeeAt sig.epoch = some c) :
    checkTransactionInfo committeeAt address digest (.signed sig : TransactionStatus α Event) = .ok (.signed ⟨digest, sig⟩) := by
  simp [checkTransactionInfo, getCommittee, hc]

end SafeClient

/-! ### The state of `process_transaction` -/

/-- A `BTreeMap` keyed by a number: its entries in ascending order of key, each
key once. `upsert` changes the value under a key, or inserts one made from
`init`, in its place. -/
def upsert {β : Type} : List (ℕ × β) → ℕ → β → (β → β) → List (ℕ × β)
  | [], k, init, f => [(k, f init)]
  | (k', v) :: rest, k, init, f =>
    if k = k' then (k', f v) :: rest
    else if k < k' then (k, f init) :: (k', v) :: rest
    else (k', v) :: upsert rest k init f

structure RetryableOverloadInfo where
  totalStake : ℕ
  /-- the stake that asked for each retry duration, in seconds -/
  stakeRequestedRetryAfter : List (ℕ × ℕ)
  deriving DecidableEq, Repr

namespace RetryableOverloadInfo

def addStakeRetryableOverload (info : RetryableOverloadInfo) (stake retryAfter : ℕ) : RetryableOverloadInfo :=
  ⟨info.totalStake + stake, upsert info.stakeRequestedRetryAfter retryAfter 0 (· + stake)⟩

/-- The loop of `get_quorum_retry_after`: the shortest duration at which the
stake asking for it, with the good stake, reaches a quorum. -/
def quorumRetryAfterLoop (quorumThreshold : ℕ) : ℕ → List (ℕ × ℕ) → Option ℕ
  | _, [] => none
  | quorumStake, (retryAfter, stake) :: rest =>
    if quorumThreshold ≤ quorumStake + stake then some retryAfter
    else quorumRetryAfterLoop quorumThreshold (quorumStake + stake) rest

/-- `get_quorum_retry_after`, in seconds; the longest duration asked where no
quorum is reached. -/
def getQuorumRetryAfter (info : RetryableOverloadInfo) (goodStake quorumThreshold : ℕ) : ℕ :=
  match info.stakeRequestedRetryAfter.getLast? with
  | none => 0
  | some last => (quorumRetryAfterLoop quorumThreshold goodStake info.stakeRequestedRetryAfter).getD last.1

end RetryableOverloadInfo

/-- The key of signed effects in `effects_map`: the effects digest alone. -/
def effectsKey (effects : TransactionEffects) : ℕ × TransactionEffects := (0, effects)

structure ProcessTransactionState (α : Type) where
  txSignatures : StakeAggregator α
  effectsMap : MultiStakeAggregator α
  errors : List (IotaError α × List α × ℕ)
  nonRetryableStake : ℕ
  objectOrPackageNotFoundStake : ℕ
  overloadedStake : ℕ
  retryableOverloadInfo : RetryableOverloadInfo
  /-- under each conflicting transaction, the validators that locked an object
  for it, with the object, and their stake -/
  conflictingTxDigests : List (ℕ × List (α × ObjectRef) × ℕ)
  retryable : Bool
  txFinalizedWithDifferentUserSig : Bool
  conflictingTxTotalStake : ℕ
  mostStakedConflictingTxStake : ℕ

inductive AggregatorProcessTransactionError (α : Type)
  | fatalTransaction (errors : List (IotaError α × List α × ℕ))
  | retryableTransaction (errors : List (IotaError α × List α × ℕ))
  | fatalConflictingTransaction (errors : List (IotaError α × List α × ℕ))
      (conflictingTxDigests : List (ℕ × List (α × ObjectRef) × ℕ))
  | retryableConflictingTransaction (conflictingTxDigestToRetry : Option ℕ)
      (errors : List (IotaError α × List α × ℕ)) (conflictingTxDigests : List (ℕ × List (α × ObjectRef) × ℕ))
  | systemOverload (overloadedStake : ℕ) (errors : List (IotaError α × List α × ℕ))
  | txAlreadyFinalizedWithDifferentUserSignatures
  | systemOverloadRetryAfter (overloadStake : ℕ) (errors : List (IotaError α × List α × ℕ)) (retryAfterSecs : ℕ)

namespace ProcessTransactionState

variable {α : Type}

def initial : ProcessTransactionState α :=
  ⟨StakeAggregator.new, ⟨[]⟩, [], 0, 0, 0, ⟨0, []⟩, [], true, false, 0, 0⟩

/-- `conflicting_tx_digest_with_most_stake`: `max_by_key` keeps the last of the
largest. -/
def conflictingTxDigestWithMostStake (state : ProcessTransactionState α) : Option (ℕ × List (α × ObjectRef) × ℕ) :=
  state.conflictingTxDigests.foldl
    (fun best e => match best with
      | none => some e
      | some b => if b.2.2 ≤ e.2.2 then some e else some b) none

/-- `record_conflicting_transaction_if_any`: an `ObjectLockConflict` is filed
under the transaction holding the lock, and `true` returned. -/
def recordConflictingTransactionIfAny (state : ProcessTransactionState α) (validatorName : α) (weight : ℕ) :
    IotaError α → ProcessTransactionState α × Bool
  | .objectLockConflict objRef transaction =>
    let conflictingTxDigests := upsert state.conflictingTxDigests transaction ([], 0)
      fun entry => (entry.1 ++ [(validatorName, objRef)], entry.2 + weight)
    let totalStake := ((conflictingTxDigests.lookup transaction).map (·.2)).getD 0
    ({ state with
        conflictingTxDigests
        conflictingTxTotalStake := state.conflictingTxTotalStake + weight
        mostStakedConflictingTxStake := max state.mostStakedConflictingTxStake totalStake }, true)
  | _ => (state, false)

/-- The stake of the validators that answered `FailedToVerifyTxCertWithExecutedEffects`
reaches the validity threshold. -/
def checkIfErrorIndicatesTxFinalizedWithDifferentUserSig (state : ProcessTransactionState α) (validityThreshold : ℕ) :
    Bool :=
  decide (validityThreshold ≤ (state.errors.filterMap fun e => match e.1 with
    | .failedToVerifyTxCertWithExecutedEffects _ => some e.2.2
    | _ => none).sum)

/-- `get_retryable_stake`, in `u64`: where the buckets add up to more than the
committee's total, the subtraction wraps around (it panics where overflow checks
are on). -/
def getRetryableStake (state : ProcessTransactionState α) : UInt64 :=
  UInt64.ofNat TOTAL_VOTING_POWER - UInt64.ofNat state.conflictingTxTotalStake - UInt64.ofNat state.nonRetryableStake -
    UInt64.ofNat state.effectsMap.totalVotes - UInt64.ofNat state.txSignatures.totalVotes

/-- The four buckets `get_retryable_stake` takes from the total. -/
def countedStake (state : ProcessTransactionState α) : ℕ :=
  state.conflictingTxTotalStake + state.nonRetryableStake + state.effectsMap.totalVotes + state.txSignatures.totalVotes

/-- The error of votes that did not verify, when there are any. -/
def recordBadVotes (state : ProcessTransactionState α) (badVotes : ℕ) (badAuthorities : List α) :
    ProcessTransactionState α :=
  { state with
    nonRetryableStake := state.nonRetryableStake + badVotes
    errors :=
      if 0 < badVotes then
        state.errors ++ [(.aggregator (.invalidSignature "Individual signature verification failed"), badAuthorities, badVotes)]
      else state.errors }

end ProcessTransactionState

/-! ### The reduce step -/

section Process

variable {α Event : Type} [DecidableEq α] (committee : Committee α)

open ProcessTransactionState

/-- `handle_transaction_response_with_signed`. -/
def handleTransactionResponseWithSigned (state : ProcessTransactionState α) (plainTx : SignedTransaction α) :
    ProcessTransactionState α × Except (IotaError α) (Option (ProcessTransactionResult α Event)) :=
  match state.txSignatures.insert committee plainTx.envelope with
  | (.notEnoughVotes badVotes badAuthorities, txSignatures) =>
    (({ state with txSignatures }).recordBadVotes badVotes badAuthorities, .ok none)
  | (.failed error, txSignatures) => ({ state with txSignatures }, .error (.aggregator error))
  | (.quorumReached certSig, txSignatures) =>
    let certificate : CertifiedTransaction α := ⟨plainTx.digest, certSig⟩
    match certificate.verifyCommitteeSigsOnly committee with
    | .ok () => ({ state with txSignatures }, .ok (some (.certified certificate true)))
    | .error error => ({ state with txSignatures }, .error (.aggregator error))

/-- The effects branch of `handle_transaction_response_with_executed`: signed
effects are counted under their digest. -/
def insertExecutedEffects (state : ProcessTransactionState α) (plainTxEffects : SignedTransactionEffects α)
    (events : TransactionEvents Event) :
    ProcessTransactionState α × Except (IotaError α) (Option (ProcessTransactionResult α Event)) :=
  match state.effectsMap.insert committee (effectsKey plainTxEffects.data) plainTxEffects with
  | (.notEnoughVotes badVotes badAuthorities, effectsMap) =>
    (({ state with effectsMap }).recordBadVotes badVotes badAuthorities, .ok none)
  | (.failed error, effectsMap) => ({ state with effectsMap }, .error (.aggregator error))
  | (.quorumReached certSig, effectsMap) =>
    match (CertifiedTransactionEffects.mk plainTxEffects.data certSig).verify committee with
    | .ok ct => ({ state with effectsMap }, .ok (some (.executed ct events)))
    | .error error => ({ state with effectsMap }, .error (.aggregator error))

/-- `handle_transaction_response_with_executed`: a certificate of the current
epoch is used as it is. -/
def handleTransactionResponseWithExecuted (state : ProcessTransactionState α)
    (certificate : Option (CertifiedTransaction α)) (plainTxEffects : SignedTransactionEffects α)
    (events : TransactionEvents Event) :
    ProcessTransactionState α × Except (IotaError α) (Option (ProcessTransactionResult α Event)) :=
  match certificate with
  | some certificate =>
    if certificate.authSig.epoch = committee.epoch then (state, .ok (some (.certified certificate false)))
    else insertExecutedEffects committee state plainTxEffects events
  | none => insertExecutedEffects committee state plainTxEffects events

def handleProcessTransactionResponse (state : ProcessTransactionState α)
    (response : Except (IotaError α) (PlainTransactionInfoResponse α Event)) :
    ProcessTransactionState α × Except (IotaError α) (Option (ProcessTransactionResult α Event)) :=
  match response with
  | .ok (.signed signed) => handleTransactionResponseWithSigned committee state signed
  | .ok (.executedWithCert cert effects events) =>
    handleTransactionResponseWithExecuted committee state (some cert) effects events
  | .ok (.executedWithoutCert effects events) => handleTransactionResponseWithExecuted committee state none effects events
  | .error err => (state, .error err)

/-- The error branch of the reduce closure: the stake of the validator goes to
the bucket of the error's kind, and the error is recorded. -/
def recordError (state : ProcessTransactionState α) (name : α) (weight : ℕ) (err : IotaError α) :
    ProcessTransactionState α :=
  let state :=
    if err.isObjectOrPackageNotFound then
      { state with objectOrPackageNotFoundStake := state.objectOrPackageNotFoundStake + weight }
    else if err.isOverload then { state with overloadedStake := state.overloadedStake + weight }
    else if err.isRetryableOverload then
      { state with retryableOverloadInfo := state.retryableOverloadInfo.addStakeRetryableOverload weight err.retryAfterSecs }
    else if !err.isRetryable.1 then
      -- a conflict is not counted as a non-retryable error
      match state.recordConflictingTransactionIfAny name weight err with
      | (state, true) => state
      | (state, false) => { state with nonRetryableStake := state.nonRetryableStake + weight }
    else state
  { state with errors := state.errors ++ [(err, [name], weight)] }

/-- The exits of the reduce closure, after each response that gives no result:
no transaction can reach a quorum any more, or a bucket reached its threshold. -/
def checkExit (state : ProcessTransactionState α) :
    ReduceOutput (ProcessTransactionResult α Event) (ProcessTransactionState α) :=
  let retryableStake := state.getRetryableStake
  let goodStake := max state.txSignatures.totalVotes state.effectsMap.totalVotes
  let stakeOfMostPromisingTx := max goodStake state.mostStakedConflictingTxStake
  if UInt64.ofNat stakeOfMostPromisingTx + retryableStake < UInt64.ofNat QUORUM_THRESHOLD then
    .failed { state with retryable := false }
  else if VALIDITY_THRESHOLD ≤ state.nonRetryableStake ∨ QUORUM_THRESHOLD ≤ state.objectOrPackageNotFoundStake ∨
      QUORUM_THRESHOLD ≤ state.overloadedStake then
    .failed { state with retryable := false }
  else .continue state

/-- The reduce closure of `process_transaction`. -/
def processTransactionReduce (state : ProcessTransactionState α) (name : α) (weight : ℕ)
    (response : Except (IotaError α) (PlainTransactionInfoResponse α Event)) :
    ReduceOutput (ProcessTransactionResult α Event) (ProcessTransactionState α) :=
  match handleProcessTransactionResponse committee state response with
  | (_, .ok (some result)) => .success result
  | (state, .ok none) => checkExit state
  | (state, .error err) => checkExit (recordError state name weight err)

/-- `record_non_quorum_effects_maybe`: signed effects short of a quorum that
cannot reach one with the stake left make the state fatal. -/
def recordNonQuorumEffectsMaybe (state : ProcessTransactionState α) : ProcessTransactionState α :=
  if state.effectsMap.stakeMaps.isEmpty then state
  else
    let nonQuorumEffects := state.effectsMap.stakeMaps.map fun e => (e.1.2, e.2.data.map Prod.fst, e.2.totalVotes)
    let mostStakedEffectsDigestStake := state.effectsMap.pluralityStake
    let state :=
      if UInt64.ofNat mostStakedEffectsDigestStake + state.getRetryableStake < UInt64.ofNat QUORUM_THRESHOLD then
        if state.checkIfErrorIndicatesTxFinalizedWithDifferentUserSig VALIDITY_THRESHOLD then
          { state with retryable := false, txFinalizedWithDifferentUserSig := true }
        else { state with retryable := false }
      else state
    let involvedValidators := nonQuorumEffects.flatMap (·.2.1)
    let totalStake := (nonQuorumEffects.map (·.2.2)).sum
    { state with
      errors := state.errors ++
        [(.quorumFailedToGetEffectsQuorumWhenProcessingTransaction nonQuorumEffects, involvedValidators, totalStake)] }

/-- `handle_process_transaction_error`. -/
def handleProcessTransactionError (state : ProcessTransactionState α) : AggregatorProcessTransactionError α :=
  if QUORUM_THRESHOLD ≤ state.overloadedStake then .systemOverload state.overloadedStake state.errors
  else
    match state.conflictingTxDigestWithMostStake with
    | some (mostStakedConflictingTx, _, mostStakedConflictingTxStake) =>
      let goodStake := state.txSignatures.totalVotes
      let retryableStake := state.getRetryableStake
      if UInt64.ofNat QUORUM_THRESHOLD ≤ UInt64.ofNat goodStake + retryableStake then
        .retryableConflictingTransaction none state.errors state.conflictingTxDigests
      else if UInt64.ofNat QUORUM_THRESHOLD ≤ UInt64.ofNat mostStakedConflictingTxStake + retryableStake then
        .retryableConflictingTransaction (some mostStakedConflictingTx) state.errors state.conflictingTxDigests
      else .fatalConflictingTransaction state.errors state.conflictingTxDigests
    | none =>
      if !state.retryable then
        if state.txFinalizedWithDifferentUserSig ||
            state.checkIfErrorIndicatesTxFinalizedWithDifferentUserSig VALIDITY_THRESHOLD then
          .txAlreadyFinalizedWithDifferentUserSignatures
        else .fatalTransaction state.errors
      else if QUORUM_THRESHOLD ≤ state.txSignatures.totalVotes + state.retryableOverloadInfo.totalStake then
        .systemOverloadRetryAfter state.retryableOverloadInfo.totalStake state.errors
          (state.retryableOverloadInfo.getQuorumRetryAfter state.txSignatures.totalVotes QUORUM_THRESHOLD)
      else .retryableTransaction state.errors

/-- `AuthorityAggregator::process_transaction` on the responses of the
validators' safe clients, in the order they arrive. -/
def processTransaction (responses : List (α × Except (IotaError α) (PlainTransactionInfoResponse α Event))) :
    Except (AggregatorProcessTransactionError α) (ProcessTransactionResult α Event) :=
  match quorumMapThenReduce committee.weight (processTransactionReduce committee) .initial responses with
  | .ok result => .ok result
  | .error state => .error (handleProcessTransactionError (recordNonQuorumEffectsMaybe state))

end Process

/-! ### The stake left, in `u64` -/

section Stake

variable {α : Type}

theorem toNat_ofNat_of_le_total {n : ℕ} (h : n ≤ TOTAL_VOTING_POWER) : (UInt64.ofNat n).toNat = n := by
  rw [UInt64.toNat_ofNat']
  exact Nat.mod_eq_of_lt (by unfold TOTAL_VOTING_POWER at h; omega)

theorem toNat_sub_ofNat {a : UInt64} {b : ℕ} (hb : b ≤ a.toNat) : (a - UInt64.ofNat b).toNat = a.toNat - b := by
  have hb' : (UInt64.ofNat b).toNat = b := by
    rw [UInt64.toNat_ofNat']
    exact Nat.mod_eq_of_lt (lt_of_le_of_lt hb a.toNat_lt)
  rw [UInt64.toNat_sub_of_le _ _ (UInt64.le_iff_toNat_le.mpr (hb'.symm ▸ hb)), hb']

theorem toNat_getRetryableStake {state : ProcessTransactionState α} (h : state.countedStake ≤ TOTAL_VOTING_POWER) :
    state.getRetryableStake.toNat = TOTAL_VOTING_POWER - state.countedStake := by
  unfold ProcessTransactionState.countedStake at h
  have h0 : (UInt64.ofNat TOTAL_VOTING_POWER).toNat = TOTAL_VOTING_POWER := toNat_ofNat_of_le_total le_rfl
  have h1 : (UInt64.ofNat TOTAL_VOTING_POWER - UInt64.ofNat state.conflictingTxTotalStake).toNat =
      TOTAL_VOTING_POWER - state.conflictingTxTotalStake := by
    rw [toNat_sub_ofNat (by omega), h0]
  have h2 : (UInt64.ofNat TOTAL_VOTING_POWER - UInt64.ofNat state.conflictingTxTotalStake -
      UInt64.ofNat state.nonRetryableStake).toNat =
      TOTAL_VOTING_POWER - state.conflictingTxTotalStake - state.nonRetryableStake := by
    rw [toNat_sub_ofNat (by omega), h1]
  have h3 : (UInt64.ofNat TOTAL_VOTING_POWER - UInt64.ofNat state.conflictingTxTotalStake -
      UInt64.ofNat state.nonRetryableStake - UInt64.ofNat state.effectsMap.totalVotes).toNat =
      TOTAL_VOTING_POWER - state.conflictingTxTotalStake - state.nonRetryableStake - state.effectsMap.totalVotes := by
    rw [toNat_sub_ofNat (by omega), h2]
  unfold ProcessTransactionState.getRetryableStake ProcessTransactionState.countedStake
  rw [toNat_sub_ofNat (by omega), h3]
  omega

theorem ofNat_add_lt_ofNat_iff {x q : ℕ} {r : UInt64} (hx : x ≤ TOTAL_VOTING_POWER) (hr : r.toNat ≤ TOTAL_VOTING_POWER)
    (hq : q ≤ TOTAL_VOTING_POWER) : UInt64.ofNat x + r < UInt64.ofNat q ↔ x + r.toNat < q := by
  rw [UInt64.lt_iff_toNat_lt, UInt64.toNat_add, toNat_ofNat_of_le_total hx, toNat_ofNat_of_le_total hq,
    Nat.mod_eq_of_lt (by unfold TOTAL_VOTING_POWER at hx hr; omega)]

end Stake

/-! ### One response at a time -/

section Forwarded

variable {α Event : Type} [DecidableEq α] (committee : Committee α)

open ProcessTransactionState

omit [DecidableEq α] in
theorem checkExit_eq (state : ProcessTransactionState α) :
    (checkExit state : ReduceOutput (ProcessTransactionResult α Event) _) = .continue state ∨
      (checkExit state : ReduceOutput (ProcessTransactionResult α Event) _) = .failed { state with retryable := false } := by
  unfold checkExit
  dsimp only
  split_ifs
  · exact .inr rfl
  · exact .inr rfl
  · exact .inl rfl

omit [DecidableEq α] in
theorem checkExit_eq_continue {state : ProcessTransactionState α} (hcounted : state.countedStake ≤ TOTAL_VOTING_POWER)
    (hmost : max (max state.txSignatures.totalVotes state.effectsMap.totalVotes) state.mostStakedConflictingTxStake ≤
      TOTAL_VOTING_POWER)
    (hpromising : QUORUM_THRESHOLD ≤ max (max state.txSignatures.totalVotes state.effectsMap.totalVotes)
      state.mostStakedConflictingTxStake + (TOTAL_VOTING_POWER - state.countedStake))
    (hnon : state.nonRetryableStake < VALIDITY_THRESHOLD) (hnf : state.objectOrPackageNotFoundStake < QUORUM_THRESHOLD)
    (hov : state.overloadedStake < QUORUM_THRESHOLD) :
    (checkExit state : ReduceOutput (ProcessTransactionResult α Event) _) = .continue state := by
  have hr := toNat_getRetryableStake hcounted
  have hlt : ¬ UInt64.ofNat (max (max state.txSignatures.totalVotes state.effectsMap.totalVotes)
      state.mostStakedConflictingTxStake) + state.getRetryableStake < UInt64.ofNat QUORUM_THRESHOLD := by
    rw [ofNat_add_lt_ofNat_iff hmost (by omega) (by decide), hr]
    omega
  unfold checkExit
  dsimp only
  rw [if_neg hlt, if_neg (by omega)]

theorem handleTransactionResponseWithSigned_of_fresh {state : ProcessTransactionState α} {tx : SignedTransaction α}
    (htallied : state.txSignatures.Tallied committee) (hepoch : tx.authSig.epoch = committee.epoch)
    (hfresh : state.txSignatures.data.lookup tx.authSig.authority = none) (hw : 0 < committee.weight tx.authSig.authority)
    (hq : state.txSignatures.totalVotes + committee.weight tx.authSig.authority < QUORUM_THRESHOLD) :
    handleTransactionResponseWithSigned committee state tx =
      ({ state with txSignatures := ⟨state.txSignatures.data ++ [(tx.authSig.authority, tx.authSig)],
          state.txSignatures.totalVotes + committee.weight tx.authSig.authority⟩ },
        (.ok none : Except (IotaError α) (Option (ProcessTransactionResult α Event)))) := by
  have hinsert : state.txSignatures.insert committee tx.envelope = _ :=
    htallied.insert_of_weight_pos committee hepoch hfresh hw
  rw [SignedTransaction.envelope_authSig, if_neg (Nat.not_le_of_lt hq)] at hinsert
  simp [handleTransactionResponseWithSigned, hinsert, recordBadVotes]

theorem handleTransactionResponseWithSigned_of_repeated {state : ProcessTransactionState α} {tx : SignedTransaction α}
    {old : AuthoritySignInfo α} (hepoch : tx.authSig.epoch = committee.epoch)
    (hlookup : state.txSignatures.data.lookup tx.authSig.authority = some old) :
    handleTransactionResponseWithSigned committee state tx =
      (state, (.error (.aggregator (.stakeAggregatorRepeatedSigner tx.authSig.authority (decide (old ≠ tx.authSig)))) :
        Except (IotaError α) (Option (ProcessTransactionResult α Event)))) := by
  have hinsert : state.txSignatures.insert committee tx.envelope = _ :=
    StakeAggregator.insert_of_lookup_eq_some committee hepoch hlookup
  rw [handleTransactionResponseWithSigned, hinsert]
  rfl

omit [DecidableEq α] in
theorem recordError_of_nonRetryable {state : ProcessTransactionState α} {name : α} {weight : ℕ} {err : IotaError α}
    (hnf : err.isObjectOrPackageNotFound = false) (hov : err.isOverload = false) (hro : err.isRetryableOverload = false)
    (hr : err.isRetryable.1 = false) (hconflict : ∀ objRef transaction, err ≠ .objectLockConflict objRef transaction) :
    recordError state name weight err =
      { state with
        nonRetryableStake := state.nonRetryableStake + weight
        errors := state.errors ++ [(err, [name], weight)] } := by
  have hrecord : state.recordConflictingTransactionIfAny name weight err = (state, false) := by
    cases err with
    | objectLockConflict objRef transaction => exact absurd rfl (hconflict objRef transaction)
    | _ => rfl
  simp [recordError, hnf, hov, hro, hr, hrecord]

theorem processTransactionReduce_of_ok_none {state state' : ProcessTransactionState α} {name : α} {weight : ℕ}
    {response : Except (IotaError α) (PlainTransactionInfoResponse α Event)}
    (h : handleProcessTransactionResponse committee state response = (state', .ok none)) :
    processTransactionReduce committee state name weight response = checkExit state' := by
  rw [processTransactionReduce, h]

theorem processTransactionReduce_of_error {state state' : ProcessTransactionState α} {name : α} {weight : ℕ}
    {response : Except (IotaError α) (PlainTransactionInfoResponse α Event)} {err : IotaError α}
    (h : handleProcessTransactionResponse committee state response = (state', .error err)) :
    processTransactionReduce committee state name weight response = checkExit (recordError state' name weight err) := by
  rw [processTransactionReduce, h]

/-- A validator can pass on the signature of another: `SafeClient` checks only
its epoch. The signer's weight is counted in `tx_signatures`, and when the
signer then answers with its own signature it fails as a repeated signer, an
error no bucket is named for: the same weight is counted again in
`non_retryable_stake`. -/
theorem forwardedSignature_countedTwice (committeeAt : ℕ → Option (Committee α))
    (hcommittee : committeeAt committee.epoch = some committee) (sender signer : α) (digest : ℕ)
    (sig : AuthoritySignInfo α) (hsigner : sig.authority = signer) (hepoch : sig.epoch = committee.epoch)
    (hw : 0 < committee.weight signer) (hq : committee.weight signer < QUORUM_THRESHOLD) :
    ∃ state₁ state₂,
      processTransactionReduce committee .initial sender (committee.weight sender)
          (checkTransactionInfo committeeAt sender digest (.signed sig : TransactionStatus α Event)) = .continue state₁ ∧
      (processTransactionReduce committee state₁ signer (committee.weight signer)
          (checkTransactionInfo committeeAt signer digest (.signed sig : TransactionStatus α Event)) = .continue state₂ ∨
        processTransactionReduce committee state₁ signer (committee.weight signer)
          (checkTransactionInfo committeeAt signer digest (.signed sig : TransactionStatus α Event)) = .failed state₂) ∧
      state₂.txSignatures.data = [(signer, sig)] ∧ state₂.txSignatures.totalVotes = committee.weight signer ∧
      state₂.nonRetryableStake = committee.weight signer := by
  subst hsigner
  have hc : committeeAt sig.epoch = some committee := hepoch ▸ hcommittee
  have hQ : QUORUM_THRESHOLD ≤ TOTAL_VOTING_POWER := by decide
  -- the sender's answer: the signature is counted under its signer
  let state₁ : ProcessTransactionState α :=
    { ProcessTransactionState.initial with
      txSignatures := ⟨(initial : ProcessTransactionState α).txSignatures.data ++ [(sig.authority, sig)],
        (initial : ProcessTransactionState α).txSignatures.totalVotes + committee.weight sig.authority⟩ }
  have hcounted : state₁.countedStake = committee.weight sig.authority := by
    simp [state₁, countedStake, initial, StakeAggregator.new, MultiStakeAggregator.totalVotes]
  have hvotes : max (max state₁.txSignatures.totalVotes state₁.effectsMap.totalVotes)
      state₁.mostStakedConflictingTxStake = committee.weight sig.authority := by
    simp [state₁, initial, StakeAggregator.new, MultiStakeAggregator.totalVotes]
  have hhandle₁ : handleProcessTransactionResponse committee .initial
      (.ok (.signed ⟨digest, sig⟩ : PlainTransactionInfoResponse α Event)) = (state₁, .ok none) :=
    @handleTransactionResponseWithSigned_of_fresh α Event _ committee .initial ⟨digest, sig⟩
      (StakeAggregator.tallied_new committee) hepoch rfl hw (by simpa [initial, StakeAggregator.new] using hq)
  have hstep₁ : processTransactionReduce committee .initial sender (committee.weight sender)
      (checkTransactionInfo committeeAt sender digest (.signed sig : TransactionStatus α Event)) = .continue state₁ := by
    rw [checkTransactionInfo_signed committeeAt hc, processTransactionReduce_of_ok_none committee hhandle₁]
    exact checkExit_eq_continue (by omega) (by omega) (by omega) (show 0 < VALIDITY_THRESHOLD by decide)
      (show 0 < QUORUM_THRESHOLD by decide) (show 0 < QUORUM_THRESHOLD by decide)
  -- the signer's own answer: a repeated signer, counted as non-retryable
  let state₂ : ProcessTransactionState α :=
    { state₁ with
      nonRetryableStake := state₁.nonRetryableStake + committee.weight sig.authority
      errors := state₁.errors ++ [(.aggregator (.stakeAggregatorRepeatedSigner sig.authority (decide (sig ≠ sig))),
        [sig.authority], committee.weight sig.authority)] }
  have hhandle₂ : handleProcessTransactionResponse committee state₁
      (.ok (.signed ⟨digest, sig⟩ : PlainTransactionInfoResponse α Event)) =
        (state₁, .error (.aggregator (.stakeAggregatorRepeatedSigner sig.authority (decide (sig ≠ sig))))) :=
    @handleTransactionResponseWithSigned_of_repeated α Event _ committee state₁ ⟨digest, sig⟩ sig hepoch
      (by simp [state₁, initial, StakeAggregator.new])
  have hstep₂ : processTransactionReduce committee state₁ sig.authority (committee.weight sig.authority)
      (checkTransactionInfo committeeAt sig.authority digest (.signed sig : TransactionStatus α Event)) =
        checkExit state₂ := by
    rw [checkTransactionInfo_signed committeeAt hc, processTransactionReduce_of_error committee hhandle₂,
      recordError_of_nonRetryable rfl rfl rfl rfl (by simp)]
  have hfields : state₂.txSignatures.data = [(sig.authority, sig)] ∧
      state₂.txSignatures.totalVotes = committee.weight sig.authority ∧
      state₂.nonRetryableStake = committee.weight sig.authority := by
    simp [state₂, state₁, initial, StakeAggregator.new]
  rcases checkExit_eq state₂ with hexit | hexit
  · exact ⟨state₁, state₂, hstep₁, .inl (hstep₂.trans hexit), hfields⟩
  · exact ⟨state₁, { state₂ with retryable := false }, hstep₁, .inr (hstep₂.trans hexit), hfields⟩

end Forwarded

/-- Four validators, the last with a third of the others' weight. -/
def unequalCommittee : Committee (Fin 4) :=
  ⟨0, fun a => if a.val < 3 then 3000 else 1000, fun a => some a.val, fun _ h => absurd h (Option.some_ne_none _)⟩

def unequalCommitteeAt (epoch : ℕ) : Option (Committee (Fin 4)) :=
  if epoch = unequalCommittee.epoch then some unequalCommittee else none

/-- What the safe client of validator `v` returns when `v` sends the signature of `signer`. -/
def forwardedResponse (v signer : Fin 4) : Except (IotaError (Fin 4)) (PlainTransactionInfoResponse (Fin 4) Unit) :=
  checkTransactionInfo unequalCommitteeAt v 7 (.signed ⟨0, signer, true⟩)

/-- Validators 3 and 1 pass on the signatures of 0 and 2, which then answer with their own. -/
def forwardedResponses : List (Fin 4 × Except (IotaError (Fin 4)) (PlainTransactionInfoResponse (Fin 4) Unit)) :=
  [(3, forwardedResponse 3 0), (0, forwardedResponse 0 0), (1, forwardedResponse 1 2), (2, forwardedResponse 2 2)]

/-- Three of four validators of equal weight cannot find an input object. -/
def objectNotFoundResponses : List (Fin 4 × Except (IotaError (Fin 4)) (PlainTransactionInfoResponse (Fin 4) Unit)) :=
  [(0, .error (.userInput .objectNotFound)), (1, .error (.userInput .objectNotFound)),
    (2, .error (.userInput .objectNotFound))]

theorem forwardedSignature_countedTwice_unequalCommittee :
    (∃ state₁ state₂,
      processTransactionReduce unequalCommittee .initial 3 1000 (forwardedResponse 3 0) = .continue state₁ ∧
      (processTransactionReduce unequalCommittee state₁ 0 3000 (forwardedResponse 0 0) = .continue state₂ ∨
        processTransactionReduce unequalCommittee state₁ 0 3000 (forwardedResponse 0 0) = .failed state₂) ∧
      state₂.txSignatures.data = [(0, ⟨0, 0, true⟩)] ∧ state₂.txSignatures.totalVotes = 3000 ∧
      state₂.nonRetryableStake = 3000) ∧
    (∃ state₁ state₂ state₃ state₄,
      processTransactionReduce unequalCommittee .initial 3 1000 (forwardedResponse 3 0) = .continue state₁ ∧
      processTransactionReduce unequalCommittee state₁ 0 3000 (forwardedResponse 0 0) = .continue state₂ ∧
      processTransactionReduce unequalCommittee state₂ 1 3000 (forwardedResponse 1 2) = .continue state₃ ∧
      processTransactionReduce unequalCommittee state₃ 2 3000 (forwardedResponse 2 2) = .failed state₄ ∧
      state₄.countedStake = 12000 ∧ state₄.getRetryableStake.toNat = 2 ^ 64 - 2000) ∧
    (∃ errors, processTransaction unequalCommittee forwardedResponses = .error (.fatalTransaction errors)) ∧
    ∃ errors, processTransaction AuthorityAggregator.fourValidators objectNotFoundResponses =
      .error (.fatalTransaction errors) :=
  ⟨forwardedSignature_countedTwice unequalCommittee unequalCommitteeAt rfl 3 0 7 ⟨0, 0, true⟩ rfl rfl (by decide)
      (by decide),
    ⟨_, _, _, _, rfl, rfl, rfl, rfl, rfl, by decide⟩, ⟨_, rfl⟩, _, rfl⟩

end Iota.Core.ProcessTransaction
