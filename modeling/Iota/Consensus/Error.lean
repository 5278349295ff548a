import Iota.Consensus.Block

/-! What can go wrong in the modelled consensus code: the `ConsensusError`s
(`consensus/core/src/error.rs`) the verifier returns, and the `panic!`,
`assert!` and `expect` sites the modelled functions can reach, one constructor
each, carrying the references the message prints. -/

namespace Iota.Consensus

/-- The variants of `ConsensusError` the block verifier returns, with the
fields of their messages.  Signature and transaction-validation failures carry
a library error whose text is not modelled. -/
inductive ConsensusError
  | wrongEpoch (expected actual : ℕ)
  | unexpectedGenesisBlock
  | invalidAuthorityIndex (index max : ℕ)
  | signatureVerificationFailure
  | tooManyAncestors (count size : ℕ)
  | insufficientParentStakes (parentStakes quorum : ℕ)
  | invalidAncestorPosition (blockAuthority ancestorAuthority position : ℕ)
  | invalidAncestorRound (ancestor block : ℕ)
  | invalidGenesisAncestor (ancestor : BlockRef)
  | duplicatedAncestorsAuthority (authority : ℕ)
  | transactionTooLarge (size limit : ℕ)
  | tooManyTransactions (count limit : ℕ)
  | tooManyTransactionBytes (size limit : ℕ)
  | invalidTransaction
  | invalidBlockTimestamp (maxTimestampMs blockTimestampMs : ℕ)
  deriving DecidableEq, Repr

inductive Panic
  /-- `DagState::accept_block`: "Genesis block should not be accepted into DAG." -/
  | genesisAccepted
  /-- `DagState::accept_block`: "Block {:?} cannot be accepted! Block timestamp {} is greater
  than local timestamp {}." -/
  | blockTimestampInFuture (block : BlockRef)
  /-- `DagState::accept_block`: "Block Rejected! Attempted to add block {block:#?} to own slot
  where block(s) {existing_blocks:#?} already exists." -/
  | ownSlotOccupied (block : BlockRef)
  /-- `SignedBlockVerifier::check_ancestors`, without GC: "There should never be an empty
  slot", and the `assert_eq!`s that the ancestors match the block's references. -/
  | emptyAncestorSlot (block : BlockRef)
  | ancestorsMismatch (block : BlockRef)
  /-- `BlockManager::try_unsuspend_block`: "Block should be in suspended map". -/
  | notInSuspendedMap (block : BlockRef)
  /-- `BlockManager::try_unsuspend_block`: "Block reference {} should be present in missing
  dependencies of {:?}". -/
  | notInMissingDependencies (block dependency : BlockRef)
  /-- `BlockManager::verify_block_timestamps_and_accept`: "Unsuspended block {:?} has a missing
  ancestor! Ancestor not found in DagState: {:?}". -/
  | unsuspendedMissingAncestor (block ancestor : BlockRef)
  /-- `BlockManager::try_accept_blocks_internal`: "Did not expect to suspend or skip a committed
  block: {:?}". -/
  | committedSuspendedOrSkipped (block : BlockRef)
  /-- `BlockManager::try_accept_committed_blocks`: "No missing blocks should be returned for
  committed blocks". -/
  | committedMissingBlocks
  /-- `BlockManager::try_unsuspend_blocks_for_latest_gc_round`: "Block should not be suspended,
  as we are causally GC'ing and no suspended block should exist for a missing ancestor." -/
  | gcMissingAncestorSuspended (block : BlockRef)
  deriving DecidableEq, Repr

/-- The two panics of `BlockManager::try_unsuspend_block`. -/
def Panic.fromTryUnsuspendBlock : Panic → Bool
  | .notInSuspendedMap _ | .notInMissingDependencies _ _ => true
  | _ => false

end Iota.Consensus
