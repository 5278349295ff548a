import Mathlib
import Iota.Consensus.StoreScan
import Iota.Consensus.Commit

/-! Commits, committed sub-dags and the consensus store (`consensus/core/src/commit.rs`,
`consensus/core/src/storage`).  The store keeps blocks under their references, commits
under their indices and commit infos under their commit references; a `WriteBatch`
adds to all three at once.  Commits and commit infos are written in increasing key
order (`DagState::add_commit` asserts that indices are consecutive), so appending keeps
each column in key order and the scans read it front to back. -/

namespace Iota.Consensus

/-- `TrustedCommit`: the fields of `CommitV1`, with the digest of its serialized bytes
that `TrustedCommit::new_trusted` computes. -/
structure TrustedCommit where
  index : ℕ
  previousDigest : ℕ
  timestampMs : ℕ
  leader : BlockRef
  /-- The committed blocks, in commit order. -/
  blocks : List BlockRef
  digest : ℕ
  deriving DecidableEq, Repr

namespace TrustedCommit

def round (c : TrustedCommit) : ℕ := c.leader.round

def reference (c : TrustedCommit) : CommitRef := ⟨c.index, c.digest⟩

@[simp] theorem reference_index (c : TrustedCommit) : c.reference.index = c.index := rfl

end TrustedCommit

/-- `CommitInfo`: the committed round of every authority when it was written.  The
reputation scores it also holds are not read by recovery. -/
structure CommitInfo where
  committedRounds : ℕ → ℕ

/-- `CommittedSubDag`, what consensus hands to execution. -/
structure CommittedSubDag where
  leader : BlockRef
  blocks : List VerifiedBlock
  timestampMs : ℕ
  commitRef : CommitRef
  reputationScoresDesc : List (ℕ × ℕ)
  deriving DecidableEq

/-- `sort_sub_dag_blocks`: a stable sort by round, then authority. -/
def sortSubDagBlocks (blocks : List VerifiedBlock) : List VerifiedBlock :=
  blocks.mergeSort fun a b => decide (toLex (a.round, a.author) ≤ toLex (b.round, b.author))

theorem sortSubDagBlocks_singleton (b : VerifiedBlock) : sortSubDagBlocks [b] = [b] :=
  List.mergeSort_singleton b

/-- The panics of the modelled commit and recovery code, one constructor per site. -/
inductive CommitPanic
  /-- `DagState::accept_block`: "Genesis block should not be accepted into DAG." -/
  | genesisAccepted
  /-- `DagState::accept_block`: "Block {:?} cannot be accepted! Block timestamp {} is greater
  than local timestamp {}." -/
  | blockTimestampInFuture (block : BlockRef)
  /-- `DagState::accept_block`: "Block Rejected! Attempted to add block {block:#?} to own slot
  where block(s) {existing_blocks:#?} already exists." -/
  | ownSlotOccupied (block : BlockRef)
  /-- Indexing a per-authority vector of committee size with an authority beyond it. -/
  | authorityOutOfRange (authority : ℕ)
  /-- `DagState::set_committed`: "Block {:?} not found in cache to set as committed." -/
  | notFoundInCache (block : BlockRef)
  /-- `DagState::add_commit`: the `assert_eq!` that indices are consecutive. -/
  | commitIndexNotNext (index lastIndex : ℕ)
  /-- `DagState::add_commit`: "Commit timestamps do not monotonically increment, prev commit
  {:?}, new commit {:?}". -/
  | commitTimestampDecreased (index : ℕ)
  /-- `DagState::add_commit_info`: "Last commit should already be set." -/
  | lastCommitNotSet
  /-- `Linearizer::linearize_sub_dag`: "Leader block with reference {:?} attempted to be
  committed twice" and "Block with reference {:?} attempted to be committed twice". -/
  | committedTwice (block : BlockRef)
  /-- `Linearizer::linearize_sub_dag`: "No blocks <= {gc_round} should be committed." -/
  | committedBelowGcRound (block : BlockRef)
  /-- `ProtocolConfig::consensus_linearize_subdag_v2`: "The consensus linearize sub dag V2
  requires GC to be enabled". -/
  | linearizeV2WithoutGc
  /-- `DagState::new`: "Attempted to set again a block {:?} as committed when recovering
  commit {:?}". -/
  | recoveredCommittedTwice (block : BlockRef)
  /-- `DagState::new`, `scan_last_blocks_by_author`: "Storage inconsistency". -/
  | storageInconsistency
  /-- `load_committed_subdag_from_store`: "We should have the block referenced in the commit
  data". -/
  | missingCommitBlock (block : BlockRef)
  /-- `load_committed_subdag_from_store`: "Leader block must be in the sub-dag". -/
  | leaderNotInSubDag (leader : BlockRef)
  /-- `CommitObserver::recover_and_send_commits`: `assert!(last_commit_index >=
  last_processed_commit_index)`. -/
  | lastCommitBelowProcessed (lastCommitIndex lastProcessedCommitIndex : ℕ)
  /-- `CommitObserver::recover_and_send_commits`: the `assert_eq!` that commit indices are
  continuous. -/
  | recoveredIndexNotNext (index lastSentIndex : ℕ)
  deriving DecidableEq, Repr

/-- The column families of the store that the modelled code reads. -/
structure ConsensusStore extends BlockStore where
  commits : List TrustedCommit
  commitInfo : List (CommitRef × CommitInfo)

namespace ConsensusStore

variable (store : ConsensusStore)

def empty : ConsensusStore := ⟨⟨[]⟩, [], []⟩

def readLastCommit : Option TrustedCommit := store.commits.getLast?

def readLastCommitInfo : Option (CommitRef × CommitInfo) := store.commitInfo.getLast?

/-- `scan_commits` over the inclusive range `start..=end`. -/
def scanCommits (start «end» : ℕ) : List TrustedCommit :=
  store.commits.filter fun c => start ≤ c.index ∧ c.index ≤ «end»

/-- `scan_blocks_by_author`: the author's blocks from `start_round` on. -/
def scanBlocksByAuthor (author startRound : ℕ) : List VerifiedBlock :=
  store.blocks.filter fun b => b.author = author ∧ startRound ≤ b.round

/-- `contains_blocks` for one reference. -/
def containsBlock (r : BlockRef) : Bool := store.blocks.any (·.reference = r)

/-- `write` of a `WriteBatch`. -/
def write (blocks : List VerifiedBlock) (commits : List TrustedCommit) (commitInfo : List (CommitRef × CommitInfo)) :
    ConsensusStore :=
  ⟨⟨store.blocks ++ blocks⟩, store.commits ++ commits, store.commitInfo ++ commitInfo⟩

@[simp] theorem write_blocks (blocks commits commitInfo) :
    (store.write blocks commits commitInfo).blocks = store.blocks ++ blocks := rfl

@[simp] theorem write_commits (blocks commits commitInfo) :
    (store.write blocks commits commitInfo).commits = store.commits ++ commits := rfl

@[simp] theorem write_commitInfo (blocks commits commitInfo) :
    (store.write blocks commits commitInfo).commitInfo = store.commitInfo ++ commitInfo := rfl

end ConsensusStore

/-- The leader's position among the blocks read, the last one that matches. -/
def leaderBlockIdx (leader : BlockRef) : List VerifiedBlock → Option ℕ → ℕ → Option ℕ
  | [], found, _ => found
  | b :: blocks, found, idx => leaderBlockIdx leader blocks (if b.reference = leader then some idx else found) (idx + 1)

/-- `load_committed_subdag_from_store`: the commit's blocks read back from the store in
commit order, with the commit's leader, timestamp and reference. -/
def loadCommittedSubdagFromStore (store : ConsensusStore) (commit : TrustedCommit)
    (reputationScoresDesc : List (ℕ × ℕ)) : Except CommitPanic CommittedSubDag := do
  let blocks ← commit.blocks.mapM fun r =>
    match store.readBlock r with
    | some b => .ok b
    | none => .error (.missingCommitBlock r)
  match leaderBlockIdx commit.leader blocks none 0 with
  | none => .error (.leaderNotInSubDag commit.leader)
  | some idx =>
    match blocks[idx]? with
    | some leaderBlock => .ok ⟨leaderBlock.reference, blocks, commit.timestampMs, commit.reference, reputationScoresDesc⟩
    | none => .error (.leaderNotInSubDag commit.leader)

end Iota.Consensus
