import Iota.Consensus.ConsensusStore
import Iota.Lib.Except
import Iota.Lib.StepRun

/-! The commit side of `DagState` (`consensus/core/src/dag_state.rs`), the linearizer's
use of it (`linearizer.rs`) and the commit observer (`commit_observer.rs`): accepting
blocks into the cache, committing sub-dags and buffering the commits, flushing the
buffers to the store and evicting the cache, and `DagState::new`, which rebuilds all of
it from the store after a restart.

The cache `recent_blocks` keeps each block with its committed flag; the references by
authority that `recent_refs_by_authority` indexes are its keys.  The threshold clock,
the highest accepted round, the pending commit votes, the evicted rounds and the
scoring sub-dags are not read by any modelled function.  The linearizer's walk over
the DAG is given by the blocks it collects, the leader first: what `DagState` sees of
it is the committed flag of each (V2) and the GC check. -/

namespace Iota.Consensus

open Iota.Lib

/-- What `DagState` reads of its context: the committee size, its own authority, the
GC depth, the cached rounds and whether the V2 linearizer is on. -/
structure DagContext where
  numAuthorities : ℕ
  ownIndex : ℕ
  gcDepth : ℕ
  cachedRounds : ℕ
  linearizeSubdagV2 : Bool
  deriving DecidableEq, Repr

/-- `BlockInfo`, an entry of `recent_blocks`. -/
structure BlockInfo where
  block : VerifiedBlock
  committed : Bool
  deriving DecidableEq

abbrev RecentBlocks := AList fun _ : BlockRef => BlockInfo

/-- The fields of `DagState` that commits, flushes and recovery read and write.  A
per-authority vector is a function on authorities; an index beyond the committee is
the panic the modelled functions check for. -/
structure DagCommitState where
  context : DagContext
  recentBlocks : RecentBlocks
  lastCommit : Option TrustedCommit
  lastCommittedRounds : ℕ → ℕ
  blocksToWrite : List VerifiedBlock
  commitsToWrite : List TrustedCommit
  commitInfoToWrite : List (CommitRef × CommitInfo)
  store : ConsensusStore

namespace DagCommitState

/-- `eviction_round`. -/
def evictionRound (commitRound cachedRounds : ℕ) : ℕ := commitRound - cachedRounds

/-- `gc_eviction_round`: keep `cached_rounds` of the latest rounds, and no more than
what is above the GC round. -/
def gcEvictionRound (lastRound gcRound cachedRounds : ℕ) : ℕ := min gcRound (lastRound - cachedRounds)

/-- Raising the committed round of each block's author, as `add_commit` and `new` do. -/
def updateCommittedRounds (numAuthorities : ℕ) (rounds : ℕ → ℕ) (refs : List BlockRef) :
    Except CommitPanic (ℕ → ℕ) :=
  refs.foldlM (fun rounds r =>
    if r.author < numAuthorities then .ok (Function.update rounds r.author (max (rounds r.author) r.round))
    else .error (.authorityOutOfRange r.author)) rounds

variable (s : DagCommitState)

def gcEnabled : Bool := decide (0 < s.context.gcDepth)

def lastCommitIndex : ℕ :=
  match s.lastCommit with
  | some c => c.index
  | none => GENESIS_COMMIT_INDEX

/-- `CommitDigest::MIN` without a commit. -/
def lastCommitDigest : ℕ :=
  match s.lastCommit with
  | some c => c.digest
  | none => 0

def lastCommitTimestampMs : ℕ :=
  match s.lastCommit with
  | some c => c.timestampMs
  | none => 0

def lastCommitRound : ℕ :=
  match s.lastCommit with
  | some c => c.leader.round
  | none => GENESIS_ROUND

def calculateGcRound (commitRound : ℕ) : ℕ :=
  if 0 < s.context.gcDepth then commitRound - s.context.gcDepth else GENESIS_ROUND

def gcRound : ℕ := s.calculateGcRound s.lastCommitRound

/-- The highest cached round of the authority: the round of the last key of
`recent_refs_by_authority[authority]`. -/
def lastCachedRound (author : ℕ) : Option ℕ :=
  ((s.recentBlocks.keys.filter (·.author = author)).map (·.round)).max?

def calculateAuthorityEvictionRound (author : ℕ) : ℕ :=
  if s.gcEnabled then gcEvictionRound ((s.lastCachedRound author).getD GENESIS_ROUND) s.gcRound s.context.cachedRounds
  else evictionRound (s.lastCommittedRounds author) s.context.cachedRounds

/-- `contains_blocks` for one reference: the cache; then nothing, if the author's cached
references end below it; then the store. -/
def containsBlock (r : BlockRef) : Bool :=
  if (s.recentBlocks.lookup r).isSome then true
  else
    match s.lastCachedRound r.author with
    | none => false
    | some last => if last < r.round then false else s.store.containsBlock r

/-- `get_blocks` for one reference: the cache, then the store. -/
def getBlock (r : BlockRef) : Option VerifiedBlock :=
  match s.recentBlocks.lookup r with
  | some info => some info.block
  | none => s.store.readBlock r

def getUncommittedBlocksAtSlot (slot : Slot) : List VerifiedBlock :=
  (s.recentBlocks.entries.filter fun e => Slot.ofRef e.1 = slot ∧ !e.2.committed).map (·.2.block)

def updateBlockMetadata (b : VerifiedBlock) : DagCommitState :=
  { s with recentBlocks := s.recentBlocks.insert b.reference ⟨b, false⟩ }

/-- `accept_block` at local time `nowMs`.  The authority indexes the per-authority
references before anything else is read. -/
def acceptBlock (nowMs : ℕ) (b : VerifiedBlock) : Except CommitPanic DagCommitState :=
  if b.round = GENESIS_ROUND then .error .genesisAccepted
  else if s.context.numAuthorities ≤ b.author then .error (.authorityOutOfRange b.author)
  else if s.containsBlock b.reference then .ok s
  else if nowMs < b.timestampMs then .error (.blockTimestampInFuture b.reference)
  else if b.author = s.context.ownIndex ∧ s.getUncommittedBlocksAtSlot b.slot ≠ [] then
    .error (.ownSlotOccupied b.reference)
  else .ok { s.updateBlockMetadata b with blocksToWrite := s.blocksToWrite ++ [b] }

def acceptBlocks (nowMs : ℕ) (bs : List VerifiedBlock) : Except CommitPanic DagCommitState :=
  bs.foldlM (fun s b => s.acceptBlock nowMs b) s

/-- `set_committed`: whether the block was set as committed for the first time. -/
def setCommitted (r : BlockRef) : Except CommitPanic (DagCommitState × Bool) :=
  match s.recentBlocks.lookup r with
  | some info =>
    if info.committed then .ok (s, false)
    else .ok ({ s with recentBlocks := s.recentBlocks.insert r { info with committed := true } }, true)
  | none => .error (.notFoundInCache r)

/-- `assert!(set_committed(block_ref))`, with the panic of the call site. -/
def setCommittedOrPanic (panic : BlockRef → CommitPanic) (r : BlockRef) : Except CommitPanic DagCommitState := do
  let (s', fresh) ← s.setCommitted r
  if fresh then pure s' else .error (panic r)

/-- The end of `add_commit`, once the index and timestamp are checked. -/
def appendCommit (commit : TrustedCommit) : Except CommitPanic DagCommitState := do
  let rounds ← updateCommittedRounds s.context.numAuthorities s.lastCommittedRounds commit.blocks
  pure { s with lastCommit := some commit, lastCommittedRounds := rounds, commitsToWrite := s.commitsToWrite ++ [commit] }

/-- `add_commit`.  A commit at or below the last index is logged and dropped. -/
def addCommit (commit : TrustedCommit) : Except CommitPanic DagCommitState :=
  match s.lastCommit with
  | some last =>
    if commit.index ≤ last.index then .ok s
    else if commit.index ≠ last.index + 1 then .error (.commitIndexNotNext commit.index last.index)
    else if commit.timestampMs < last.timestampMs then .error (.commitTimestampDecreased commit.index)
    else s.appendCommit commit
  | none => if commit.index ≠ 1 then .error (.commitIndexNotNext commit.index 0) else s.appendCommit commit

/-- `add_commit_info`.  The scores are not read by recovery, and the asserts that the
scoring sub-dags were taken concern the leader schedule. -/
def addCommitInfo : Except CommitPanic DagCommitState :=
  match s.lastCommit with
  | some last => .ok { s with commitInfoToWrite := s.commitInfoToWrite ++ [(last.reference, ⟨s.lastCommittedRounds⟩)] }
  | none => .error .lastCommitNotSet

/-- The cache without the references at or below their authority's eviction round. -/
def evictedRecentBlocks : RecentBlocks :=
  (s.recentBlocks.keys.filter fun r =>
    decide (r.author < s.context.numAuthorities ∧ r.round ≤ s.calculateAuthorityEvictionRound r.author)).foldl
    (fun m r => m.erase r) s.recentBlocks

/-- `flush`: the buffers are taken even when nothing is written. -/
def flush : DagCommitState :=
  if s.blocksToWrite = [] ∧ s.commitsToWrite = [] then
    { s with blocksToWrite := [], commitsToWrite := [], commitInfoToWrite := [] }
  else
    { s with
      store := s.store.write s.blocksToWrite s.commitsToWrite s.commitInfoToWrite
      blocksToWrite := []
      commitsToWrite := []
      commitInfoToWrite := []
      recentBlocks := s.evictedRecentBlocks }

/-! ### `DagState::new` -/

/-- The cached blocks of one authority after a restart: those above its eviction round. -/
def recoverAuthorityBlocks (i : ℕ) : Except CommitPanic DagCommitState := do
  let evictionRound ← if s.gcEnabled then
      match s.store.scanLastBlocksByAuthor i 1 none with
      | some lastBlock =>
        pure (gcEvictionRound ((lastBlock.getLast?.map (·.round)).getD GENESIS_ROUND) s.gcRound s.context.cachedRounds)
      | none => .error .storageInconsistency
    else pure (evictionRound (s.lastCommittedRounds i) s.context.cachedRounds)
  pure ((s.store.scanBlocksByAuthor i (evictionRound + 1)).foldl updateBlockMetadata s)

/-- The loop of `new` that marks committed blocks, from commit `index` back to the
first commit whose leader is at or below the GC round (when that is above genesis). -/
def recoverCommitStatuses (gcRound : ℕ) : ℕ → DagCommitState → Except CommitPanic DagCommitState
  | index, s =>
    match (s.store.scanCommits index index).head? with
    | none => .ok s
    | some commit =>
      if 0 < gcRound ∧ commit.leader.round ≤ gcRound then .ok s
      else do
        let s ← (commit.blocks.filter (gcRound < ·.round)).foldlM
          (fun s r => s.setCommittedOrPanic .recoveredCommittedTwice r) s
        -- `index.saturating_sub(1)`, and stop at zero
        match index with
        | 0 | 1 => pure s
        | k + 2 => recoverCommitStatuses gcRound (k + 1) s

/-- The committed rounds of `new`: those of the last commit info, raised by the
commits after it, each of which is also loaded as a sub-dag. -/
def recoverCommittedRounds (context : DagContext) (store : ConsensusStore) : Except CommitPanic (ℕ → ℕ) := do
  let (rounds, commitRecoveryStartIndex) :=
    match store.readLastCommitInfo with
    | some (commitRef, commitInfo) => (commitInfo.committedRounds, commitRef.index + 1)
    | none => (fun _ => 0, GENESIS_COMMIT_INDEX + 1)
  match store.readLastCommit with
  | some lastCommit =>
    (store.scanCommits commitRecoveryStartIndex lastCommit.index).foldlM (fun rounds commit => do
      let rounds ← updateCommittedRounds context.numAuthorities rounds commit.blocks
      let _ ← loadCommittedSubdagFromStore store commit []
      pure rounds) rounds
  | none => pure rounds

/-- `DagState::new`. -/
def new (context : DagContext) (store : ConsensusStore) : Except CommitPanic DagCommitState := do
  let rounds ← recoverCommittedRounds context store
  let state : DagCommitState := ⟨context, ∅, store.readLastCommit, rounds, [], [], [], store⟩
  let state ← (List.range context.numAuthorities).foldlM (fun state i => state.recoverAuthorityBlocks i) state
  if state.gcEnabled then
    match store.readLastCommit with
    | some lastCommit => recoverCommitStatuses state.gcRound lastCommit.index state
    | none => pure state
  else pure state

end DagCommitState

/-! ### The linearizer and the commit observer -/

namespace Linearizer

/-- What `linearize_sub_dag` does to `DagState` for the blocks it collects, the leader
first: V2 sets each as committed and asserts it was not yet, V1 asserts the same of a
local set; with GC on, none may be at or below the GC round.  The blocks are then
sorted. -/
def linearizeSubDag (dagState : DagCommitState) (toCommit : List VerifiedBlock) :
    Except CommitPanic (DagCommitState × List VerifiedBlock) := do
  if dagState.context.linearizeSubdagV2 ∧ ¬ 0 < dagState.context.gcDepth then .error .linearizeV2WithoutGc
  let gcRound := dagState.gcRound
  let dagState ← if dagState.context.linearizeSubdagV2 then
      (toCommit.map (·.reference)).foldlM (fun dagState r => dagState.setCommittedOrPanic .committedTwice r) dagState
    else do
      let _ ← toCommit.foldlM (fun (committed : List BlockRef) b =>
        if b.reference ∈ committed then .error (.committedTwice b.reference) else .ok (b.reference :: committed)) []
      pure dagState
  if dagState.gcEnabled then
    match toCommit.find? (·.round ≤ gcRound) with
    | some b => .error (.committedBelowGcRound b.reference)
    | none => pure ()
  pure (dagState, sortSubDagBlocks toCommit)

/-- `collect_sub_dag_and_commit`, for the leader and the ancestors the walk from it
collects.  The digest of the serialized commit is given. -/
def collectSubDagAndCommit (dagState : DagCommitState) (leader : VerifiedBlock) (ancestors : List VerifiedBlock)
    (digest : ℕ) (reputationScoresDesc : List (ℕ × ℕ)) :
    Except CommitPanic (DagCommitState × CommittedSubDag × TrustedCommit) := do
  let timestampMs := max leader.timestampMs dagState.lastCommitTimestampMs
  let (dagState', toCommit) ← linearizeSubDag dagState (leader :: ancestors)
  let commit : TrustedCommit :=
    ⟨dagState.lastCommitIndex + 1, dagState.lastCommitDigest, timestampMs, leader.reference,
      toCommit.map (·.reference), digest⟩
  pure (dagState', ⟨leader.reference, toCommit, timestampMs, commit.reference, reputationScoresDesc⟩, commit)

/-- The loop of `handle_commit` over the committed leaders, each with the ancestors its
walk collects and its commit's digest; the first sub-dag carries the scores. -/
def handleCommitLoop : List (VerifiedBlock × List VerifiedBlock × ℕ) → List (ℕ × ℕ) → DagCommitState →
    Except CommitPanic (DagCommitState × List (TrustedCommit × CommittedSubDag))
  | [], _, dagState => .ok (dagState, [])
  | (leader, ancestors, digest) :: leaders, scores, dagState => do
    let (dagState, subDag, commit) ← collectSubDagAndCommit dagState leader ancestors digest scores
    let dagState ← dagState.addCommit commit
    let (dagState, rest) ← handleCommitLoop leaders [] dagState
    pure (dagState, (commit, subDag) :: rest)

/-- `handle_commit`: the commits are buffered in `DagState` and flushed before the
sub-dags are returned. -/
def handleCommit (dagState : DagCommitState) (leaders : List (VerifiedBlock × List VerifiedBlock × ℕ))
    (reputationScoresDesc : List (ℕ × ℕ)) :
    Except CommitPanic (DagCommitState × List (TrustedCommit × CommittedSubDag)) := do
  if leaders = [] then return (dagState, [])
  let (dagState, produced) ← handleCommitLoop leaders reputationScoresDesc dagState
  pure (dagState.flush, produced)

end Linearizer

namespace CommitObserver

/-- The loop of `recover_and_send_commits` over the unsent commits: indices must
follow on, and the last one carries the current scores. -/
def sendUnsent (store : ConsensusStore) (reputationScoresDesc : List (ℕ × ℕ)) :
    ℕ → List TrustedCommit → Except CommitPanic (List CommittedSubDag)
  | _, [] => .ok []
  | lastSent, commit :: commits => do
    if commit.index ≠ lastSent + 1 then .error (.recoveredIndexNotNext commit.index lastSent)
    let subDag ← loadCommittedSubdagFromStore store commit (if commits = [] then reputationScoresDesc else [])
    let rest ← sendUnsent store reputationScoresDesc (lastSent + 1) commits
    pure (subDag :: rest)

/-- `recover_and_send_commits`: the sub-dags it sends, in order.  Every commit index
is below `CommitIndex::MAX`, so the scan to it is a scan to the end. -/
def recoverAndSendCommits (store : ConsensusStore) (lastProcessedCommitIndex : ℕ)
    (reputationScoresDesc : List (ℕ × ℕ)) : Except CommitPanic (List CommittedSubDag) :=
  let unsent := store.commits.filter (lastProcessedCommitIndex + 1 ≤ ·.index)
  match store.readLastCommit with
  | some lastCommit =>
    if lastCommit.index < lastProcessedCommitIndex then
      .error (.lastCommitBelowProcessed lastCommit.index lastProcessedCommitIndex)
    else if lastCommit.index = lastProcessedCommitIndex then .ok []
    else sendUnsent store reputationScoresDesc lastProcessedCommitIndex unsent
  | none => sendUnsent store reputationScoresDesc lastProcessedCommitIndex unsent

end CommitObserver

/-! ### A consensus node across restarts -/

/-- What happens at a node: blocks accepted by the block manager at the local time,
leaders decided by the committer and handed to `CommitObserver::handle_commit`, a
commit info written for the leader schedule, a flush, and a crash followed by a restart
with the consumer's last processed commit index and the scores of the leader schedule. -/
inductive NodeOp
  | acceptBlocks (nowMs : ℕ) (blocks : List VerifiedBlock)
  | handleCommit (leaders : List (VerifiedBlock × List VerifiedBlock × ℕ)) (reputationScoresDesc : List (ℕ × ℕ))
  | addCommitInfo
  | flush
  | restart (lastProcessedCommitIndex : ℕ) (reputationScoresDesc : List (ℕ × ℕ))

/-- What the consumer sees: a sub-dag sent by `handle_commit` with the commit it was made
with, a restart with its last processed index, and a sub-dag sent by recovery. -/
inductive NodeEvent
  | committed (commit : TrustedCommit) (subDag : CommittedSubDag)
  | restarted (lastProcessedCommitIndex : ℕ)
  | recovered (subDag : CommittedSubDag)

/-- One operation at the node; a restart keeps the store only. -/
def nodeStep (dagState : DagCommitState) : NodeOp → Except CommitPanic (DagCommitState × List NodeEvent)
  | .acceptBlocks nowMs blocks => do
    let dagState ← dagState.acceptBlocks nowMs blocks
    pure (dagState, [])
  | .handleCommit leaders scores => do
    let (dagState, produced) ← Linearizer.handleCommit dagState leaders scores
    pure (dagState, produced.map fun p => .committed p.1 p.2)
  | .addCommitInfo => do
    let dagState ← dagState.addCommitInfo
    pure (dagState, [])
  | .flush => .ok (dagState.flush, [])
  | .restart lastProcessed scores => do
    let recovered ← DagCommitState.new dagState.context dagState.store
    let sent ← CommitObserver.recoverAndSendCommits dagState.store lastProcessed scores
    pure (recovered, .restarted lastProcessed :: sent.map .recovered)

/-- The node over a sequence of operations, with all the events the consumer sees. -/
def nodeRun (dagState : DagCommitState) (ops : List NodeOp) : Except CommitPanic (DagCommitState × List NodeEvent) :=
  runSteps nodeStep dagState ops

end Iota.Consensus
