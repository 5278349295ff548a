import Iota.Consensus.Commit
import Iota.Lib.Except

/-! The leader-schedule window of Core: `Core::try_commit` (`consensus/core/src/core.rs`),
`LeaderSchedule` (`leader_schedule.rs`), the commit range of `ScoringSubdag` and
`UnscoredSubdag` (`leader_scoring.rs`), and the parts of `DagState` (`dag_state.rs`)
that hold sub-dags for scoring, buffer and flush commits and `CommitInfo`s, and
recover them in `DagState::new`.  Committed sub-dags gather until
`num_commits_per_schedule` of them are held; the schedule then changes, and the
`CommitInfo` of the new scores is stored with the next flush.  A sub-dag is kept as its
commit index: its blocks, leader and votes only feed the scores, and of the scores only
their commit range is read here. -/

namespace Iota.Consensus

open Iota.Lib

/-- `LeaderSchedule::CONSENSUS_COMMITS_PER_SCHEDULE` outside simulation tests. -/
def CONSENSUS_COMMITS_PER_SCHEDULE : ℕ := 300

/-- The `assert!`s, `expect`s and `unwrap`s on the way of `try_commit` and of the recovery. -/
inductive SchedulePanic
  /-- `commits_until_leader_schedule_update`: "Committed subdags count exceeds the number of
  commits per schedule". -/
  | subdagCountExceeds
  /-- `try_commit`: `assert!(commits_until_update > 0)`. -/
  | noCommitsUntilUpdate
  /-- `try_decide_certified`: "limit should be greater than 0". -/
  | zeroLimit
  /-- `CommitRange::extend_to`: `assert!(self.0.end <= new_end)`. -/
  | extendBackwards
  /-- `calculate_distributed_vote_scores`: "CommitRange should be set if calculate_scores is called." -/
  | scoringRangeUnset
  /-- `ReputationScoreCalculator::new`: "Attempted to calculate scores with no unscored subdags". -/
  | noUnscoredSubdags
  /-- `UnscoredSubdag::new`: "Non-contiguous commit index". -/
  | nonContiguousCommitIndex
  /-- `add_commit_info`: `assert!(self.unscored_committed_subdags.is_empty())`. -/
  | unscoredNotEmpty
  /-- `add_commit_info`: `assert!(self.scoring_subdag.is_empty())`. -/
  | scoringNotEmpty
  /-- `add_commit_info`: "Last commit should already be set." -/
  | lastCommitUnset
  /-- `update_leader_swap_table`: "The new LeaderSwapTable has an invalid CommitRange". -/
  | invalidSwapTableRange (old new : CommitRange)
  deriving DecidableEq, Repr

/-- What the window reads of the protocol configuration and of `DagState`. -/
structure ScheduleConfig where
  consensusDistributedVoteScoringStrategy : Bool
  gcEnabled : Bool

/-- The commits and `CommitInfo`s of the store, in the order they were written.  A
`CommitInfo` is kept as the index of the commit it is keyed by and the commit range of
its reputation scores. -/
structure ScheduleStore where
  commits : List ℕ
  commitInfo : List (ℕ × CommitRange)

structure CoreSchedule where
  lastCommit : Option ℕ
  /-- `scoring_subdag.commit_range`. -/
  scoringSubdag : Option CommitRange
  unscoredCommittedSubdags : List ℕ
  blocksToWrite : ℕ
  commitsToWrite : List ℕ
  commitInfoToWrite : List (ℕ × CommitRange)
  /-- The commit range of `leader_swap_table.reputation_scores`; `none` is
  `CommitRange::default()`, the range `0..0` that no range of a score is. -/
  swapTableRange : Option CommitRange
  store : ScheduleStore

namespace CoreSchedule

variable (cfg : ScheduleConfig)

def lastCommitIndex (s : CoreSchedule) : ℕ := s.lastCommit.getD GENESIS_COMMIT_INDEX

/-- `ScoringSubdag::scored_subdags_count`. -/
def scoredSubdagsCount (s : CoreSchedule) : ℕ :=
  match s.scoringSubdag with
  | some range => range.size
  | none => 0

/-- The sub-dags held for scoring, as `commits_until_leader_schedule_update` counts them. -/
def subdagCount (s : CoreSchedule) : ℕ :=
  if cfg.consensusDistributedVoteScoringStrategy then s.scoredSubdagsCount
  else s.unscoredCommittedSubdags.length

def commitsUntilLeaderScheduleUpdate (s : CoreSchedule) : Except SchedulePanic ℕ :=
  if s.subdagCount cfg ≤ CONSENSUS_COMMITS_PER_SCHEDULE then
    .ok (CONSENSUS_COMMITS_PER_SCHEDULE - s.subdagCount cfg)
  else throw .subdagCountExceeds

/-- `ScoringSubdag::add_subdags` on the commit range: the first sub-dag opens it, each
next one extends it to its index. -/
def addSubdags : Option CommitRange → List ℕ → Except SchedulePanic (Option CommitRange)
  | range, [] => .ok range
  | none, index :: rest => addSubdags (some ⟨index, index⟩) rest
  | some range, index :: rest =>
    if index + 1 < range.end + 1 then throw .extendBackwards
    else addSubdags (some ⟨range.start, index⟩) rest

def addCommitInfo (scores : CommitRange) (s : CoreSchedule) : Except SchedulePanic CoreSchedule :=
  if !s.unscoredCommittedSubdags.isEmpty then throw .unscoredNotEmpty
  else if s.scoringSubdag.isSome then throw .scoringNotEmpty
  else
    match s.lastCommit with
    | none => throw .lastCommitUnset
    | some last => .ok { s with commitInfoToWrite := s.commitInfoToWrite ++ [(last, scores)] }

/-- Past the first table, each new one must be scored over the range right after the
old one's and of the same size. -/
def updateLeaderSwapTable (scores : CommitRange) (s : CoreSchedule) : Except SchedulePanic CoreSchedule :=
  match s.swapTableRange with
  | some old =>
    if old.isNextRange scores && old.isEqualSize scores then .ok { s with swapTableRange := some scores }
    else throw (.invalidSwapTableRange old scores)
  | none => .ok { s with swapTableRange := some scores }

def updateLeaderScheduleV2 (s : CoreSchedule) : Except SchedulePanic CoreSchedule :=
  match s.scoringSubdag with
  | none => throw .scoringRangeUnset
  | some scores => do
    let s ← ({ s with scoringSubdag := none } : CoreSchedule).addCommitInfo scores
    s.updateLeaderSwapTable scores

/-- The check of `UnscoredSubdag::new`: each sub-dag's index follows the one before. -/
def contiguous : List ℕ → Bool
  | a :: b :: rest => b == a + 1 && contiguous (b :: rest)
  | _ => true

def updateLeaderScheduleV1 (s : CoreSchedule) : Except SchedulePanic CoreSchedule :=
  let unscoredSubdags := s.unscoredCommittedSubdags
  let s := { s with unscoredCommittedSubdags := [] }
  match unscoredSubdags.head?, unscoredSubdags.getLast? with
  | some first, some last =>
    if !contiguous unscoredSubdags then throw .nonContiguousCommitIndex
    else do
      let s ← s.updateLeaderSwapTable ⟨first, last⟩
      s.addCommitInfo ⟨first, last⟩
  | _, _ => throw .noUnscoredSubdags

def updateLeaderSchedule (s : CoreSchedule) : Except SchedulePanic CoreSchedule :=
  if cfg.consensusDistributedVoteScoringStrategy then s.updateLeaderScheduleV2 else s.updateLeaderScheduleV1

/-- `DagState::flush`: the buffered commits and `CommitInfo`s go to the store, unless
there are neither blocks nor commits to write; then it returns early and the
`CommitInfo`s it has taken are lost. -/
def flush (s : CoreSchedule) : CoreSchedule :=
  let commits := s.commitsToWrite
  let commitInfo := s.commitInfoToWrite
  let s := { s with commitsToWrite := [], commitInfoToWrite := [] }
  if s.blocksToWrite = 0 ∧ commits = [] then s
  else { s with blocksToWrite := 0, store := ⟨s.store.commits ++ commits, s.store.commitInfo ++ commitInfo⟩ }

/-- `Linearizer::handle_commit` for `leaders` sequenced leaders: each gets the next commit
index and is buffered by `add_commit`, and everything is flushed.  The sub-dags come back
as their indices. -/
def handleCommit (leaders : ℕ) (s : CoreSchedule) : CoreSchedule × List ℕ :=
  let indices := List.range' (s.lastCommitIndex + 1) leaders
  ((({ s with
      lastCommit := indices.getLast?.or s.lastCommit
      commitsToWrite := s.commitsToWrite ++ indices } : CoreSchedule)).flush, indices)

/-- `add_scoring_subdags` or, without distributed vote scoring, `add_unscored_committed_subdags`. -/
def addCommittedSubdags (subdags : List ℕ) (s : CoreSchedule) : Except SchedulePanic CoreSchedule :=
  if cfg.consensusDistributedVoteScoringStrategy then do
    let range ← addSubdags s.scoringSubdag subdags
    return { s with scoringSubdag := range }
  else .ok { s with unscoredCommittedSubdags := s.unscoredCommittedSubdags ++ subdags }

/-- `try_decide_certified`: how many of the `certified` commits are decided, at most `limit`. -/
def tryDecideCertified (certified limit : ℕ) : Except SchedulePanic ℕ :=
  if !cfg.gcEnabled then .ok 0
  else if limit = 0 then throw .zeroLimit
  else .ok (min certified limit)

/-- The start of each round of `try_commit`: how many commits the schedule still
allows, after changing the schedule when none are left. -/
def commitsUntilUpdate (s : CoreSchedule) : Except SchedulePanic (CoreSchedule × ℕ) := do
  let commitsUntilUpdate ← s.commitsUntilLeaderScheduleUpdate cfg
  if commitsUntilUpdate = 0 then
    let s ← s.updateLeaderSchedule cfg
    let commitsUntilUpdate ← s.commitsUntilLeaderScheduleUpdate cfg
    pure (s, commitsUntilUpdate)
  else pure (s, commitsUntilUpdate)

/-- `handle_commit` for `leaders` sequenced leaders, and their sub-dags held for scoring. -/
def commitLeaders (leaders : ℕ) (s : CoreSchedule) : Except SchedulePanic CoreSchedule :=
  (s.handleCommit leaders).1.addCommittedSubdags cfg (s.handleCommit leaders).2

/-- The loop of `try_commit`.  `certified` commits are still to be decided; each time the
committer runs it decides the next list of `decisions` (`true` for a commit, `false` for
a skip).  A round that goes on commits at least one leader and uses up certified commits
or a decision, so `certified + decisions.length + 1` rounds are enough (`fuel`). -/
def tryCommitLoop : ℕ → ℕ → List (List Bool) → CoreSchedule → Except SchedulePanic CoreSchedule
  | 0, _, _, s => .ok s
  | fuel + 1, certified, decisions, s => do
    let (s, commitsUntilUpdate) ← s.commitsUntilUpdate cfg
    if commitsUntilUpdate = 0 then throw .noCommitsUntilUpdate
    let decidedCertified ← tryDecideCertified cfg certified commitsUntilUpdate
    if 0 < decidedCertified then
      let s ← s.commitLeaders cfg decidedCertified
      tryCommitLoop fuel (certified - decidedCertified) decisions s
    else
      -- the committer's decisions, truncated to the schedule limit
      let decidedLeaders := (decisions.headD []).take commitsUntilUpdate
      if decidedLeaders = [] then .ok s
      else
        let sequencedLeaders := decidedLeaders.count true
        if sequencedLeaders = 0 then .ok s
        else
          let s ← s.commitLeaders cfg sequencedLeaders
          tryCommitLoop fuel certified decisions.tail s

def tryCommit (certified : ℕ) (decisions : List (List Bool)) (s : CoreSchedule) :
    Except SchedulePanic CoreSchedule :=
  tryCommitLoop cfg (certified + decisions.length + 1) certified decisions s

/-- The first commit `DagState::new` scans again: the one after the last `CommitInfo`'s. -/
def commitRecoveryStartIndex : Option (ℕ × CommitRange) → ℕ
  | some (index, _) => index + 1
  | none => GENESIS_COMMIT_INDEX + 1

/-- `Store::scan_commits` over the range `start..=last`. -/
def scanCommits (store : ScheduleStore) (start last : ℕ) : List ℕ :=
  store.commits.filter fun index => start ≤ index ∧ index ≤ last

/-- The commits `DagState::new` gathers again for scoring: from the one after the last
`CommitInfo` to the last commit. -/
def recoverUnscoredCommittedSubdags (store : ScheduleStore) : List ℕ :=
  match store.commits.getLast? with
  | some last => scanCommits store (commitRecoveryStartIndex store.commitInfo.getLast?) last
  | none => []

/-- `DagState::new` and `LeaderSchedule::from_store` over a store: the last commit, the
commits after the last `CommitInfo` held again for scoring, and the swap table of that
`CommitInfo`'s scores.  The store reads the last commit and the last `CommitInfo` by
index; both are written in index order. -/
def recover (store : ScheduleStore) : Except SchedulePanic CoreSchedule := do
  let s : CoreSchedule := ⟨store.commits.getLast?, none, recoverUnscoredCommittedSubdags store, 0, [], [],
    store.commitInfo.getLast?.map Prod.snd, store⟩
  if cfg.consensusDistributedVoteScoringStrategy then do
    let range ← addSubdags none s.unscoredCommittedSubdags
    return { s with scoringSubdag := range, unscoredCommittedSubdags := [] }
  else return s

/-- A step of Core in any order: `try_commit` with some certified commits and some
decisions of the committer, blocks accepted from peers, an own block proposed (accepted
and flushed), or a restart from the store. -/
inductive Step : CoreSchedule → CoreSchedule → Prop
  | tryCommit {s s' : CoreSchedule} (certified : ℕ) (decisions : List (List Bool))
      (h : s.tryCommit cfg certified decisions = .ok s') : Step s s'
  | acceptBlocks (s : CoreSchedule) (blocks : ℕ) : Step s { s with blocksToWrite := s.blocksToWrite + blocks }
  | proposeBlock (s : CoreSchedule) : Step s ({ s with blocksToWrite := s.blocksToWrite + 1 } : CoreSchedule).flush
  | restart {s s' : CoreSchedule} (h : recover cfg s.store = .ok s') : Step s s'

/-- States of a node that started from an empty store. -/
inductive Reachable : CoreSchedule → Prop
  | start {s : CoreSchedule} (h : recover cfg ⟨[], []⟩ = .ok s) : Reachable s
  | step {s s' : CoreSchedule} : Reachable s → Step cfg s s' → Reachable s'

/-! ### The window between two schedule changes -/

theorem consensus_commits_per_schedule_eq : CONSENSUS_COMMITS_PER_SCHEDULE = 300 := rfl

/-- The commit the schedule last changed at: the end of the swap table's range, and
genesis before the first change. -/
def scheduleBase (s : CoreSchedule) : ℕ :=
  match s.swapTableRange with
  | some range => range.end
  | none => GENESIS_COMMIT_INDEX

/-- The sub-dags held for scoring are those of the commits after `base` up to `last`. -/
def HeldAfter (base last : ℕ) (s : CoreSchedule) : Prop :=
  if cfg.consensusDistributedVoteScoringStrategy then
    s.scoringSubdag = (if last = base then none else some ⟨base + 1, last⟩) ∧ s.unscoredCommittedSubdags = []
  else s.unscoredCommittedSubdags = List.range' (base + 1) (last - base) ∧ s.scoringSubdag = none

/-- A range the schedule was scored over: one of the consecutive windows of
`CONSENSUS_COMMITS_PER_SCHEDULE` commits from commit 1 on. -/
def IsWindow (range : CommitRange) : Prop :=
  0 < range.start ∧ range.end + 1 = range.start + CONSENSUS_COMMITS_PER_SCHEDULE ∧
    (range.start - 1) % CONSENSUS_COMMITS_PER_SCHEDULE = 0

/-- The `CommitInfo` stored at the change before the one over `range`. -/
def previousInfo (range : CommitRange) : Option (ℕ × CommitRange) :=
  if range.start = 1 then none
  else some (range.start - 1, ⟨range.start - CONSENSUS_COMMITS_PER_SCHEDULE, range.start - 1⟩)

/-- The commits are all stored, and the held sub-dags are those since the last change,
at most a window of them.  The last change's `CommitInfo` is stored, or is still
buffered, and then no commit came after it and the one before it is the last stored. -/
structure Inv (s : CoreSchedule) : Prop where
  stored : s.store.commits = List.range' 1 s.lastCommitIndex
  lastCommit : ∀ i, s.lastCommit = some i → 0 < i
  noCommitsToWrite : s.commitsToWrite = []
  base_le : s.scheduleBase ≤ s.lastCommitIndex
  le_base : s.lastCommitIndex ≤ s.scheduleBase + CONSENSUS_COMMITS_PER_SCHEDULE
  held : HeldAfter cfg s.scheduleBase s.lastCommitIndex s
  window : ∀ range, s.swapTableRange = some range → IsWindow range
  info : (s.commitInfoToWrite = [] ∧ s.store.commitInfo.getLast? = s.swapTableRange.map fun r => (r.end, r)) ∨
    ∃ range, s.swapTableRange = some range ∧ s.commitInfoToWrite = [(range.end, range)] ∧
      s.lastCommitIndex = range.end ∧ s.store.commitInfo.getLast? = previousInfo range

variable {cfg}

theorem subdagCount_of_held {s : CoreSchedule} {base last : ℕ} (h : HeldAfter cfg base last s)
    (hle : base ≤ last) : s.subdagCount cfg = last - base := by
  unfold HeldAfter at h
  unfold subdagCount
  split_ifs at h ⊢
  · simp only [scoredSubdagsCount, h.1]
    omega
  · simp only [scoredSubdagsCount, h.1, CommitRange.size]
    omega
  · rw [h.1, List.length_range']

theorem Inv.commitsUntilLeaderScheduleUpdate {s : CoreSchedule} (h : Inv cfg s) :
    s.commitsUntilLeaderScheduleUpdate cfg =
      .ok (CONSENSUS_COMMITS_PER_SCHEDULE - (s.lastCommitIndex - s.scheduleBase)) := by
  have hle := h.le_base
  rw [CoreSchedule.commitsUntilLeaderScheduleUpdate, subdagCount_of_held h.held h.base_le, if_pos (by omega)]

theorem lastCommit_eq_of_pos {s : CoreSchedule} (hpos : 0 < s.lastCommitIndex) :
    s.lastCommit = some s.lastCommitIndex := by
  unfold lastCommitIndex at hpos ⊢
  cases hlast : s.lastCommit with
  | none => simp [hlast, GENESIS_COMMIT_INDEX] at hpos
  | some i => rfl

theorem base_mod_eq_zero {s : CoreSchedule} (h : Inv cfg s) :
    s.scheduleBase % CONSENSUS_COMMITS_PER_SCHEDULE = 0 := by
  unfold scheduleBase
  cases hswap : s.swapTableRange with
  | none => rfl
  | some range =>
    obtain ⟨hpos, hend, hmod⟩ := h.window range hswap
    simp only [consensus_commits_per_schedule_eq] at hend hmod ⊢
    omega

theorem scheduleBase_of_some {s : CoreSchedule} {range : CommitRange} (h : s.swapTableRange = some range) :
    s.scheduleBase = range.end := by
  simp [scheduleBase, h]

theorem scheduleBase_of_none {s : CoreSchedule} (h : s.swapTableRange = none) : s.scheduleBase = 0 := by
  simp [scheduleBase, h, GENESIS_COMMIT_INDEX]

theorem Inv.info_of_lt {s : CoreSchedule} (h : Inv cfg s) (hlt : s.scheduleBase < s.lastCommitIndex) :
    s.commitInfoToWrite = [] ∧ s.store.commitInfo.getLast? = s.swapTableRange.map fun r => (r.end, r) := by
  rcases h.info with hinfo | ⟨range, hswap, -, hend, -⟩
  · exact hinfo
  · rw [scheduleBase_of_some hswap] at hlt
    omega

theorem Inv.getLast_commitInfo_append {s : CoreSchedule} (h : Inv cfg s) :
    (s.store.commitInfo ++ s.commitInfoToWrite).getLast? = s.swapTableRange.map fun r => (r.end, r) := by
  rcases h.info with ⟨hbuf, hinfo⟩ | ⟨range, hswap, hbuf, -, -⟩
  · rw [hbuf, List.append_nil, hinfo]
  · rw [hbuf, List.getLast?_append, hswap]
    rfl

theorem updateLeaderSwapTable_eq {s : CoreSchedule} {scores : CommitRange}
    (h : ∀ old, s.swapTableRange = some old → old.end + 1 = scores.start ∧ old.size = scores.size) :
    s.updateLeaderSwapTable scores = .ok { s with swapTableRange := some scores } := by
  unfold updateLeaderSwapTable
  cases hswap : s.swapTableRange with
  | none => rfl
  | some old =>
    obtain ⟨hnext, hsize⟩ := h old hswap
    simp [CommitRange.isNextRange, CommitRange.isEqualSize, hnext, hsize]

theorem addCommitInfo_eq {s : CoreSchedule} {scores : CommitRange} {last : ℕ}
    (hunscored : s.unscoredCommittedSubdags = []) (hscoring : s.scoringSubdag = none)
    (hlast : s.lastCommit = some last) :
    s.addCommitInfo scores = .ok { s with commitInfoToWrite := s.commitInfoToWrite ++ [(last, scores)] } := by
  simp [addCommitInfo, hunscored, hscoring, hlast]

theorem contiguous_range' : ∀ (a n : ℕ), contiguous (List.range' a n) = true
  | _, 0 => rfl
  | _, 1 => rfl
  | a, n + 2 => by
    rw [List.range'_succ, List.range'_succ, contiguous, ← List.range'_succ, contiguous_range' (a + 1) (n + 1)]
    simp

/-- The schedule after a change at the last commit: the held sub-dags are scored, the swap
table takes the range since the last change, and the `CommitInfo` of the scores is
buffered. -/
def rescheduled (s : CoreSchedule) : CoreSchedule :=
  { s with
    scoringSubdag := none
    unscoredCommittedSubdags := []
    commitInfoToWrite := [(s.lastCommitIndex, ⟨s.scheduleBase + 1, s.lastCommitIndex⟩)]
    swapTableRange := some ⟨s.scheduleBase + 1, s.lastCommitIndex⟩ }

theorem Inv.updateLeaderSchedule {s : CoreSchedule} (h : Inv cfg s)
    (hfull : s.lastCommitIndex = s.scheduleBase + CONSENSUS_COMMITS_PER_SCHEDULE) :
    s.updateLeaderSchedule cfg = .ok s.rescheduled := by
  have hN : 0 < CONSENSUS_COMMITS_PER_SCHEDULE := by decide
  have hle := h.base_le
  have hlast := lastCommit_eq_of_pos (s := s) (by omega)
  have hbuffer := (h.info_of_lt (by omega)).1
  -- the window follows the last one and has its size
  have hswap : ∀ old, s.swapTableRange = some old →
      old.end + 1 = (⟨s.scheduleBase + 1, s.lastCommitIndex⟩ : CommitRange).start ∧
        old.size = CommitRange.size ⟨s.scheduleBase + 1, s.lastCommitIndex⟩ := by
    intro old hold
    obtain ⟨hpos, hend, -⟩ := h.window old hold
    have hbase := scheduleBase_of_some hold
    simp only [CommitRange.size]
    omega
  have hheld := h.held
  unfold HeldAfter at hheld
  unfold CoreSchedule.updateLeaderSchedule
  by_cases hv : cfg.consensusDistributedVoteScoringStrategy = true
  · -- distributed vote scoring: the scoring subdag spans the window
    rw [if_pos hv, if_neg (by omega)] at hheld
    rw [if_pos hv, updateLeaderScheduleV2, hheld.1]
    dsimp only
    rw [addCommitInfo_eq (s := { s with scoringSubdag := none }) hheld.2 rfl hlast, except_ok_bind]
    refine (updateLeaderSwapTable_eq ?_).trans ?_
    · exact hswap
    · simp only [rescheduled, hbuffer, hheld.2, List.nil_append]
  · -- otherwise the unscored sub-dags are the window's commits in order
    rw [if_neg hv] at hheld
    rw [if_neg hv]
    unfold updateLeaderScheduleV1
    dsimp only
    have hend : s.scheduleBase + 1 + (s.lastCommitIndex - s.scheduleBase) - 1 = s.lastCommitIndex := by
      omega
    rw [hheld.1, List.head?_range', List.getLast?_range', if_neg (by omega), if_neg (by omega), hend]
    dsimp only
    rw [if_neg (by simp [contiguous_range']),
      updateLeaderSwapTable_eq (s := { s with unscoredCommittedSubdags := [] }) hswap, except_ok_bind]
    refine Eq.trans (addCommitInfo_eq rfl hheld.2 hlast) ?_
    simp only [rescheduled, hbuffer, List.nil_append, hheld.2]

@[simp] theorem rescheduled_lastCommitIndex (s : CoreSchedule) :
    s.rescheduled.lastCommitIndex = s.lastCommitIndex := rfl

@[simp] theorem rescheduled_scoringSubdag (s : CoreSchedule) : s.rescheduled.scoringSubdag = none := rfl

@[simp] theorem rescheduled_unscoredCommittedSubdags (s : CoreSchedule) :
    s.rescheduled.unscoredCommittedSubdags = [] := rfl

@[simp] theorem rescheduled_swapTableRange (s : CoreSchedule) :
    s.rescheduled.swapTableRange = some ⟨s.scheduleBase + 1, s.lastCommitIndex⟩ := rfl

@[simp] theorem rescheduled_scheduleBase (s : CoreSchedule) :
    s.rescheduled.scheduleBase = s.lastCommitIndex := rfl

theorem Inv.rescheduled {s : CoreSchedule} (h : Inv cfg s)
    (hfull : s.lastCommitIndex = s.scheduleBase + CONSENSUS_COMMITS_PER_SCHEDULE) :
    Inv cfg s.rescheduled where
  stored := h.stored
  lastCommit := h.lastCommit
  noCommitsToWrite := h.noCommitsToWrite
  base_le := le_rfl
  le_base := Nat.le_add_right _ _
  held := by simp [HeldAfter]
  window := by
    intro range hrange
    rw [rescheduled_swapTableRange, Option.some.injEq] at hrange
    subst hrange
    refine ⟨Nat.succ_pos _, ?_, ?_⟩
    · show s.lastCommitIndex + 1 = s.scheduleBase + 1 + CONSENSUS_COMMITS_PER_SCHEDULE
      omega
    · show (s.scheduleBase + 1 - 1) % CONSENSUS_COMMITS_PER_SCHEDULE = 0
      simpa using base_mod_eq_zero h
  info := by
    refine .inr ⟨_, rfl, rfl, rfl, ?_⟩
    have hN : 0 < CONSENSUS_COMMITS_PER_SCHEDULE := by decide
    have hinfo := (h.info_of_lt (by omega)).2
    show s.store.commitInfo.getLast? = previousInfo ⟨s.scheduleBase + 1, s.lastCommitIndex⟩
    unfold previousInfo
    dsimp only
    cases hswap : s.swapTableRange with
    | none => simp [hinfo, hswap, scheduleBase_of_none hswap]
    | some old =>
      -- the stored `CommitInfo` is the old window's, the one right before
      obtain ⟨hpos, hend, -⟩ := h.window old hswap
      have hbase := scheduleBase_of_some hswap
      rw [hinfo, hswap, if_neg (by omega)]
      obtain ⟨a, b⟩ := old
      simp only [Option.map_some, Option.some.injEq, Prod.mk.injEq, CommitRange.mk.injEq] at hbase hpos hend ⊢
      omega

theorem Inv.commitsUntilUpdate {s : CoreSchedule} (h : Inv cfg s) :
    ∃ s', s.commitsUntilUpdate cfg =
        .ok (s', CONSENSUS_COMMITS_PER_SCHEDULE - (s'.lastCommitIndex - s'.scheduleBase)) ∧
      Inv cfg s' ∧ s'.lastCommitIndex < s'.scheduleBase + CONSENSUS_COMMITS_PER_SCHEDULE := by
  have hN : 0 < CONSENSUS_COMMITS_PER_SCHEDULE := by decide
  have hle := h.le_base
  have hbase := h.base_le
  unfold CoreSchedule.commitsUntilUpdate
  rw [h.commitsUntilLeaderScheduleUpdate, except_ok_bind]
  by_cases hfull : s.lastCommitIndex = s.scheduleBase + CONSENSUS_COMMITS_PER_SCHEDULE
  · have hr := h.rescheduled hfull
    rw [if_pos (by omega), h.updateLeaderSchedule hfull, except_ok_bind, hr.commitsUntilLeaderScheduleUpdate,
      except_ok_bind]
    exact ⟨_, rfl, hr, by simp; omega⟩
  · rw [if_neg (by omega)]
    exact ⟨s, rfl, h, by omega⟩

/-! ### Committing leaders -/

theorem range'_append_of_eq {a m b n : ℕ} (h : b = a + m) :
    List.range' a m ++ List.range' b n = List.range' a (m + n) := by
  subst h
  exact List.range'_append_1

theorem addSubdags_some_range' (a : ℕ) :
    ∀ b k, addSubdags (some ⟨a, b⟩) (List.range' (b + 1) k) = .ok (some ⟨a, b + k⟩)
  | b, 0 => rfl
  | b, k + 1 => by
    rw [List.range'_succ, addSubdags]
    dsimp only
    rw [if_neg (by omega), addSubdags_some_range' a (b + 1) k]
    congr 3
    omega

theorem addSubdags_none_range' (a k : ℕ) :
    addSubdags none (List.range' a k) = .ok (if k = 0 then none else some ⟨a, a + k - 1⟩) := by
  cases k with
  | zero => rfl
  | succ k =>
    rw [List.range'_succ, addSubdags, addSubdags_some_range', if_neg (Nat.succ_ne_zero k)]
    congr 3

theorem addSubdags_after {base last k : ℕ} (hk : 0 < k) :
    addSubdags (if last = base then none else some ⟨base + 1, last⟩) (List.range' (last + 1) k) =
      .ok (some ⟨base + 1, last + k⟩) := by
  split_ifs with hlast
  · rw [addSubdags_none_range', if_neg (by omega)]
    congr 3 <;> omega
  · exact addSubdags_some_range' _ _ _

theorem Inv.handleCommit {s : CoreSchedule} (h : Inv cfg s) {k : ℕ} (hk : 0 < k) :
    s.handleCommit k = ({ s with
      lastCommit := some (s.lastCommitIndex + k)
      blocksToWrite := 0
      commitsToWrite := []
      commitInfoToWrite := []
      store := ⟨List.range' 1 (s.lastCommitIndex + k), s.store.commitInfo ++ s.commitInfoToWrite⟩ },
      List.range' (s.lastCommitIndex + 1) k) := by
  have hne : List.range' (s.lastCommitIndex + 1) k ≠ [] := by
    rw [Ne, List.range'_eq_nil_iff]
    omega
  unfold CoreSchedule.handleCommit flush
  dsimp only
  rw [h.noCommitsToWrite, List.nil_append, List.getLast?_range', if_neg (show ¬k = 0 by omega),
    if_neg (fun hc => hne hc.2), h.stored, range'_append_of_eq (Nat.add_comm _ _)]
  simp only [Option.some_or]
  congr 4
  omega

theorem Inv.committed {s s' : CoreSchedule} (h : Inv cfg s) {k : ℕ} (hk : 0 < k)
    (hroom : s.lastCommitIndex + k ≤ s.scheduleBase + CONSENSUS_COMMITS_PER_SCHEDULE)
    (hlast : s'.lastCommit = some (s.lastCommitIndex + k)) (hwrite : s'.commitsToWrite = [])
    (hbuffer : s'.commitInfoToWrite = []) (hswap : s'.swapTableRange = s.swapTableRange)
    (hstore : s'.store = ⟨List.range' 1 (s.lastCommitIndex + k), s.store.commitInfo ++ s.commitInfoToWrite⟩)
    (hheld : HeldAfter cfg s.scheduleBase (s.lastCommitIndex + k) s') : Inv cfg s' := by
  have hL : s'.lastCommitIndex = s.lastCommitIndex + k := by simp [lastCommitIndex, hlast]
  have hbase : s'.scheduleBase = s.scheduleBase := by simp only [scheduleBase, hswap]
  have hle := h.base_le
  exact {
    stored := by rw [hstore, hL]
    lastCommit := by
      intro i hi
      rw [hlast, Option.some.injEq] at hi
      omega
    noCommitsToWrite := hwrite
    base_le := by omega
    le_base := by omega
    held := by
      rw [hbase, hL]
      exact hheld
    window := hswap ▸ h.window
    info := .inl ⟨hbuffer, by rw [hstore, hswap, h.getLast_commitInfo_append]⟩ }

theorem Inv.commitLeaders {s : CoreSchedule} (h : Inv cfg s) {k : ℕ} (hk : 0 < k)
    (hroom : s.lastCommitIndex + k ≤ s.scheduleBase + CONSENSUS_COMMITS_PER_SCHEDULE) :
    ∃ s', s.commitLeaders cfg k = .ok s' ∧ Inv cfg s' := by
  have hle := h.base_le
  have hheld := h.held
  unfold HeldAfter at hheld
  rw [CoreSchedule.commitLeaders, h.handleCommit hk]
  unfold addCommittedSubdags
  by_cases hv : cfg.consensusDistributedVoteScoringStrategy = true
  · -- the scoring range grows by the new commits
    rw [if_pos hv] at hheld
    rw [if_pos hv, hheld.1, addSubdags_after hk, except_ok_bind]
    refine ⟨_, rfl, h.committed hk hroom rfl rfl rfl rfl rfl ?_⟩
    rw [HeldAfter, if_pos hv, if_neg (show ¬s.lastCommitIndex + k = s.scheduleBase by omega)]
    exact ⟨rfl, hheld.2⟩
  · -- the unscored sub-dags take the new commits at their end
    rw [if_neg hv] at hheld
    rw [if_neg hv]
    refine ⟨_, rfl, h.committed hk hroom rfl rfl rfl rfl rfl ?_⟩
    rw [HeldAfter, if_neg hv]
    refine ⟨?_, hheld.2⟩
    dsimp only
    rw [hheld.1, range'_append_of_eq (by omega)]
    congr 1
    omega

/-! ### The loop of `try_commit` -/

theorem tryDecideCertified_le (cfg : ScheduleConfig) (certified : ℕ) {limit : ℕ} (hlimit : 0 < limit) :
    ∃ decided, tryDecideCertified cfg certified limit = .ok decided ∧ decided ≤ limit := by
  unfold tryDecideCertified
  split_ifs with hgc hzero
  · exact ⟨0, rfl, Nat.zero_le _⟩
  · omega
  · exact ⟨_, rfl, Nat.min_le_right _ _⟩

theorem Inv.tryCommitLoop :
    ∀ (fuel certified : ℕ) (decisions : List (List Bool)) {s : CoreSchedule}, Inv cfg s →
      ∃ s', s.tryCommitLoop cfg fuel certified decisions = .ok s' ∧ Inv cfg s'
  | 0, _, _, s, h => ⟨s, rfl, h⟩
  | fuel + 1, certified, decisions, s, h => by
    obtain ⟨s₁, hround, h₁, hroom⟩ := h.commitsUntilUpdate
    have hbase := h₁.base_le
    have hlimit : 0 < CONSENSUS_COMMITS_PER_SCHEDULE - (s₁.lastCommitIndex - s₁.scheduleBase) := by omega
    obtain ⟨decided, hdecided, hle⟩ := tryDecideCertified_le cfg certified hlimit
    rw [CoreSchedule.tryCommitLoop, hround, except_ok_bind]
    dsimp only
    rw [if_neg (by omega), hdecided, except_ok_bind]
    by_cases hpos : 0 < decided
    · -- certified commits first, as many as fit
      rw [if_pos hpos]
      obtain ⟨s₂, hs₂, h₂⟩ := h₁.commitLeaders hpos (by omega)
      rw [hs₂, except_ok_bind]
      exact Inv.tryCommitLoop fuel _ _ h₂
    · -- then the committer's decisions, truncated to the room left
      rw [if_neg hpos]
      split_ifs with hnil hnone
      · exact ⟨s₁, rfl, h₁⟩
      · exact ⟨s₁, rfl, h₁⟩
      · have hcount : ((decisions.headD []).take (CONSENSUS_COMMITS_PER_SCHEDULE -
            (s₁.lastCommitIndex - s₁.scheduleBase))).count true ≤
            CONSENSUS_COMMITS_PER_SCHEDULE - (s₁.lastCommitIndex - s₁.scheduleBase) :=
          List.count_le_length.trans (List.length_take_le _ _)
        obtain ⟨s₂, hs₂, h₂⟩ := h₁.commitLeaders (Nat.pos_of_ne_zero hnone) (by omega)
        rw [hs₂, except_ok_bind]
        exact Inv.tryCommitLoop fuel _ _ h₂

theorem Inv.tryCommit {s : CoreSchedule} (h : Inv cfg s) (certified : ℕ) (decisions : List (List Bool)) :
    ∃ s', s.tryCommit cfg certified decisions = .ok s' ∧ Inv cfg s' :=
  Inv.tryCommitLoop _ _ _ h

/-! ### Blocks, flushes and recovery -/

theorem Inv.proposeBlock {s : CoreSchedule} (h : Inv cfg s) :
    Inv cfg ({ s with blocksToWrite := s.blocksToWrite + 1 } : CoreSchedule).flush := by
  unfold flush
  dsimp only
  rw [if_neg (fun hc => Nat.succ_ne_zero _ hc.1), h.noCommitsToWrite, List.append_nil]
  exact ⟨h.stored, h.lastCommit, rfl, h.base_le, h.le_base, h.held, h.window,
    .inl ⟨rfl, h.getLast_commitInfo_append⟩⟩

theorem Inv.acceptBlocks {s : CoreSchedule} (h : Inv cfg s) (blocks : ℕ) :
    Inv cfg { s with blocksToWrite := s.blocksToWrite + blocks } :=
  ⟨h.stored, h.lastCommit, h.noCommitsToWrite, h.base_le, h.le_base, h.held, h.window, h.info⟩

theorem scheduleBase_eq_getD (s : CoreSchedule) :
    s.scheduleBase = (s.swapTableRange.map CommitRange.end).getD GENESIS_COMMIT_INDEX := by
  unfold scheduleBase
  cases s.swapTableRange <;> rfl

theorem IsWindow.previous {range : CommitRange} (h : IsWindow range) (hstart : range.start ≠ 1) :
    IsWindow ⟨range.start - CONSENSUS_COMMITS_PER_SCHEDULE, range.start - 1⟩ := by
  obtain ⟨hpos, hend, hmod⟩ := h
  unfold IsWindow
  dsimp only
  rw [consensus_commits_per_schedule_eq] at hend hmod ⊢
  omega

theorem filter_range'_after {base last : ℕ} (h : base ≤ last) :
    (List.range' 1 last).filter (fun index => decide (base + 1 ≤ index ∧ index ≤ last)) =
      List.range' (base + 1) (last - base) := by
  have hsplit : List.range' 1 last = List.range' 1 base ++ List.range' (base + 1) (last - base) := by
    rw [range'_append_of_eq (by omega)]
    congr 1
    omega
  rw [hsplit, List.filter_append, List.filter_eq_nil_iff.mpr, List.filter_eq_self.mpr, List.nil_append]
  · intro i hi
    rw [List.mem_range'_1] at hi
    simp only [decide_eq_true_eq]
    omega
  · intro i hi
    rw [List.mem_range'_1] at hi
    simp only [decide_eq_true_eq]
    omega

section Recovery

variable {store : ScheduleStore} {last : ℕ} {swap : Option CommitRange}

theorem inv_recovered {s : CoreSchedule}
    (hcommits : store.commits = List.range' 1 last)
    (hinfo : store.commitInfo.getLast? = swap.map fun r => (r.end, r))
    (hwindow : ∀ r, swap = some r → IsWindow r)
    (hle : (swap.map CommitRange.end).getD GENESIS_COMMIT_INDEX ≤ last)
    (hroom : last ≤ (swap.map CommitRange.end).getD GENESIS_COMMIT_INDEX + CONSENSUS_COMMITS_PER_SCHEDULE)
    (hlast : s.lastCommit = store.commits.getLast?) (hwrite : s.commitsToWrite = [])
    (hbuffer : s.commitInfoToWrite = []) (hswap : s.swapTableRange = swap) (hstore : s.store = store)
    (hheld : HeldAfter cfg ((swap.map CommitRange.end).getD GENESIS_COMMIT_INDEX) last s) : Inv cfg s := by
  have hL : s.lastCommitIndex = last := by
    rw [lastCommitIndex, hlast, hcommits, List.getLast?_range']
    split_ifs with hzero
    · simp [hzero, GENESIS_COMMIT_INDEX]
    · simp only [Option.getD_some]
      omega
  have hbase : s.scheduleBase = (swap.map CommitRange.end).getD GENESIS_COMMIT_INDEX := by
    rw [scheduleBase_eq_getD, hswap]
  exact {
    stored := by rw [hstore, hL, hcommits]
    lastCommit := by
      intro i hi
      rw [hlast, hcommits, List.getLast?_range'] at hi
      split_ifs at hi with hzero
      rw [Option.some.injEq] at hi
      omega
    noCommitsToWrite := hwrite
    base_le := by omega
    le_base := by omega
    held := by
      rw [hbase, hL]
      exact hheld
    window := hswap ▸ hwindow
    info := .inl ⟨hbuffer, by rw [hstore, hswap, hinfo]⟩ }

theorem recover_inv
    (hcommits : store.commits = List.range' 1 last)
    (hinfo : store.commitInfo.getLast? = swap.map fun r => (r.end, r))
    (hwindow : ∀ r, swap = some r → IsWindow r)
    (hle : (swap.map CommitRange.end).getD GENESIS_COMMIT_INDEX ≤ last)
    (hroom : last ≤ (swap.map CommitRange.end).getD GENESIS_COMMIT_INDEX + CONSENSUS_COMMITS_PER_SCHEDULE) :
    ∃ s, recover cfg store = .ok s ∧ Inv cfg s := by
  have hstart : commitRecoveryStartIndex store.commitInfo.getLast? =
      (swap.map CommitRange.end).getD GENESIS_COMMIT_INDEX + 1 := by
    rw [hinfo]
    cases swap <;> rfl
  -- the commits after the last `CommitInfo` are gathered again
  have hunscored : recoverUnscoredCommittedSubdags store = List.range'
      ((swap.map CommitRange.end).getD GENESIS_COMMIT_INDEX + 1)
      (last - (swap.map CommitRange.end).getD GENESIS_COMMIT_INDEX) := by
    unfold recoverUnscoredCommittedSubdags scanCommits
    rw [hstart, hcommits, List.getLast?_range']
    by_cases hzero : last = 0
    · rw [if_pos hzero]
      simp [hzero]
    · rw [if_neg hzero]
      dsimp only
      rw [show 1 + last - 1 = last by omega]
      exact filter_range'_after hle
  have hswap : store.commitInfo.getLast?.map Prod.snd = swap := by
    simp [hinfo, Option.map_map, Function.comp_def]
  unfold recover
  dsimp only
  rw [hunscored, hswap]
  by_cases hv : cfg.consensusDistributedVoteScoringStrategy = true
  · -- the gathered commits are scored again
    rw [if_pos hv, addSubdags_none_range', except_ok_bind]
    refine ⟨_, rfl, inv_recovered hcommits hinfo hwindow hle hroom rfl rfl rfl rfl rfl ?_⟩
    rw [HeldAfter, if_pos hv]
    refine ⟨?_, rfl⟩
    dsimp only
    by_cases hbase : last = (swap.map CommitRange.end).getD GENESIS_COMMIT_INDEX
    · rw [if_pos (by omega), if_pos hbase]
    · rw [if_neg (by omega), if_neg hbase]
      congr 2
      omega
  · rw [if_neg hv]
    refine ⟨_, rfl, inv_recovered hcommits hinfo hwindow hle hroom rfl rfl rfl rfl rfl ?_⟩
    rw [HeldAfter, if_neg hv]
    exact ⟨rfl, rfl⟩

end Recovery

theorem Inv.recover {s : CoreSchedule} (h : Inv cfg s) : ∃ s', recover cfg s.store = .ok s' ∧ Inv cfg s' := by
  have hbase := scheduleBase_eq_getD s
  rcases h.info with ⟨-, hinfo⟩ | ⟨range, hswap, -, hend, hprev⟩
  · exact recover_inv h.stored hinfo h.window (hbase ▸ h.base_le) (hbase ▸ h.le_base)
  · obtain ⟨hpos, hlen, hmod⟩ := h.window range hswap
    unfold previousInfo at hprev
    split_ifs at hprev with hfirst
    · -- the buffered change was the first
      have hinfo : s.store.commitInfo.getLast? = (none : Option CommitRange).map fun r => (r.end, r) := hprev
      refine recover_inv h.stored hinfo (fun _ hr => nomatch hr) (Nat.zero_le _) ?_
      show s.lastCommitIndex ≤ 0 + CONSENSUS_COMMITS_PER_SCHEDULE
      omega
    · have hinfo : s.store.commitInfo.getLast? =
          (some ⟨range.start - CONSENSUS_COMMITS_PER_SCHEDULE, range.start - 1⟩ : Option CommitRange).map
            fun r => (r.end, r) := hprev
      refine recover_inv h.stored hinfo ?_ ?_ ?_
      · intro r hr
        rw [← Option.some.inj hr]
        exact IsWindow.previous ⟨hpos, hlen, hmod⟩ hfirst
      · show range.start - 1 ≤ s.lastCommitIndex
        omega
      · show s.lastCommitIndex ≤ range.start - 1 + CONSENSUS_COMMITS_PER_SCHEDULE
        omega

theorem inv_of_ok {x : Except SchedulePanic CoreSchedule} {s : CoreSchedule} (h : x = .ok s)
    (hx : ∃ s', x = .ok s' ∧ Inv cfg s') : Inv cfg s := by
  obtain ⟨s', hs', hinv⟩ := hx
  rw [h, Except.ok.injEq] at hs'
  exact hs' ▸ hinv

theorem inv_start {s : CoreSchedule} (h : recover cfg ⟨[], []⟩ = .ok s) : Inv cfg s := by
  have hcommits : (⟨[], []⟩ : ScheduleStore).commits = List.range' 1 0 := rfl
  have hinfo : (⟨[], []⟩ : ScheduleStore).commitInfo.getLast? =
      (none : Option CommitRange).map fun r => (r.end, r) := rfl
  exact inv_of_ok h (recover_inv hcommits hinfo (fun _ hr => nomatch hr) le_rfl (Nat.zero_le _))

theorem Inv.step {s s' : CoreSchedule} (h : Inv cfg s) (hstep : Step cfg s s') : Inv cfg s' := by
  cases hstep with
  | tryCommit certified decisions hcommit => exact inv_of_ok hcommit (h.tryCommit certified decisions)
  | acceptBlocks blocks => exact h.acceptBlocks blocks
  | proposeBlock => exact h.proposeBlock
  | restart hrecover => exact inv_of_ok hrecover h.recover

theorem Reachable.inv {s : CoreSchedule} (hs : Reachable cfg s) : Inv cfg s := by
  induction hs with
  | start h => exact inv_start h
  | step _ hstep ih => exact ih.step hstep

/-- In every run of Core from an empty store, across restarts, at most
`CONSENSUS_COMMITS_PER_SCHEDULE` sub-dags are held for scoring, every swap table is
scored over one of the consecutive windows of that many commits, and neither
`try_commit` (whatever is certified and decided) nor a restart fails: in particular
`commits_until_leader_schedule_update` and the range check of
`update_leader_swap_table` never panic. -/
theorem reachable_leader_schedule_window {s : CoreSchedule} (hs : Reachable cfg s) :
    s.subdagCount cfg ≤ CONSENSUS_COMMITS_PER_SCHEDULE ∧
      (∀ range, s.swapTableRange = some range → IsWindow range) ∧
      (∀ certified decisions, ∃ s', s.tryCommit cfg certified decisions = .ok s') ∧
      ∃ s', recover cfg s.store = .ok s' := by
  have h := hs.inv
  have hle := h.le_base
  refine ⟨?_, h.window, fun certified decisions => ?_, ?_⟩
  · rw [subdagCount_of_held h.held h.base_le]
    omega
  · obtain ⟨s', hs', -⟩ := h.tryCommit certified decisions
    exact ⟨s', hs'⟩
  · obtain ⟨s', hs', -⟩ := h.recover
    exact ⟨s', hs'⟩

/-- The store after 301 commits with distributed vote scoring: the first 300
were scored, and their range is the `CommitInfo` of commit 300. -/
def scheduledStore : ScheduleStore := ⟨List.range' 1 301, [(300, ⟨1, 300⟩)]⟩

/-- The state after those commits: the swap table scored over the first
window, and commit 301 held for the next one. -/
def scheduledState : CoreSchedule :=
  ⟨some 301, some ⟨301, 301⟩, [], 0, [], [], some ⟨1, 300⟩, scheduledStore⟩

set_option maxRecDepth 20000 in
/-- A node started on an empty store, with distributed vote scoring and GC,
decides 301 certified commits in one `try_commit`: the schedule changes after
the first 300, and the last one opens the next window.  It then restarts from
its store, which brings back the same state. -/
theorem reachable_leader_schedule_window_restart :
    Reachable ⟨true, true⟩ scheduledState ∧ scheduledState.swapTableRange = some ⟨1, 300⟩ ∧
      scheduledState.subdagCount ⟨true, true⟩ ≤ CONSENSUS_COMMITS_PER_SCHEDULE ∧
      (∀ range, scheduledState.swapTableRange = some range → IsWindow range) ∧
      (∀ certified decisions, ∃ s', scheduledState.tryCommit ⟨true, true⟩ certified decisions = .ok s') ∧
      ∃ s', recover ⟨true, true⟩ scheduledState.store = .ok s' := by
  have hcommit : Step ⟨true, true⟩ ⟨none, none, [], 0, [], [], none, ⟨[], []⟩⟩ scheduledState :=
    .tryCommit 301 [] (by rfl)
  have hrestart : Step ⟨true, true⟩ scheduledState scheduledState := .restart (by rfl)
  have hreach : Reachable ⟨true, true⟩ scheduledState := .step (.step (.start rfl) hcommit) hrestart
  exact ⟨hreach, rfl, reachable_leader_schedule_window hreach⟩

end CoreSchedule

end Iota.Consensus
