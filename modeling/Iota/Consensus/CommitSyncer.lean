import Iota.Consensus.Commit
import Iota.Lib.Ascending
import Iota.Lib.Except

/-! `CommitSyncer` (`consensus/core/src/commit_syncer.rs`): the scheduler that
fetches from peers the commits a node is missing.  Ranges of commit indices are
scheduled into `pending_fetches`, move to inflight fetch tasks, come back as
fetched commits, and are sent to Core once no gap separates them from
`synced_commit_index`.  Commit indices are `u32` in the source and `ℕ` here.
The commits of a fetched range are kept as their indices: their blocks feed
only metrics and logs, and the digest chain that `verify_commits` checks is
not modelled. -/

namespace Iota.Consensus

open Iota.Lib

/-- The variants of `ConsensusError` that the index checks of `verify_commits` return. -/
inductive CommitFetchError
  | unexpectedStartCommit (start commit : ℕ)
  | unexpectedCommitSequence (prevCommit currCommit : ℕ)
  | noCommitReceived
  deriving DecidableEq, Repr

inductive CommitSyncerPanic
  /-- `Iterator::step_by` asserts `step != 0`. -/
  | zeroBatchSize
  /-- `handle_fetch_result`: `assert!(!certified_commits.commits().is_empty())`. -/
  | emptyFetchResult
  deriving DecidableEq, Repr

/-- The parameters `CommitSyncer` reads, and the committee size. -/
structure CommitSyncParameters where
  commitSyncParallelFetches : ℕ
  commitSyncBatchSize : ℕ
  commitSyncBatchesAhead : ℕ
  committeeSize : ℕ

def CommitSyncParameters.unhandledCommitsThreshold (p : CommitSyncParameters) : ℕ :=
  p.commitSyncBatchSize * p.commitSyncBatchesAhead

structure CommitSyncer where
  /-- The range each task of the `JoinSet` fetches. -/
  inflightFetches : List CommitRange
  pendingFetches : Finset CommitRange
  fetchedRanges : AList (fun _ : CommitRange => List ℕ)
  highestScheduledIndex : Option ℕ
  syncedCommitIndex : ℕ

namespace CommitSyncer

/-- `CommitSyncer::new`: nothing scheduled, synced up to the local last commit. -/
def new (lastCommitIndex : ℕ) : CommitSyncer := ⟨[], ∅, ∅, none, lastCommitIndex⟩

/-- The loop `for prev_end in (fetch_after_index..=quorum_commit_index).step_by(batch_size)`
of `try_schedule_once`.  A round that goes on raises `prev_end` by `batch_size ≥ 1` and
keeps it at most `quorum_commit_index`, so `quorum_commit_index + 1 - prev_end` rounds
are enough (`fuel`). -/
def scheduleFetches (batchSize quorumCommitIndex highestHandledIndex unhandledCommitsThreshold : ℕ) :
    ℕ → ℕ → CommitSyncer → CommitSyncer
  | 0, _, s => s
  | fuel + 1, prevEnd, s =>
    if quorumCommitIndex < prevEnd then s
    else
      let rangeStart := prevEnd + 1
      let rangeEnd := prevEnd + batchSize
      if quorumCommitIndex < rangeEnd then s
      else if highestHandledIndex + unhandledCommitsThreshold < rangeEnd then s
      else
        scheduleFetches batchSize quorumCommitIndex highestHandledIndex unhandledCommitsThreshold fuel rangeEnd
          { s with
            pendingFetches := insert ⟨rangeStart, rangeEnd⟩ s.pendingFetches
            highestScheduledIndex := some rangeEnd }

def tryScheduleOnce (p : CommitSyncParameters) (quorumCommitIndex localCommitIndex highestHandledIndex : ℕ)
    (s : CommitSyncer) : Except CommitSyncerPanic CommitSyncer :=
  let s := { s with syncedCommitIndex := max s.syncedCommitIndex localCommitIndex }
  let fetchAfterIndex := max s.syncedCommitIndex (s.highestScheduledIndex.getD 0)
  if p.commitSyncBatchSize = 0 then throw .zeroBatchSize
  else
    .ok (scheduleFetches p.commitSyncBatchSize quorumCommitIndex highestHandledIndex
      p.unhandledCommitsThreshold (quorumCommitIndex + 1 - fetchAfterIndex) fetchAfterIndex s)

def targetParallelFetches (p : CommitSyncParameters) (s : CommitSyncer) : ℕ :=
  max (min (min p.commitSyncParallelFetches (p.committeeSize * 2 / 3))
    (p.commitSyncBatchesAhead - s.fetchedRanges.entries.length)) 1

/-- The loop of `try_start_fetches`: `pop_first` takes the pending ranges in ascending
order while fewer than the target number of fetches are inflight. -/
def startFetches (target : ℕ) : List CommitRange → CommitSyncer → CommitSyncer
  | [], s => s
  | range :: rest, s =>
    if target ≤ s.inflightFetches.length then s
    else
      startFetches target rest
        { s with
          pendingFetches := s.pendingFetches.erase range
          inflightFetches := range :: s.inflightFetches }

def tryStartFetches (p : CommitSyncParameters) (s : CommitSyncer) : CommitSyncer :=
  startFetches (s.targetParallelFetches p) (ascending s.pendingFetches) s

/-- The index checks of `verify_commits`: the first commit is at the range start, each
next one follows the one before, and the loop stops at the first commit past the end. -/
def verifyCommitsLoop (range : CommitRange) : List ℕ → List ℕ → Except CommitFetchError (List ℕ)
  | commits, [] => .ok commits
  | commits, index :: rest => do
    match commits.getLast? with
    | none => if index ≠ range.start then throw (.unexpectedStartCommit range.start index)
    | some last => if index ≠ last + 1 then throw (.unexpectedCommitSequence last index)
    if range.end < index then return commits
    verifyCommitsLoop range (commits ++ [index]) rest

def verifyCommits (range : CommitRange) (serializedCommits : List ℕ) : Except CommitFetchError (List ℕ) := do
  let commits ← verifyCommitsLoop range [] serializedCommits
  if commits.isEmpty then throw .noCommitReceived
  return commits

/-- The fetched ranges with their commits, in the order `first_key_value` visits them. -/
def fetchedAscending (m : AList (fun _ : CommitRange => List ℕ)) : List (CommitRange × List ℕ) :=
  (ascending m.keys.toFinset).filterMap fun range => (m.lookup range).map (range, ·)

/-- The `while let` loop of `handle_fetch_result`: it pops fetched ranges until one
leaves a gap above `synced_commit_index`.  Each call to `add_certified_commits` comes
out with the `synced_commit_index` it was made at.  When Core has shut down the call
fails and the function returns at once. -/
def processFetchedRanges (coreRunning : Bool) :
    List (CommitRange × List ℕ) → CommitSyncer → CommitSyncer × List (ℕ × List ℕ)
  | [], s => (s, [])
  | (range, commits) :: rest, s =>
    if range.start ≤ s.syncedCommitIndex + 1 then
      let s := { s with fetchedRanges := s.fetchedRanges.erase range }
      if range.end ≤ s.syncedCommitIndex then processFetchedRanges coreRunning rest s
      else if coreRunning then
        let r := processFetchedRanges coreRunning rest
          { s with syncedCommitIndex := max s.syncedCommitIndex range.end }
        (r.1, (s.syncedCommitIndex, commits) :: r.2)
      else (s, [(s.syncedCommitIndex, commits)])
    else (s, [])

def handleFetchResult (coreRunning : Bool) (localCommitIndex targetEnd : ℕ) (certifiedCommits : List ℕ)
    (s : CommitSyncer) : Except CommitSyncerPanic (CommitSyncer × List (ℕ × List ℕ)) :=
  match certifiedCommits.head?, certifiedCommits.getLast? with
  | some commitStart, some commitEnd =>
    -- a partial result leaves the rest of the range to fetch again
    let s := if commitEnd < targetEnd then
      { s with pendingFetches := insert ⟨commitEnd + 1, targetEnd⟩ s.pendingFetches } else s
    let s := { s with syncedCommitIndex := max s.syncedCommitIndex localCommitIndex }
    let s := if s.syncedCommitIndex < commitEnd then
      { s with fetchedRanges := s.fetchedRanges.insert ⟨commitStart, commitEnd⟩ certifiedCommits } else s
    .ok (processFetchedRanges coreRunning (fetchedAscending s.fetchedRanges) s)
  | _, _ => throw .emptyFetchResult

/-- One step of `schedule_loop`, in any interleaving: a tick runs `try_schedule_once`
with the quorum, local and handled commit indices of the moment; a fetch task for
`range` finishes with a response that `verify_commits` accepts (`fetch_loop` retries
until one does), and `handle_fetch_result` handles it.  A step returns the calls made
to `add_certified_commits`. -/
inductive Step (p : CommitSyncParameters) (coreRunning : Bool) :
    CommitSyncer → CommitSyncer → List (ℕ × List ℕ) → Prop
  | tryScheduleOnce {s s' : CommitSyncer} (quorumCommitIndex localCommitIndex highestHandledIndex : ℕ)
      (h : s.tryScheduleOnce p quorumCommitIndex localCommitIndex highestHandledIndex = .ok s') :
      Step p coreRunning s s' []
  | tryStartFetches (s : CommitSyncer) : Step p coreRunning s (s.tryStartFetches p) []
  | handleFetchResult {s s' : CommitSyncer} {calls : List (ℕ × List ℕ)} (range : CommitRange)
      (response commits : List ℕ) (localCommitIndex : ℕ) (hinflight : range ∈ s.inflightFetches)
      (hverify : verifyCommits range response = .ok commits)
      (h : handleFetchResult coreRunning localCommitIndex range.end commits
        { s with inflightFetches := s.inflightFetches.erase range } = .ok (s', calls)) :
      Step p coreRunning s s' calls

inductive Reachable (p : CommitSyncParameters) (coreRunning : Bool) : CommitSyncer → Prop
  | new (lastCommitIndex : ℕ) : Reachable p coreRunning (new lastCommitIndex)
  | step {s s' : CommitSyncer} {calls : List (ℕ × List ℕ)} :
      Reachable p coreRunning s → Step p coreRunning s s' calls → Reachable p coreRunning s'

/-- Every scheduled range: pending, inflight or fetched. -/
def ranges (s : CommitSyncer) : Multiset CommitRange :=
  s.pendingFetches.val + (s.inflightFetches : Multiset CommitRange) + (s.fetchedRanges.keys : Multiset CommitRange)

/-- How many scheduled ranges hold commit index `i`. -/
def holders (s : CommitSyncer) (i : ℕ) : ℕ := s.ranges.countP (·.Holds i)

/-! ### What the ranges are for

Together the scheduled ranges hold each commit index at most once, none reaches
past the highest scheduled index, and every index above the synced one up to it
is held: the commits still to sync are partitioned among pending, inflight and
fetched ranges. -/

structure Partitions (m : Multiset CommitRange) (synced highest : ℕ) : Prop where
  disjoint : ∀ i, m.countP (·.Holds i) ≤ 1
  bounded : ∀ r ∈ m, r.end ≤ highest
  covers : ∀ i, synced < i → i ≤ highest → 0 < m.countP (·.Holds i)

theorem countP_ite_singleton (p : CommitRange → Prop) [DecidablePred p] (c : Prop) [Decidable c]
    (x : CommitRange) : (if c then {x} else (0 : Multiset CommitRange)).countP p = if c ∧ p x then 1 else 0 := by
  by_cases hc : c
  · rw [if_pos hc, ← Multiset.cons_zero, Multiset.countP_cons, Multiset.countP_zero]
    by_cases hp : p x <;> simp [hc, hp]
  · simp [hc]

namespace Partitions

variable {m : Multiset CommitRange} {synced synced' highest : ℕ}

theorem countP_eq_one (h : Partitions m synced highest) {i : ℕ} (hlo : synced < i) (hhi : i ≤ highest) :
    m.countP (·.Holds i) = 1 :=
  le_antisymm (h.disjoint i) (h.covers i hlo hhi)

theorem mono (h : Partitions m synced highest) (hle : synced ≤ synced') : Partitions m synced' highest where
  disjoint := h.disjoint
  bounded := h.bounded
  covers i hlo hhi := h.covers i (by omega) hhi

theorem not_mem_of_holds {r x : CommitRange} {i : ℕ} (h : Partitions (r ::ₘ m) synced highest)
    (hr : r.Holds i) (hx : x.Holds i) : x ∉ m := by
  intro hmem
  have hpos : 0 < m.countP (·.Holds i) := Multiset.countP_pos.mpr ⟨x, hmem, hx⟩
  have hle := h.disjoint i
  rw [Multiset.countP_cons, if_pos hr] at hle
  omega

theorem replace {r : CommitRange} {ps : Multiset CommitRange} (h : Partitions (r ::ₘ m) synced highest)
    (hle : synced ≤ synced') (hsub : ∀ i, ps.countP (·.Holds i) ≤ if r.Holds i then 1 else 0)
    (hcov : ∀ i, synced' < i → r.Holds i → 0 < ps.countP (·.Holds i))
    (hbound : ∀ x ∈ ps, x.end ≤ r.end) : Partitions (ps + m) synced' highest where
  disjoint i := by
    have hone := h.disjoint i
    rw [Multiset.countP_cons] at hone
    rw [Multiset.countP_add]
    have := hsub i
    omega
  bounded x hx := by
    rcases Multiset.mem_add.mp hx with hps | hm
    · exact (hbound x hps).trans (h.bounded r (Multiset.mem_cons_self r m))
    · exact h.bounded x (Multiset.mem_cons_of_mem hm)
  covers i hlo hhi := by
    have hpos := h.covers i (by omega) hhi
    rw [Multiset.countP_cons] at hpos
    rw [Multiset.countP_add]
    by_cases hr : r.Holds i
    · have := hcov i hlo hr
      omega
    · rw [if_neg hr] at hpos
      omega

theorem tail {r : CommitRange} (h : Partitions (r ::ₘ m) synced highest) (hle : synced ≤ synced')
    (hbelow : r.end ≤ synced') : Partitions m synced' highest := by
  have hgone : Partitions (0 + m) synced' highest := h.replace hle (fun i => by simp)
    (fun i hlo hi => absurd hi.2 (by omega)) (fun x hx => absurd hx (Multiset.notMem_zero x))
  rwa [Multiset.zero_add] at hgone

theorem split {a c e : ℕ} (h : Partitions (⟨a, e⟩ ::ₘ m) synced highest) (hac : a ≤ c) (hce : c ≤ e)
    (hle : synced ≤ synced') :
    Partitions ((if synced' < c then {⟨a, c⟩} else 0) + ((if c < e then {⟨c + 1, e⟩} else 0) + m))
      synced' highest := by
  rw [← add_assoc]
  apply h.replace hle
  · intro i
    rw [Multiset.countP_add, countP_ite_singleton, countP_ite_singleton]
    split_ifs <;> simp only [CommitRange.Holds] at * <;> omega
  · intro i hlo hi
    rw [Multiset.countP_add, countP_ite_singleton, countP_ite_singleton]
    split_ifs <;> simp only [CommitRange.Holds] at * <;> omega
  · intro x hx
    simp only [Multiset.mem_add] at hx
    rcases hx with hx | hx <;> split_ifs at hx <;> simp_all

theorem cons_next (h : Partitions m synced highest) (batchSize : ℕ) :
    Partitions (⟨max synced highest + 1, max synced highest + batchSize⟩ ::ₘ m) synced
      (max synced highest + batchSize) where
  disjoint i := by
    rw [Multiset.countP_cons]
    split_ifs with hnew
    · have hzero : m.countP (·.Holds i) = 0 :=
        Multiset.countP_eq_zero.mpr fun x hx hxi => by
          have := h.bounded x hx
          have := hxi.2
          have hstart := hnew.1
          dsimp only at hstart
          omega
      omega
    · simpa using h.disjoint i
  bounded x hx := by
    rcases Multiset.mem_cons.mp hx with rfl | hm
    · exact le_refl _
    · have := h.bounded x hm
      omega
  covers i hlo hhi := by
    rw [Multiset.countP_cons]
    by_cases hold : i ≤ highest
    · have := h.covers i hlo hold
      omega
    · have hnew : CommitRange.Holds ⟨max synced highest + 1, max synced highest + batchSize⟩ i :=
        ⟨by simp only; omega, hhi⟩
      rw [if_pos hnew]
      omega

end Partitions

/-! ### Where a step moves the ranges -/

section ranges

variable (s : CommitSyncer) {x : CommitRange}

theorem mem_ranges_of_pending (hx : x ∈ s.pendingFetches) : x ∈ s.ranges :=
  Multiset.mem_add.mpr (.inl (Multiset.mem_add.mpr (.inl hx)))

theorem mem_ranges_of_fetched (hx : x ∈ s.fetchedRanges) : x ∈ s.ranges :=
  Multiset.mem_add.mpr (.inr (Multiset.mem_coe.mpr (AList.mem_keys.mp hx)))

theorem ranges_eraseInflight (hx : x ∈ s.inflightFetches) :
    s.ranges = x ::ₘ { s with inflightFetches := s.inflightFetches.erase x }.ranges := by
  have hsplit : (s.inflightFetches : Multiset CommitRange) = x ::ₘ ↑(s.inflightFetches.erase x) := by
    rw [← Multiset.coe_erase, Multiset.cons_erase (Multiset.mem_coe.mpr hx)]
  simp only [ranges, hsplit, Multiset.add_cons, Multiset.cons_add]

theorem ranges_insertPending (hx : x ∉ s.pendingFetches) :
    { s with pendingFetches := insert x s.pendingFetches }.ranges = x ::ₘ s.ranges := by
  simp only [ranges, Finset.insert_val_of_notMem hx, Multiset.cons_add]

theorem ranges_eraseFetched (hx : x ∈ s.fetchedRanges) :
    s.ranges = x ::ₘ { s with fetchedRanges := s.fetchedRanges.erase x }.ranges := by
  have hsplit : (s.fetchedRanges.keys : Multiset CommitRange) = x ::ₘ ↑(s.fetchedRanges.keys.erase x) := by
    rw [← Multiset.coe_erase, Multiset.cons_erase (Multiset.mem_coe.mpr (AList.mem_keys.mp hx))]
  simp only [ranges, AList.keys_erase, hsplit, Multiset.add_cons]

theorem ranges_startFetch (hx : x ∈ s.pendingFetches) :
    { s with pendingFetches := s.pendingFetches.erase x, inflightFetches := x :: s.inflightFetches }.ranges =
      s.ranges := by
  have hsplit : s.pendingFetches.val = x ::ₘ (s.pendingFetches.erase x).val := by
    rw [Finset.erase_val, Multiset.cons_erase (Finset.mem_val.mpr hx)]
  simp only [ranges, hsplit, ← Multiset.cons_coe, Multiset.add_cons, Multiset.cons_add]

end ranges

/-! ### The invariant of reachable states -/

/-- Each fetched range holds at least one commit, and its commits are its indices in order. -/
def Consecutive (m : AList (fun _ : CommitRange => List ℕ)) : Prop :=
  ∀ range commits, m.lookup range = some commits →
    range.start ≤ range.end ∧ commits = List.range' range.start (range.end + 1 - range.start)

theorem Consecutive.erase {m : AList (fun _ : CommitRange => List ℕ)} (h : Consecutive m) (x : CommitRange) :
    Consecutive (m.erase x) := by
  intro range commits hlookup
  by_cases hx : range = x
  · rw [hx, AList.lookup_erase] at hlookup
    cases hlookup
  · rw [AList.lookup_erase_ne hx] at hlookup
    exact h range commits hlookup

theorem Consecutive.insert {m : AList (fun _ : CommitRange => List ℕ)} (h : Consecutive m) {a c : ℕ}
    (hac : a ≤ c) : Consecutive (m.insert ⟨a, c⟩ (List.range' a (c + 1 - a))) := by
  intro range commits hlookup
  by_cases hx : range = ⟨a, c⟩
  · rw [hx, AList.lookup_insert, Option.some_inj] at hlookup
    rw [hx, ← hlookup]
    exact ⟨hac, rfl⟩
  · rw [AList.lookup_insert_ne hx] at hlookup
    exact h range commits hlookup

structure Inv (s : CommitSyncer) : Prop where
  partitions : Partitions s.ranges s.syncedCommitIndex (s.highestScheduledIndex.getD 0)
  consecutive : Consecutive s.fetchedRanges

theorem inv_new (lastCommitIndex : ℕ) : Inv (new lastCommitIndex) where
  partitions :=
    { disjoint := fun i => by simp [ranges, new]
      bounded := fun r hr => by simp [ranges, new] at hr
      covers := fun i hlo hhi => by simp only [new, Option.getD_none] at hhi; omega }
  consecutive range commits h := by simp [new] at h

/-! ### Each step keeps the invariant -/

theorem Inv.scheduleFetches {batchSize : ℕ} (hbatch : 0 < batchSize) (quorumCommitIndex highestHandledIndex
    unhandledCommitsThreshold : ℕ) :
    ∀ (fuel prevEnd : ℕ) (s : CommitSyncer), Inv s →
      prevEnd = max s.syncedCommitIndex (s.highestScheduledIndex.getD 0) →
      Inv (scheduleFetches batchSize quorumCommitIndex highestHandledIndex unhandledCommitsThreshold fuel prevEnd s) ∧
        (scheduleFetches batchSize quorumCommitIndex highestHandledIndex unhandledCommitsThreshold fuel prevEnd
          s).syncedCommitIndex = s.syncedCommitIndex
  | 0, _, s, h, _ => ⟨h, rfl⟩
  | fuel + 1, prevEnd, s, h, hprev => by
    rw [CommitSyncer.scheduleFetches]
    dsimp only
    split_ifs
    · exact ⟨h, rfl⟩
    · exact ⟨h, rfl⟩
    · exact ⟨h, rfl⟩
    · -- the range ends above every scheduled range, so it is new
      have hnew : (⟨prevEnd + 1, prevEnd + batchSize⟩ : CommitRange) ∉ s.pendingFetches := fun hx => by
        have hend := h.partitions.bounded _ (s.mem_ranges_of_pending hx)
        dsimp only at hend
        omega
      have hinv : Inv { s with
          pendingFetches := insert ⟨prevEnd + 1, prevEnd + batchSize⟩ s.pendingFetches
          highestScheduledIndex := some (prevEnd + batchSize) } := by
        refine ⟨?_, h.consecutive⟩
        have hnext := h.partitions.cons_next batchSize
        rw [← hprev] at hnext
        exact (s.ranges_insertPending hnew).symm ▸ hnext
      exact Inv.scheduleFetches hbatch quorumCommitIndex highestHandledIndex unhandledCommitsThreshold fuel
        (prevEnd + batchSize) _ hinv (by simp only [Option.getD_some]; omega)

theorem Inv.tryScheduleOnce {p : CommitSyncParameters} {quorumCommitIndex localCommitIndex highestHandledIndex : ℕ}
    {s s' : CommitSyncer} (h : Inv s)
    (hs : s.tryScheduleOnce p quorumCommitIndex localCommitIndex highestHandledIndex = .ok s') :
    Inv s' ∧ s.syncedCommitIndex ≤ s'.syncedCommitIndex := by
  unfold CommitSyncer.tryScheduleOnce at hs
  split at hs
  · cases hs
  · rename_i hbatch
    cases hs
    have hsynced : Inv { s with syncedCommitIndex := max s.syncedCommitIndex localCommitIndex } :=
      ⟨h.partitions.mono (le_max_left _ _), h.consecutive⟩
    obtain ⟨hinv, heq⟩ := Inv.scheduleFetches (Nat.pos_of_ne_zero hbatch) quorumCommitIndex highestHandledIndex
      p.unhandledCommitsThreshold _ _ _ hsynced rfl
    refine ⟨hinv, ?_⟩
    rw [heq]
    exact le_max_left _ _

theorem Inv.startFetches (target : ℕ) :
    ∀ (l : List CommitRange) (s : CommitSyncer), Inv s → l.Nodup → (∀ x ∈ l, x ∈ s.pendingFetches) →
      Inv (startFetches target l s) ∧ (startFetches target l s).syncedCommitIndex = s.syncedCommitIndex
  | [], s, h, _, _ => ⟨h, rfl⟩
  | x :: rest, s, h, hnodup, hmem => by
    rw [CommitSyncer.startFetches]
    split_ifs
    · exact ⟨h, rfl⟩
    · have hx : x ∈ s.pendingFetches := hmem x (List.mem_cons_self ..)
      have hinv : Inv { s with
          pendingFetches := s.pendingFetches.erase x
          inflightFetches := x :: s.inflightFetches } :=
        ⟨(s.ranges_startFetch hx).symm ▸ h.partitions, h.consecutive⟩
      refine Inv.startFetches target rest _ hinv (List.nodup_cons.mp hnodup).2 fun y hy => ?_
      have hne : y ≠ x := fun hyx => (List.nodup_cons.mp hnodup).1 (hyx ▸ hy)
      exact Finset.mem_erase.mpr ⟨hne, hmem y (List.mem_cons_of_mem x hy)⟩

theorem Inv.tryStartFetches {s : CommitSyncer} (h : Inv s) (p : CommitSyncParameters) :
    Inv (s.tryStartFetches p) ∧ (s.tryStartFetches p).syncedCommitIndex = s.syncedCommitIndex :=
  Inv.startFetches _ _ s h (nodup_ascending _) fun _ hx => mem_ascending.mp hx

theorem verifyCommitsLoop_eq_ok {range : CommitRange} :
    ∀ {serialized result : List ℕ} {n : ℕ}, (0 < n → range.start + n ≤ range.end + 1) →
      verifyCommitsLoop range (List.range' range.start n) serialized = .ok result →
      ∃ m, result = List.range' range.start m ∧ (0 < m → range.start + m ≤ range.end + 1)
  | [], result, n, hn, h => by
    rw [verifyCommitsLoop, Except.ok.injEq] at h
    exact ⟨n, h.symm, hn⟩
  | index :: rest, result, n, hn, h => by
    rw [verifyCommitsLoop, List.getLast?_range'] at h
    -- past the checks, the index is the next one after the commits so far
    have hcheck : index = range.start + n ∧
        (if range.end < index then pure (List.range' range.start n)
          else verifyCommitsLoop range (List.range' range.start n ++ [index]) rest) = Except.ok result := by
      by_cases hzero : n = 0
      · rw [if_pos hzero] at h
        dsimp only at h
        by_cases hne : index ≠ range.start
        · rw [if_pos hne] at h
          simp at h
        · rw [if_neg hne] at h
          exact ⟨by omega, h⟩
      · rw [if_neg hzero] at h
        dsimp only at h
        by_cases hne : index ≠ range.start + n - 1 + 1
        · rw [if_pos hne] at h
          simp at h
        · rw [if_neg hne] at h
          exact ⟨by omega, h⟩
    obtain ⟨hindex, h⟩ := hcheck
    split at h
    · exact ⟨n, (except_pure_eq_ok.mp h).symm, hn⟩
    · have hnext : List.range' range.start n ++ [index] = List.range' range.start (n + 1) := by
        rw [List.range'_concat, Nat.one_mul, hindex]
      rw [hnext] at h
      exact verifyCommitsLoop_eq_ok (fun _ => by omega) h

theorem verifyCommits_eq_ok {range : CommitRange} {serialized commits : List ℕ}
    (h : verifyCommits range serialized = .ok commits) :
    ∃ n, 0 < n ∧ range.start + n ≤ range.end + 1 ∧ commits = List.range' range.start n := by
  rw [verifyCommits, except_bind_eq_ok] at h
  obtain ⟨result, hloop, h⟩ := h
  obtain ⟨m, rfl, hm⟩ := verifyCommitsLoop_eq_ok (n := 0) (by omega) hloop
  split at h
  · cases h
  · rename_i hne
    have hpos : 0 < m := by
      rcases Nat.eq_zero_or_pos m with rfl | hpos
      · simp at hne
      · exact hpos
    exact ⟨m, hpos, hm hpos, (except_pure_eq_ok.mp h).symm⟩

theorem lookup_of_mem_fetchedAscending {m : AList (fun _ : CommitRange => List ℕ)}
    {e : CommitRange × List ℕ} (he : e ∈ fetchedAscending m) : m.lookup e.1 = some e.2 := by
  obtain ⟨range, -, hrange⟩ := List.mem_filterMap.mp he
  obtain ⟨commits, hlookup, rfl⟩ := Option.map_eq_some_iff.mp hrange
  exact hlookup

theorem pairwise_fetchedAscending (m : AList (fun _ : CommitRange => List ℕ)) :
    (fetchedAscending m).Pairwise (fun a b => a.1 ≠ b.1) := by
  unfold fetchedAscending
  rw [List.pairwise_filterMap]
  refine (List.nodup_iff_pairwise_ne.mp (nodup_ascending _)).imp fun {x y} hne a ha b hb => ?_
  obtain ⟨_, -, rfl⟩ := Option.map_eq_some_iff.mp ha
  obtain ⟨_, -, rfl⟩ := Option.map_eq_some_iff.mp hb
  exact hne

/-- Commits that begin at most one above `synced` and end above it: sent to Core, they
leave no gap and are not all synced already. -/
def Extends (synced : ℕ) (commits : List ℕ) : Prop :=
  ∃ first last, commits.head? = some first ∧ commits.getLast? = some last ∧ first ≤ synced + 1 ∧ synced < last

theorem extends_range' {synced a c : ℕ} (hac : a ≤ c) (hstart : a ≤ synced + 1) (hend : synced < c) :
    Extends synced (List.range' a (c + 1 - a)) :=
  ⟨a, c, by rw [List.head?_range', if_neg (by omega)], by rw [List.getLast?_range', if_neg (by omega)]; congr 1; omega,
    hstart, hend⟩

theorem Inv.processFetchedRanges :
    ∀ (l : List (CommitRange × List ℕ)) (s : CommitSyncer), Inv s → l.Pairwise (fun a b => a.1 ≠ b.1) →
      (∀ e ∈ l, s.fetchedRanges.lookup e.1 = some e.2) →
      Inv (processFetchedRanges true l s).1 ∧
        s.syncedCommitIndex ≤ (processFetchedRanges true l s).1.syncedCommitIndex ∧
        ∀ call ∈ (processFetchedRanges true l s).2, s.syncedCommitIndex ≤ call.1 ∧
          call.1 < (processFetchedRanges true l s).1.syncedCommitIndex ∧ Extends call.1 call.2
  | [], s, h, _, _ => ⟨h, le_rfl, by simp [CommitSyncer.processFetchedRanges]⟩
  | (range, commits) :: rest, s, h, hpair, hlook => by
    have hlookup : s.fetchedRanges.lookup range = some commits := hlook _ (List.mem_cons_self ..)
    have hmem : range ∈ s.fetchedRanges := AList.lookup_isSome.mp (by rw [hlookup]; rfl)
    have hranges := h.partitions
    rw [s.ranges_eraseFetched hmem] at hranges
    have hrest : ∀ e ∈ rest, (s.fetchedRanges.erase range).lookup e.1 = some e.2 := fun e he => by
      rw [AList.lookup_erase_ne ((List.pairwise_cons.mp hpair).1 e he).symm]
      exact hlook e (List.mem_cons_of_mem _ he)
    have hpair' := (List.pairwise_cons.mp hpair).2
    rw [CommitSyncer.processFetchedRanges]
    dsimp only
    split_ifs with hstart hend hcore
    · -- synced already: dropped
      exact Inv.processFetchedRanges rest _ ⟨hranges.tail le_rfl hend, h.consecutive.erase range⟩ hpair' hrest
    · -- sent to Core
      have hinv : Inv { s with
          fetchedRanges := s.fetchedRanges.erase range
          syncedCommitIndex := max s.syncedCommitIndex range.end } :=
        ⟨hranges.tail (le_max_left _ _) (le_max_right _ _), h.consecutive.erase range⟩
      obtain ⟨hinv', hle, hcalls⟩ := Inv.processFetchedRanges rest _ hinv hpair' hrest
      dsimp only at hle hcalls ⊢
      obtain ⟨hrange, rfl⟩ := h.consecutive range commits hlookup
      refine ⟨hinv', by omega, fun call hcall => ?_⟩
      rcases List.mem_cons.mp hcall with rfl | hcall
      · exact ⟨le_rfl, by omega, extends_range' hrange hstart (by omega)⟩
      · obtain ⟨h1, h2, h3⟩ := hcalls call hcall
        exact ⟨by omega, h2, h3⟩
    · exact absurd rfl hcore
    · -- a gap: nothing more is sent
      exact ⟨h, le_rfl, by simp⟩

theorem handleFetchResult_eq_ok {coreRunning : Bool} {localCommitIndex targetEnd a c : ℕ} {commits : List ℕ}
    {s s' : CommitSyncer} {calls : List (ℕ × List ℕ)}
    (hhead : commits.head? = some a) (hlast : commits.getLast? = some c)
    (hpending : c < targetEnd → (⟨c + 1, targetEnd⟩ : CommitRange) ∉ s.pendingFetches)
    (hfetched : (⟨a, c⟩ : CommitRange) ∉ s.fetchedRanges)
    (h : handleFetchResult coreRunning localCommitIndex targetEnd commits s = .ok (s', calls)) :
    ∃ t : CommitSyncer, t.syncedCommitIndex = max s.syncedCommitIndex localCommitIndex ∧
      t.highestScheduledIndex = s.highestScheduledIndex ∧
      t.ranges = (if max s.syncedCommitIndex localCommitIndex < c then {⟨a, c⟩} else 0) +
        ((if c < targetEnd then {⟨c + 1, targetEnd⟩} else 0) + s.ranges) ∧
      t.fetchedRanges = (if max s.syncedCommitIndex localCommitIndex < c then
        s.fetchedRanges.insert ⟨a, c⟩ commits else s.fetchedRanges) ∧
      processFetchedRanges coreRunning (fetchedAscending t.fetchedRanges) t = (s', calls) := by
  rw [CommitSyncer.handleFetchResult, hhead, hlast] at h
  dsimp only at h
  rw [Except.ok.injEq] at h
  refine ⟨_, ?_, ?_, ?_, ?_, h⟩
  · split_ifs <;> rfl
  · split_ifs <;> rfl
  · have hkeys : (s.fetchedRanges.insert ⟨a, c⟩ commits).keys = ⟨a, c⟩ :: s.fetchedRanges.keys := by
      rw [AList.keys_insert, List.erase_of_not_mem (AList.mem_keys.not.mp hfetched)]
    by_cases hrest : c < targetEnd
    · have hval := Finset.insert_val_of_notMem (hpending hrest)
      by_cases hkeep : max s.syncedCommitIndex localCommitIndex < c
      · simp only [hrest, hkeep, ↓reduceIte, ranges, hval, hkeys, ← Multiset.cons_coe,
          Multiset.singleton_add, Multiset.cons_add, Multiset.add_cons]
        exact Multiset.cons_swap _ _ _
      · simp only [hrest, hkeep, ↓reduceIte, ranges, hval, Multiset.singleton_add, Multiset.zero_add,
          Multiset.cons_add]
    · by_cases hkeep : max s.syncedCommitIndex localCommitIndex < c
      · simp only [hrest, hkeep, ↓reduceIte, ranges, hkeys, ← Multiset.cons_coe, Multiset.singleton_add,
          Multiset.zero_add, Multiset.add_cons]
      · simp only [hrest, hkeep, ↓reduceIte, ranges, Multiset.zero_add]
  · split_ifs <;> rfl

theorem Inv.handleFetchResult {s s' : CommitSyncer} {calls : List (ℕ × List ℕ)} {range : CommitRange}
    {response commits : List ℕ} {localCommitIndex : ℕ} (h : Inv s) (hinflight : range ∈ s.inflightFetches)
    (hverify : verifyCommits range response = .ok commits)
    (hres : handleFetchResult true localCommitIndex range.end commits
      { s with inflightFetches := s.inflightFetches.erase range } = .ok (s', calls)) :
    Inv s' ∧ s.syncedCommitIndex ≤ s'.syncedCommitIndex ∧
      ∀ call ∈ calls, s.syncedCommitIndex ≤ call.1 ∧ call.1 < s'.syncedCommitIndex ∧ Extends call.1 call.2 := by
  obtain ⟨n, hpos, hlen, rfl⟩ := verifyCommits_eq_ok hverify
  have hranges := h.partitions
  rw [s.ranges_eraseInflight hinflight] at hranges
  -- the commits run from the range start to `range.start + n - 1`
  have hhead : (List.range' range.start n).head? = some range.start := by
    rw [List.head?_range', if_neg (by omega)]
  have hlast : (List.range' range.start n).getLast? = some (range.start + n - 1) := by
    rw [List.getLast?_range', if_neg (by omega)]
  -- both pieces lie within the range, so no other scheduled range is either of them
  have hpending : range.start + n - 1 < range.end →
      (⟨range.start + n - 1 + 1, range.end⟩ : CommitRange) ∉
        ({ s with inflightFetches := s.inflightFetches.erase range } : CommitSyncer).pendingFetches :=
    fun hlt hx => hranges.not_mem_of_holds (i := range.start + n) ⟨by omega, by omega⟩
      ⟨by dsimp only; omega, by dsimp only; omega⟩ (mem_ranges_of_pending _ hx)
  have hfetched : (⟨range.start, range.start + n - 1⟩ : CommitRange) ∉
      ({ s with inflightFetches := s.inflightFetches.erase range } : CommitSyncer).fetchedRanges :=
    fun hx => hranges.not_mem_of_holds (i := range.start) (x := ⟨range.start, range.start + n - 1⟩)
      ⟨le_rfl, by omega⟩ ⟨le_rfl, by dsimp only; omega⟩ (mem_ranges_of_fetched _ hx)
  obtain ⟨t, hsynced, hhighest, htranges, htfetched, hloop⟩ :=
    handleFetchResult_eq_ok hhead hlast hpending hfetched hres
  have hinv : Inv t := by
    refine ⟨?_, ?_⟩
    · rw [htranges, hsynced, hhighest]
      exact hranges.split (by omega) (by omega) (le_max_left _ _)
    · rw [htfetched]
      split_ifs
      · have hkept := h.consecutive.insert (a := range.start) (c := range.start + n - 1) (by omega)
        rwa [show range.start + n - 1 + 1 - range.start = n by omega] at hkept
      · exact h.consecutive
  obtain ⟨hinv', hle, hcalls⟩ := Inv.processFetchedRanges _ t hinv (pairwise_fetchedAscending _)
    fun e he => lookup_of_mem_fetchedAscending he
  rw [hloop] at hinv' hle hcalls
  dsimp only at hsynced hle hcalls
  refine ⟨hinv', by omega, fun call hcall => ?_⟩
  obtain ⟨h1, h2, h3⟩ := hcalls call hcall
  exact ⟨by omega, h2, h3⟩

/-! ### Runs -/

theorem Inv.step {p : CommitSyncParameters} {s s' : CommitSyncer} {calls : List (ℕ × List ℕ)} (h : Inv s)
    (hstep : Step p true s s' calls) :
    Inv s' ∧ s.syncedCommitIndex ≤ s'.syncedCommitIndex ∧
      ∀ call ∈ calls, s.syncedCommitIndex ≤ call.1 ∧ call.1 < s'.syncedCommitIndex ∧ Extends call.1 call.2 := by
  cases hstep with
  | tryScheduleOnce quorumCommitIndex localCommitIndex highestHandledIndex hs =>
    obtain ⟨hinv, hle⟩ := h.tryScheduleOnce hs
    exact ⟨hinv, hle, by simp⟩
  | tryStartFetches =>
    obtain ⟨hinv, heq⟩ := h.tryStartFetches p
    exact ⟨hinv, heq.ge, by simp⟩
  | handleFetchResult range response commits localCommitIndex hinflight hverify hres =>
    exact h.handleFetchResult hinflight hverify hres

theorem Reachable.inv {p : CommitSyncParameters} {s : CommitSyncer} (h : Reachable p true s) : Inv s := by
  induction h with
  | new lastCommitIndex => exact inv_new lastCommitIndex
  | step _ hstep ih => exact (ih.step hstep).1

/-- In every state a run reaches while Core takes what it is sent, no commit index is in
two scheduled ranges, each index above the synced one up to the highest scheduled one is
in exactly one, the synced index never goes down, and every batch sent to Core starts
at most one above the synced index of the moment and ends above it. -/
theorem reachable_partitions_unsynced (p : CommitSyncParameters) {s s' : CommitSyncer}
    {calls : List (ℕ × List ℕ)} (hs : Reachable p true s) (hstep : Step p true s s' calls) :
    (∀ i, s.holders i ≤ 1) ∧
      (∀ i, s.syncedCommitIndex < i → i ≤ s.highestScheduledIndex.getD 0 → s.holders i = 1) ∧
      s.syncedCommitIndex ≤ s'.syncedCommitIndex ∧
      ∀ call ∈ calls, s.syncedCommitIndex ≤ call.1 ∧ call.1 < s'.syncedCommitIndex ∧ Extends call.1 call.2 := by
  have hinv := hs.inv
  obtain ⟨-, hle, hcalls⟩ := hinv.step hstep
  exact ⟨hinv.partitions.disjoint, fun i hlo hhi => hinv.partitions.countP_eq_one hlo hhi, hle, hcalls⟩

/-- Batches of two commits, at most two fetches at a time, in a committee of four. -/
def syncParameters : CommitSyncParameters := ⟨2, 2, 4, 4⟩

/-- Two batches scheduled from a quorum commit index of four. -/
def scheduledSyncer : CommitSyncer := ⟨[], {⟨3, 4⟩, ⟨1, 2⟩}, ∅, some 4, 0⟩

theorem reachable_partitions_unsynced_scheduled :
    (∀ i, scheduledSyncer.holders i ≤ 1) ∧
      (∀ i, scheduledSyncer.syncedCommitIndex < i → i ≤ scheduledSyncer.highestScheduledIndex.getD 0 →
        scheduledSyncer.holders i = 1) ∧
      scheduledSyncer.syncedCommitIndex ≤ (scheduledSyncer.tryStartFetches syncParameters).syncedCommitIndex ∧
      ∀ call ∈ ([] : List (ℕ × List ℕ)), scheduledSyncer.syncedCommitIndex ≤ call.1 ∧
        call.1 < (scheduledSyncer.tryStartFetches syncParameters).syncedCommitIndex ∧ Extends call.1 call.2 :=
  reachable_partitions_unsynced syncParameters (.step (.new 0) (.tryScheduleOnce 4 0 10 rfl))
    (.tryStartFetches scheduledSyncer)

/-- What is left after Core shut down while a fetched range was being sent. -/
def droppedSyncer : CommitSyncer := ⟨[], ∅, ∅, some 2, 0⟩

/-- When Core has shut down, `add_certified_commits` fails after the fetched range was
popped: commit 1 is above the synced index and below the highest scheduled one, but in
no range. -/
theorem handleFetchResult_core_down_drops_range :
    Reachable syncParameters false droppedSyncer ∧ droppedSyncer.syncedCommitIndex < 1 ∧
      1 ≤ droppedSyncer.highestScheduledIndex.getD 0 ∧ droppedSyncer.holders 1 = 0 := by
  have hscheduled : Reachable syncParameters false ⟨[], {⟨1, 2⟩}, ∅, some 2, 0⟩ :=
    .step (.new 0) (.tryScheduleOnce 2 0 10 rfl)
  have hstarted : Reachable syncParameters false ⟨[⟨1, 2⟩], ∅, ∅, some 2, 0⟩ :=
    .step hscheduled (.tryStartFetches _)
  exact ⟨.step hstarted (.handleFetchResult ⟨1, 2⟩ [1, 2] [1, 2] 0 (List.mem_singleton_self _) rfl rfl),
    by decide, by decide, rfl⟩

end CommitSyncer

end Iota.Consensus
