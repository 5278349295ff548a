import Iota.Consensus.DagStateInv
import Iota.Lib.StepRun

/-! A consensus node over whole runs, crashes and restarts included: blocks accepted,
leaders committed by `CommitObserver::handle_commit`, commit infos buffered, flushes,
and restarts, after which `DagState::new` rebuilds the DAG state from the store and
`CommitObserver::recover_and_send_commits` re-sends the commits the consumer has not
processed.  Between two operations the invariant of `DagState` holds with no commit
left unwritten (`NodeInv`).  So a restart at any point recovers the committed rounds,
the last commit and (V2) the committed flags the node had, and the consumer gets the
sub-dags in index order across restarts, each re-sent one as it was first handed
over, but for the scores. -/

namespace Iota.Consensus

open Iota.Lib

/-! ### What the consumer sees -/

namespace NodeEvent

/-- The index of the last sub-dag the consumer has after the event: a restart sets it
to the index the consumer reports. -/
def index : NodeEvent → ℕ
  | .committed _ subDag => subDag.commitRef.index
  | .restarted lastProcessedCommitIndex => lastProcessedCommitIndex
  | .recovered subDag => subDag.commitRef.index

/-- The event hands over the sub-dag after the `k`-th, or is a restart. -/
def FollowsFrom (k : ℕ) : NodeEvent → Prop
  | .committed _ subDag => subDag.commitRef.index = k + 1
  | .restarted _ => True
  | .recovered subDag => subDag.commitRef.index = k + 1

instance (k : ℕ) (e : NodeEvent) : Decidable (e.FollowsFrom k) := by
  cases e <;> unfold FollowsFrom <;> infer_instance

end NodeEvent

/-- The index of the last sub-dag the consumer has after the events, from `k`. -/
def lastDelivered : ℕ → List NodeEvent → ℕ
  | k, [] => k
  | _, e :: events => lastDelivered e.index events

/-- Every sub-dag the consumer gets is the one after the last it has, from `k`. -/
def FollowsOn : ℕ → List NodeEvent → Prop
  | _, [] => True
  | k, e :: events => e.FollowsFrom k ∧ FollowsOn e.index events

instance : ∀ k events, Decidable (FollowsOn k events)
  | _, [] => isTrue trivial
  | k, e :: events =>
    haveI := instDecidableFollowsOn e.index events
    inferInstanceAs (Decidable (e.FollowsFrom k ∧ FollowsOn e.index events))

theorem lastDelivered_append : ∀ (k : ℕ) (events events' : List NodeEvent),
    lastDelivered k (events ++ events') = lastDelivered (lastDelivered k events) events'
  | _, [], _ => rfl
  | _, e :: events, events' => lastDelivered_append e.index events events'

theorem followsOn_append : ∀ (k : ℕ) (events events' : List NodeEvent),
    FollowsOn k (events ++ events') ↔ FollowsOn k events ∧ FollowsOn (lastDelivered k events) events'
  | _, [], _ => by simp [FollowsOn, lastDelivered]
  | k, e :: events, events' => by
    rw [List.cons_append, FollowsOn, FollowsOn, followsOn_append, lastDelivered, and_assoc]

theorem followsOn_map {α : Type} (mk : α → NodeEvent) {idx : α → ℕ} :
    ∀ {l : List α} {k : ℕ}, (∀ a ∈ l, ∀ k, (mk a).FollowsFrom k ↔ idx a = k + 1) → (∀ a ∈ l, (mk a).index = idx a) →
      Consecutive idx (k + 1) l → FollowsOn k (l.map mk) ∧ lastDelivered k (l.map mk) = k + l.length
  | [], k, _, _, _ => ⟨trivial, rfl⟩
  | a :: l, k, hfollows, hindex, hcons => by
    obtain ⟨ha, hl⟩ := consecutive_cons.mp hcons
    have hidx : (mk a).index = k + 1 := (hindex a List.mem_cons_self).trans ha
    obtain ⟨hrest, hlast⟩ := followsOn_map mk (k := k + 1) (fun a' ha' => hfollows a' (List.mem_cons_of_mem a ha'))
      (fun a' ha' => hindex a' (List.mem_cons_of_mem a ha')) hl
    refine ⟨⟨(hfollows a List.mem_cons_self k).mpr ha, by rwa [hidx]⟩, ?_⟩
    rw [List.map_cons, lastDelivered, hidx, hlast, List.length_cons]
    omega

theorem map_index_of_forall₂ {store : ConsensusStore} :
    ∀ {commits : List TrustedCommit} {sent : List CommittedSubDag}, List.Forall₂ (LoadsAs store) commits sent →
      sent.map (·.commitRef.index) = commits.map (·.index)
  | [], [], .nil => rfl
  | c :: commits, sd :: sent, .cons hc hrest => by
    rw [List.map_cons, List.map_cons, map_index_of_forall₂ hrest, hc.2.2.2]
    rfl

/-! ### Re-sending the unsent commits -/

namespace CommitObserver

theorem sendUnsent_eq_ok {n : ℕ} {store : ConsensusStore} (hinv : StoreInv n store) (scores : List (ℕ × ℕ)) :
    ∀ {commits : List TrustedCommit} {lastSent : ℕ}, Consecutive (·.index) (lastSent + 1) commits →
      (∀ c ∈ commits, c ∈ store.commits) →
        ∃ sent, sendUnsent store scores lastSent commits = .ok sent ∧ List.Forall₂ (LoadsAs store) commits sent
  | [], _, _, _ => ⟨[], rfl, .nil⟩
  | c :: commits, lastSent, hcons, hmem => by
    obtain ⟨hindex, hrest⟩ := consecutive_cons.mp hcons
    have hc := hmem c List.mem_cons_self
    have hblocks : ∀ r ∈ c.blocks, ∃ b ∈ store.blocks, b.reference = r := fun r hr =>
      hinv.commit_blocks r (mem_committedRefs.mpr ⟨c, hc, hr⟩)
    obtain ⟨sent, hsent, hall⟩ :=
      sendUnsent_eq_ok hinv scores hrest (fun c' hc' => hmem c' (List.mem_cons_of_mem c hc'))
    refine ⟨⟨c.leader, c.blocks.filterMap store.readBlock, c.timestampMs, c.reference,
      if commits = [] then scores else []⟩ :: sent, ?_, .cons ⟨rfl, rfl, rfl, rfl⟩ hall⟩
    rw [sendUnsent, if_neg (by omega), loadCommittedSubdagFromStore_eq_ok hblocks (hinv.leader_mem c hc),
      except_ok_bind, hsent, except_ok_bind]
    rfl

theorem recoverAndSendCommits_eq_ok {n : ℕ} {store : ConsensusStore} (hinv : StoreInv n store) {L : ℕ}
    (hL : L ≤ store.commits.length) (scores : List (ℕ × ℕ)) :
    ∃ sent, recoverAndSendCommits store L scores = .ok sent ∧ List.Forall₂ (LoadsAs store) (store.commits.drop L) sent := by
  have hunsent : store.commits.filter (fun c => decide (L + 1 ≤ c.index)) = store.commits.drop L := by
    rw [hinv.indices.filter_le, Nat.add_sub_cancel]
  have hcons : Consecutive (·.index) (L + 1) (store.commits.drop L) := by
    rw [Nat.add_comm]
    exact hinv.indices.drop L hL
  obtain ⟨sent, hsent, hall⟩ := sendUnsent_eq_ok hinv scores hcons fun c hc => List.mem_of_mem_drop hc
  rw [recoverAndSendCommits, hunsent]
  rcases hlast : store.readLastCommit with _ | last
  · exact ⟨sent, hsent, hall⟩
  · have hindex := hinv.readLastCommit_index hlast
    dsimp only
    rw [if_neg (by omega)]
    by_cases heq : last.index = L
    · rw [if_pos heq]
      rw [List.drop_eq_nil_of_le (by omega)]
      exact ⟨[], rfl, .nil⟩
    · rw [if_neg heq]
      exact ⟨sent, hsent, hall⟩

end CommitObserver

/-! ### The node between its operations -/

namespace DagCommitState

/-- Between two operations of the node: the invariant of `DagState`, and no commit left
to write, as `handle_commit` flushes the commits it makes. -/
structure NodeInv (s : DagCommitState) : Prop where
  dagInv : DagInv s
  commits_flushed : s.commitsToWrite = []

/-- What the environment promises about each operation, at the state it meets: a
reference names one block (its digest hashes the block); the committer decides
leaders in increasing rounds and the walk of the linearizer collects blocks of the DAG
state, as `LeadersGiven` says; and the consumer has processed no commit the node has
not made. -/
def NodeGiven (s : DagCommitState) : NodeOp → Prop
  | .acceptBlocks _ blocks => ∀ b ∈ blocks, ∀ b' ∈ s.flushedStore.blocks ++ blocks, b'.reference = b.reference → b' = b
  | .handleCommit leaders _ => LeadersGiven s leaders
  | .addCommitInfo => True
  | .flush => True
  | .restart lastProcessedCommitIndex _ => lastProcessedCommitIndex ≤ s.lastCommitIndex

variable {s s' : DagCommitState}

namespace NodeInv

theorem flushedStore_commits (hinv : NodeInv s) : s.flushedStore.commits = s.store.commits := by
  rw [DagCommitState.flushedStore_commits, hinv.commits_flushed, List.append_nil]

theorem lastCommitIndex_eq (hinv : NodeInv s) : s.lastCommitIndex = s.store.commits.length := by
  rw [hinv.dagInv.lastCommitIndex_eq, hinv.flushedStore_commits]

theorem lastCommit_eq (hinv : NodeInv s) : s.lastCommit = s.store.readLastCommit := by
  rw [hinv.dagInv.lastCommit_eq, ConsensusStore.readLastCommit, ConsensusStore.readLastCommit, hinv.flushedStore_commits]

theorem rounds_eq (hinv : NodeInv s) : s.lastCommittedRounds = maxRoundOf (committedRefs s.store.commits) := by
  rw [hinv.dagInv.rounds_eq, hinv.flushedStore_commits]

theorem acceptBlocks {nowMs : ℕ} {blocks : List VerifiedBlock} (hinv : NodeInv s)
    (hgiven : ∀ b ∈ blocks, ∀ b' ∈ s.flushedStore.blocks ++ blocks, b'.reference = b.reference → b' = b)
    (h : s.acceptBlocks nowMs blocks = .ok s') :
    NodeInv s' ∧ s'.store = s.store ∧ s'.context = s.context ∧ s'.lastCommit = s.lastCommit := by
  -- each accepted block is one of `blocks`, so the promise covers the blocks met later
  obtain ⟨hdag, hstore, hctx, hlast, hcw, -⟩ := foldlM_except_induction
    (P := fun t => DagInv t ∧ t.store = s.store ∧ t.context = s.context ∧ t.lastCommit = s.lastCommit ∧
      t.commitsToWrite = s.commitsToWrite ∧ ∀ b ∈ t.flushedStore.blocks, b ∈ s.flushedStore.blocks ++ blocks)
    ⟨hinv.dagInv, rfl, rfl, rfl, rfl, fun b hb => List.mem_append_left _ hb⟩
    (fun t b t' hb ⟨hdag, hstore, hctx, hlast, hcw, hknown⟩ ht => by
      refine ⟨hdag.acceptBlock (fun b' hb' href => hgiven b hb b' (hknown b' hb') href) ht, ?_⟩
      obtain ⟨-, rfl | ⟨-, rfl⟩⟩ := acceptBlock_eq_ok ht
      · exact ⟨hstore, hctx, hlast, hcw, hknown⟩
      · refine ⟨hstore, hctx, hlast, hcw, fun b' hb' => ?_⟩
        simp only [flushedStore_blocks, ← List.append_assoc, List.mem_append, List.mem_singleton] at hb'
        rcases hb' with hb' | rfl
        · exact hknown b' (by simpa using hb')
        · exact List.mem_append_right _ hb)
    h
  exact ⟨⟨hdag, hcw.trans hinv.commits_flushed⟩, hstore, hctx, hlast⟩

theorem addCommitInfo (hinv : NodeInv s) (h : s.addCommitInfo = .ok s') :
    NodeInv s' ∧ s'.store = s.store ∧ s'.context = s.context ∧ s'.lastCommit = s.lastCommit := by
  have hdag := hinv.dagInv.addCommitInfo h
  obtain ⟨last, -, rfl⟩ := addCommitInfo_eq_ok h
  exact ⟨⟨hdag, hinv.commits_flushed⟩, rfl, rfl, rfl⟩

theorem flush (hinv : NodeInv s) :
    NodeInv s.flush ∧ s.flush.context = s.context ∧ s.flush.lastCommit = s.lastCommit ∧
      s.flush.store.commits = s.store.commits ∧ ∃ more, s.flush.store.blocks = s.store.blocks ++ more := by
  refine ⟨⟨hinv.dagInv.flush, flush_commitsToWrite⟩, flush_context, flush_lastCommit, ?_⟩
  rw [DagCommitState.flush]
  split
  · exact ⟨rfl, [], by simp⟩
  · exact ⟨by simp [hinv.commits_flushed], s.blocksToWrite, rfl⟩

theorem handleCommit {leaders : List (VerifiedBlock × List VerifiedBlock × ℕ)} {scores : List (ℕ × ℕ)}
    {produced : List (TrustedCommit × CommittedSubDag)} (hinv : NodeInv s) (hgiven : LeadersGiven s leaders)
    (h : Linearizer.handleCommit s leaders scores = .ok (s', produced)) :
    NodeInv s' ∧ s'.context = s.context ∧ s'.store.commits = s.store.commits ++ produced.map (·.1) ∧
      (∃ more, s'.store.blocks = s.store.blocks ++ more) ∧ ∀ p ∈ produced, LoadsAs s'.store p.1 p.2 := by
  unfold Linearizer.handleCommit at h
  by_cases hnil : leaders = []
  · rw [if_pos hnil] at h
    obtain ⟨rfl, rfl⟩ := Prod.mk.inj (except_pure_eq_ok.mp h).symm
    exact ⟨hinv, rfl, by simp, ⟨[], by simp⟩, fun p hp => absurd hp List.not_mem_nil⟩
  rw [if_neg hnil] at h
  obtain ⟨⟨d, produced'⟩, hloop, h⟩ := except_bind_eq_ok.mp h
  dsimp only at h
  obtain ⟨rfl, rfl⟩ := Prod.mk.inj (except_pure_eq_ok.mp h).symm
  obtain ⟨hdag, hctx, hstore, hbw, hcw, hlen, hloads⟩ := hinv.dagInv.handleCommitLoop hgiven hloop
  -- one commit per leader is left to write, so the flush writes the batch
  have hne : d.commitsToWrite ≠ [] := by
    rw [hcw, hinv.commits_flushed, List.nil_append]
    intro hempty
    rw [List.map_eq_nil_iff] at hempty
    rw [hempty, List.length_nil] at hlen
    exact hnil (List.length_eq_zero_iff.mp hlen.symm)
  have hwrite : d.flush.store = d.flushedStore := by
    rw [DagCommitState.flush, if_neg fun h => hne h.2]
    rfl
  refine ⟨⟨hdag.flush, flush_commitsToWrite⟩, by rw [flush_context, hctx], ?_, ⟨s.blocksToWrite, ?_⟩, fun p hp => ?_⟩
  · rw [hwrite, DagCommitState.flushedStore_commits, hcw, hstore, hinv.commits_flushed, List.nil_append]
  · rw [hwrite, DagCommitState.flushedStore_blocks, hstore, hbw]
  · rw [hwrite]
    exact hloads p hp

theorem restart (hinv : NodeInv s) (h : new s.context s.store = .ok s') :
    NodeInv s' ∧ RecoveredFrom s.context s.store s' := by
  obtain ⟨s'', hnew, hrec⟩ := new_eq_ok hinv.dagInv.stored
  rw [hnew] at h
  cases h
  have hunique : ∀ b ∈ s.store.blocks, ∀ b' ∈ s.store.blocks, b.reference = b'.reference → b = b' :=
    fun b hb b' hb' => hinv.dagInv.refs_unique b (List.mem_append_left _ hb) b' (List.mem_append_left _ hb')
  exact ⟨⟨hrec.dagInv hinv.dagInv.stored hunique, hrec.commitsToWrite_eq⟩, hrec⟩

end NodeInv

theorem nodeStep_restart_eq_ok {L : ℕ} {scores : List (ℕ × ℕ)} {events : List NodeEvent}
    (h : nodeStep s (.restart L scores) = .ok (s', events)) :
    ∃ sent, DagCommitState.new s.context s.store = .ok s' ∧
      CommitObserver.recoverAndSendCommits s.store L scores = .ok sent ∧
      events = .restarted L :: sent.map .recovered := by
  simp only [nodeStep] at h
  obtain ⟨s₁, h₁, h⟩ := except_bind_eq_ok.mp h
  obtain ⟨sent, hsent, h⟩ := except_bind_eq_ok.mp h
  obtain ⟨rfl, rfl⟩ := Prod.mk.inj (except_pure_eq_ok.mp h).symm
  exact ⟨sent, h₁, hsent, rfl⟩

theorem nodeStep_handleCommit_eq_ok {leaders : List (VerifiedBlock × List VerifiedBlock × ℕ)}
    {scores : List (ℕ × ℕ)} {events : List NodeEvent} (h : nodeStep s (.handleCommit leaders scores) = .ok (s', events)) :
    ∃ produced, Linearizer.handleCommit s leaders scores = .ok (s', produced) ∧
      events = produced.map fun p => .committed p.1 p.2 := by
  simp only [nodeStep] at h
  obtain ⟨⟨s₁, produced⟩, h₁, h⟩ := except_bind_eq_ok.mp h
  obtain ⟨rfl, rfl⟩ := Prod.mk.inj (except_pure_eq_ok.mp h).symm
  exact ⟨produced, h₁, rfl⟩

theorem NodeInv.nodeStep {op : NodeOp} {events : List NodeEvent} (hinv : NodeInv s) (hgiven : NodeGiven s op)
    (h : nodeStep s op = .ok (s', events)) : NodeInv s' := by
  cases op with
  | acceptBlocks nowMs blocks =>
    simp only [Consensus.nodeStep] at h
    obtain ⟨d, hd, h⟩ := except_bind_eq_ok.mp h
    obtain ⟨rfl, -⟩ := Prod.mk.inj (except_pure_eq_ok.mp h).symm
    exact (hinv.acceptBlocks hgiven hd).1
  | handleCommit leaders scores =>
    obtain ⟨produced, h₁, -⟩ := nodeStep_handleCommit_eq_ok h
    exact (hinv.handleCommit hgiven h₁).1
  | addCommitInfo =>
    simp only [Consensus.nodeStep] at h
    obtain ⟨d, hd, h⟩ := except_bind_eq_ok.mp h
    obtain ⟨rfl, -⟩ := Prod.mk.inj (except_pure_eq_ok.mp h).symm
    exact (hinv.addCommitInfo hd).1
  | flush =>
    obtain ⟨rfl, -⟩ := Prod.mk.inj (Except.ok.inj h).symm
    exact hinv.flush.1
  | restart L scores =>
    obtain ⟨sent, h₁, -, -⟩ := nodeStep_restart_eq_ok h
    exact (hinv.restart h₁).1

theorem storeInv_empty (n : ℕ) : StoreInv n ConsensusStore.empty where
  indices := rfl
  leader_mem _ h := absurd h List.not_mem_nil
  round_le_leader _ h := absurd h List.not_mem_nil
  leaders_increase := List.Pairwise.nil
  refs_nodup := List.nodup_nil
  authors _ h := absurd h List.not_mem_nil
  commit_blocks _ h := absurd h List.not_mem_nil
  block_authors _ h := absurd h List.not_mem_nil
  info _ h := absurd h List.not_mem_nil

theorem nodeInv_new_empty {context : DagContext} (h : new context ConsensusStore.empty = .ok s) : NodeInv s := by
  obtain ⟨s', hnew, hrec⟩ := new_eq_ok (storeInv_empty context.numAuthorities)
  rw [hnew] at h
  cases h
  exact ⟨hrec.dagInv (storeInv_empty _) fun b hb => absurd hb List.not_mem_nil, hrec.commitsToWrite_eq⟩

theorem NodeInv.nodeRun {s₀ : DagCommitState} {ops : List NodeOp} {events : List NodeEvent} (hinv : NodeInv s₀)
    (hgiven : RunGiven Consensus.nodeStep NodeGiven s₀ ops) (hrun : Consensus.nodeRun s₀ ops = .ok (s, events)) :
    NodeInv s :=
  runSteps_induction (I := fun s (_ : List NodeEvent) => NodeInv s) (fun _ _ _ _ _ hI hg h => hI.nodeStep hg h)
    (E := []) hinv hgiven hrun

theorem NodeInv.restart_succeeds {L : ℕ} (hinv : NodeInv s) (hL : L ≤ s.lastCommitIndex) (scores : List (ℕ × ℕ)) :
    ∃ s' sent, Consensus.nodeStep s (.restart L scores) = .ok (s', .restarted L :: sent.map .recovered) ∧
      RecoveredFrom s.context s.store s' ∧ List.Forall₂ (LoadsAs s.store) (s.store.commits.drop L) sent := by
  obtain ⟨s', hnew, hrec⟩ := new_eq_ok hinv.dagInv.stored
  rw [hinv.lastCommitIndex_eq] at hL
  obtain ⟨sent, hsent, hall⟩ := CommitObserver.recoverAndSendCommits_eq_ok hinv.dagInv.stored hL scores
  refine ⟨s', sent, ?_, hrec, hall⟩
  simp only [Consensus.nodeStep, hnew, hsent, except_ok_bind]
  rfl

theorem gcEnabled_eq_of_context {t : DagCommitState} (h : t.context = s.context) : t.gcEnabled = s.gcEnabled := by
  rw [gcEnabled, gcEnabled, h]

theorem gcRound_eq_of {t : DagCommitState} (hctx : t.context = s.context) (hlast : t.lastCommit = s.lastCommit) :
    t.gcRound = s.gcRound := by
  rw [gcRound, gcRound, calculateGcRound, calculateGcRound, lastCommitRound, lastCommitRound, hctx, hlast]

theorem lastCommitIndex_eq_of {t : DagCommitState} (h : t.lastCommit = s.lastCommit) :
    t.lastCommitIndex = s.lastCommitIndex := by
  rw [lastCommitIndex, lastCommitIndex, h]

end DagCommitState

open DagCommitState

variable {s s' : DagCommitState}

/-! ### Restart reproduces the commit state -/

/-- After any run of a node started on an empty store, `DagState::new` over the store
recovers the committed rounds of all stored commits and the last stored commit, which
are the node's own; with GC it marks as committed exactly the cached blocks above the
GC round that a stored commit holds, and with the V2 linearizer these are the flags the
node had for the blocks it cached. -/
theorem new_after_nodeRun {context : DagContext} {s₀ : DagCommitState} {ops : List NodeOp}
    {events : List NodeEvent} (hnew : DagCommitState.new context ConsensusStore.empty = .ok s₀)
    (hgiven : RunGiven nodeStep NodeGiven s₀ ops) (hrun : nodeRun s₀ ops = .ok (s, events)) :
    ∃ s', DagCommitState.new s.context s.store = .ok s' ∧
      s'.lastCommittedRounds = maxRoundOf (committedRefs s.store.commits) ∧
      s'.lastCommittedRounds = s.lastCommittedRounds ∧
      s'.lastCommit = s.store.readLastCommit ∧ s'.lastCommit = s.lastCommit ∧
      (s'.gcEnabled = true → ∀ r info, s'.recentBlocks.lookup r = some info →
        (info.committed = true ↔ s'.gcRound < r.round ∧ r ∈ committedRefs s.store.commits)) ∧
      (s.context.linearizeSubdagV2 = true → ∀ r info info', s.recentBlocks.lookup r = some info →
        s'.recentBlocks.lookup r = some info' → s'.gcRound < r.round → info'.committed = info.committed) := by
  have hinv : NodeInv s := (nodeInv_new_empty hnew).nodeRun hgiven hrun
  obtain ⟨s', hnew', hrec⟩ := new_eq_ok hinv.dagInv.stored
  have hlast : s'.lastCommit = s.lastCommit := hrec.lastCommit_eq.trans hinv.lastCommit_eq.symm
  have hgc : s'.gcEnabled = s.gcEnabled := gcEnabled_eq_of_context hrec.context_eq
  have hgcRound : s'.gcRound = s.gcRound := gcRound_eq_of hrec.context_eq hlast
  refine ⟨s', hnew', hrec.rounds_eq, hrec.rounds_eq.trans hinv.rounds_eq.symm, hrec.lastCommit_eq, hlast,
    fun hon r info hr => ?_, fun hv r info info' hr hr' habove => ?_⟩
  · simpa [hon] using hrec.committed r info hr
  · have hmarked := hrec.committed r info' hr'
    rw [hgc] at hmarked
    cases hoff : s.gcEnabled
    · -- without GC nothing is marked, before the crash or after
      rw [hinv.dagInv.unmarked hoff r info hr]
      simpa [hoff] using hmarked
    · have hflag := hinv.dagInv.flags hv hoff r info hr (hgcRound ▸ habove)
      rw [hinv.flushedStore_commits] at hflag
      rw [Bool.eq_iff_iff, hmarked, hflag]
      simp [hoff, habove]


/-! ### A run of one commit

A node of one authority, with GC at depth one, accepts a block of round 1 and commits
it as leader; with the V2 linearizer the commit marks the block as committed, with V1
it does not. -/

def oneNodeV2 : DagContext := ⟨1, 0, 1, 10, true⟩

def oneNodeV1 : DagContext := ⟨1, 0, 1, 10, false⟩

def leaderOne : VerifiedBlock := ⟨1, 0, 1, 0, [], by simp⟩

def commitOne : List NodeOp := [.acceptBlocks 0 [leaderOne], .handleCommit [(leaderOne, [], 5)] []]

theorem commitOne_steps (context : DagContext) (hctx : context = oneNodeV2 ∨ context = oneNodeV1) :
    ∃ s₀ s₁, DagCommitState.new context ConsensusStore.empty = .ok s₀ ∧
      nodeStep s₀ (.acceptBlocks 0 [leaderOne]) = .ok (s₁, []) ∧ NodeGiven s₀ (.acceptBlocks 0 [leaderOne]) ∧
      NodeGiven s₁ (.handleCommit [(leaderOne, [], 5)] []) ∧
      ∃ s₂ ev, nodeStep s₁ (.handleCommit [(leaderOne, [], 5)] []) = .ok (s₂, ev) ∧ ev.length = 1 ∧
        (s₂.recentBlocks.lookup leaderOne.reference).map (·.committed) = some context.linearizeSubdagV2 ∧
        s₂.context = context ∧ s₂.gcRound = 0 ∧ s₂.lastCommitIndex = 1 ∧ leaderOne ∈ s₂.store.blocks ∧
        leaderOne.reference ∈ committedRefs s₂.store.commits := by
  rcases hctx with rfl | rfl
  all_goals
    refine ⟨_, _, rfl, rfl, ?_, ?_, ?_⟩
    · change ∀ b ∈ _, _
      decide
    · exact ⟨⟨by decide, by decide, by decide, by decide⟩, fun _ _ _ _ _ _ _ => trivial⟩
    · -- the sort of a one-block sub-dag, which the kernel does not unfold
      simp only [nodeStep, Linearizer.handleCommit, Linearizer.handleCommitLoop, Linearizer.collectSubDagAndCommit,
        Linearizer.linearizeSubDag, sortSubDagBlocks_singleton]
      exact ⟨_, _, rfl, rfl, rfl, rfl, rfl, rfl, by decide, by decide⟩

theorem new_after_nodeRun_commitOne :
    ∃ s₀ s events, DagCommitState.new oneNodeV2 ConsensusStore.empty = .ok s₀ ∧
      RunGiven nodeStep NodeGiven s₀ commitOne ∧ nodeRun s₀ commitOne = .ok (s, events) ∧
      ∃ s', DagCommitState.new s.context s.store = .ok s' ∧
      s'.lastCommittedRounds = maxRoundOf (committedRefs s.store.commits) ∧
      s'.lastCommittedRounds = s.lastCommittedRounds ∧
      s'.lastCommit = s.store.readLastCommit ∧ s'.lastCommit = s.lastCommit ∧
      (s'.gcEnabled = true → ∀ r info, s'.recentBlocks.lookup r = some info →
        (info.committed = true ↔ s'.gcRound < r.round ∧ r ∈ committedRefs s.store.commits)) ∧
      (s.context.linearizeSubdagV2 = true → ∀ r info info', s.recentBlocks.lookup r = some info →
        s'.recentBlocks.lookup r = some info' → s'.gcRound < r.round → info'.committed = info.committed) := by
  obtain ⟨s₀, s₁, h₀, h₁, hg₀, hg₁, s₂, ev, h₂, -⟩ := commitOne_steps oneNodeV2 (.inl rfl)
  have hgiven : RunGiven nodeStep NodeGiven s₀ commitOne :=
    runGiven_cons_of_eq hg₀ h₁ (runGiven_cons_of_eq hg₁ h₂ trivial)
  have hrun : nodeRun s₀ commitOne = .ok (s₂, [] ++ (ev ++ [])) :=
    runSteps_cons_eq_ok.mpr ⟨s₁, [], _, h₁, runSteps_cons_eq_ok.mpr ⟨s₂, ev, [], h₂, rfl, rfl⟩, rfl⟩
  exact ⟨s₀, s₂, _, h₀, hgiven, hrun, new_after_nodeRun h₀ hgiven hrun⟩

/-- With the V1 linearizer and GC, a commit leaves its blocks unmarked, while
`DagState::new` after a restart marks the committed blocks above the GC round. -/
theorem new_after_nodeRun_v1_marks_committed :
    ∃ s₀ s events s' info info', DagCommitState.new oneNodeV1 ConsensusStore.empty = .ok s₀ ∧
      RunGiven nodeStep NodeGiven s₀ commitOne ∧ nodeRun s₀ commitOne = .ok (s, events) ∧
      DagCommitState.new s.context s.store = .ok s' ∧
      s.recentBlocks.lookup leaderOne.reference = some info ∧ s'.recentBlocks.lookup leaderOne.reference = some info' ∧
      s'.gcRound < leaderOne.round ∧ info.committed = false ∧ info'.committed = true := by
  obtain ⟨s₀, s₁, h₀, h₁, hg₀, hg₁, s₂, ev, h₂, -, hflag, hctx, hgcRound, -, hblock, hcommitted⟩ :=
    commitOne_steps oneNodeV1 (.inr rfl)
  have hgiven : RunGiven nodeStep NodeGiven s₀ commitOne :=
    runGiven_cons_of_eq hg₀ h₁ (runGiven_cons_of_eq hg₁ h₂ trivial)
  have hrun : nodeRun s₀ commitOne = .ok (s₂, [] ++ (ev ++ [])) :=
    runSteps_cons_eq_ok.mpr ⟨s₁, [], _, h₁, runSteps_cons_eq_ok.mpr ⟨s₂, ev, [], h₂, rfl, rfl⟩, rfl⟩
  have hinv := (nodeInv_new_empty h₀).nodeRun hgiven hrun
  obtain ⟨info, hinfo, hoff⟩ := Option.map_eq_some_iff.mp hflag
  obtain ⟨s', hnew, hrec⟩ := new_eq_ok hinv.dagInv.stored
  have hgc : s'.gcEnabled = true := by
    rw [gcEnabled_eq_of_context hrec.context_eq, gcEnabled, hctx]
    rfl
  have hround : s'.gcRound < leaderOne.round := by
    rw [gcRound_eq_of hrec.context_eq (hrec.lastCommit_eq.trans hinv.lastCommit_eq.symm), hgcRound]
    decide
  obtain ⟨info', hinfo'⟩ := Option.isSome_iff_exists.mp (hrec.loaded hgc leaderOne hblock hround)
  exact ⟨s₀, s₂, _, s', info, info', h₀, hgiven, hrun, hnew, hinfo, hinfo', hround, hoff,
    (hrec.committed _ _ hinfo').mpr ⟨hgc, hround, hcommitted⟩⟩

/-! ### The consumer across restarts -/

/-- The same sub-dag but for the reputation scores: the same leader, blocks in the
same order, timestamp and commit. -/
def SameSubDag (subDag subDag' : CommittedSubDag) : Prop :=
  subDag.leader = subDag'.leader ∧ subDag.blocks = subDag'.blocks ∧ subDag.timestampMs = subDag'.timestampMs ∧
    subDag.commitRef = subDag'.commitRef

theorem LoadsAs.same {store : ConsensusStore} {c : TrustedCommit} {subDag subDag' : CommittedSubDag}
    (h : LoadsAs store c subDag) (h' : LoadsAs store c subDag') : SameSubDag subDag subDag' :=
  ⟨h.1.trans h'.1.symm, h.2.1.trans h'.2.1.symm, h.2.2.1.trans h'.2.2.1.symm, h.2.2.2.trans h'.2.2.2.symm⟩

/-- What the consumer has been handed when the node is at `s`: the sub-dags follow on,
the last one is of the node's last commit, each stored commit was handed over by
`handle_commit` with the sub-dag it reads back as, each sub-dag re-sent after a
restart is, but for the scores, one handed over before, and the index a restart
reports had been handed over. -/
structure Delivered (s : DagCommitState) (events : List NodeEvent) : Prop where
  follows : FollowsOn 0 events
  last : lastDelivered 0 events = s.lastCommitIndex
  committed : ∀ c ∈ s.store.commits, ∃ subDag, NodeEvent.committed c subDag ∈ events ∧ LoadsAs s.store c subDag
  resent : ∀ pre subDag post, events = pre ++ NodeEvent.recovered subDag :: post →
    ∃ c subDag', NodeEvent.committed c subDag' ∈ pre ∧ SameSubDag subDag' subDag
  restarts : ∀ pre L post, events = pre ++ NodeEvent.restarted L :: post → L ≤ lastDelivered 0 pre

theorem Delivered.of_store {events : List NodeEvent} (hdel : Delivered s events) (hinv : NodeInv s)
    (hcommits : s'.store.commits = s.store.commits) (hblocks : ∃ more, s'.store.blocks = s.store.blocks ++ more)
    (hlast : s'.lastCommit = s.lastCommit) : Delivered s' events := by
  obtain ⟨more, hmore⟩ := hblocks
  refine ⟨hdel.follows, by rw [lastCommitIndex_eq_of hlast]; exact hdel.last, fun c hc => ?_, hdel.resent,
    hdel.restarts⟩
  rw [hcommits] at hc
  obtain ⟨subDag, hmem, hloads⟩ := hdel.committed c hc
  exact ⟨subDag, hmem, hloads.of_blocks_append hmore fun r hr =>
    hinv.dagInv.stored.commit_blocks r (mem_committedRefs.mpr ⟨c, hc, hr⟩)⟩

theorem Delivered.handleCommit {leaders : List (VerifiedBlock × List VerifiedBlock × ℕ)} {scores : List (ℕ × ℕ)}
    {produced : List (TrustedCommit × CommittedSubDag)} {events : List NodeEvent} (hinv : NodeInv s)
    (hdel : Delivered s events) (hgiven : LeadersGiven s leaders)
    (h : Linearizer.handleCommit s leaders scores = .ok (s', produced)) :
    Delivered s' (events ++ produced.map fun p => .committed p.1 p.2) := by
  obtain ⟨hinv', -, hcommits, ⟨more, hmore⟩, hloads⟩ := hinv.handleCommit hgiven h
  -- the new commits take the indices after the stored ones
  have hcons : Consecutive (fun p : TrustedCommit × CommittedSubDag => p.1.index) (s.store.commits.length + 1) produced := by
    have hidx := hinv'.dagInv.stored.indices
    rw [hcommits] at hidx
    have hsuffix := hidx.of_append_right
    rw [Consecutive, List.map_map, List.length_map, Nat.add_comm] at hsuffix
    exact hsuffix
  obtain ⟨hfollows, hlastDelivered⟩ := followsOn_map (fun p => NodeEvent.committed p.1 p.2)
    (fun p hp k => by rw [NodeEvent.FollowsFrom, (hloads p hp).2.2.2]; rfl)
    (fun p hp => by rw [NodeEvent.index, (hloads p hp).2.2.2]; rfl) hcons
  refine ⟨(followsOn_append _ _ _).mpr ⟨hdel.follows, by rw [hdel.last, hinv.lastCommitIndex_eq]; exact hfollows⟩,
    ?_, fun c hc => ?_, fun pre subDag post heq => ?_, fun pre L post heq => ?_⟩
  · rw [lastDelivered_append, hdel.last, hinv.lastCommitIndex_eq, hlastDelivered, hinv'.lastCommitIndex_eq, hcommits,
      List.length_append, List.length_map]
  · rw [hcommits, List.mem_append] at hc
    rcases hc with hc | hc
    · obtain ⟨subDag, hmem, hload⟩ := hdel.committed c hc
      exact ⟨subDag, List.mem_append_left _ hmem, hload.of_blocks_append hmore fun r hr =>
        hinv.dagInv.stored.commit_blocks r (mem_committedRefs.mpr ⟨c, hc, hr⟩)⟩
    · obtain ⟨p, hp, rfl⟩ := List.mem_map.mp hc
      exact ⟨p.2, List.mem_append_right _ (List.mem_map.mpr ⟨p, hp, rfl⟩), hloads p hp⟩
  -- `handle_commit` re-sends nothing and reports no restart
  · obtain ⟨post', hpre⟩ := exists_eq_append_cons_of_append_eq heq (by simp)
    exact hdel.resent pre subDag post' hpre
  · obtain ⟨post', hpre⟩ := exists_eq_append_cons_of_append_eq heq (by simp)
    exact hdel.restarts pre L post' hpre

theorem Delivered.restart {L : ℕ} {scores : List (ℕ × ℕ)} {sent : List CommittedSubDag} {events : List NodeEvent}
    (hinv : NodeInv s) (hdel : Delivered s events) (hL : L ≤ s.lastCommitIndex)
    (hnew : DagCommitState.new s.context s.store = .ok s')
    (hsent : CommitObserver.recoverAndSendCommits s.store L scores = .ok sent) :
    Delivered s' (events ++ .restarted L :: sent.map .recovered) := by
  obtain ⟨-, hrec⟩ := hinv.restart hnew
  rw [hinv.lastCommitIndex_eq] at hL
  obtain ⟨sent', hsent', hall⟩ := CommitObserver.recoverAndSendCommits_eq_ok hinv.dagInv.stored hL scores
  rw [hsent] at hsent'
  cases hsent'
  -- the re-sent sub-dags take the indices after the one the consumer reports
  have hcons : Consecutive (·.commitRef.index) (L + 1) sent := by
    rw [Consecutive, map_index_of_forall₂ hall, ← hall.length_eq, Nat.add_comm]
    exact hinv.dagInv.stored.indices.drop L hL
  obtain ⟨hfollows, hlastDelivered⟩ := followsOn_map NodeEvent.recovered (fun _ _ _ => Iff.rfl)
    (fun _ _ => rfl) hcons
  have hlast : s'.lastCommitIndex = s.store.commits.length := by
    rw [lastCommitIndex_eq_of (hrec.lastCommit_eq.trans hinv.lastCommit_eq.symm), hinv.lastCommitIndex_eq]
  refine ⟨(followsOn_append _ _ _).mpr ⟨hdel.follows, trivial, hfollows⟩, ?_, fun c hc => ?_,
    fun pre subDag post heq => ?_, fun pre L' post heq => ?_⟩
  · rw [lastDelivered_append, lastDelivered, NodeEvent.index, hlastDelivered, hlast, ← hall.length_eq,
      List.length_drop]
    omega
  · rw [hrec.store_eq] at hc ⊢
    obtain ⟨subDag, hmem, hload⟩ := hdel.committed c hc
    exact ⟨subDag, List.mem_append_left _ hmem, hload⟩
  · rcases append_eq_append_cons_cases heq with ⟨post', hpre⟩ | ⟨c', rfl, hrest⟩
    · exact hdel.resent pre subDag post' hpre
    · -- re-sent by this restart: a commit after the reported one, handed over before
      have hmem : NodeEvent.recovered subDag ∈ NodeEvent.restarted L :: sent.map NodeEvent.recovered := by
        rw [hrest]
        exact List.mem_append_right _ List.mem_cons_self
      rcases List.mem_cons.mp hmem with hmem | hmem
      · cases hmem
      obtain ⟨subDag', hsubDag', heq'⟩ := List.mem_map.mp hmem
      cases heq'
      obtain ⟨c, hc, hload⟩ := exists_of_mem_of_forall₂ hall hsubDag'
      obtain ⟨subDag'', hmem'', hload''⟩ := hdel.committed c (List.mem_of_mem_drop hc)
      exact ⟨c, subDag'', List.mem_append_left _ hmem'', LoadsAs.same hload'' hload⟩
  · rcases append_eq_append_cons_cases heq with ⟨post', hpre⟩ | ⟨c', rfl, hrest⟩
    · exact hdel.restarts pre L' post' hpre
    · cases c' with
      | nil =>
        -- this restart: the reported index had been handed over
        obtain ⟨hL', -⟩ := List.cons.inj hrest
        cases hL'
        rw [List.append_nil, hdel.last, hinv.lastCommitIndex_eq]
        exact hL
      | cons e c' =>
        have hmem : NodeEvent.restarted L' ∈ sent.map NodeEvent.recovered := by
          rw [(List.cons.inj hrest).2]
          exact List.mem_append_right _ List.mem_cons_self
        simp at hmem

theorem delivered_new_empty {context : DagContext} (h : new context ConsensusStore.empty = .ok s) : Delivered s [] := by
  obtain ⟨s', hnew, hrec⟩ := new_eq_ok (storeInv_empty context.numAuthorities)
  rw [hnew] at h
  cases h
  refine ⟨trivial, ?_, fun c hc => ?_, fun pre subDag post heq => ?_, fun pre L post heq => ?_⟩
  · rw [lastDelivered, lastCommitIndex, hrec.lastCommit_eq]
    rfl
  · rw [hrec.store_eq] at hc
    exact absurd hc List.not_mem_nil
  · exact absurd heq.symm (by simp)
  · exact absurd heq.symm (by simp)

theorem Delivered.nodeStep {op : NodeOp} {E events : List NodeEvent} (hinv : NodeInv s) (hdel : Delivered s E)
    (hgiven : NodeGiven s op) (h : Consensus.nodeStep s op = .ok (s', events)) : Delivered s' (E ++ events) := by
  cases op with
  | acceptBlocks nowMs blocks =>
    simp only [Consensus.nodeStep] at h
    obtain ⟨d, hd, h⟩ := except_bind_eq_ok.mp h
    obtain ⟨rfl, rfl⟩ := Prod.mk.inj (except_pure_eq_ok.mp h).symm
    obtain ⟨-, hstore, -, hlast⟩ := hinv.acceptBlocks hgiven hd
    rw [List.append_nil]
    exact hdel.of_store hinv (by rw [hstore]) ⟨[], by rw [hstore, List.append_nil]⟩ hlast
  | handleCommit leaders scores =>
    obtain ⟨produced, h₁, rfl⟩ := nodeStep_handleCommit_eq_ok h
    exact hdel.handleCommit hinv hgiven h₁
  | addCommitInfo =>
    simp only [Consensus.nodeStep] at h
    obtain ⟨d, hd, h⟩ := except_bind_eq_ok.mp h
    obtain ⟨rfl, rfl⟩ := Prod.mk.inj (except_pure_eq_ok.mp h).symm
    obtain ⟨-, hstore, -, hlast⟩ := hinv.addCommitInfo hd
    rw [List.append_nil]
    exact hdel.of_store hinv (by rw [hstore]) ⟨[], by rw [hstore, List.append_nil]⟩ hlast
  | flush =>
    obtain ⟨rfl, rfl⟩ := Prod.mk.inj (Except.ok.inj h).symm
    obtain ⟨-, -, hlast, hcommits, hblocks⟩ := hinv.flush
    rw [List.append_nil]
    exact hdel.of_store hinv hcommits hblocks hlast
  | restart L scores =>
    obtain ⟨sent, h₁, h₂, rfl⟩ := nodeStep_restart_eq_ok h
    exact hdel.restart hinv hgiven h₁ h₂

/-- Commit output survives restarts: over every run of a node started on an empty
store, with crashes anywhere, the consumer gets each sub-dag with the index after the
last one it has, from the index it reports after a restart on; and every sub-dag
recovery re-sends has the leader, the blocks in order, the timestamp and the commit of
the one `handle_commit` handed over before for that commit. -/
theorem nodeRun_delivers {context : DagContext} {s₀ : DagCommitState} {ops : List NodeOp}
    {events : List NodeEvent} (hnew : DagCommitState.new context ConsensusStore.empty = .ok s₀)
    (hgiven : RunGiven nodeStep NodeGiven s₀ ops) (hrun : nodeRun s₀ ops = .ok (s, events)) :
    FollowsOn 0 events ∧ (∀ pre L post, events = pre ++ NodeEvent.restarted L :: post → L ≤ lastDelivered 0 pre) ∧
      ∀ pre subDag post, events = pre ++ NodeEvent.recovered subDag :: post →
        ∃ c subDag', NodeEvent.committed c subDag' ∈ pre ∧ SameSubDag subDag' subDag := by
  -- the node's invariant and what the consumer has are carried along the run together
  have hboth : NodeInv s ∧ Delivered s ([] ++ events) :=
    runSteps_induction (I := fun s E => NodeInv s ∧ Delivered s E)
      (fun _ _ _ _ _ hI hg h => ⟨hI.1.nodeStep hg h, hI.2.nodeStep hI.1 hg h⟩)
      ⟨nodeInv_new_empty hnew, delivered_new_empty hnew⟩ hgiven hrun
  exact ⟨hboth.2.follows, hboth.2.restarts, hboth.2.resent⟩

theorem nodeRun_delivers_restartAfterCommit :
    ∃ s₀ s events, DagCommitState.new oneNodeV2 ConsensusStore.empty = .ok s₀ ∧
      RunGiven nodeStep NodeGiven s₀ (commitOne ++ [.restart 0 []]) ∧
      nodeRun s₀ (commitOne ++ [.restart 0 []]) = .ok (s, events) ∧ events.length = 3 ∧
      FollowsOn 0 events ∧ (∀ pre L post, events = pre ++ NodeEvent.restarted L :: post → L ≤ lastDelivered 0 pre) ∧
      ∀ pre subDag post, events = pre ++ NodeEvent.recovered subDag :: post →
        ∃ c subDag', NodeEvent.committed c subDag' ∈ pre ∧ SameSubDag subDag' subDag := by
  obtain ⟨s₀, s₁, h₀, h₁, hg₀, hg₁, s₂, ev, h₂, hev, -, -, -, hlast, -⟩ := commitOne_steps oneNodeV2 (.inl rfl)
  have hinv₂ := ((nodeInv_new_empty h₀).nodeStep hg₀ h₁).nodeStep hg₁ h₂
  obtain ⟨s₃, sent, h₃, -, hall⟩ := hinv₂.restart_succeeds (Nat.zero_le s₂.lastCommitIndex) []
  have hgiven : RunGiven nodeStep NodeGiven s₀ (commitOne ++ [.restart 0 []]) :=
    runGiven_cons_of_eq hg₀ h₁ (runGiven_cons_of_eq hg₁ h₂ (runGiven_cons_of_eq (Nat.zero_le _) h₃ trivial))
  have hrun : nodeRun s₀ (commitOne ++ [.restart 0 []]) =
      .ok (s₃, [] ++ (ev ++ ((.restarted 0 :: sent.map .recovered) ++ []))) :=
    runSteps_cons_eq_ok.mpr ⟨s₁, [], _, h₁, runSteps_cons_eq_ok.mpr ⟨s₂, ev, _, h₂,
      runSteps_cons_eq_ok.mpr ⟨s₃, _, [], h₃, rfl, rfl⟩, rfl⟩, rfl⟩
  have hsent : sent.length = 1 := by
    rw [← hall.length_eq, List.drop_zero, ← hinv₂.lastCommitIndex_eq, hlast]
  refine ⟨s₀, s₃, _, h₀, hgiven, hrun, ?_, nodeRun_delivers h₀ hgiven hrun⟩
  simp [hev, hsent]

end Iota.Consensus
